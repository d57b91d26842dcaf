import Modelnet.Lib.Outcome
import Modelnet.FreeBSD.RemotePacket

/-!
# The loop of `remote_input` over a datagram

The variables of the loop that concern the datagram itself: the chain `m`, given away with the
first record that is not cached, and the counter `once`. The test against the size of a record
compares an unsigned difference with 0 and is never true, so it is not in the model: a record is
copied whatever is left.
-/

namespace Modelnet.FreeBSD

open Modelnet

/-- Why the kernel stops. -/
inductive Fault where
  /-- an access through a null, dangling or wild pointer, a division by 0, or a panic -/
  | memory
  /-- `m_copydata` runs past the end of the chain -/
  | copyPastEnd
  /-- the condition of the loop of `remote_input` reads the length of a null chain -/
  | nullChain
  /-- `MN_FREE_PKT` on a packet that is still on `mc_pcache` -/
  | freeCached (p : Addr)
  /-- `MN_UNCACHE_PKT` on a packet that is not on `mc_pcache` -/
  | uncacheAbsent (p : Addr)
  deriving DecidableEq, Repr

/-- The chain that is left and the counter. -/
structure Cursor where
  m : Option (List Byte)
  once : ℕ
  deriving DecidableEq, Repr

namespace Cursor

/-- The cursor on the payload of a datagram. -/
def start (payload : List Byte) : Cursor := ⟨some payload, 1⟩

/-- What the loop does next. -/
inductive Test where
  | exit
  | tooMany
  | body
  deriving DecidableEq, Repr

/-- The condition of the loop, and the test of the counter. -/
def test (c : Cursor) : Except Fault Test :=
  match c.m with
  | none => .error .nullChain
  | some bs =>
    if bs = [] ∨ c.once = 0 then .ok .exit else if 46 < c.once then .ok .tooMany else .ok .body

/-- A record taken from the chain, with what it carries when it is not cached. -/
structure Taken where
  info : RemotePacket
  m : Option (List Byte)
  cursor : Cursor

/-- From `once++` to the branch on `MC_PKT_PCACHED`. -/
def take (c : Cursor) : Except Fault Taken :=
  match c.m with
  | none => .error .nullChain
  | some bs =>
    if bs.length < remotePacketSize then .error .copyPastEnd
    else
      let info := RemotePacket.decode bs
      let rest := bs.drop remotePacketSize
      if info.id ≠ 0 then .ok ⟨info, none, ⟨some rest, c.once + 1⟩⟩
      else .ok ⟨info, some rest, ⟨none, 0⟩⟩

/-- The records of a datagram on which nothing else goes wrong, in at most `n` turns of the loop,
with the test that ended it. -/
def records : ℕ → Cursor → Except Fault (List RemotePacket × Test)
  | 0, _ => .ok ([], .body)
  | n + 1, c => do
    match ← c.test with
    | .body =>
      let t ← c.take
      let r ← t.cursor.records n
      return (t.info :: r.1, r.2)
    | t => return ([], t)

/-- The records that the loop decodes from a payload. The counter ends it after 46 turns. -/
def recordsOf (payload : List Byte) : Except Fault (List RemotePacket × Test) :=
  (start payload).records 47

theorem records_body {c : Cursor} {t : Taken} {n : ℕ} {r : List RemotePacket × Test}
    (htest : c.test = .ok .body) (htake : c.take = .ok t) (hrec : t.cursor.records n = .ok r) :
    c.records (n + 1) = .ok (t.info :: r.1, r.2) := by
  unfold records
  rw [htest]
  show (c.take >>= fun t => t.cursor.records n >>= fun r => .ok (t.info :: r.1, r.2)) = _
  rw [htake]
  show (t.cursor.records n >>= fun r => .ok (t.info :: r.1, r.2)) = _
  rw [hrec]
  rfl

theorem records_encodeAll {l : List RemotePacket} (hid : ∀ r ∈ l, r.id ≠ 0) {n once : ℕ}
    (honce : 0 < once) (hlen : l.length + once ≤ 47) (hn : l.length < n) :
    records n ⟨some (RemotePacket.codec.encodeAll l), once⟩ = .ok (l, .exit) := by
  induction l generalizing n once with
  | nil =>
    obtain ⟨n, rfl⟩ := Nat.exists_eq_succ_of_ne_zero (Nat.ne_of_gt hn)
    rfl
  | cons r l ih =>
    obtain ⟨n, rfl⟩ := Nat.exists_eq_succ_of_ne_zero (Nat.ne_of_gt (Nat.zero_lt_of_lt hn))
    rw [List.length_cons] at hlen hn
    have hchain := RemotePacket.codec.encodeAll_cons r l
    have hsize : ¬ (RemotePacket.codec.encodeAll (r :: l)).length < remotePacketSize := by
      rw [FixedCodec.length_encodeAll, List.length_cons]
      show ¬ (l.length + 1) * remotePacketSize < remotePacketSize
      rw [Nat.succ_mul]
      omega
    have htest : test ⟨some (RemotePacket.codec.encodeAll (r :: l)), once⟩ = .ok .body := by
      unfold test
      dsimp only
      have hne : RemotePacket.codec.encodeAll (r :: l) ≠ [] := by
        intro h
        rw [h] at hsize
        exact hsize (by decide)
      rw [if_neg (not_or.mpr ⟨hne, Nat.ne_of_gt honce⟩), if_neg (by omega)]
    have htake : take ⟨some (RemotePacket.codec.encodeAll (r :: l)), once⟩ =
        .ok ⟨r, none, ⟨some (RemotePacket.codec.encodeAll l), once + 1⟩⟩ := by
      have hdecode : RemotePacket.decode (RemotePacket.codec.encodeAll (r :: l)) = r := by
        rw [hchain]
        exact RemotePacket.decode_encode_append r _
      have hrest : (RemotePacket.codec.encodeAll (r :: l)).drop remotePacketSize =
          RemotePacket.codec.encodeAll l := by
        rw [hchain]
        exact RemotePacket.codec.drop_encode_append r _
      unfold take
      dsimp only
      rw [if_neg hsize, hdecode, hrest, if_pos (hid r List.mem_cons_self)]
    exact records_body htest htake (ih (fun r' hr' => hid r' (List.mem_cons_of_mem r hr'))
      (Nat.succ_pos once) (by omega) (by omega))

/-- **Round trip.** Up to 46 cached records are decoded, and the loop leaves at their end. -/
theorem recordsOf_encodeAll {l : List RemotePacket} (hid : ∀ r ∈ l, r.id ≠ 0)
    (hlen : l.length ≤ 46) :
    recordsOf (RemotePacket.codec.encodeAll l) = .ok (l, .exit) :=
  records_encodeAll hid (by decide) (by omega) (by omega)

end Cursor

end Modelnet.FreeBSD
