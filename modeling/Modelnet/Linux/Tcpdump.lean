import Modelnet.Lib.ByteMemory
import Modelnet.Lib.Run
import Mathlib.Data.Int.Notation
import Mathlib.Algebra.Group.Int.Defs
import Mathlib.Algebra.Group.Nat.Defs

/-!
# Packet traces

`mn_tcpdump.c`: records of the packets on traced links are written into `tcpdump_storebuf` and
read from `tcpdump_holdbuf`. The two buffers change places when the reader has finished one, and
either the other is full or a second has gone by. The machine is little-endian, with longs of `w`
bytes.
-/

namespace Modelnet.Linux

def tcpdumpBufSize : ℕ := 524288

/-- The `n` bytes of an unsigned number, the lowest first. -/
def leBytes : ℕ → ℕ → List UInt8
  | 0, _ => []
  | n + 1, v => UInt8.ofNat v :: leBytes n (v / 256)

theorem length_leBytes (n v : ℕ) : (leBytes n v).length = n := by
  induction n generalizing v with
  | zero => rfl
  | succ n ih => rw [leBytes, List.length_cons, ih]

/-- `struct mn_tcpdump_hdr`. -/
structure MnTcpdumpHdr where
  tvSec : ℕ
  tvUsec : ℕ
  linkId : ℕ
  packetLength : ℕ
  captureLength : ℕ

/-- The fields of the header as they lie in memory. -/
def MnTcpdumpHdr.fields (w : ℕ) (h : MnTcpdumpHdr) : List UInt8 :=
  leBytes w h.tvSec ++ leBytes w h.tvUsec ++ leBytes 4 h.linkId ++ leBytes 4 h.packetLength ++
    leBytes 4 h.captureLength

def hdrPad (w : ℕ) : ℕ := (w - 12 % w) % w

def hdrSize (w : ℕ) : ℕ := w + w + 4 + 4 + 4 + hdrPad w

theorem MnTcpdumpHdr.length_fields (w : ℕ) (h : MnTcpdumpHdr) :
    (h.fields w).length + hdrPad w = hdrSize w := by
  simp only [fields, List.length_append, length_leBytes, hdrSize]

structure Tcpdump where
  tickCounter : ℕ
  holdbuf : ByteMemory
  storebuf : ByteMemory
  holdbufLen : ℕ
  storebufLen : ℕ
  /-- An `int`, which holds the count as long as fewer than `2 ^ 31` records are refused. -/
  dropcount : ℕ
  capturelength : ℕ

/-- What `handle_tcpdump` reads of a packet and of its hop: the bytes of the buffer from the IP
header on, and the clock. -/
structure Traced where
  skb : Option (List UInt8)
  traceLink : Bool
  linkId : ℕ
  tvSec : ℕ
  tvUsec : ℕ
  willdropPlr : Bool
  willdropBw : Bool

namespace Tcpdump

/-- `ROTATE_TCPDUMP_BUFFERS`. -/
def rotate (d : Tcpdump) : Tcpdump :=
  { d with
    holdbuf := d.storebuf
    holdbufLen := d.storebufLen
    storebuf := d.holdbuf
    storebufLen := 0 }

/-- `init_mn_tcpdump_buffers`, when both buffers are allocated. -/
def init (holdbuf storebuf : ByteMemory) (capturelength : ℕ) : Tcpdump where
  tickCounter := 0
  holdbuf := holdbuf
  storebuf := storebuf
  holdbufLen := 0
  storebufLen := 0
  dropcount := 0
  capturelength := capturelength

def handleInactivity (d : Tcpdump) : Tcpdump :=
  let d := { d with tickCounter := 0 }
  if d.holdbufLen = 0 ∧ d.storebufLen ≠ 0 then d.rotate else d

/-- The lines of `hopclock` about packet traces. -/
def tick (hz : ℕ) (d : Tcpdump) : Tcpdump :=
  let d := { d with tickCounter := d.tickCounter + 1 }
  if hz ≤ d.tickCounter then d.handleInactivity else d

/-- `mn_hdr->captureLength`. -/
def captured (d : Tcpdump) (packetLen : ℕ) : ℕ :=
  if d.capturelength = 0 then packetLen else min packetLen d.capturelength

/-- `iph->tos`, the outcome of the crossing. -/
def tosOf (p : Traced) : UInt8 := if p.willdropPlr then 1 else if p.willdropBw then 2 else 0

/-- The writes through `iph` to the header at `at_`: the force bits of both addresses are cleared,
and the outcome of the crossing is noted. -/
def stampIph (m : ByteMemory) (at_ : ℕ) (tos : UInt8) : ByteMemory :=
  let m := Function.update m (at_ + 13) (m (at_ + 13) &&& 0x7f)
  let m := Function.update m (at_ + 17) (m (at_ + 17) &&& 0x7f)
  Function.update m (at_ + 1) tos

/-- The writes of `handle_tcpdump` once there is room. -/
def store (w : ℕ) (d : Tcpdump) (p : Traced) (data : List UInt8) : Tcpdump :=
  let m := d.storebuf.write d.storebufLen (List.replicate (hdrSize w) 0)
  let hdr : MnTcpdumpHdr := ⟨p.tvSec, p.tvUsec, p.linkId, data.length, d.captured data.length⟩
  let m := m.write d.storebufLen (hdr.fields w)
  let base := d.storebufLen + hdrSize w
  let m := m.write base (data.take hdr.captureLength)
  { d with
    storebuf := stampIph m base (tosOf p)
    storebufLen := base + hdr.captureLength }

def handleTcpdump (w : ℕ) (d : Tcpdump) (p : Traced) : Tcpdump :=
  if ¬ p.traceLink then d
  else
    match p.skb with
    | none => d
    | some data =>
      if tcpdumpBufSize ≤ d.storebufLen + data.length + hdrSize w then
        if d.holdbufLen = 0 then
          let d := { d with tickCounter := 0 }
          d.rotate.store w p data
        else { d with dropcount := d.dropcount + 1 }
      else d.store w p data

/-- A call of `proc_read_dumps`: `lenp` and `ppos` are the values it is given, and `notCopied` is
how much `copy_to_user` leaves. -/
structure ReadDumps where
  write : Bool
  lenp : ℕ
  notCopied : ℕ

/-- What the reader gets: the bytes, `*lenp`, `*ppos` and the error. -/
structure ReadResult where
  bytes : List UInt8
  lenp : ℕ
  ppos : ℕ
  ret : ℤ

def einval : ℤ := -22

/-- `proc_read_dumps`. A call that waits is made when there is something to read, or it is
interrupted. -/
def procReadDumps (d : Tcpdump) (ppos : ℕ) (r : ReadDumps) : Tcpdump × ReadResult :=
  if r.write then (d, ⟨[], 0, ppos, einval⟩)
  else if d.holdbufLen ≤ ppos ∧ d.holdbufLen ≠ 0 then (d, ⟨[], 0, ppos, 0⟩)
  else if d.holdbufLen = 0 then (d, ⟨[], r.lenp, ppos, einval⟩)
  else
    let copyAmount := min (d.holdbufLen - ppos) (r.lenp % 2 ^ 32)
    let copied := copyAmount - min r.notCopied copyAmount
    let bytes := d.holdbuf.read ppos copied
    if d.holdbufLen ≤ ppos + copied then ({ d with holdbufLen := 0 }, ⟨bytes, copied, 0, 0⟩)
    else (d, ⟨bytes, copied, ppos + copied, 0⟩)

end Tcpdump

/-! ## The record of a packet -/

/-- The edits to the IP header of a captured packet. -/
def stampData (tos : UInt8) (data : List UInt8) : List UInt8 :=
  ((data.modify 13 (· &&& 0x7f)).modify 17 (· &&& 0x7f)).set 1 tos

/-- The record of a packet, when the first `captured` bytes of it are kept. -/
def recordOf (w : ℕ) (p : Traced) (data : List UInt8) (captured : ℕ) : List UInt8 :=
  (MnTcpdumpHdr.mk p.tvSec p.tvUsec p.linkId data.length captured).fields w ++
    List.replicate (hdrPad w) 0 ++ stampData (Tcpdump.tosOf p) (data.take captured)

namespace Tcpdump

/-- What has been stored and not been moved to the hold buffer. -/
def stored (d : Tcpdump) : List UInt8 := d.storebuf.read 0 d.storebufLen

/-- What the reader at `ppos` has not read of the hold buffer. -/
def held (d : Tcpdump) (ppos : ℕ) : List UInt8 := d.holdbuf.read ppos (d.holdbufLen - ppos)

theorem read_stampIph (m : ByteMemory) (off n : ℕ) (tos : UInt8) :
    (stampIph m off tos).read off n = stampData tos (m.read off n) := by
  unfold stampIph stampData
  dsimp only
  rw [ByteMemory.read_update, ByteMemory.read_modify _ off n 17 (· &&& 0x7f),
    ByteMemory.read_modify _ off n 13 (· &&& 0x7f)]

/-- The edits through `iph` leave what lies before the header. -/
theorem read_stampIph_of_le (m : ByteMemory) {a off n : ℕ} (h : a + n ≤ off) (tos : UInt8) :
    (stampIph m off tos).read a n = m.read a n := by
  unfold stampIph
  dsimp only
  rw [ByteMemory.read_update_of_le _ (by omega), ByteMemory.read_update_of_le _ (by omega),
    ByteMemory.read_update_of_le _ (by omega)]

theorem captured_le (d : Tcpdump) (packetLen : ℕ) : d.captured packetLen ≤ packetLen := by
  unfold captured
  split_ifs
  · exact Nat.le_refl _
  · exact Nat.min_le_left _ _

/-- The header that `memset` and the assignments leave. -/
theorem read_hdr (w : ℕ) (m : ByteMemory) (off : ℕ) (h : MnTcpdumpHdr) :
    ((m.write off (List.replicate (hdrSize w) 0)).write off (h.fields w)).read off (hdrSize w) =
      h.fields w ++ List.replicate (hdrPad w) 0 := by
  have hzero := ByteMemory.read_write m off (List.replicate (hdrSize w) 0)
  rw [List.length_replicate, ← h.length_fields w] at hzero
  rw [← h.length_fields w, ← ByteMemory.read_append, ByteMemory.read_write,
    ByteMemory.read_write_of_ge _ (Nat.le_refl _), ← ByteMemory.drop_read, hzero]
  simp

/-- **Store.** The record of the packet is added to what is stored. -/
theorem stored_store (w : ℕ) (d : Tcpdump) (p : Traced) (data : List UInt8) :
    (d.store w p data).stored = d.stored ++ recordOf w p data (d.captured data.length) := by
  have htake : (data.take (d.captured data.length)).length = d.captured data.length :=
    List.length_take_of_le (d.captured_le data.length)
  unfold store stored recordOf
  dsimp only
  rw [← ByteMemory.read_append _ 0 (d.storebufLen + hdrSize w), ← ByteMemory.read_append _ 0
    d.storebufLen, Nat.zero_add, Nat.zero_add, List.append_assoc, List.append_assoc]
  congr 1
  · rw [read_stampIph_of_le _ (by omega), ByteMemory.read_write_of_le _ (by omega),
      ByteMemory.read_write_of_le _ (by omega), ByteMemory.read_write_of_le _ (by omega)]
  rw [← List.append_assoc (MnTcpdumpHdr.fields _ _)]
  congr 1
  · rw [read_stampIph_of_le _ (Nat.le_refl _), ByteMemory.read_write_of_le _ (Nat.le_refl _),
      read_hdr]
  · have hread : ∀ m : ByteMemory, (m.write (d.storebufLen + hdrSize w)
        (data.take (d.captured data.length))).read (d.storebufLen + hdrSize w)
          (d.captured data.length) = data.take (d.captured data.length) := by
      intro m
      have hself := ByteMemory.read_write m (d.storebufLen + hdrSize w)
        (data.take (d.captured data.length))
      rwa [htake] at hself
    rw [read_stampIph, hread]

end Tcpdump

/-! ## The capture -/

/-- The module, its reader, and what has happened so far. -/
structure Capture where
  dump : Tcpdump
  ppos : ℕ
  /-- The bytes that the reader has got. -/
  delivered : List UInt8
  /-- The records of the packets on traced links. -/
  offered : List (List UInt8)
  /-- The records that were accepted. -/
  accepted : List (List UInt8)

inductive DumpEvent where
  | packet (p : Traced)
  | tick
  | capturelength (n : ℕ)
  | read (r : Tcpdump.ReadDumps)

/-- There is room for the packet: in the store buffer, or in the other one. -/
def Tcpdump.HasRoom (w : ℕ) (d : Tcpdump) (packetLen : ℕ) : Prop :=
  d.storebufLen + packetLen + hdrSize w < tcpdumpBufSize ∨ d.holdbufLen = 0

instance (w : ℕ) (d : Tcpdump) (packetLen : ℕ) : Decidable (d.HasRoom w packetLen) :=
  inferInstanceAs (Decidable (_ ∨ _))

/-- The record that a packet offers. -/
def Traced.offer (w : ℕ) (p : Traced) (d : Tcpdump) : Option (List UInt8 × ℕ) :=
  if p.traceLink then p.skb.map fun data =>
    (recordOf w p data (d.captured data.length), data.length) else none

namespace Capture

def step (w hz : ℕ) (c : Capture) : DumpEvent → Capture
  | .packet p =>
    let c' := { c with dump := c.dump.handleTcpdump w p }
    match p.offer w c.dump with
    | none => c'
    | some (record, packetLen) =>
      { c' with
        offered := c.offered ++ [record]
        accepted := if c.dump.HasRoom w packetLen then c.accepted ++ [record] else c.accepted }
  | .tick => { c with dump := c.dump.tick hz }
  | .capturelength n => { c with dump := { c.dump with capturelength := n } }
  | .read r =>
    let out := c.dump.procReadDumps c.ppos r
    { c with dump := out.1, ppos := out.2.ppos, delivered := c.delivered ++ out.2.bytes }

def run (w hz : ℕ) (c : Capture) (es : List DumpEvent) : Capture := es.foldl (step w hz) c

def init (holdbuf storebuf : ByteMemory) (capturelength : ℕ) : Capture where
  dump := Tcpdump.init holdbuf storebuf capturelength
  ppos := 0
  delivered := []
  offered := []
  accepted := []

/-- The two buffers are a lossy queue of whole records. -/
structure IsLossyFifo (c : Capture) : Prop where
  contents : c.delivered ++ c.dump.held c.ppos ++ c.dump.stored = c.accepted.flatten
  sublist : c.accepted.Sublist c.offered
  dropcount : c.dump.dropcount + c.accepted.length = c.offered.length
  holdbufLen_le : c.dump.holdbufLen ≤ tcpdumpBufSize
  storebufLen_le : c.dump.storebufLen ≤ tcpdumpBufSize

/-- The invariant: the reader stands inside the hold buffer, or at its start when it is empty. -/
structure Sound (c : Capture) : Prop extends c.IsLossyFifo where
  inside : c.ppos < c.dump.holdbufLen ∨ c.ppos = 0 ∧ c.dump.holdbufLen = 0

end Capture

/-- The packet and its header fit into a buffer. -/
def DumpEvent.Fits (w : ℕ) : DumpEvent → Prop
  | .packet p => ∀ data, p.skb = some data → data.length + hdrSize w ≤ tcpdumpBufSize
  | _ => True

/-! ## The steps -/

namespace Tcpdump

variable {w hz : ℕ} {d : Tcpdump} {p : Traced} {data : List UInt8}

theorem held_of_empty (h : d.holdbufLen = 0) (ppos : ℕ) : d.held ppos = [] := by
  unfold held
  rw [h, Nat.zero_sub]
  rfl

/-- What is read of the hold buffer, and what is left of it. -/
theorem held_split {ppos copied : ℕ} (h : copied ≤ d.holdbufLen - ppos) :
    d.held ppos = d.holdbuf.read ppos copied ++ d.held (ppos + copied) := by
  unfold held
  rw [show d.holdbufLen - (ppos + copied) = d.holdbufLen - ppos - copied by omega,
    ByteMemory.read_append, Nat.add_sub_cancel' h]

/-- The outcomes of `handle_tcpdump` for a packet that offers a record. -/
inductive Handled (w : ℕ) (d : Tcpdump) (p : Traced) (data : List UInt8) : Tcpdump → Prop where
  | stored (hroom : d.storebufLen + data.length + hdrSize w < tcpdumpBufSize) :
      Handled w d p data (d.store w p data)
  | rotated (hempty : d.holdbufLen = 0) :
      Handled w d p data (({ d with tickCounter := 0 } : Tcpdump).rotate.store w p data)
  | dropped (hfull : ¬ d.HasRoom w data.length) :
      Handled w d p data { d with dropcount := d.dropcount + 1 }

theorem handled (w : ℕ) (d : Tcpdump) (htrace : p.traceLink = true) (hskb : p.skb = some data) :
    Handled w d p data (d.handleTcpdump w p) := by
  unfold handleTcpdump
  rw [if_neg (by rw [htrace]; decide), hskb]
  dsimp only
  split_ifs with hfull hempty
  · exact .rotated hempty
  · exact .dropped fun hroom => hroom.elim (fun hlt => absurd hlt (Nat.not_lt.mpr hfull)) hempty
  · exact .stored (Nat.not_le.mp hfull)

/-- A packet on another link, or without a buffer, leaves no record. -/
theorem handleTcpdump_of_offer_eq_none (h : p.offer w d = none) : d.handleTcpdump w p = d := by
  unfold handleTcpdump
  unfold Traced.offer at h
  split_ifs at h with htrace
  · rw [if_neg (not_not.mpr htrace), Option.map_eq_none_iff.mp h]
  · rw [if_pos htrace]

end Tcpdump

namespace Capture

variable {w hz : ℕ} {c : Capture}

/-- When the reader has read everything, the buffers may be swapped. -/
theorem Sound.rotate (h : c.Sound) (hempty : c.dump.holdbufLen = 0) (n : ℕ) :
    Sound { c with dump := ({ c.dump with tickCounter := n } : Tcpdump).rotate } := by
  have hppos : c.ppos = 0 := by
    rcases h.inside with hlt | ⟨hzero, -⟩
    · omega
    · exact hzero
  refine ⟨⟨?_, h.sublist, h.dropcount, h.storebufLen_le, Nat.zero_le _⟩, ?_⟩
  · have hcontents := h.contents
    rw [Tcpdump.held_of_empty hempty, List.append_nil] at hcontents
    show c.delivered ++ _ ++ [] = _
    rw [List.append_nil, hppos]
    exact hcontents
  · show c.ppos < c.dump.storebufLen ∨ c.ppos = 0 ∧ c.dump.storebufLen = 0
    omega

theorem Sound.store (h : c.Sound) (p : Traced) {data : List UInt8}
    (hfits : c.dump.storebufLen + data.length + hdrSize w ≤ tcpdumpBufSize) :
    Sound { c with
      dump := c.dump.store w p data
      offered := c.offered ++ [recordOf w p data (c.dump.captured data.length)]
      accepted := c.accepted ++ [recordOf w p data (c.dump.captured data.length)] } := by
  have hcap := c.dump.captured_le data.length
  refine ⟨⟨?_, h.sublist.append (List.Sublist.refl _), ?_, h.holdbufLen_le, ?_⟩, h.inside⟩
  · show c.delivered ++ c.dump.held c.ppos ++ (c.dump.store w p data).stored = _
    rw [Tcpdump.stored_store, ← List.append_assoc, h.contents, List.flatten_append]
    simp
  · have hcount := h.dropcount
    show c.dump.dropcount + (c.accepted ++ [_]).length = (c.offered ++ [_]).length
    rw [List.length_append, List.length_append, List.length_singleton]
    omega
  · show c.dump.storebufLen + hdrSize w + c.dump.captured data.length ≤ tcpdumpBufSize
    omega

/-- **A packet** on a traced link is stored as a whole, or counted. -/
theorem Sound.packet (h : c.Sound) (hz : ℕ) {p : Traced} (hfits : DumpEvent.Fits w (.packet p)) :
    (c.step w hz (.packet p)).Sound := by
  unfold step
  dsimp only
  cases hoffer : p.offer w c.dump with
  | none =>
    rw [Tcpdump.handleTcpdump_of_offer_eq_none hoffer]
    exact h
  | some r =>
    obtain ⟨record, packetLen⟩ := r
    unfold Traced.offer at hoffer
    split_ifs at hoffer with htrace
    obtain ⟨data, hskb, heq⟩ := Option.map_eq_some_iff.mp hoffer
    obtain ⟨rfl, rfl⟩ := Prod.mk.inj heq
    have hlen := hfits data hskb
    have hhandled := Tcpdump.handled w c.dump htrace hskb
    dsimp only
    generalize c.dump.handleTcpdump w p = d' at hhandled
    cases hhandled with
    | stored hroom =>
      rw [if_pos (show c.dump.HasRoom w data.length from Or.inl hroom)]
      exact h.store p (Nat.le_of_lt hroom)
    | rotated hempty =>
      rw [if_pos (show c.dump.HasRoom w data.length from Or.inr hempty)]
      have hrotated := h.rotate hempty 0
      exact hrotated.store p (by show 0 + _ + _ ≤ _; omega)
    | dropped hfull =>
      rw [if_neg hfull]
      refine ⟨⟨h.contents, h.sublist.trans (List.sublist_append_left _ _), ?_, h.holdbufLen_le,
        h.storebufLen_le⟩, h.inside⟩
      have hcount := h.dropcount
      show c.dump.dropcount + 1 + c.accepted.length = (c.offered ++ [_]).length
      rw [List.length_append, List.length_singleton]
      omega

theorem Sound.tick (h : c.Sound) (w hz : ℕ) : (c.step w hz .tick).Sound := by
  have hcount : ∀ n, Sound { c with dump := { c.dump with tickCounter := n } } := fun n =>
    ⟨⟨h.contents, h.sublist, h.dropcount, h.holdbufLen_le, h.storebufLen_le⟩, h.inside⟩
  unfold step Tcpdump.tick Tcpdump.handleInactivity
  dsimp only
  split_ifs with hsecond hswap
  · exact h.rotate hswap.1 0
  · exact hcount 0
  · exact hcount _

/-- **A read** takes a piece off the front of the hold buffer. -/
theorem Sound.read (h : c.Sound) (w hz : ℕ) (r : Tcpdump.ReadDumps) :
    (c.step w hz (.read r)).Sound := by
  unfold step Tcpdump.procReadDumps
  dsimp only
  have hnothing : Sound { c with delivered := c.delivered ++ [] } := by
    rw [List.append_nil]
    exact h
  generalize hcopied : min (c.dump.holdbufLen - c.ppos) (r.lenp % 2 ^ 32) -
    min r.notCopied (min (c.dump.holdbufLen - c.ppos) (r.lenp % 2 ^ 32)) = copied
  have hle : copied ≤ c.dump.holdbufLen - c.ppos := by omega
  have hcontents := h.contents
  rw [Tcpdump.held_split hle, ← List.append_assoc] at hcontents
  split_ifs with hwrite hend hempty hdone
  · exact hnothing
  · exact hnothing
  · exact hnothing
  · refine ⟨⟨?_, h.sublist, h.dropcount, Nat.zero_le _, h.storebufLen_le⟩, Or.inr ⟨rfl, rfl⟩⟩
    -- the whole buffer has been read
    have hheld : c.dump.held (c.ppos + copied) = [] := by
      unfold Tcpdump.held
      rw [Nat.sub_eq_zero_of_le hdone]
      rfl
    rw [hheld] at hcontents
    exact hcontents
  · exact ⟨⟨hcontents, h.sublist, h.dropcount, h.holdbufLen_le, h.storebufLen_le⟩,
      Or.inl (Nat.not_le.mp hdone)⟩

theorem Sound.step (h : c.Sound) (hz : ℕ) {e : DumpEvent} (hfits : e.Fits w) :
    (c.step w hz e).Sound := by
  cases e with
  | packet p => exact h.packet hz hfits
  | tick => exact h.tick w hz
  | capturelength n =>
    exact ⟨⟨h.contents, h.sublist, h.dropcount, h.holdbufLen_le, h.storebufLen_le⟩, h.inside⟩
  | read r => exact h.read w hz r

/-- **Packet traces.** In every capture of packets that fit into a buffer, what the reader has got,
what it has not read of the hold buffer and what is stored are the accepted records in order, and
every other record is counted. -/
theorem isLossyFifo_run (w hz capturelength : ℕ) (holdbuf storebuf : ByteMemory)
    {es : List DumpEvent} (hfits : ∀ e ∈ es, e.Fits w) :
    ((init holdbuf storebuf capturelength).run w hz es).IsLossyFifo := by
  have hinit : (init holdbuf storebuf capturelength).Sound :=
    ⟨⟨rfl, List.Sublist.refl _, rfl, Nat.zero_le _, Nat.zero_le _⟩, Or.inr ⟨rfl, rfl⟩⟩
  have hrun : ∀ c : Capture, c.Sound → (c.run w hz es).Sound := by
    unfold run
    induction es with
    | nil => exact fun c hc => hc
    | cons e es ih =>
      intro c hc
      exact ih (fun a ha => hfits a (List.mem_cons_of_mem e ha)) _
        (hc.step hz (hfits e List.mem_cons_self))
  exact (hrun _ hinit).toIsLossyFifo

/-- A packet of 20 bytes; a second goes by; the record of 40 bytes is read in two pieces, the first
of which is cut short by the copy to the user. -/
def onePacket : List DumpEvent :=
  [.packet ⟨some (List.replicate 20 0x45), true, 3, 0, 0, false, true⟩, .tick,
    .read ⟨false, 10, 2⟩, .read ⟨false, 100, 0⟩]

theorem isLossyFifo_run_onePacket :
    ((init (fun _ => 0) (fun _ => 0) 50).run 4 1 onePacket).IsLossyFifo ∧
      ((init (fun _ => 0) (fun _ => 0) 50).run 4 1 onePacket).delivered.length = 40 := by
  refine ⟨isLossyFifo_run 4 1 50 (fun _ => 0) (fun _ => 0) fun e he => ?_, by decide +kernel⟩
  simp only [onePacket, List.mem_cons, List.not_mem_nil, or_false] at he
  rcases he with rfl | rfl | rfl | rfl
  · intro data hdata
    cases hdata
    decide
  · trivial
  · trivial
  · trivial

end Capture

end Modelnet.Linux
