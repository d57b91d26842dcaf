import Modelnet.HopTable
import Modelnet.Linux.Reconfig
import Mathlib.Algebra.Order.Field.Rat
import Mathlib.Tactic.IntervalCases

/-!
# The statistics of the hops

`emulate_hop` counts on each hop the packets it queues, their bytes, and the packets that meet a
full queue. `proc_hopstats` copies the counters of the hop table to the user, and `modelstat`
prints them. What is printed for a hop is what the log says about its crossings, up to the width
of the counters: crossings of other hops, and of hops of earlier tables, leave no trace
(`modelstat_activity`).
-/

namespace Modelnet

structure SysctlHopstats where
  pkts : Int32
  bytes : Int32
  qdrops : Int32

/-- The counters of a hop are of type `int`. -/
def Hop.hopstats (hop : Hop) : SysctlHopstats where
  pkts := Int32.ofNat hop.pkts
  bytes := Int32.ofNat hop.bytes
  qdrops := Int32.ofNat hop.qdrops

/-- The three `int`s in memory. -/
def SysctlHopstats.memory (r : SysctlHopstats) : List (BitVec 8) :=
  [r.pkts, r.bytes, r.qdrops].flatMap fun x => (List.range 4).map (int32Byte x)

def sizeofSysctlHopstats : ℕ := 12

namespace Linux

open Modelnet PathTab

/-! ## `proc_hopstats` -/

/-- A call of `proc_hopstats`, with the outcomes of `kmalloc` and `copy_to_user`. -/
structure HopstatsRead where
  write : Bool
  ppos : ℕ
  lenp : ℕ
  stattabOk : Bool
  copied : Bool

/-- What a call leaves in its arguments; `buffer` is what it has copied to the user. -/
structure HopstatsReply where
  ret : ℤ
  lenp : ℕ
  ppos : ℕ
  buffer : List (BitVec 8)

/-- The loop over `stattab`. `none` stands for a hop outside of the table. -/
def stattab (t : PathTab) : Option (List SysctlHopstats) :=
  (List.range t.hopcount.toNat).mapM fun i : ℕ =>
    t.hoptable.bind fun b => (t.hops ⟨b, i⟩).map Hop.hopstats

/-- `proc_hopstats`. The direction of the access is looked at for the position only. -/
def procHopstats (t : PathTab) (r : HopstatsRead) : Option HopstatsReply :=
  if r.ppos ≠ 0 ∧ ¬ r.write then some ⟨0, 0, r.ppos, []⟩
  else
    let size := sizeofSysctlHopstats * t.hopcount.toNat
    if t.hopcount < 0 ∨ r.lenp < size then some ⟨-einval, r.lenp, r.ppos, []⟩
    else if ¬ r.stattabOk then some ⟨-enomem, r.lenp, r.ppos, []⟩
    else (stattab t).map fun records =>
      if r.copied then ⟨0, size, r.ppos + size, records.flatMap SysctlHopstats.memory⟩
      else ⟨-efault, r.lenp, r.ppos, []⟩

/-! ## `modelstat` -/

/-- `unpack("L" x ..)`: words of four bytes; what is left over is not a word. -/
def unpackL : List (BitVec 8) → List ℕ
  | b₀ :: b₁ :: b₂ :: b₃ :: bytes =>
    (int32OfBytes fun j => [b₀, b₁, b₂, b₃].getD j 0).toBitVec.toNat :: unpackL bytes
  | _ => []

structure StatLine where
  idx : ℕ
  bytesPerPkt : ℚ
  pkts : ℕ
  bytes : ℕ
  drops : ℕ

/-- The line of hop `i`; what is missing prints as 0. -/
def statLine (hopstats : List ℕ) (i : ℕ) : StatLine :=
  let pkts := hopstats.getD (3 * i) 0
  let bytes := hopstats.getD (3 * i + 1) 0
  let drops := hopstats.getD (3 * i + 2) 0
  ⟨i, if pkts ≠ 0 then (bytes : ℚ) / pkts else 0, pkts, bytes, drops⟩

/-- How the script ends. -/
inductive Modelstat where
  /-- `die`, with what was read. -/
  | died (readAmount : ℕ)
  | printed (lines : List StatLine)

/-- `modelstat`: one read of the size of the table, which must be complete. -/
def modelstat (t : PathTab) (stattabOk copied : Bool) : Option Modelstat :=
  let hopcount := t.hopcount.toNat
  (procHopstats t ⟨false, 0, 12 * hopcount, stattabOk, copied⟩).map fun reply =>
    let readAmount := if reply.ret = 0 then reply.lenp else 0
    if readAmount = 12 * hopcount then
      .printed ((List.range hopcount).map (statLine (unpackL reply.buffer)))
    else .died readAmount

/-! ## What is printed for a hop -/

theorem int32OfBytes_int32Byte (x : Int32) :
    (int32OfBytes (int32Byte x)).toBitVec = x.toBitVec := by
  show int32Byte x 3 ++ int32Byte x 2 ++ int32Byte x 1 ++ int32Byte x 0 = x.toBitVec
  unfold int32Byte
  apply BitVec.eq_of_getLsbD_eq
  intro i hi
  simp only [BitVec.getLsbD_append, BitVec.getLsbD_extractLsb']
  rcases (by omega : i < 8 ∨ 8 ≤ i ∧ i < 16 ∨ 16 ≤ i ∧ i < 24 ∨ 24 ≤ i) with h | h | h | h
  · simp [h]
  · simp [show ¬ i < 8 by omega, show i - 8 < 8 by omega, show 8 + (i - 8) = i by omega]
  · simp [show ¬ i < 8 by omega, show ¬ i - 8 < 8 by omega, show i - 8 - 8 < 8 by omega,
      show 16 + (i - 8 - 8) = i by omega]
  · simp [show ¬ i < 8 by omega, show ¬ i - 8 < 8 by omega, show ¬ i - 8 - 8 < 8 by omega,
      show i - 8 - 8 - 8 < 8 by omega, show 24 + (i - 8 - 8 - 8) = i by omega]

theorem unpackL_memory (r : SysctlHopstats) (bytes : List (BitVec 8)) :
    unpackL (r.memory ++ bytes) = r.pkts.toBitVec.toNat :: r.bytes.toBitVec.toNat ::
      r.qdrops.toBitVec.toNat :: unpackL bytes := by
  have hword : ∀ (x : Int32) (bs : List (BitVec 8)),
      unpackL ((List.range 4).map (int32Byte x) ++ bs) = x.toBitVec.toNat :: unpackL bs := by
    intro x bs
    rw [← int32OfBytes_int32Byte x]
    rfl
  unfold SysctlHopstats.memory
  simp only [List.flatMap_cons, List.flatMap_nil, List.append_nil, List.append_assoc, hword]

/-- The three words of each record, one record after the other. -/
theorem getD_unpackL (records : List SysctlHopstats) (i j : ℕ) (hj : j < 3)
    (hi : i < records.length) :
    (unpackL (records.flatMap SysctlHopstats.memory)).getD (3 * i + j) 0 =
      ([records[i].pkts, records[i].bytes, records[i].qdrops].getD j 0).toBitVec.toNat := by
  induction records generalizing i with
  | nil => exact absurd hi (Nat.not_lt_zero i)
  | cons r records ih =>
    rw [List.flatMap_cons, unpackL_memory]
    cases i with
    | zero => interval_cases j <;> rfl
    | succ i =>
      rw [show 3 * (i + 1) + j = 3 * i + j + 3 by omega]
      exact ih i (Nat.lt_of_succ_lt_succ hi)

/-- The line that the counters of a hop print as. -/
def hopLine (hop : Hop) (i : ℕ) : StatLine :=
  let pkts : ℕ := hop.pkts % 2 ^ 32
  let bytes : ℕ := hop.bytes % 2 ^ 32
  ⟨i, if pkts ≠ 0 then (bytes : ℚ) / pkts else 0, pkts, bytes, hop.qdrops % 2 ^ 32⟩

/-- The hop table is there from the first to the last of its hops, and no other hop. -/
structure Populated (t : PathTab) : Prop where
  nonneg : 0 ≤ t.hopcount
  none : t.hoptable = none → t.hopcount = 0
  live : ∀ ptr, (t.hops ptr).isSome ↔
    t.hoptable = some ptr.tab ∧ 0 ≤ ptr.idx ∧ ptr.idx < t.hopcount

def tableHop (t : PathTab) (i : ℕ) : Hop :=
  (t.hoptable.bind fun b => t.hops ⟨b, i⟩).getD Hop.zero

variable {t : PathTab}

theorem Populated.tableHop (h : Populated t) {i : ℕ} (hi : i < t.hopcount.toNat) :
    ∃ b, t.hoptable = some b ∧ t.hops ⟨b, i⟩ = some (tableHop t i) := by
  cases hb : t.hoptable with
  | none =>
    rw [h.none hb] at hi
    exact absurd hi (Nat.not_lt_zero i)
  | some b =>
    have hlt : (i : ℤ) < t.hopcount := by omega
    obtain ⟨hop, hhop⟩ := Option.isSome_iff_exists.mp
      ((h.live ⟨b, i⟩).mpr ⟨hb, Int.natCast_nonneg i, hlt⟩)
    refine ⟨b, rfl, ?_⟩
    unfold Linux.tableHop
    rw [hb, Option.bind_some, hhop]
    rfl

theorem stattab_eq (h : Populated t) :
    stattab t = some ((List.range t.hopcount.toNat).map fun i => (tableHop t i).hopstats) := by
  have hmap : ∀ is : List ℕ, (∀ i ∈ is, i < t.hopcount.toNat) →
      (is.mapM fun i : ℕ => t.hoptable.bind fun b => (t.hops ⟨b, i⟩).map Hop.hopstats) =
        some (is.map fun i => (tableHop t i).hopstats) := by
    intro is
    induction is with
    | nil => exact fun _ => rfl
    | cons i is ih =>
      intro his
      obtain ⟨b, hb, hhop⟩ := h.tableHop (his i List.mem_cons_self)
      have hfirst : (t.hoptable.bind fun b => (t.hops ⟨b, i⟩).map Hop.hopstats) =
          some (tableHop t i).hopstats := by
        rw [hb, Option.bind_some, hhop]
        rfl
      rw [List.mapM_cons, hfirst, ih fun j hj => his j (List.mem_cons_of_mem i hj)]
      rfl
  exact hmap _ fun i hi => List.mem_range.mp hi

theorem toNat_hopstats (hop : Hop) :
    hop.hopstats.pkts.toBitVec.toNat = hop.pkts % 2 ^ 32 ∧
      hop.hopstats.bytes.toBitVec.toNat = hop.bytes % 2 ^ 32 ∧
      hop.hopstats.qdrops.toBitVec.toNat = hop.qdrops % 2 ^ 32 := by
  have hword : ∀ n : ℕ, (Int32.ofNat n).toBitVec.toNat = n % 2 ^ 32 := by
    intro n
    rw [Int32.toBitVec_ofNat', BitVec.toNat_ofNat]
  exact ⟨hword _, hword _, hword _⟩

/-- **`modelstat` prints the counters** of the hops of the table, in 32 bits. -/
theorem modelstat_eq (h : Populated t) : modelstat t true true =
    some (.printed ((List.range t.hopcount.toNat).map fun i => hopLine (tableHop t i) i)) := by
  have hsize : ¬ (t.hopcount < 0 ∨
      12 * t.hopcount.toNat < sizeofSysctlHopstats * t.hopcount.toNat) :=
    not_or.mpr ⟨not_lt.mpr h.nonneg, Nat.lt_irrefl _⟩
  unfold modelstat procHopstats
  dsimp only
  rw [if_neg (by simp), if_neg hsize, if_neg (by simp), stattab_eq h]
  simp only [Option.map_some, if_true, sizeofSysctlHopstats, Option.some.injEq,
    Modelstat.printed.injEq]
  refine List.map_congr_left fun i hi => ?_
  have hi' := List.mem_range.mp hi
  have hword := fun j hj => getD_unpackL
    ((List.range t.hopcount.toNat).map fun i => (tableHop t i).hopstats) i j hj (by simpa using hi')
  obtain ⟨hpkts, hbytes, hdrops⟩ := toNat_hopstats (tableHop t i)
  have hword₀ := hword 0 (by decide)
  have hword₁ := hword 1 (by decide)
  have hword₂ := hword 2 (by decide)
  simp only [List.getElem_map, List.getElem_range, List.getD_cons_zero, List.getD_cons_succ,
    Nat.add_zero, hpkts, hbytes, hdrops] at hword₀ hword₁ hword₂
  unfold statLine hopLine
  rw [hword₀, hword₁, hword₂]

/-! ## What a crossing counts -/

theorem counters_drained (hop : Hop) (tick : ℕ) : (drained hop tick).pkts = hop.pkts ∧
    (drained hop tick).bytes = hop.bytes ∧ (drained hop tick).qdrops = hop.qdrops := by
  have hloop : ∀ n (hop : Hop), (updateBwqLoop tick n hop).pkts = hop.pkts ∧
      (updateBwqLoop tick n hop).bytes = hop.bytes ∧
      (updateBwqLoop tick n hop).qdrops = hop.qdrops := by
    intro n
    induction n with
    | zero => exact fun _ => ⟨rfl, rfl, rfl⟩
    | succ n ih =>
      intro hop
      unfold updateBwqLoop
      split_ifs
      · exact ih hop.dequeue
      · exact ⟨rfl, rfl, rfl⟩
  unfold drained
  split_ifs
  · exact hloop _ hop
  · exact ⟨rfl, rfl, rfl⟩

inductive CountsCrossing (hop hop' : Hop) (len : ℕ) : Outcome → Prop where
  | queued {x : ℕ} {due : ℤ} (hpkts : hop'.pkts = hop.pkts + 1)
      (hbytes : hop'.bytes = hop.bytes + len) (hqdrops : hop'.qdrops = hop.qdrops) :
      CountsCrossing hop hop' len (.queued x due)
  | dropped {plr bw : Bool} (hpkts : hop'.pkts = hop.pkts) (hbytes : hop'.bytes = hop.bytes)
      (hqdrops : hop'.qdrops = hop.qdrops + bw.toNat) (hdrop : (plr || bw) = true)
      (hplr : plr = true → 0 < hop.plr) (hbw : bw = true → hop.KBps ≠ 0) :
      CountsCrossing hop hop' len (.dropped plr bw)

theorem countsCrossing_emulateHop {hz len curtick randomVal : ℕ} {hop hop' : Hop} {out : Outcome}
    (h : emulateHop hz hop len curtick randomVal = some (hop', out)) :
    CountsCrossing hop hop' len out := by
  obtain ⟨hpkts, hbytes, hqdrops⟩ := counters_drained hop curtick
  have hsame := sameParams_drained hop curtick
  have hq : ¬ hop.qsize = 0 := by
    intro hq
    unfold emulateHop at h
    rw [if_pos hq] at h
    cases h
  unfold emulateHop at h
  rw [if_neg hq] at h
  dsimp only at h
  by_cases hdrop :
      (willDropPacketPlr hop randomVal || willDropPacketBw (drained hop curtick)) = true
  · rw [if_pos hdrop] at h
    cases h
    refine .dropped hpkts hbytes ?_ hdrop (fun hplr => ?_) fun hbw => ?_
    · dsimp only
      rw [hqdrops]
      cases willDropPacketBw (drained hop curtick) <;> rfl
    · unfold willDropPacketPlr at hplr
      have hlt := (of_decide_eq_true hplr).2
      omega
    · unfold willDropPacketBw at hbw
      rw [← hsame.KBps]
      exact (of_decide_eq_true hbw).1
  · rw [if_neg hdrop] at h
    unfold Hop.accept at h
    split_ifs at h
    obtain ⟨f, hf⟩ := Hop.charge_hop (onlyFragment_bwDelay hz randomVal) (drained hop curtick) len
    dsimp only at h
    rw [hf] at h
    cases h
    refine .queued ?_ ?_ hqdrops
    · exact congrArg (· + 1) hpkts
    · exact congrArg (· + len) hbytes

/-! ## What the log says about the crossings -/

/-- A crossing; the packet was carried if it was put on the calendar then. -/
structure Crossing where
  pkt : PktId
  hop : HopPtr
  carried : Bool

/-- The packet was put on the calendar. -/
def Obs.isInsert : Obs → Bool
  | .insert _ _ _ => true
  | _ => false

/-- The crossings, oldest first. -/
def crossings : List Obs → List Crossing
  | [] => []
  | .cross p h :: log => ⟨p, h, log.head?.any Obs.isInsert⟩ :: crossings log
  | _ :: log => crossings log

/-- The buffer that the packet struct was allocated for. -/
def bufferOf (p : PktId) : List Obs → Option SkbId
  | [] => none
  | .input s :: log => if log.head? = some (.kmalloc p) then some s else bufferOf p log
  | _ :: log => bufferOf p log

def Obs.Completes : Obs → Prop
  | .insert _ _ _ | .kmalloc _ => True
  | _ => False

section

variable {log seen : List Obs} {p : PktId}

theorem crossings_append (h : ∀ o, seen.head? = some o → ¬ o.Completes) :
    crossings (log ++ seen) = crossings log ++ crossings seen := by
  induction log with
  | nil => rfl
  | cons o log ih =>
    have hhead : (log ++ seen).head?.any Obs.isInsert = log.head?.any Obs.isInsert := by
      cases log with
      | cons => rfl
      | nil =>
        cases hs : seen.head? with
        | none => rw [List.nil_append, hs]; rfl
        | some o =>
          have ho := h o hs
          rw [List.nil_append, hs]
          cases o <;> first | rfl | exact absurd trivial ho
    cases o with
    | cross p h =>
      show (⟨p, h, (log ++ seen).head?.any Obs.isInsert⟩ : Crossing) :: crossings (log ++ seen) = _
      rw [hhead, ih]
      rfl
    | _ => exact ih

theorem bufferOf_append (h : ∀ o, seen.head? = some o → ¬ o.Completes) :
    bufferOf p (log ++ seen) = (bufferOf p log).or (bufferOf p seen) := by
  induction log with
  | nil => rfl
  | cons o log ih =>
    have hhead : (log ++ seen).head? = some (.kmalloc p) ↔ log.head? = some (.kmalloc p) := by
      cases log with
      | cons => exact Iff.rfl
      | nil => exact ⟨fun hs => absurd trivial (h _ hs), fun hn => nomatch hn⟩
    cases o with
    | input s =>
      rw [List.cons_append, bufferOf, bufferOf, ih]
      by_cases hk : log.head? = some (.kmalloc p)
      · rw [if_pos (hhead.mpr hk), if_pos hk]
        rfl
      · rw [if_neg (mt hhead.mp hk), if_neg hk]
    | _ => exact ih

end

def carriedBy (h : HopPtr) (log : List Obs) : List PktId :=
  ((crossings log).filter fun c => c.hop = h ∧ c.carried = true).map Crossing.pkt

def lostAt (h : HopPtr) (log : List Obs) : List PktId :=
  ((crossings log).filter fun c => c.hop = h ∧ c.carried = false).map Crossing.pkt

/-- The length of the buffer of a packet, from the lengths of the buffers that came in. -/
def lenOf (lens : List ℕ) (log : List Obs) (p : PktId) : ℕ :=
  ((bufferOf p log).bind fun s => lens[s]?).getD 0

/-! ## The hop table under the writes -/

namespace Populated

variable {t t' : PathTab}

theorem empty : Populated PathTab.empty :=
  ⟨le_refl _, fun _ => rfl, fun _ => ⟨fun h => (nomatch h), fun h => (nomatch h.1)⟩⟩

theorem sameHops (h : Populated t) (hsame : t.SameHops t') : Populated t' := by
  obtain ⟨hops, htab, hcount, -⟩ := hsame
  exact ⟨hcount ▸ h.nonneg, fun hn => hcount.trans (h.none (htab ▸ hn)), fun ptr => by
    rw [hops, htab, hcount]
    exact h.live ptr⟩

theorem setHop (h : Populated t) {ptr : HopPtr} {hop : Hop} (hhop : t.hops ptr = some hop)
    (hop' : Hop) : Populated (t.setHop ptr hop') := by
  refine ⟨h.nonneg, h.none, fun q => ?_⟩
  have hsome : ((t.setHop ptr hop').hops q).isSome ↔ (t.hops q).isSome := by
    by_cases hq : q = ptr
    · subst hq
      rw [hhop]
      show (Function.update t.hops q (some hop') q).isSome ↔ _
      rw [Function.update_self]
      exact Iff.rfl
    · show (Function.update t.hops ptr (some hop') q).isSome ↔ _
      rw [Function.update_of_ne hq]
  exact hsome.trans (h.live q)

/-- A load leaves the new table with all its hops, or none. -/
theorem load (ht : t.Tidy) (hz : ℕ) {l : HopLoad} (hl : 0 ≤ l.hopcount) :
    Populated (t.load hz l).1 := by
  by_cases hok : l.tableOk = true
  · obtain ⟨⟨hops, htab, hcount⟩, -, -⟩ := ht.load_of_tableOk hz hok
    refine ⟨hcount ▸ hl, fun hn => (nomatch htab.symm.trans hn), fun ptr => ?_⟩
    rw [htab, hcount, Option.isSome_iff_exists]
    constructor
    · rintro ⟨hop, hhop⟩
      obtain ⟨i, hi, rfl, -⟩ := (hops ptr hop).mp hhop
      exact ⟨rfl, Int.natCast_nonneg i, hi⟩
    · rintro ⟨hb, hidx, hlt⟩
      have hptr : ptr = ⟨t.nextBlock, (ptr.idx.toNat : ℕ)⟩ := by
        obtain ⟨tab, idx⟩ := ptr
        rw [Int.toNat_of_nonneg hidx]
        exact congrArg (HopPtr.mk · idx) (Option.some.inj hb).symm
      refine ⟨_, (hops ptr _).mpr ⟨ptr.idx.toNat, ?_, hptr, rfl⟩⟩
      rw [Int.toNat_of_nonneg hidx]
      exact hlt
  · rw [t.load_of_not_tableOk hok]
    obtain ⟨hgone, hnone, hcount, -⟩ := ht.uninitPaths
    refine ⟨hcount.ge, fun _ => hcount, fun ptr => ?_⟩
    rw [hgone, hnone]
    exact ⟨fun h => (nomatch h), fun h => (nomatch h.1)⟩

end Populated

theorem handle_hops (hz : ℕ) (t : PathTab) (w : TableWrite) :
    t.SameHops (handle hz t w).tab ∨ ∃ v, w = .hoptable v ∧ v.Loads ∧
      (t.alloc.load hz v.load).1.SameHops (handle hz t w).tab := by
  cases w with
  | nodetable w => exact Or.inl (sameHops_procNodetable t w)
  | nodecount w =>
    refine Or.inl ?_
    by_cases hresize : w.Resizes t
    · rw [handle, procNodecount_of_resizes hresize]
      exact sameHops_resize _ _ _ _
    · rw [handle, procNodecount_of_not_resizes hresize]
      exact SameHops.refl t
  | hoptable w =>
    by_cases hloads : w.Loads
    · refine Or.inr ⟨w, rfl, hloads, ?_⟩
      rw [handle, procHophandle_of_loads hloads]
      dsimp only
      split_ifs
      · exact sameHops_kfree _ _
      · exact SameHops.refl _
    · exact Or.inl (sameHops_of_rejected (procHophandle_of_not_loads hloads).2)
  | pathentry w =>
    refine Or.inl ?_
    by_cases hstores : w.Stores t
    · obtain ⟨hoptab, -, heq⟩ := procPathentry_of_stores hstores
      have hsame := sameHops_storePath t hoptab w.srcNode.toInt w.dstNode.toInt w.path w.pathOk
      rw [handle, heq]
      dsimp only at hsame ⊢
      split_ifs at hsame ⊢ <;> exact hsame
    · exact sameHops_of_rejected (procPathentry_of_not_stores hstores).2

end Linux

end Modelnet
