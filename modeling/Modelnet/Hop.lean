import Modelnet.CInt
import Modelnet.Lib.Ring

/-!
# Hops and their bandwidth queues

`struct hop` with the code that both modules share: the conversion of a configuration record,
the ring of `qsize` slots that stands for the queue in front of the link, its draining
(`updateBwq`) and the bandwidth delay of a packet. Ticks and byte counts are natural numbers.
`exittick` and `slotlen` are the two arrays of the ring, read at the slots below `qsize`.
-/

namespace Modelnet

/-- `struct sysctl_hop`: what a configuration write says about one hop. -/
structure SysctlHop where
  /-- bits/s -/
  bandwidth : Int32
  /-- ms -/
  delay : Int32
  /-- packet loss rate; `2 ^ 31 - 1` means 100% -/
  plr : Int32
  /-- queue size in slots -/
  qsize : Int32
  /-- address of the emulator hosting the hop, or 0 -/
  emulator : BitVec 32
  xtqType : Int32

/-- `struct hop`. The bound on `KBps` is that of a quotient `bandwidth / 8`; the two `Alloc`
fields say whether the array behind the pointer was allocated. -/
structure Hop where
  KBps : ℤ
  KBps_le : KBps.natAbs ≤ 2 ^ 28
  delay : ℤ
  plr : ℤ
  qsize : ℤ
  emulator : BitVec 32
  bytespertick : ℕ
  id : ℕ
  slotdepth : ℕ
  bytedepth : ℤ
  headslot : ℕ
  fragment : ℕ
  exittickAlloc : Bool
  exittick : ℕ → ℕ
  slotlenAlloc : Bool
  slotlen : ℕ → ℕ
  pkts : ℕ
  bytes : ℕ
  qdrops : ℕ

/-! ## Configuration -/

/-- `bandwidth/8`. -/
def kbpsOf (bandwidth : Int32) : ℤ := bandwidth.toInt.tdiv 8

theorem SysctlHop.kbpsOf_le (r : SysctlHop) : (kbpsOf r.bandwidth).natAbs ≤ 2 ^ 28 :=
  natAbs_tdiv_eight_le r.bandwidth.le_toInt r.bandwidth.toInt_lt

/-- `(HZ * delay) / 1000`, in ticks. -/
def delayOf (hz : ℕ) (delay : Int32) : ℤ := (i32 (hz * delay.toInt)).tdiv 1000

/-- `KBps*1000/HZ`; 0 for slow links. -/
def bytespertickOf (hz : ℕ) (KBps : ℤ) : ℕ := u32 ((i32 (KBps * 1000)).tdiv hz)

/-- The zeroed record a table starts from. -/
def Hop.zero : Hop where
  KBps := 0
  KBps_le := by decide
  delay := 0
  plr := 0
  qsize := 0
  emulator := 0
  bytespertick := 0
  id := 0
  slotdepth := 0
  bytedepth := 0
  headslot := 0
  fragment := 0
  exittickAlloc := false
  exittick := fun _ => 0
  slotlenAlloc := false
  slotlen := fun _ => 0
  pkts := 0
  bytes := 0
  qdrops := 0

/-- The parameters of a configuration record, as the loading loops of both modules set them. -/
def Hop.configure (hz i : ℕ) (hop : Hop) (r : SysctlHop) : Hop :=
  { hop with
    KBps := kbpsOf r.bandwidth
    KBps_le := r.kbpsOf_le
    delay := delayOf hz r.delay
    plr := r.plr.toInt
    qsize := r.qsize.toInt
    emulator := r.emulator
    bytespertick := bytespertickOf hz (kbpsOf r.bandwidth)
    id := i }

/-- The hop a record installs once both arrays are allocated: an empty queue. -/
def Hop.install (hz i : ℕ) (r : SysctlHop) : Hop :=
  { Hop.zero.configure hz i r with exittickAlloc := true, slotlenAlloc := true }

/-! ## The ring -/

namespace Hop

/-- The slots of the ring; the `%` of the code takes them from `qsize`. -/
def ringSize (hop : Hop) : ℕ := hop.qsize.natAbs

/-- `(headslot + slotdepth) % qsize`. -/
def newslot (hop : Hop) : ℕ := RingBuffer.slot hop.ringSize hop.headslot hop.slotdepth

/-- `exittick[(headslot + slotdepth - 1) % qsize]`. -/
def lastExit (hop : Hop) : ℕ :=
  hop.exittick (RingBuffer.slot hop.ringSize hop.headslot (hop.slotdepth - 1))

/-- The two arrays as one ring of (exit tick, length) entries. -/
def ring (hop : Hop) (i : ℕ) : ℕ × ℕ := (hop.exittick i, hop.slotlen i)

/-- The body of the loop of `update_bwq`: drop the entry at the head. -/
def dequeue (hop : Hop) : Hop :=
  { hop with
    exittick := Function.update hop.exittick hop.headslot 0
    slotdepth := hop.slotdepth - 1
    bytedepth := hop.bytedepth - hop.slotlen hop.headslot
    slotlen := Function.update hop.slotlen hop.headslot 0
    headslot := RingBuffer.advance hop.ringSize hop.headslot }

/-- The writes that add a packet to the virtual queue. -/
def enqueue (hop : Hop) (newslot len tailexit : ℕ) : Hop :=
  { hop with
    slotdepth := hop.slotdepth + 1
    slotlen := Function.update hop.slotlen newslot len
    bytedepth := hop.bytedepth + len
    exittick := Function.update hop.exittick newslot tailexit }

theorem lastExit_enqueue (hop : Hop) (len tailexit : ℕ) :
    (hop.enqueue hop.newslot len tailexit).lastExit = tailexit := by
  show Function.update hop.exittick hop.newslot tailexit
    (RingBuffer.slot hop.ringSize hop.headslot (hop.slotdepth + 1 - 1)) = tailexit
  rw [Nat.add_sub_cancel]
  exact Function.update_self _ _ _

end Hop

/-- `n` is the value of `slotdepth`, which every turn of the loop decrements. -/
def updateBwqLoop (tick : ℕ) : ℕ → Hop → Hop
  | 0, hop => hop
  | n + 1, hop =>
    if hop.exittick hop.headslot < tick then updateBwqLoop tick n hop.dequeue else hop

/-- Bring the length and the head of the virtual bandwidth queue up to the current time. -/
def updateBwq (hop : Hop) (tick : ℕ) : Hop := updateBwqLoop tick hop.slotdepth hop

/-! ## Bandwidth delay -/

/-- Bytes left over in the final tick of the previous packet, used for this one: the bytes still
to be paid for, whether some were taken, and the hop with what remains of them. -/
def takeFragment (hop : Hop) (len : ℕ) : ℕ × ℕ × Hop :=
  if len < hop.fragment then (0, 0, { hop with fragment := hop.fragment - len })
  else if hop.fragment ≠ 0 then (len - hop.fragment, 1, { hop with fragment := 0 })
  else (len, 0, hop)

theorem takeFragment_fst (hop : Hop) (len : ℕ) :
    (takeFragment hop len).1 = len - hop.fragment := by
  unfold takeFragment
  split_ifs <;> dsimp only <;> omega

theorem takeFragment_fragused (hop : Hop) (len : ℕ) :
    (takeFragment hop len).2.1 = if hop.fragment ≠ 0 ∧ hop.fragment ≤ len then 1 else 0 := by
  unfold takeFragment
  split_ifs <;> first | rfl | omega

theorem takeFragment_fragment (hop : Hop) (len : ℕ) :
    (takeFragment hop len).2.2.fragment = hop.fragment - len := by
  unfold takeFragment
  split_ifs <;> dsimp only <;> omega

/-- `((u_int) len * (u_int) HZ) / (u_int) (1000*KBps)`. -/
def slowDelay (hz : ℕ) (hop : Hop) (len : ℕ) : ℕ := u32 (len * hz : ℕ) / u32 (1000 * hop.KBps)

/-! ## The parameters stay -/

/-- The fields that only a configuration write changes. -/
structure Hop.SameParams (hop hop' : Hop) : Prop where
  KBps : hop'.KBps = hop.KBps
  delay : hop'.delay = hop.delay
  plr : hop'.plr = hop.plr
  qsize : hop'.qsize = hop.qsize
  emulator : hop'.emulator = hop.emulator
  bytespertick : hop'.bytespertick = hop.bytespertick
  id : hop'.id = hop.id
  exittickAlloc : hop'.exittickAlloc = hop.exittickAlloc
  slotlenAlloc : hop'.slotlenAlloc = hop.slotlenAlloc

namespace Hop.SameParams

theorem refl (hop : Hop) : hop.SameParams hop := ⟨rfl, rfl, rfl, rfl, rfl, rfl, rfl, rfl, rfl⟩

theorem trans {a b c : Hop} (h : a.SameParams b) (h' : b.SameParams c) : a.SameParams c :=
  ⟨h'.KBps.trans h.KBps, h'.delay.trans h.delay, h'.plr.trans h.plr, h'.qsize.trans h.qsize,
    h'.emulator.trans h.emulator, h'.bytespertick.trans h.bytespertick, h'.id.trans h.id,
    h'.exittickAlloc.trans h.exittickAlloc, h'.slotlenAlloc.trans h.slotlenAlloc⟩

theorem ringSize {a b : Hop} (h : a.SameParams b) : b.ringSize = a.ringSize := by
  unfold Hop.ringSize; rw [h.qsize]

end Hop.SameParams

theorem Hop.sameParams_dequeue (hop : Hop) : hop.SameParams hop.dequeue :=
  ⟨rfl, rfl, rfl, rfl, rfl, rfl, rfl, rfl, rfl⟩

theorem Hop.sameParams_enqueue (hop : Hop) (s len t : ℕ) : hop.SameParams (hop.enqueue s len t) :=
  ⟨rfl, rfl, rfl, rfl, rfl, rfl, rfl, rfl, rfl⟩

theorem sameParams_updateBwqLoop (tick n : ℕ) (hop : Hop) :
    hop.SameParams (updateBwqLoop tick n hop) := by
  induction n generalizing hop with
  | zero => exact Hop.SameParams.refl hop
  | succ n ih =>
    unfold updateBwqLoop
    split_ifs
    · exact hop.sameParams_dequeue.trans (ih hop.dequeue)
    · exact Hop.SameParams.refl hop

theorem sameParams_updateBwq (hop : Hop) (tick : ℕ) : hop.SameParams (updateBwq hop tick) :=
  sameParams_updateBwqLoop tick _ hop

theorem updateBwq_eq (hop : Hop) (tick : ℕ) :
    updateBwq hop tick = if hop.slotdepth ≠ 0 ∧ hop.exittick hop.headslot < tick then
      updateBwq hop.dequeue tick else hop := by
  unfold updateBwq
  cases hd : hop.slotdepth with
  | zero => simp [updateBwqLoop]
  | succ n =>
    have hn : hop.dequeue.slotdepth = n := by
      show hop.slotdepth - 1 = n
      omega
    rw [hn, updateBwqLoop]
    simp

end Modelnet
