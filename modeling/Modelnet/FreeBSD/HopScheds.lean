import Modelnet.FreeBSD.Xtq
import Modelnet.Lib.Sweep

/-!
# Unscheduling a hop

The schedulers of `mn_xtq.c` with their addresses: each one is an element of a slot of
`hop_calendar` or of `free_hop_scheds`. `xtq_unschedule_hop` walks along every slot and takes the
entries of a hop out; after each removal it moves the cursor to the next entry, and then the loop
moves it again. This file shows what the function does to the lists, and that it leaves no entry
of the hop exactly when no slot has two of them side by side.
-/

namespace Modelnet.FreeBSD

open Modelnet

def numHopScheds : ℕ := 5000

def maxAllocations : ℕ := 10

/-- The schedulers. The memory of one that has been zeroed has no content. -/
@[ext]
structure HopScheds where
  content : ℕ → Option HopSched
  hopCalendar : ℕ → List ℕ
  freeHopScheds : List ℕ
  /-- `mn.stats.hop_scheduled` -/
  hopScheduled : BitVec 32
  allocateIdx : ℕ

namespace HopScheds

/-- `hs->hop == h`. Pointers have 32 bits, so that the casts of the source lose nothing. -/
def RefersTo (s : HopScheds) (h : HopPtr) (hs : ℕ) : Prop :=
  (s.content hs).map HopSched.hop = some h

instance (s : HopScheds) (h : HopPtr) : DecidablePred (s.RefersTo h) :=
  fun _ => inferInstanceAs (Decidable (_ = _))

def entries (s : HopScheds) : List ℕ := (List.range schedLen).flatMap s.hopCalendar

/-! ## Allocation -/

/-- The addresses of a block of schedulers. -/
def blockAt (base : ℕ) : List ℕ := List.range' base numHopScheds

theorem nodup_blockAt (base : ℕ) : (blockAt base).Nodup := by
  unfold blockAt
  exact List.nodup_range' 1

/-- `malloc` of a block; one that overlaps with schedulers stands for a failure. -/
def mallocBlock (s : HopScheds) (base : Option ℕ) : Option ℕ :=
  base.filter fun b => ∀ hs ∈ blockAt b, hs ∉ s.entries ++ s.freeHopScheds

def xtqCreateHopScheds (s : HopScheds) (base : Option ℕ) : HopScheds :=
  if s.allocateIdx = maxAllocations then s
  else match s.mallocBlock base with
    | none => s
    | some b =>
      { s with
        content := fun hs => if hs ∈ blockAt b then none else s.content hs
        freeHopScheds := (blockAt b).reverse ++ s.freeHopScheds
        allocateIdx := s.allocateIdx + 1 }

def xtqGetHs (s : HopScheds) (base : Option ℕ) : HopScheds × Option ℕ :=
  let s := if s.freeHopScheds = [] then s.xtqCreateHopScheds base else s
  match s.freeHopScheds with
  | [] => (s, none)
  | hs :: free => ({ s with freeHopScheds := free }, some hs)

def xtqFreeHs (s : HopScheds) (hs : ℕ) : HopScheds :=
  { s with
    content := Function.update s.content hs none
    freeHopScheds := s.freeHopScheds ++ [hs] }

/-- `TAILQ_INSERT_TAIL(hop_calendar + slot, hs, list)`. -/
def insertTail (s : HopScheds) (slot hs : ℕ) : HopScheds :=
  { s with hopCalendar := Function.update s.hopCalendar slot (s.hopCalendar slot ++ [hs]) }

/-- `TAILQ_REMOVE(hop_calendar + slot, hs, list)`. -/
def tailqRemove (s : HopScheds) (slot hs : ℕ) : HopScheds :=
  { s with hopCalendar := Function.update s.hopCalendar slot ((s.hopCalendar slot).erase hs) }

/-- `XTQ_SCHEDULE_HOP`, in tick `tick`. -/
def xtqScheduleHop (s : HopScheds) (tick : ℕ) (h : HopPtr) (timeout : Timeout) (delay : ℕ)
    (base : Option ℕ) : HopScheds :=
  match s.xtqGetHs base with
  | (s, none) => s
  | (s, some hs) =>
    let new : HopSched := ⟨timeout, h, tick, delay⟩
    { s with
      hopScheduled := s.hopScheduled + 1
      content := Function.update s.content hs (some new) }.insertTail (calendarSlot new.due) hs

/-! ## Unscheduling -/

/-- An entry is taken out of a slot and given back. -/
def unscheduleEntry (s : HopScheds) (slot hs : ℕ) : HopScheds :=
  let s := s.tailqRemove slot hs
  let s := { s with hopScheduled := s.hopScheduled - 1 }
  s.xtqFreeHs hs

/-- The loop of `xtq_unschedule_hop` over one slot. The list holds the entries from the cursor on:
nothing in front of the cursor changes. -/
def unscheduleSlot (h : HopPtr) (slot : ℕ) : List ℕ → HopScheds → HopScheds
  | [], s => s
  | hs :: rest, s =>
    if s.RefersTo h hs then
      let s := s.unscheduleEntry slot hs
      match rest with
      | [] => s
      | _ :: rest => unscheduleSlot h slot rest s
    else unscheduleSlot h slot rest s

/-- The outer loop, over some of the slots. -/
def unscheduleSlots (h : HopPtr) (slots : List ℕ) (s : HopScheds) : HopScheds :=
  slots.foldl (fun s slot => unscheduleSlot h slot (s.hopCalendar slot) s) s

def xtqUnscheduleHop (s : HopScheds) (h : HopPtr) : HopScheds :=
  unscheduleSlots h (List.range schedLen) s

/-! ## What the loops do -/

variable {s s' : HopScheds} {h : HopPtr} {slot : ℕ} {left left' gone gone' : List ℕ}

/-- The entries `gone` of a slot have been given back, and `left` are left. -/
def sweptTo (s : HopScheds) (slot : ℕ) (left gone : List ℕ) : HopScheds :=
  { s with
    content := fun hs => if hs ∈ gone then none else s.content hs
    hopCalendar := Function.update s.hopCalendar slot left
    freeHopScheds := s.freeHopScheds ++ gone
    hopScheduled := s.hopScheduled - BitVec.ofNat 32 gone.length }

theorem sweptTo_nil (h : s.hopCalendar slot = left) : s.sweptTo slot left [] = s := by
  subst h
  simp [sweptTo]

theorem sweptTo_sweptTo (s : HopScheds) (slot : ℕ) (left left' gone gone' : List ℕ) :
    (s.sweptTo slot left gone).sweptTo slot left' gone' =
      s.sweptTo slot left' (gone ++ gone') := by
  simp only [sweptTo, Function.update_idem, List.append_assoc, List.length_append,
    BitVec.ofNat_add, BitVec.sub_sub]
  congr 1
  funext hs
  by_cases hgone : hs ∈ gone <;> simp [hgone]

theorem content_sweptTo {hs : ℕ} (hleft : hs ∉ gone) :
    (s.sweptTo slot left gone).RefersTo h hs ↔ s.RefersTo h hs := by
  simp [RefersTo, sweptTo, hleft]

theorem unscheduleEntry_eq {done rest : List ℕ} {hs : ℕ}
    (hslot : s.hopCalendar slot = done ++ hs :: rest) (hnew : hs ∉ done) :
    s.unscheduleEntry slot hs = s.sweptTo slot (done ++ rest) [hs] := by
  have herase : (s.hopCalendar slot).erase hs = done ++ rest := by
    rw [hslot, List.erase_append_right _ hnew, List.erase_cons_head]
  simp only [unscheduleEntry, tailqRemove, xtqFreeHs, sweptTo, herase, List.mem_singleton]
  congr 1
  funext a
  exact Function.update_apply s.content hs none a

/-- **One slot.** The loop sweeps the entries from the cursor on. -/
theorem unscheduleSlot_eq (s : HopScheds) (h : HopPtr) {done rest : List ℕ}
    (hslot : s.hopCalendar slot = done ++ rest) (hnodup : (done ++ rest).Nodup) :
    unscheduleSlot h slot rest s =
      s.sweptTo slot (done ++ Sweep.kept (s.RefersTo h) rest)
        (Sweep.removed (s.RefersTo h) rest) := by
  induction rest, s using unscheduleSlot.induct h slot generalizing done with
  | case1 s => rw [unscheduleSlot, Sweep.kept, Sweep.removed, sweptTo_nil hslot]
  | case2 hs s href =>
    have hnew : hs ∉ done := by simpa using (List.nodup_middle.mp hnodup).notMem
    rw [unscheduleSlot.eq_def]
    simp only [href, if_true, Sweep.kept, Sweep.removed]
    exact unscheduleEntry_eq hslot hnew
  | case3 hs s href s' next rest =>
    rename_i ih
    -- `hs` goes, and `next` is stepped over
    have hnew : hs ∉ done ∧ hs ∉ next :: rest := by
      simpa using (List.nodup_middle.mp hnodup).notMem
    have hshift : done ++ next :: rest = (done ++ [next]) ++ rest := by simp
    have hentry := unscheduleEntry_eq hslot hnew.1
    have hslot' : (s.unscheduleEntry slot hs).hopCalendar slot = (done ++ [next]) ++ rest := by
      rw [hentry, ← hshift]
      exact Function.update_self ..
    have hnodup' : ((done ++ [next]) ++ rest).Nodup := hshift ▸ (List.nodup_middle.mp hnodup).of_cons
    have hsame : ∀ a ∈ rest, (s.unscheduleEntry slot hs).RefersTo h a ↔ s.RefersTo h a := by
      intro a ha
      rw [hentry, content_sweptTo]
      rintro hgone
      rw [List.mem_singleton.mp hgone] at ha
      exact hnew.2 (List.mem_cons_of_mem _ ha)
    obtain ⟨hremoved, hkept⟩ := Sweep.removed_kept_congr hsame
    rw [unscheduleSlot.eq_def]
    simp only [if_pos href, Sweep.kept, Sweep.removed]
    calc unscheduleSlot h slot rest (s.unscheduleEntry slot hs)
        = (s.unscheduleEntry slot hs).sweptTo slot (done ++ [next] ++ Sweep.kept (s.RefersTo h) rest)
            (Sweep.removed (s.RefersTo h) rest) := by
          rw [← hkept, ← hremoved]
          exact ih hslot' hnodup'
      _ = s.sweptTo slot (done ++ next :: Sweep.kept (s.RefersTo h) rest)
            (hs :: Sweep.removed (s.RefersTo h) rest) := by
          rw [hentry, sweptTo_sweptTo, List.append_assoc, List.singleton_append,
            List.singleton_append]
  | case4 hs rest s href ih =>
    have hshift : done ++ hs :: rest = (done ++ [hs]) ++ rest := by simp
    rw [unscheduleSlot.eq_def]
    simp only [if_neg href]
    rw [ih (hslot.trans hshift) (hshift ▸ hnodup), Sweep.kept_cons_of_neg href,
      Sweep.removed_cons_of_neg href, List.append_assoc, List.singleton_append]

/-- The entries that the sweeps of some slots take out. -/
def goneFrom (s : HopScheds) (h : HopPtr) (slots : List ℕ) : List ℕ :=
  slots.flatMap fun slot => Sweep.removed (s.RefersTo h) (s.hopCalendar slot)

/-- The state after the sweeps of some slots. -/
def swept (s : HopScheds) (h : HopPtr) (slots : List ℕ) : HopScheds :=
  { s with
    content := fun hs => if hs ∈ s.goneFrom h slots then none else s.content hs
    hopCalendar := fun slot =>
      if slot ∈ slots then Sweep.kept (s.RefersTo h) (s.hopCalendar slot) else s.hopCalendar slot
    freeHopScheds := s.freeHopScheds ++ s.goneFrom h slots
    hopScheduled := s.hopScheduled - BitVec.ofNat 32 (s.goneFrom h slots).length }

theorem sweep_of_ne {other : ℕ} (hne : other ≠ slot)
    (hdisjoint : (s.hopCalendar slot).Disjoint (s.hopCalendar other)) :
    let s' := s.sweptTo slot (Sweep.kept (s.RefersTo h) (s.hopCalendar slot))
      (Sweep.removed (s.RefersTo h) (s.hopCalendar slot))
    s'.hopCalendar other = s.hopCalendar other ∧
      Sweep.removed (s'.RefersTo h) (s'.hopCalendar other) =
        Sweep.removed (s.RefersTo h) (s.hopCalendar other) ∧
      Sweep.kept (s'.RefersTo h) (s'.hopCalendar other) =
        Sweep.kept (s.RefersTo h) (s.hopCalendar other) := by
  intro s'
  have hother : s'.hopCalendar other = s.hopCalendar other := Function.update_of_ne hne ..
  have hsame : ∀ a ∈ s.hopCalendar other, s'.RefersTo h a ↔ s.RefersTo h a := fun a ha =>
    content_sweptTo fun hgone => hdisjoint (Sweep.mem_kept_or_removed.mpr (Or.inr hgone)) ha
  rw [hother]
  exact ⟨rfl, Sweep.removed_kept_congr hsame⟩

theorem unscheduleSlots_eq (s : HopScheds) (h : HopPtr) {slots : List ℕ} (hslots : slots.Nodup)
    (hnodup : (slots.flatMap s.hopCalendar).Nodup) :
    unscheduleSlots h slots s = s.swept h slots := by
  induction slots generalizing s with
  | nil => simp [unscheduleSlots, swept, goneFrom]
  | cons slot slots ih =>
    rw [List.flatMap_cons, List.nodup_append'] at hnodup
    obtain ⟨hslot, hrest, hdisjoint⟩ := hnodup
    rw [List.nodup_cons] at hslots
    set s' := s.sweptTo slot (Sweep.kept (s.RefersTo h) (s.hopCalendar slot))
      (Sweep.removed (s.RefersTo h) (s.hopCalendar slot)) with hs'
    have hother : ∀ other ∈ slots, s'.hopCalendar other = s.hopCalendar other ∧
        Sweep.removed (s'.RefersTo h) (s'.hopCalendar other) =
          Sweep.removed (s.RefersTo h) (s.hopCalendar other) ∧
        Sweep.kept (s'.RefersTo h) (s'.hopCalendar other) =
          Sweep.kept (s.RefersTo h) (s.hopCalendar other) := by
      intro other hmem
      refine sweep_of_ne (fun heq => hslots.1 (heq ▸ hmem)) fun a ha hb => ?_
      exact hdisjoint ha (List.mem_flatMap.mpr ⟨other, hmem, hb⟩)
    have hcalendar : slots.flatMap s'.hopCalendar = slots.flatMap s.hopCalendar :=
      List.flatMap_congr fun other hmem => (hother other hmem).1
    have hgone : s'.goneFrom h slots = s.goneFrom h slots :=
      List.flatMap_congr fun other hmem => (hother other hmem).2.1
    have hnone : s.hopCalendar slot = [] ++ s.hopCalendar slot := rfl
    have hfirst : unscheduleSlot h slot (s.hopCalendar slot) s = s' :=
      unscheduleSlot_eq s h hnone hslot
    calc unscheduleSlots h (slot :: slots) s
        = unscheduleSlots h slots (unscheduleSlot h slot (s.hopCalendar slot) s) := rfl
      _ = s'.swept h slots := by rw [hfirst, ih s' hslots.2 (hcalendar ▸ hrest)]
      _ = s.swept h (slot :: slots) := by
        have hcons : s.goneFrom h (slot :: slots) =
            Sweep.removed (s.RefersTo h) (s.hopCalendar slot) ++ s.goneFrom h slots := rfl
        refine HopScheds.ext ?_ ?_ ?_ ?_ rfl
        · funext a
          simp only [swept, hgone, hcons, List.mem_append]
          by_cases ha : a ∈ s.goneFrom h slots <;> simp [ha, hs', sweptTo]
        · funext other
          by_cases hself : other = slot
          · subst hself
            simp [swept, hslots.1, hs', sweptTo]
          · by_cases hmem : other ∈ slots
            · simp [swept, hmem, (hother other hmem).2.2]
            · simp [swept, hmem, hself, hs', sweptTo]
        · simp only [swept, hgone, hcons]
          simp [hs', sweptTo]
        · simp only [swept, hgone, hcons]
          simp [hs', sweptTo, BitVec.ofNat_add, BitVec.sub_sub]

/-! ## Schedulers that are linked as they should be -/

/-- A scheduler is in one place: in one slot or on the free list, and there once. -/
def Placed (s : HopScheds) : Prop := (s.entries ++ s.freeHopScheds).Nodup

theorem xtqUnscheduleHop_eq (hplaced : s.Placed) (h : HopPtr) :
    s.xtqUnscheduleHop h = s.swept h (List.range schedLen) :=
  unscheduleSlots_eq s h List.nodup_range hplaced.of_append_left

theorem entries_swept_append_gone_perm (s : HopScheds) (h : HopPtr) :
    ((s.swept h (List.range schedLen)).entries ++ s.goneFrom h (List.range schedLen)).Perm
      s.entries := by
  have hkept : (s.swept h (List.range schedLen)).entries = (List.range schedLen).flatMap fun slot =>
      Sweep.kept (s.RefersTo h) (s.hopCalendar slot) := by
    refine List.flatMap_congr fun slot hslot => ?_
    simp only [swept, hslot, if_true]
  rw [hkept]
  exact (List.flatMap_append_perm _ _ _).trans
    (List.Perm.flatMap_left _ fun slot _ => Sweep.kept_append_removed_perm _ _)

theorem Placed.xtqUnscheduleHop (hplaced : s.Placed) (h : HopPtr) :
    (s.xtqUnscheduleHop h).Placed := by
  rw [xtqUnscheduleHop_eq hplaced]
  set gone := s.goneFrom h (List.range schedLen) with hgone
  have hperm : ((s.swept h (List.range schedLen)).entries ++ (s.freeHopScheds ++ gone)).Perm
      (s.entries ++ s.freeHopScheds) := by
    calc (s.swept h (List.range schedLen)).entries ++ (s.freeHopScheds ++ gone)
        |>.Perm ((s.swept h (List.range schedLen)).entries ++ (gone ++ s.freeHopScheds)) :=
          List.perm_append_comm.append_left _
      _ |>.Perm (s.entries ++ s.freeHopScheds) := by
          rw [← List.append_assoc]
          exact (entries_swept_append_gone_perm s h).append_right _
  exact hperm.nodup_iff.mpr hplaced

/-! ## Scheduling -/

theorem entries_insertTail_perm (s : HopScheds) (hslot : slot < schedLen) (hs : ℕ) :
    ((s.insertTail slot hs).entries).Perm (hs :: s.entries) := by
  have hmem : slot ∈ List.range schedLen := List.mem_range.mpr hslot
  have hsplit : ∀ f : ℕ → List ℕ, ((List.range schedLen).flatMap f).Perm
      (f slot ++ ((List.range schedLen).erase slot).flatMap f) :=
    fun f => (List.perm_cons_erase hmem).flatMap_right f
  have hothers : ((List.range schedLen).erase slot).flatMap (s.insertTail slot hs).hopCalendar =
      ((List.range schedLen).erase slot).flatMap s.hopCalendar :=
    List.flatMap_congr fun other hother =>
      Function.update_of_ne ((List.nodup_range.mem_erase_iff.mp hother).1) ..
  have hself : (s.insertTail slot hs).hopCalendar slot = s.hopCalendar slot ++ [hs] :=
    Function.update_self ..
  refine (hsplit _).trans ?_
  rw [hothers, hself, List.append_assoc, List.singleton_append]
  exact List.perm_middle.trans ((hsplit _).symm.cons hs)

theorem Placed.xtqCreateHopScheds (hplaced : s.Placed) (base : Option ℕ) :
    (s.xtqCreateHopScheds base).Placed := by
  unfold HopScheds.xtqCreateHopScheds
  split_ifs
  · exact hplaced
  · cases hblock : s.mallocBlock base with
    | none => exact hplaced
    | some b =>
      have hfresh : ∀ hs ∈ blockAt b, hs ∉ s.entries ++ s.freeHopScheds := by
        simpa using (Option.filter_eq_some_iff.mp hblock).2
      have hperm : (s.entries ++ ((blockAt b).reverse ++ s.freeHopScheds)).Perm
          (blockAt b ++ (s.entries ++ s.freeHopScheds)) := by
        have hreverse := (blockAt b).reverse_perm.append_right s.freeHopScheds
        exact (hreverse.append_left s.entries).trans (List.perm_append_comm_assoc _ _ _)
      show (s.entries ++ ((blockAt b).reverse ++ s.freeHopScheds)).Nodup
      rw [hperm.nodup_iff]
      exact (nodup_blockAt b).append hplaced fun hs hnew hold => hfresh hs hnew hold

theorem Placed.xtqGetHs (hplaced : s.Placed) (base : Option ℕ) :
    (s.xtqGetHs base).1.Placed ∧
      ∀ hs, (s.xtqGetHs base).2 = some hs →
        hs ∉ (s.xtqGetHs base).1.entries ++ (s.xtqGetHs base).1.freeHopScheds := by
  unfold HopScheds.xtqGetHs
  have hready : (if s.freeHopScheds = [] then s.xtqCreateHopScheds base else s).Placed := by
    split_ifs
    · exact hplaced.xtqCreateHopScheds base
    · exact hplaced
  generalize (if s.freeHopScheds = [] then s.xtqCreateHopScheds base else s) = t at hready ⊢
  dsimp only
  cases hfree : t.freeHopScheds with
  | nil => exact ⟨hready, fun hs hno => nomatch hno⟩
  | cons a free =>
    have hnodup : (t.entries ++ a :: free).Nodup := hfree ▸ hready
    have hmiddle := List.nodup_middle.mp hnodup
    refine ⟨hmiddle.of_cons, fun hs hhs => ?_⟩
    cases hhs
    exact hmiddle.notMem

theorem Placed.xtqScheduleHop (hplaced : s.Placed) (tick : ℕ) (h : HopPtr) (timeout : Timeout)
    (delay : ℕ) (base : Option ℕ) : (s.xtqScheduleHop tick h timeout delay base).Placed := by
  unfold HopScheds.xtqScheduleHop
  obtain ⟨hready, hnew⟩ := hplaced.xtqGetHs base
  generalize s.xtqGetHs base = r at hready hnew
  obtain ⟨t, hs⟩ := r
  cases hs with
  | none => exact hready
  | some a =>
    dsimp only at hready hnew ⊢
    have hslot : calendarSlot (⟨timeout, h, tick, delay⟩ : HopSched).due < schedLen :=
      calendarSlot_lt _
    refine ((entries_insertTail_perm _ hslot a).append_right _).nodup_iff.mpr ?_
    rw [List.cons_append, List.nodup_cons]
    exact ⟨hnew a rfl, hready⟩

/-! ## The calendar without addresses -/

/-- The entries of a slot, as the rest of the model has them. -/
def timers (s : HopScheds) (slot : ℕ) : List HopSched := (s.hopCalendar slot).filterMap s.content

theorem timers_congr (hcalendar : s'.hopCalendar slot = s.hopCalendar slot)
    (hcontent : ∀ hs ∈ s.hopCalendar slot, s'.content hs = s.content hs) :
    s'.timers slot = s.timers slot := by
  unfold timers
  rw [hcalendar]
  exact List.filterMap_congr hcontent

theorem mem_entries {hs : ℕ} : hs ∈ s.entries ↔ ∃ slot < schedLen, hs ∈ s.hopCalendar slot := by
  simp [entries]

theorem xtqGetHs_frame (s : HopScheds) (base : Option ℕ) :
    (s.xtqGetHs base).1.hopCalendar = s.hopCalendar ∧
      ∀ hs ∈ s.entries, (s.xtqGetHs base).1.content hs = s.content hs := by
  have hcreate : (s.xtqCreateHopScheds base).hopCalendar = s.hopCalendar ∧
      ∀ hs ∈ s.entries, (s.xtqCreateHopScheds base).content hs = s.content hs := by
    unfold xtqCreateHopScheds
    split_ifs
    · exact ⟨rfl, fun _ _ => rfl⟩
    · cases hblock : s.mallocBlock base with
      | none => exact ⟨rfl, fun _ _ => rfl⟩
      | some b =>
        refine ⟨rfl, fun hs hentry => if_neg fun hnew => ?_⟩
        have hfresh : ∀ hs ∈ blockAt b, hs ∉ s.entries ++ s.freeHopScheds := by
          simpa using (Option.filter_eq_some_iff.mp hblock).2
        exact hfresh hs hnew (List.mem_append_left _ hentry)
  unfold xtqGetHs
  by_cases hempty : s.freeHopScheds = []
  · simp only [if_pos hempty]
    cases (s.xtqCreateHopScheds base).freeHopScheds <;> exact hcreate
  · simp only [if_neg hempty]
    cases s.freeHopScheds <;> exact ⟨rfl, fun _ _ => rfl⟩

/-- **Scheduling** does to the calendar with addresses what it does to the one without. -/
theorem timers_xtqScheduleHop (hplaced : s.Placed) {st : XtqState} (h : HopPtr) (timeout : Timeout)
    (delay : ℕ) (base : Option ℕ) (hst : ∀ slot < schedLen, st.hopCalendar slot = s.timers slot) :
    ∀ slot < schedLen,
      (st.scheduleHop h timeout delay (s.xtqGetHs base).2.isSome).hopCalendar slot =
        (s.xtqScheduleHop st.calendarTick h timeout delay base).timers slot := by
  intro slot hslot
  obtain ⟨hcalendar, hcontent⟩ := s.xtqGetHs_frame base
  have hnew := (hplaced.xtqGetHs base).2
  unfold xtqScheduleHop XtqState.scheduleHop
  generalize s.xtqGetHs base = r at hcalendar hcontent hnew
  obtain ⟨t, hs⟩ := r
  have hentries : t.entries = s.entries := by
    unfold entries
    rw [show t.hopCalendar = s.hopCalendar from hcalendar]
  have htimers : ∀ slot < schedLen, t.timers slot = s.timers slot := fun slot hslot =>
    timers_congr (congrFun hcalendar slot) fun hs hmem =>
      hcontent hs (mem_entries.mpr ⟨slot, hslot, hmem⟩)
  cases hs with
  | none => exact (hst slot hslot).trans (htimers slot hslot).symm
  | some a =>
    have hfresh : a ∉ t.entries := fun hentry => hnew a rfl (List.mem_append_left _ hentry)
    have hothers : ∀ slot < schedLen, ∀ hs ∈ t.hopCalendar slot, hs ≠ a := by
      rintro slot hslot hs hmem rfl
      exact hfresh (mem_entries.mpr ⟨slot, hslot, hmem⟩)
    set new : HopSched := ⟨timeout, h, st.calendarTick, delay⟩
    simp only [Option.isSome_some, if_true]
    by_cases hdue : slot = calendarSlot new.due
    · subst hdue
      have hold : (t.hopCalendar (calendarSlot new.due)).filterMap
          (Function.update t.content a (some new)) = t.timers (calendarSlot new.due) :=
        List.filterMap_congr fun hs hmem => Function.update_of_ne (hothers _ hslot hs hmem) ..
      simp only [timers, insertTail, Function.update_self, List.filterMap_append]
      rw [hold, hst _ hslot, ← htimers _ hslot]
      simp
    · simp only [timers, insertTail, Function.update_of_ne hdue]
      rw [hst _ hslot, ← htimers _ hslot]
      exact (List.filterMap_congr fun hs hmem =>
        Function.update_of_ne (hothers _ hslot hs hmem) ..).symm

/-! ## What the function is for -/

/-- A hop has been unscheduled: no entry of the hop is left, those of other hops are all there
in their order, the count goes down by the number of entries taken out, and each of these is on the
free list once. -/
structure Unscheduled (s : HopScheds) (h : HopPtr) (s' : HopScheds) : Prop where
  gone : ∀ slot < schedLen, ∀ hs ∈ s'.hopCalendar slot, ¬ s'.RefersTo h hs
  others : ∀ slot < schedLen, (s'.hopCalendar slot).filter (fun hs => ¬ s.RefersTo h hs) =
    (s.hopCalendar slot).filter fun hs => ¬ s.RefersTo h hs
  contents : ∀ hs ∈ s'.entries, s'.content hs = s.content hs
  count : s'.hopScheduled =
    s.hopScheduled - BitVec.ofNat 32 (s.entries.length - s'.entries.length)
  freed : ∀ hs ∈ s.entries, hs ∉ s'.entries → s'.freeHopScheds.count hs = 1

/-- No slot has two entries of the hop side by side. -/
def Apart (s : HopScheds) (h : HopPtr) : Prop :=
  ∀ slot < schedLen, (s.hopCalendar slot).IsChain fun a b => ¬ (s.RefersTo h a ∧ s.RefersTo h b)

theorem notMem_goneFrom (hplaced : s.Placed) {hs : ℕ}
    (hleft : hs ∈ (s.swept h (List.range schedLen)).entries) :
    hs ∉ s.goneFrom h (List.range schedLen) := by
  have hnodup := (entries_swept_append_gone_perm s h).nodup_iff.mpr hplaced.of_append_left
  exact fun hgone => (List.nodup_append'.mp hnodup).2.2 hleft hgone

theorem content_swept (hplaced : s.Placed) {hs : ℕ}
    (hleft : hs ∈ (s.swept h (List.range schedLen)).entries) :
    (s.swept h (List.range schedLen)).content hs = s.content hs := by
  have hgone := notMem_goneFrom hplaced hleft
  simp only [swept, hgone, if_false]

theorem hopCalendar_swept (s : HopScheds) (h : HopPtr) (hslot : slot < schedLen) :
    (s.swept h (List.range schedLen)).hopCalendar slot =
      Sweep.kept (s.RefersTo h) (s.hopCalendar slot) := by
  simp only [swept, List.mem_range.mpr hslot, if_true]

/-- Whether an entry of the hop is left is a matter of neighbours. -/
theorem gone_iff (hplaced : s.Placed) (h : HopPtr) :
    (∀ slot < schedLen, ∀ hs ∈ (s.swept h (List.range schedLen)).hopCalendar slot,
      ¬ (s.swept h (List.range schedLen)).RefersTo h hs) ↔ s.Apart h := by
  refine forall₂_congr fun slot hslot => ?_
  rw [← Sweep.forall_kept_iff, hopCalendar_swept s h hslot]
  refine forall₂_congr fun hs hkept => ?_
  have hleft : hs ∈ (s.swept h (List.range schedLen)).entries :=
    mem_entries.mpr ⟨slot, hslot, (hopCalendar_swept s h hslot).symm ▸ hkept⟩
  unfold RefersTo
  rw [content_swept hplaced hleft]

/-- The free list gets every entry that is taken out, and gets it once. -/
theorem count_freeHopScheds (hplaced : s.Placed) {hs : ℕ} (hentry : hs ∈ s.entries)
    (hgone : hs ∉ (s.swept h (List.range schedLen)).entries) :
    (s.swept h (List.range schedLen)).freeHopScheds.count hs = 1 := by
  have hswept : (s.swept h (List.range schedLen)).Placed := by
    rw [← xtqUnscheduleHop_eq hplaced]
    exact hplaced.xtqUnscheduleHop h
  have hmem : hs ∈ s.goneFrom h (List.range schedLen) :=
    (List.mem_append.mp ((entries_swept_append_gone_perm s h).mem_iff.mpr hentry)).resolve_left hgone
  exact List.count_eq_one_of_mem hswept.of_append_right (List.mem_append_right _ hmem)

theorem unscheduled_swept (hplaced : s.Placed) (h : HopPtr)
    (hgone : ∀ slot < schedLen, ∀ hs ∈ (s.swept h (List.range schedLen)).hopCalendar slot,
      ¬ (s.swept h (List.range schedLen)).RefersTo h hs) :
    Unscheduled s h (s.swept h (List.range schedLen)) where
  gone := hgone
  others := by
    intro slot hslot
    rw [hopCalendar_swept s h hslot]
    exact Sweep.filter_kept _ _
  contents := fun hs hleft => content_swept hplaced hleft
  count := by
    have hlength := (entries_swept_append_gone_perm s h).length_eq
    rw [List.length_append] at hlength
    rw [← hlength, Nat.add_sub_cancel_left]
    rfl
  freed := fun hs hentry hleft => count_freeHopScheds hplaced hentry hleft

end HopScheds

structure PlacedHopScheds extends HopScheds where
  placed : toHopScheds.Placed

namespace PlacedHopScheds

variable {q : PlacedHopScheds} {h : HopPtr}

/-- Some schedulers, all of them free. -/
def free (l : List ℕ) (hl : l.Nodup) : PlacedHopScheds where
  content := fun _ => none
  hopCalendar := fun _ => []
  freeHopScheds := l
  hopScheduled := 0
  allocateIdx := 0
  placed := by
    unfold HopScheds.Placed HopScheds.entries
    rw [List.flatMap_eq_nil_iff.mpr fun _ _ => rfl, List.nil_append]
    exact hl

def xtqScheduleHop (q : PlacedHopScheds) (tick : ℕ) (h : HopPtr) (timeout : Timeout) (delay : ℕ)
    (base : Option ℕ) : PlacedHopScheds where
  toHopScheds := q.toHopScheds.xtqScheduleHop tick h timeout delay base
  placed := q.placed.xtqScheduleHop tick h timeout delay base

def xtqUnscheduleHop (q : PlacedHopScheds) (h : HopPtr) : PlacedHopScheds where
  toHopScheds := q.toHopScheds.xtqUnscheduleHop h
  placed := q.placed.xtqUnscheduleHop h

theorem toHopScheds_xtqUnscheduleHop (q : PlacedHopScheds) (h : HopPtr) :
    (q.xtqUnscheduleHop h).toHopScheds = q.swept h (List.range schedLen) := by
  have heq := HopScheds.xtqUnscheduleHop_eq q.placed h
  unfold xtqUnscheduleHop
  dsimp only
  exact heq

theorem apart_of_unscheduled
    (hdone : q.Unscheduled h (q.xtqUnscheduleHop h).toHopScheds) : q.Apart h := by
  rw [toHopScheds_xtqUnscheduleHop] at hdone
  exact (HopScheds.gone_iff q.placed h).mp hdone.gone

/-- **Unscheduling a hop.** `xtq_unschedule_hop` does what it is for exactly when no slot has two
entries of the hop side by side: the loop does not look at the entry behind one that it has taken
out. -/
theorem unscheduled_iff (q : PlacedHopScheds) (h : HopPtr) :
    q.Unscheduled h (q.xtqUnscheduleHop h).toHopScheds ↔ q.Apart h := by
  refine ⟨apart_of_unscheduled, fun hapart => ?_⟩
  rw [toHopScheds_xtqUnscheduleHop]
  exact HopScheds.unscheduled_swept q.placed h ((HopScheds.gone_iff q.placed h).mpr hapart)

/-- Both timeouts of a hop, due in the same tick. -/
def bothTimeouts : PlacedHopScheds :=
  ((free [1, 2] (by decide)).xtqScheduleHop 0 ⟨0, 0⟩ .tq 3 none).xtqScheduleHop 0 ⟨0, 0⟩ .te 3 none

/-- The second one stays on the calendar. -/
theorem not_unscheduled_bothTimeouts :
    ¬ bothTimeouts.Unscheduled ⟨0, 0⟩ (bothTimeouts.xtqUnscheduleHop ⟨0, 0⟩).toHopScheds := by
  intro hdone
  have hslot : bothTimeouts.hopCalendar 3 = [1, 2] := by decide
  have hchain := apart_of_unscheduled hdone 3 (by decide)
  rw [hslot, List.isChain_cons_cons] at hchain
  exact hchain.1 ⟨by decide, by decide⟩

end PlacedHopScheds

end Modelnet.FreeBSD
