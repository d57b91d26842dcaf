import Mathlib.Data.Finset.Basic
import Mathlib.Data.Fintype.Basic
import Mathlib.Data.List.Sort
import Modelnet.Lib.Run

/-!
# Pipe reassignment

`reassign.cpp` hands pipes over from core to core. It reads the changes, makes up to three stages of
entries for each core, sends each core of the hosts file its stages and then starts one stage after
the other on all cores at once: the next stage starts when every core has answered that it has done
the one before. An entry sets the owner of a pipe at its core, where 0 stands for the core itself.
Both ends swap the bytes of what goes over the wire, so numbers stand in host order here.
-/

namespace Modelnet.Tools

/-! ## The files -/

/-- A line of the change file. -/
structure Change where
  nr : ℤ
  c1 : ℤ
  c2 : ℤ

/-- The addresses of the emulators of the hosts file, in its order. -/
structure Hosts where
  addrs : List (BitVec 32)
  distinct : addrs.Nodup
  nonzero : 0 ∉ addrs

/-- A core of the hosts file, by its number there. -/
abbrev Hosts.Core (H : Hosts) : Type := Fin H.addrs.length

def Hosts.addr (H : Hosts) (x : H.Core) : BitVec 32 := H.addrs.get x

/-- `coreToIP[c]`: what is not in the map reads as 0. -/
def Hosts.coreToIP (H : Hosts) (c : ℤ) : BitVec 32 :=
  if 0 ≤ c then H.addrs.getD c.toNat 0 else 0

/-- `cores.insert`, for a `set<int>`. -/
def insertCore (cores : List ℤ) (c : ℤ) : List ℤ :=
  if c ∈ cores then cores else cores.orderedInsert (· ≤ ·) c

def readCores (changes : List Change) : List ℤ :=
  changes.foldl (fun cores ch => insertCore (insertCore cores ch.c1) ch.c2) []

/-! ## The stages -/

structure ReassignEntry where
  pipeNr : ℤ
  owner : BitVec 32
  deriving DecidableEq

abbrev Stage : Type := List ReassignEntry

/-- `stagesFor[c][stage].push_back(entry)`. -/
def pushBack (stagesFor : ℤ → List Stage) (c : ℤ) (stage : ℕ) (entry : ReassignEntry) :
    ℤ → List Stage :=
  Function.update stagesFor c ((stagesFor c).modify stage (· ++ [entry]))

/-- The body of the inner loop of `makeStages`. -/
def addEntry (H : Hosts) (ch : Change) (stagesFor : ℤ → List Stage) (it : ℤ) : ℤ → List Stage :=
  if it = ch.c1 then pushBack stagesFor it 1 ⟨ch.nr, H.coreToIP ch.c2⟩
  else if it = ch.c2 then pushBack stagesFor it 0 ⟨ch.nr, 0⟩
  else pushBack stagesFor it 2 ⟨ch.nr, H.coreToIP ch.c2⟩

def makeStages (H : Hosts) (changes : List Change) : ℤ → List Stage :=
  let cores := readCores changes
  let stagesFor := cores.foldl
    (fun stagesFor it => Function.update stagesFor it (List.replicate 3 [])) fun _ => []
  changes.foldl (fun stagesFor ch => cores.foldl (addEntry H ch) stagesFor) stagesFor

/-- The entries of a stage at a core; a core with fewer stages does nothing. -/
def stageOf (H : Hosts) (changes : List Change) (c : ℤ) (stage : ℕ) : Stage :=
  (makeStages H changes c).getD stage []

/-! ## The cores under `reassign` -/

/-- How far a call of `reassign` has come: what each core has not done yet of the current stage. -/
structure Progress (H : Hosts) where
  changes : List Change
  stage : ℕ
  todo : H.Core → Stage

/-- The owner fields of the pipes at each core, and the call of `reassign` that is under way. -/
structure Cluster (H : Hosts) where
  owner : H.Core → ℤ → BitVec 32
  progress : Option (Progress H)

/-- What happens: a call of `reassign`, a core applies an entry, every core has answered. -/
inductive Event (H : Hosts)
  | reassign (changes : List Change)
  | apply (x : H.Core) (entry : ReassignEntry)
  | answered

variable {H : Hosts}

/-- `doStage`: every core of the hosts file is told to start. -/
def doStage (H : Hosts) (changes : List Change) (stage : ℕ) : Progress H :=
  ⟨changes, stage, fun x => stageOf H changes x.val stage⟩

def setOwner (owner : H.Core → ℤ → BitVec 32) (x : H.Core) (entry : ReassignEntry) :
    H.Core → ℤ → BitVec 32 :=
  Function.update owner x (Function.update (owner x) entry.pipeNr entry.owner)

/-- One event. A core may apply the entries of its stage in any order. -/
def Cluster.step (s : Cluster H) : Event H → Option (Cluster H)
  | .reassign changes =>
    match s.progress with
    | none => some { s with progress := some (doStage H changes 0) }
    | some _ => none
  | .apply x entry =>
    match s.progress with
    | some p =>
      if entry ∈ p.todo x then
        some ⟨setOwner s.owner x entry,
          some { p with todo := Function.update p.todo x ((p.todo x).erase entry) }⟩
      else none
    | none => none
  | .answered =>
    match s.progress with
    | some p =>
      if ∀ x, p.todo x = [] then
        -- the loop of `main` over the three stages
        some { s with progress :=
          if p.stage + 1 < 3 then some (doStage H p.changes (p.stage + 1)) else none }
      else none
    | none => none

/-- The owner fields as `modelload` loads them, for the emulator that each pipe is assigned to. -/
def loaded (H : Hosts) (home : ℤ → ℤ) : Cluster H where
  owner := fun x nr =>
    if H.addr x = H.coreToIP (home nr) then 0 else H.coreToIP (home nr)
  progress := none

/-- Where the owner field of a pipe points. -/
def Cluster.points (s : Cluster H) (nr : ℤ) (x y : H.Core) : Prop := s.owner x nr = H.addr y

/-- The cores that own a pipe locally. -/
def Cluster.owning (s : Cluster H) (nr : ℤ) : Set H.Core := { x | s.owner x nr = 0 }

/-! ## Addresses -/

theorem Hosts.addr_ne_zero (x : H.Core) : H.addr x ≠ 0 := by
  intro h
  exact H.nonzero (h ▸ List.get_mem H.addrs x)

theorem Hosts.addr_injective : Function.Injective H.addr :=
  List.nodup_iff_injective_get.mp H.distinct

theorem Hosts.coreToIP_core (x : H.Core) : H.coreToIP x.val = H.addr x := by
  have hget : H.addrs.getD x.val 0 = H.addrs.get x := by simp
  simp [coreToIP, addr]

/-- The address of a number is that of a core of the hosts file, or there is no such core. -/
theorem Hosts.coreToIP_cases (H : Hosts) (c : ℤ) :
    (∃ x : H.Core, (x.val : ℤ) = c ∧ H.coreToIP c = H.addr x) ∨
      (∀ x : H.Core, (x.val : ℤ) ≠ c) ∧ H.coreToIP c = 0 := by
  by_cases hc : ∃ x : H.Core, (x.val : ℤ) = c
  · obtain ⟨x, rfl⟩ := hc
    exact .inl ⟨x, rfl, H.coreToIP_core x⟩
  · have hnone : ∀ x : H.Core, (x.val : ℤ) ≠ c := fun x hx => hc ⟨x, hx⟩
    refine .inr ⟨hnone, ?_⟩
    unfold coreToIP
    split_ifs with hpos
    · have hlen : H.addrs.length ≤ c.toNat := by
        by_contra hlt
        exact hnone ⟨c.toNat, by omega⟩ (Int.toNat_of_nonneg hpos)
      simp [List.getD_eq_getElem?_getD, List.getElem?_eq_none hlen]
    · rfl

/-! ## What the stages hold -/

theorem mem_insertCore {cores : List ℤ} {c x : ℤ} : x ∈ insertCore cores c ↔ x = c ∨ x ∈ cores := by
  unfold insertCore
  split_ifs with hc
  · constructor
    · exact Or.inr
    · rintro (rfl | hx)
      exacts [hc, hx]
  · exact List.mem_orderedInsert _

theorem nodup_insertCore {cores : List ℤ} (h : cores.Nodup) (c : ℤ) :
    (insertCore cores c).Nodup := by
  unfold insertCore
  split_ifs with hc
  · exact h
  · exact (List.perm_orderedInsert _ c cores).nodup_iff.mpr (List.nodup_cons.mpr ⟨hc, h⟩)

theorem nodup_readCores (changes : List Change) : (readCores changes).Nodup := by
  refine List.foldlRecOn changes _ List.nodup_nil fun cores h ch _ => ?_
  exact nodup_insertCore (nodup_insertCore h _) _

theorem mem_readCores {changes : List Change} {x : ℤ} :
    x ∈ readCores changes ↔ ∃ ch ∈ changes, x = ch.c1 ∨ x = ch.c2 := by
  suffices h : ∀ cores : List ℤ,
      x ∈ changes.foldl (fun cores ch => insertCore (insertCore cores ch.c1) ch.c2) cores ↔
        x ∈ cores ∨ ∃ ch ∈ changes, x = ch.c1 ∨ x = ch.c2 by
    simpa [readCores] using h []
  intro cores
  induction changes generalizing cores with
  | nil => simp
  | cons ch changes ih =>
    simp only [List.foldl_cons, ih, mem_insertCore, List.mem_cons, exists_eq_or_imp]
    grind

/-- The stage in which a core learns of a change: first the new owner, then the old one, then the
others. -/
def Change.stage (ch : Change) (x : ℤ) : ℕ := if x = ch.c1 then 1 else if x = ch.c2 then 0 else 2

/-- What a core learns of a change. -/
def Change.entry (H : Hosts) (ch : Change) (x : ℤ) : ReassignEntry :=
  ⟨ch.nr, if x ≠ ch.c1 ∧ x = ch.c2 then 0 else H.coreToIP ch.c2⟩

@[simp] theorem Change.entry_pipeNr (H : Hosts) (ch : Change) (x : ℤ) :
    (ch.entry H x).pipeNr = ch.nr := rfl

theorem addEntry_eq (H : Hosts) (ch : Change) (stagesFor : ℤ → List Stage) (it : ℤ) :
    addEntry H ch stagesFor it = pushBack stagesFor it (ch.stage it) (ch.entry H it) := by
  unfold addEntry Change.stage Change.entry
  split_ifs <;> simp_all

theorem foldl_update {α β : Type*} [DecidableEq α] (g : α → β → β) {l : List α} (hl : l.Nodup)
    (f : α → β) (x : α) :
    l.foldl (fun f it => Function.update f it (g it (f it))) f x =
      if x ∈ l then g x (f x) else f x := by
  induction l generalizing f with
  | nil => rfl
  | cons a l ih =>
    obtain ⟨ha, hl⟩ := List.nodup_cons.mp hl
    rw [List.foldl_cons, ih hl]
    by_cases hx : x = a
    · subst hx
      simp [ha]
    · simp [hx]

theorem foldl_addEntry (H : Hosts) (ch : Change) {cores : List ℤ} (hnodup : cores.Nodup)
    (stagesFor : ℤ → List Stage) (x : ℤ) :
    cores.foldl (addEntry H ch) stagesFor x =
      if x ∈ cores then (stagesFor x).modify (ch.stage x) (· ++ [ch.entry H x])
      else stagesFor x := by
  have hturn : addEntry H ch = fun stagesFor it => Function.update stagesFor it
      ((stagesFor it).modify (ch.stage it) (· ++ [ch.entry H it])) := by
    funext stagesFor it
    exact addEntry_eq H ch stagesFor it
  rw [hturn]
  exact foldl_update (fun it st => st.modify (ch.stage it) (· ++ [ch.entry H it])) hnodup
    stagesFor x

theorem makeStages_eq (H : Hosts) (changes : List Change) (x : ℤ) :
    makeStages H changes x =
      if x ∈ readCores changes then
        changes.foldl (fun st ch => st.modify (ch.stage x) (· ++ [ch.entry H x])) [[], [], []]
      else [] := by
  have hnodup := nodup_readCores changes
  unfold makeStages
  generalize readCores changes = cores at hnodup ⊢
  have hinit := foldl_update (fun _ (_ : List Stage) => List.replicate 3 []) hnodup (fun _ => []) x
  revert hinit
  generalize cores.foldl (fun stagesFor it => Function.update stagesFor it _) _ = stagesFor
  intro hinit
  have hloop : ∀ stagesFor : ℤ → List Stage,
      changes.foldl (fun stagesFor ch => cores.foldl (addEntry H ch) stagesFor) stagesFor x =
        if x ∈ cores then
          changes.foldl (fun st ch => st.modify (ch.stage x) (· ++ [ch.entry H x])) (stagesFor x)
        else stagesFor x := by
    intro stagesFor
    induction changes generalizing stagesFor with
    | nil => simp
    | cons ch changes ih =>
      rw [List.foldl_cons, ih, List.foldl_cons, foldl_addEntry H ch hnodup]
      split_ifs <;> rfl
  rw [hloop, hinit]
  split_ifs <;> rfl

theorem Change.stage_lt (ch : Change) (x : ℤ) : ch.stage x < 3 := by
  unfold Change.stage
  split_ifs <;> decide

/-- **What the stages hold**: a core that the changes mention learns of each change in its stage,
the other cores learn nothing. -/
theorem mem_stageOf {changes : List Change} {x : ℤ} {k : ℕ} {e : ReassignEntry} :
    e ∈ stageOf H changes x k ↔
      x ∈ readCores changes ∧ ∃ ch ∈ changes, ch.stage x = k ∧ e = ch.entry H x := by
  unfold stageOf
  rw [makeStages_eq]
  split_ifs with hx
  · simp only [hx, true_and]
    have hloop : ∀ st : List Stage, st.length = 3 →
        (e ∈ (changes.foldl (fun st ch => st.modify (ch.stage x) (· ++ [ch.entry H x])) st).getD
          k [] ↔ e ∈ st.getD k [] ∨ ∃ ch ∈ changes, ch.stage x = k ∧ e = ch.entry H x) := by
      clear hx
      induction changes with
      | nil => simp
      | cons ch changes ih =>
        intro st hst
        rw [List.foldl_cons, ih _ (by simpa using hst)]
        have hlt := ch.stage_lt x
        have hone : e ∈ (st.modify (ch.stage x) (· ++ [ch.entry H x])).getD k [] ↔
            e ∈ st.getD k [] ∨ ch.stage x = k ∧ e = ch.entry H x := by
          simp only [List.getD_eq_getElem?_getD, List.getElem?_modify]
          by_cases hk : ch.stage x = k
          · subst hk
            simp [List.getElem?_eq_getElem (hst ▸ hlt)]
          · simp [hk]
        rw [hone]
        simp only [List.mem_cons, exists_eq_or_imp]
        tauto
    rw [hloop _ rfl]
    have hnil : ([[], [], []] : List Stage).getD k [] = [] := by
      match k with
      | 0 | 1 | 2 | k + 3 => rfl
    rw [hnil]
    simp only [List.not_mem_nil, false_or]
  · simp [hx]

end Modelnet.Tools
