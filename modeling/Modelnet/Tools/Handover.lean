import Modelnet.Lib.Pointers
import Modelnet.Tools.Reassign

/-!
# Handover of pipes

What the owner fields say while `reassign` runs. At every time, whoever follows the owner fields of
a pipe comes to a core that owns it (`Routable`): the new owner takes the pipe over before any other
core is told of it. At the end of a call, every core that the changes mention has been told
(`Last.owner_eq`); the other cores of the hosts file are never told anything (`Untold.owner_eq`).
-/

open Relation

namespace Modelnet.Tools

variable {H : Hosts} {s s' : Cluster H}

/-! ## One event -/

theorem setOwner_self (owner : H.Core → ℤ → BitVec 32) (x : H.Core) (entry : ReassignEntry) :
    setOwner owner x entry x entry.pipeNr = entry.owner := by
  simp [setOwner]

theorem setOwner_of_ne_core (owner : H.Core → ℤ → BitVec 32) {x y : H.Core} (h : y ≠ x)
    (entry : ReassignEntry) (nr : ℤ) : setOwner owner x entry y nr = owner y nr := by
  simp [setOwner, h]

theorem setOwner_of_ne_pipe (owner : H.Core → ℤ → BitVec 32) (x y : H.Core)
    {entry : ReassignEntry} {nr : ℤ} (h : nr ≠ entry.pipeNr) :
    setOwner owner x entry y nr = owner y nr := by
  by_cases hy : y = x
  · subst hy
    simp [setOwner, h]
  · exact setOwner_of_ne_core owner hy entry nr

theorem Cluster.step_cases {e : Event H} (h : s.step e = some s') :
    (∃ changes, e = .reassign changes ∧ s.progress = none ∧
      s' = ⟨s.owner, some (doStage H changes 0)⟩) ∨
    (∃ x entry p, e = .apply x entry ∧ s.progress = some p ∧ entry ∈ p.todo x ∧
      s' = ⟨setOwner s.owner x entry,
        some ⟨p.changes, p.stage, Function.update p.todo x ((p.todo x).erase entry)⟩⟩) ∨
    (∃ p, e = .answered ∧ s.progress = some p ∧ (∀ x, p.todo x = []) ∧
      s' = ⟨s.owner, if p.stage + 1 < 3 then some (doStage H p.changes (p.stage + 1)) else none⟩) := by
  cases e with
  | reassign changes =>
    simp only [step] at h
    split at h
    · exact .inl ⟨changes, rfl, ‹_›, (Option.some.inj h).symm⟩
    · cases h
  | apply x entry =>
    simp only [step] at h
    split at h
    · split_ifs at h with hmem
      exact .inr (.inl ⟨x, entry, _, rfl, ‹_›, hmem, (Option.some.inj h).symm⟩)
    · cases h
  | answered =>
    simp only [step] at h
    split at h
    · rename_i p hp
      by_cases hempty : ∀ x, p.todo x = []
      · rw [if_pos hempty] at h
        exact .inr (.inr ⟨p, rfl, hp, hempty, (Option.some.inj h).symm⟩)
      · rw [if_neg hempty] at h
        cases h
    · cases h

/-- A call is in one of the three stages, and what a core still has to do is of this stage. -/
structure Cluster.Valid (s : Cluster H) : Prop where
  stage : ∀ p, s.progress = some p → p.stage < 3
  todo : ∀ p, s.progress = some p → ∀ x, ∀ e ∈ p.todo x, e ∈ stageOf H p.changes x.val p.stage

theorem mem_erased {todo : H.Core → Stage} {x y : H.Core} {e e' : ReassignEntry}
    (h : e' ∈ Function.update todo x ((todo x).erase e) y) : e' ∈ todo y := by
  by_cases hy : y = x
  · subst hy
    rw [Function.update_self] at h
    exact List.mem_of_mem_erase h
  · rwa [Function.update_of_ne hy] at h

/-- An entry that a core had to do is left, or it is the one that the core has just done. -/
theorem mem_erased_of_mem {todo : H.Core → Stage} {x y : H.Core} {e e' : ReassignEntry}
    (h : e' ∈ todo y) :
    e' ∈ Function.update todo x ((todo x).erase e) y ∨ y = x ∧ e' = e := by
  by_cases hy : y = x
  · subst hy
    rw [Function.update_self]
    by_cases he : e' = e
    · exact .inr ⟨rfl, he⟩
    · exact .inl ((List.mem_erase_of_ne he).mpr h)
  · rw [Function.update_of_ne hy]
    exact .inl h

theorem Cluster.Valid.step (hv : s.Valid) {e : Event H} (h : s.step e = some s') : s'.Valid := by
  obtain ⟨changes, -, -, rfl⟩ | ⟨x, entry, p, -, hp, -, rfl⟩ | ⟨p, -, hp, -, rfl⟩ :=
    Cluster.step_cases h
  · refine ⟨?_, ?_⟩
    · rintro _ ⟨⟩
      exact Nat.zero_lt_succ 2
    · rintro _ ⟨⟩ x e he
      exact he
  · refine ⟨?_, ?_⟩
    · rintro _ ⟨⟩
      exact hv.stage p hp
    · rintro _ ⟨⟩ y e he
      exact hv.todo p hp y e (mem_erased he)
  · refine ⟨?_, ?_⟩
    · intro q hq
      obtain ⟨hlt, hq⟩ := Option.ite_none_right_eq_some.mp hq
      cases hq
      exact hlt
    · intro q hq x e he
      obtain ⟨-, hq⟩ := Option.ite_none_right_eq_some.mp hq
      cases hq
      exact he

/-! ## Following the owner fields -/

/-- The changes of a call are about pipes that differ, each from a core to another one. -/
def Accepted (changes : List Change) : Prop :=
  (changes.map Change.nr).Nodup ∧ ∀ ch ∈ changes, ch.c1 ≠ ch.c2

theorem Accepted.eq_of_nr_eq {changes : List Change} (h : Accepted changes) {ch ch' : Change}
    (hch : ch ∈ changes) (hch' : ch' ∈ changes) (hnr : ch.nr = ch'.nr) : ch = ch' :=
  List.inj_on_of_nodup_map h.1 hch hch' hnr

/-- The calls of `reassign` are made with accepted changes. -/
def Event.Accepted : Event H → Prop
  | .reassign changes => Tools.Accepted changes
  | _ => True

/-- **Every pipe can be found from every core**, and from the second stage on the new owners have
taken over. -/
structure Routable (s : Cluster H) : Prop extends s.Valid where
  ends : ∀ nr x, Ends (s.points nr) (s.owning nr) x
  accepted : ∀ p, s.progress = some p → Accepted p.changes
  newOwner : ∀ p, s.progress = some p → ∀ ch ∈ p.changes, ∀ y : H.Core, (y.val : ℤ) = ch.c2 →
    s.owner y ch.nr = 0 ∨ p.stage = 0 ∧ ch.entry H y.val ∈ p.todo y

theorem Change.entry_newOwner {ch : Change} (h : ch.c1 ≠ ch.c2) {x : ℤ} (hx : x = ch.c2) :
    (ch.entry H x).owner = 0 := by
  subst hx
  simp [Change.entry, h.symm]

theorem Change.stage_newOwner {ch : Change} (h : ch.c1 ≠ ch.c2) {x : ℤ} (hx : x = ch.c2) :
    ch.stage x = 0 := by
  subst hx
  simp [Change.stage, h.symm]

/-- What an entry makes of the owner field of its core: the pipe is local, or the field points at
another core that owns the pipe. -/
theorem Routable.entry_owner (h : Routable s) {p : Progress H} (hp : s.progress = some p)
    {x : H.Core} {ch : Change} (hch : ch ∈ p.changes) (hstage : ch.stage x.val = p.stage) :
    (ch.entry H x.val).owner = 0 ∨
      ∃ y, y ≠ x ∧ (ch.entry H x.val).owner = H.addr y ∧ s.owner y ch.nr = 0 := by
  have hne := (h.accepted p hp).2 ch hch
  by_cases hx : (x.val : ℤ) = ch.c2
  · exact .inl (ch.entry_newOwner hne hx)
  · have howner : (ch.entry H x.val).owner = H.coreToIP ch.c2 := by
      simp [Change.entry, hx]
    rw [howner]
    obtain ⟨y, hy, haddr⟩ | ⟨-, hzero⟩ := H.coreToIP_cases ch.c2
    · refine .inr ⟨y, fun heq => hx (heq ▸ hy), haddr, ?_⟩
      obtain hown | ⟨hfirst, -⟩ := h.newOwner p hp ch hch y hy
      · exact hown
      · -- in the first stage only the new owner has an entry
        exfalso
        rw [hfirst] at hstage
        unfold Change.stage at hstage
        split_ifs at hstage
    · exact .inl hzero

theorem Routable.apply (h : Routable s) {p : Progress H} (hp : s.progress = some p) {x : H.Core}
    {entry : ReassignEntry} (hmem : entry ∈ p.todo x)
    (hv : Cluster.Valid (⟨setOwner s.owner x entry,
      some ⟨p.changes, p.stage, Function.update p.todo x ((p.todo x).erase entry)⟩⟩ : Cluster H)) :
    Routable (⟨setOwner s.owner x entry,
      some ⟨p.changes, p.stage, Function.update p.todo x ((p.todo x).erase entry)⟩⟩ :
        Cluster H) := by
  obtain ⟨-, ch, hch, hstage, rfl⟩ := mem_stageOf.mp (h.todo p hp x entry hmem)
  have hacc := h.accepted p hp
  refine ⟨hv, ?_, ?_, ?_⟩
  · intro nr y
    by_cases hnr : nr = ch.nr
    · subst hnr
      refine Ends.change x ?_ ?_ ?_ (h.ends ch.nr y)
      · intro a ha b hab
        exact (setOwner_of_ne_core s.owner ha _ _).trans hab
      · intro a ha hown
        exact (setOwner_of_ne_core s.owner ha _ _).trans hown
      · have hself := setOwner_self s.owner x (ch.entry H x.val)
        obtain hzero | ⟨z, hz, haddr, hown⟩ := h.entry_owner hp hch hstage
        · exact Ends.here (hself.trans hzero)
        · have hzlocal : setOwner s.owner x (ch.entry H x.val) z ch.nr = 0 :=
            (setOwner_of_ne_core s.owner hz _ _).trans hown
          exact Ends.next (hself.trans haddr) (Ends.here hzlocal)
    · have hother : ∀ z, setOwner s.owner x (ch.entry H x.val) z nr = s.owner z nr :=
        fun z => setOwner_of_ne_pipe s.owner x z hnr
      exact (h.ends nr y).mono (fun a b hab => (hother a).trans hab)
        fun a hown => (hother a).trans hown
  · rintro _ ⟨⟩
    exact hacc
  · rintro _ ⟨⟩ ch' hch' y hy
    show setOwner s.owner x (ch.entry H x.val) y ch'.nr = 0 ∨ _
    by_cases hsame : y = x ∧ ch'.nr = ch.nr
    · obtain ⟨rfl, hnr⟩ := hsame
      obtain rfl := hacc.eq_of_nr_eq hch' hch hnr
      exact .inl ((setOwner_self s.owner y _).trans (ch'.entry_newOwner (hacc.2 ch' hch') hy))
    · have hkept : setOwner s.owner x (ch.entry H x.val) y ch'.nr = s.owner y ch'.nr := by
        by_cases hyx : y = x
        · exact setOwner_of_ne_pipe s.owner x y fun hnr => hsame ⟨hyx, hnr⟩
        · exact setOwner_of_ne_core s.owner hyx _ _
      rw [hkept]
      refine (h.newOwner p hp ch' hch' y hy).imp_right fun ⟨hfirst, htodo⟩ => ⟨hfirst, ?_⟩
      obtain hleft | ⟨hyx, heq⟩ := mem_erased_of_mem htodo
      · exact hleft
      · exact absurd ⟨hyx, congrArg ReassignEntry.pipeNr heq⟩ hsame

theorem Routable.step (h : Routable s) {e : Event H} (he : e.Accepted)
    (hstep : s.step e = some s') : Routable s' := by
  have hv := h.toValid.step hstep
  obtain ⟨changes, rfl, -, rfl⟩ | ⟨x, entry, p, -, hp, hmem, rfl⟩ | ⟨p, -, hp, hempty, rfl⟩ :=
    Cluster.step_cases hstep
  · refine ⟨hv, h.ends, ?_, ?_⟩
    · rintro _ ⟨⟩
      exact he
    · rintro _ ⟨⟩ ch hch y hy
      refine .inr ⟨rfl, mem_stageOf.mpr ⟨mem_readCores.mpr ⟨ch, hch, .inr hy⟩, ch, hch, ?_, rfl⟩⟩
      exact ch.stage_newOwner (he.2 ch hch) hy
  · exact h.apply hp hmem hv
  · refine ⟨hv, h.ends, ?_, ?_⟩
    · intro q hq
      obtain ⟨-, hq⟩ := Option.ite_none_right_eq_some.mp hq
      cases hq
      exact h.accepted p hp
    · intro q hq ch hch y hy
      obtain ⟨-, hq⟩ := Option.ite_none_right_eq_some.mp hq
      cases hq
      obtain hown | ⟨-, htodo⟩ := h.newOwner p hp ch hch y hy
      · exact .inl hown
      · rw [hempty y] at htodo
        cases htodo

theorem routable_loaded (home : ℤ → ℤ) : Routable (loaded H home) := by
  refine ⟨⟨?_, ?_⟩, ?_, ?_, ?_⟩
  · rintro _ ⟨⟩
  · rintro _ ⟨⟩
  · intro nr x
    obtain ⟨y, -, hy⟩ | ⟨-, hzero⟩ := H.coreToIP_cases (home nr)
    · have hown : (loaded H home).owner y nr = 0 := if_pos hy.symm
      by_cases hx : H.addr x = H.coreToIP (home nr)
      · exact Ends.here (if_pos hx)
      · exact Ends.next ((if_neg hx).trans hy) (Ends.here hown)
    · refine Ends.here ?_
      show (if _ then _ else _) = _
      split_ifs
      exacts [rfl, hzero]
  · rintro _ ⟨⟩
  · rintro _ ⟨⟩

/-- **Staged handover is always routable.** In every state of every run of calls with accepted
changes, the owner fields of a pipe lead from every core to a core that owns the pipe, and there is
no cycle on the way. -/
theorem handover_routable (home : ℤ → ℤ) {es : List (Event H)} (hes : ∀ e ∈ es, e.Accepted)
    (hrun : PartialRun.run Cluster.step (loaded H home) es = some s) (nr : ℤ) (x : H.Core) :
    Ends (s.points nr) (s.owning nr) x ∧
      ∀ y, ReflTransGen (s.points nr) x y → ¬ TransGen (s.points nr) y y := by
  have hinv : Routable s := PartialRun.run_invariant_guarded
    (fun _ _ _ h he hstep => h.step he hstep)
    (PartialRun.guarded_of_forall (fun _ => hes) (loaded H home)) hrun (routable_loaded home)
  refine ⟨hinv.ends nr x, fun y hy => (hinv.ends nr x).acyclic ?_ ?_ hy⟩
  · intro a b c hab hac
    exact H.addr_injective (hab.symm.trans hac)
  · intro a ha b hab
    exact H.addr_ne_zero b (hab.symm.trans ha)

/-- Three cores for the examples. -/
def threeHosts : Hosts := ⟨[0x0a010101, 0x0a010102, 0x0a010103], by decide, by decide⟩

/-- Pipe 7 on its way from the first core to the second one: the new owner has it, the old one does
not know yet. -/
theorem handover_routable_midway : ∃ s : Cluster threeHosts,
    PartialRun.run Cluster.step (loaded threeHosts fun _ => 0)
      [.reassign [⟨7, 0, 1⟩], .apply ⟨1, by decide⟩ ⟨7, 0⟩, .answered] = some s ∧
    Ends (s.points 7) (s.owning 7) ⟨2, by decide⟩ := by
  have hes : ∀ e ∈ ([.reassign [⟨7, 0, 1⟩], .apply ⟨1, by decide⟩ ⟨7, 0⟩, .answered] :
      List (Event threeHosts)), e.Accepted := by
    intro e he
    simp only [List.mem_cons, List.not_mem_nil, or_false] at he
    obtain rfl | rfl | rfl := he
    · exact ⟨by decide, by simp⟩
    · trivial
    · trivial
  exact ⟨_, rfl, (handover_routable (fun _ => 0) hes rfl 7 _).1⟩

/-! ## What the cores know at the end -/

/-- A whole call of `reassign`: it starts, and its three stages are completed. -/
def Completes (changes : List Change) (s s' : Cluster H) : Prop :=
  ∃ es : List (Event H), (∀ e ∈ es, ∀ other, e ≠ .reassign other) ∧
    PartialRun.run Cluster.step s (.reassign changes :: es) = some s' ∧ s'.progress = none

/-- A call is under way with these changes, or over. -/
def Cluster.Serves (changes : List Change) (s : Cluster H) : Prop :=
  ∀ p, s.progress = some p → p.changes = changes

theorem Cluster.Serves.step {changes : List Change} (h : s.Serves changes) {e : Event H}
    (he : ∀ other, e ≠ .reassign other) (hstep : s.step e = some s') : s'.Serves changes := by
  obtain ⟨other, rfl, -, -⟩ | ⟨x, entry, p, -, hp, -, rfl⟩ | ⟨p, -, hp, -, rfl⟩ :=
    Cluster.step_cases hstep
  · exact absurd rfl (he other)
  · rintro _ ⟨⟩
    exact h p hp
  · intro q hq
    obtain ⟨-, hq⟩ := Option.ite_none_right_eq_some.mp hq
    cases hq
    exact h p hp

/-- What holds when the first stage starts and is kept by every event of the call holds at its
end. -/
theorem Completes.invariant {changes : List Change} (h : Completes changes s s')
    {I : Cluster H → Prop} (hfirst : I ⟨s.owner, some (doStage H changes 0)⟩)
    (hstep : ∀ t t' e, t.Valid → t.Serves changes → I t → (∀ other, e ≠ Event.reassign other) →
      t.step e = some t' → I t') : I s' := by
  obtain ⟨es, hes, hrun, -⟩ := h
  obtain ⟨t, ht, hrest⟩ := Option.bind_eq_some_iff.mp hrun
  obtain ⟨_, h0, -, rfl⟩ | ⟨_, _, _, h0, -⟩ | ⟨_, h0, -⟩ := Cluster.step_cases ht
  · cases h0
    have hvalid : Cluster.Valid ⟨s.owner, some (doStage H changes 0)⟩ := by
      refine ⟨?_, ?_⟩
      · rintro _ ⟨⟩
        exact Nat.zero_lt_succ 2
      · rintro _ ⟨⟩ x e he
        exact he
    have hserves : Cluster.Serves changes ⟨s.owner, some (doStage H changes 0)⟩ := by
      rintro _ ⟨⟩
      rfl
    refine (PartialRun.run_invariant_guarded
      (I := fun t => t.Valid ∧ t.Serves changes ∧ I t) ?_
      (PartialRun.guarded_of_forall (fun _ => hes) _) hrest ⟨hvalid, hserves, hfirst⟩).2.2
    rintro t e t' ⟨hv, hc, hI⟩ he ht'
    exact ⟨hv.step ht', hc.step he ht', hstep t t' e hv hc hI he ht'⟩
  · cases h0
  · cases h0

/-- No entry of a call is about the pipe at the core. -/
def Untold (changes : List Change) (x : H.Core) (nr : ℤ) : Prop :=
  ∀ k, ∀ e ∈ stageOf H changes x.val k, e.pipeNr ≠ nr

/-- A core that is not told keeps its owner field. -/
theorem Untold.owner_eq {changes : List Change} {x : H.Core} {nr : ℤ} (h : Untold changes x nr)
    (hc : Completes changes s s') : s'.owner x nr = s.owner x nr := by
  refine hc.invariant (I := fun t => t.owner x nr = s.owner x nr) rfl ?_
  intro t t' e hv hserves hI he ht'
  obtain ⟨other, rfl, -, -⟩ | ⟨y, entry, p, -, hp, hmem, rfl⟩ | ⟨p, -, -, -, rfl⟩ :=
    Cluster.step_cases ht'
  · exact absurd rfl (he other)
  · refine Eq.trans ?_ hI
    by_cases hy : x = y
    · subst hy
      have hentry := hv.todo p hp x entry hmem
      rw [hserves p hp] at hentry
      exact setOwner_of_ne_pipe t.owner x x (h _ entry hentry).symm
    · exact setOwner_of_ne_core t.owner hy entry nr
  · exact hI

/-- The last that a core is told about a pipe is the owner `v`, in the stage `k`. -/
structure Last (changes : List Change) (x : H.Core) (nr : ℤ) (v : BitVec 32) (k : ℕ) : Prop where
  told : ∃ e ∈ stageOf H changes x.val k, e.pipeNr = nr
  same : ∀ e ∈ stageOf H changes x.val k, e.pipeNr = nr → e.owner = v
  later : ∀ k', k < k' → ∀ e ∈ stageOf H changes x.val k', e.pipeNr ≠ nr

/-- How far the core has been told: from the stage `k` on its owner field is `v`, or its last entry
about the pipe is still to be done. -/
structure Telling (x : H.Core) (nr : ℤ) (v : BitVec 32) (k : ℕ) (t : Cluster H) : Prop where
  ended : t.progress = none → t.owner x nr = v
  past : ∀ p, t.progress = some p → k < p.stage → t.owner x nr = v
  now : ∀ p, t.progress = some p → p.stage = k →
    t.owner x nr = v ∨ ∃ e ∈ p.todo x, e.pipeNr = nr

theorem Last.apply {changes : List Change} {x y : H.Core} {nr : ℤ} {v : BitVec 32} {k : ℕ}
    (h : Last changes x nr v k) {t : Cluster H} (ht : Telling x nr v k t) (hv : t.Valid)
    (hserves : t.Serves changes) {p : Progress H} (hp : t.progress = some p)
    {entry : ReassignEntry} (hmem : entry ∈ p.todo y) :
    Telling x nr v k ⟨setOwner t.owner y entry,
      some ⟨p.changes, p.stage, Function.update p.todo y ((p.todo y).erase entry)⟩⟩ := by
  have hentry := hv.todo p hp y entry hmem
  rw [hserves p hp] at hentry
  by_cases hsame : x = y ∧ nr = entry.pipeNr
  · obtain ⟨rfl, rfl⟩ := hsame
    have hself := setOwner_self t.owner x entry
    refine ⟨?_, ?_, ?_⟩
    · rintro ⟨⟩
    · rintro _ ⟨⟩ hlt
      exact absurd rfl (h.later p.stage hlt entry hentry)
    · rintro _ ⟨⟩ rfl
      exact .inl (hself.trans (h.same entry hentry rfl))
  · have hkept : setOwner t.owner y entry x nr = t.owner x nr := by
      by_cases hxy : x = y
      · exact setOwner_of_ne_pipe t.owner y x fun hnr => hsame ⟨hxy, hnr⟩
      · exact setOwner_of_ne_core t.owner hxy entry nr
    refine ⟨?_, ?_, ?_⟩
    · rintro ⟨⟩
    · rintro _ ⟨⟩ hlt
      exact hkept.trans (ht.past p hp hlt)
    · rintro _ ⟨⟩ hk
      obtain hown | ⟨e, he, hnr⟩ := ht.now p hp hk
      · exact .inl (hkept.trans hown)
      · obtain hleft | ⟨hxy, heq⟩ := mem_erased_of_mem (x := y) (e := entry) he
        · exact .inr ⟨e, hleft, hnr⟩
        · exact absurd ⟨hxy, hnr.symm.trans (congrArg _ heq)⟩ hsame

theorem Last.answered {changes : List Change} {x : H.Core} {nr : ℤ} {v : BitVec 32} {k : ℕ}
    (h : Last changes x nr v k) {t : Cluster H} (ht : Telling x nr v k t) (hserves : t.Serves changes)
    {p : Progress H} (hp : t.progress = some p) (hempty : ∀ x, p.todo x = []) :
    Telling x nr v k ⟨t.owner,
      if p.stage + 1 < 3 then some (doStage H p.changes (p.stage + 1)) else none⟩ := by
  have hdone : k ≤ p.stage → t.owner x nr = v := by
    intro hle
    obtain hlt | heq := Nat.lt_or_eq_of_le hle
    · exact ht.past p hp hlt
    · obtain hown | ⟨e, he, -⟩ := ht.now p hp heq.symm
      · exact hown
      · rw [hempty x] at he
        cases he
  refine ⟨?_, ?_, ?_⟩
  · intro hover
    have hlast : ¬ p.stage + 1 < 3 := fun hlt => by
      rw [if_pos hlt] at hover
      cases hover
    obtain ⟨e, he, -⟩ := h.told
    obtain ⟨-, ch, -, hstage, -⟩ := mem_stageOf.mp he
    have hk : k < 3 := hstage ▸ ch.stage_lt x.val
    exact hdone (by omega)
  · intro q hq hlt
    obtain ⟨-, hq⟩ := Option.ite_none_right_eq_some.mp hq
    cases hq
    exact hdone (Nat.lt_succ_iff.mp hlt)
  · intro q hq hk
    obtain ⟨-, hq⟩ := Option.ite_none_right_eq_some.mp hq
    cases hq
    subst hk
    obtain ⟨e, he, hnr⟩ := h.told
    rw [hserves p hp]
    exact .inr ⟨e, he, hnr⟩

/-- The owner field of a core at the end of a call is the last that it has been told. -/
theorem Last.owner_eq {changes : List Change} {x : H.Core} {nr : ℤ} {v : BitVec 32} {k : ℕ}
    (h : Last changes x nr v k) (hc : Completes changes s s') : s'.owner x nr = v := by
  refine Telling.ended (k := k) (hc.invariant (I := Telling x nr v k) ?_ ?_) hc.choose_spec.2.2
  · refine ⟨?_, ?_, ?_⟩
    · rintro ⟨⟩
    · rintro _ ⟨⟩ hlt
      exact absurd hlt (Nat.not_lt_zero k)
    · rintro _ ⟨⟩ rfl
      exact .inr h.told
  · intro t t' e hv hserves hI he ht'
    obtain ⟨other, rfl, -, -⟩ | ⟨y, entry, p, -, hp, hmem, rfl⟩ | ⟨p, -, hp, hempty, rfl⟩ :=
      Cluster.step_cases ht'
    · exact absurd rfl (he other)
    · exact h.apply hI hv hserves hp hmem
    · exact h.answered hI hserves hp hempty

/-- Every core knows the new owner of the pipe. -/
def Told (s : Cluster H) (ch : Change) : Prop :=
  ∀ x : H.Core, (s.owner x ch.nr = 0 ↔ (x.val : ℤ) = ch.c2) ∧
    ((x.val : ℤ) ≠ ch.c2 → s.owner x ch.nr = H.coreToIP ch.c2)

/-- The condition for a core to know the new owner of a pipe at the end of a call: the new owner is
in the hosts file and not the old one, no other change gives the pipe to somebody else, and some
change mentions the core, or it knows the new owner already. -/
def Reported (changes : List Change) (s : Cluster H) (x : H.Core) (ch : Change) : Prop :=
  (∃ y : H.Core, (y.val : ℤ) = ch.c2) ∧ ch.c1 ≠ ch.c2 ∧
    (∀ ch' ∈ changes, ch'.nr = ch.nr → ch'.c2 = ch.c2) ∧
    ((x.val : ℤ) ∈ readCores changes ∨ s.owner x ch.nr = H.coreToIP ch.c2)

instance (changes : List Change) (s : Cluster H) (x : H.Core) (ch : Change) :
    Decidable (Reported changes s x ch) :=
  inferInstanceAs (Decidable (_ ∧ _ ∧ _ ∧ _))

theorem untold_of_not_mem {changes : List Change} {x : H.Core}
    (h : (x.val : ℤ) ∉ readCores changes) (nr : ℤ) : Untold changes x nr :=
  fun _ _ he => absurd (mem_stageOf.mp he).1 h

theorem mem_readCores_newOwner {changes : List Change} {ch : Change} (h : ch ∈ changes) :
    ch.c2 ∈ readCores changes :=
  mem_readCores.mpr ⟨ch, h, .inr rfl⟩

/-- Where all that a core is told about a pipe is the same, this is the last that it is told. -/
theorem exists_last {changes : List Change} {x : H.Core} {v : BitVec 32} {ch : Change}
    (hx : (x.val : ℤ) ∈ readCores changes) (hch : ch ∈ changes)
    (hsame : ∀ ch' ∈ changes, ch'.nr = ch.nr → (ch'.entry H x.val).owner = v) :
    ∃ k, Last changes x ch.nr v k := by
  classical
  have hsome : ∃ e ∈ stageOf H changes x.val (ch.stage x.val), e.pipeNr = ch.nr :=
    ⟨ch.entry H x.val, mem_stageOf.mpr ⟨hx, ch, hch, rfl, rfl⟩, rfl⟩
  have hle := Nat.lt_succ_iff.mp (ch.stage_lt x.val)
  let P : ℕ → Prop := fun k => ∃ e ∈ stageOf H changes x.val k, e.pipeNr = ch.nr
  refine ⟨Nat.findGreatest P 2, Nat.findGreatest_spec (P := P) hle hsome, ?_, ?_⟩
  · intro e he hnr
    obtain ⟨-, ch', hch', -, rfl⟩ := mem_stageOf.mp he
    exact hsame ch' hch' hnr
  · intro k hk e he hnr
    obtain ⟨-, ch', -, hstage, -⟩ := mem_stageOf.mp he
    have hk2 := Nat.lt_succ_iff.mp (hstage ▸ ch'.stage_lt x.val)
    exact Nat.findGreatest_is_greatest hk hk2 ⟨e, he, hnr⟩

theorem Change.entry_other {ch : Change} {x : ℤ} (h : x ≠ ch.c2) :
    (ch.entry H x).owner = H.coreToIP ch.c2 := by
  simp [Change.entry, h]

theorem told_of_reported {changes : List Change} (hc : Completes changes s s')
    (h : ∀ x, ∀ ch ∈ changes, Reported changes s x ch) {ch : Change} (hch : ch ∈ changes) :
    Told s' ch := by
  intro x
  obtain ⟨⟨y, hy⟩, -, hsame, hx⟩ := h x ch hch
  by_cases hxy : (x.val : ℤ) = ch.c2
  · have hmem : (x.val : ℤ) ∈ readCores changes := hxy ▸ mem_readCores_newOwner hch
    obtain ⟨k, hlast⟩ := exists_last (v := 0) hmem hch fun ch' hch' hnr =>
      ch'.entry_newOwner (h x ch' hch').2.1 (hxy.trans (hsame ch' hch' hnr).symm)
    exact ⟨iff_of_true (hlast.owner_eq hc) hxy, fun hne => absurd hxy hne⟩
  · have howner : s'.owner x ch.nr = H.coreToIP ch.c2 := by
      by_cases hmem : (x.val : ℤ) ∈ readCores changes
      · obtain ⟨k, hlast⟩ := exists_last (v := H.coreToIP ch.c2) hmem hch fun ch' hch' hnr =>
          hsame ch' hch' hnr ▸ ch'.entry_other (hsame ch' hch' hnr ▸ hxy)
        exact hlast.owner_eq hc
      · rw [(untold_of_not_mem hmem ch.nr).owner_eq hc]
        exact hx.resolve_left hmem
    have hne : s'.owner x ch.nr ≠ 0 := by
      rw [howner, ← hy, H.coreToIP_core]
      exact H.addr_ne_zero y
    exact ⟨iff_of_false hne hxy, fun _ => howner⟩

theorem reported_of_told {changes : List Change} (hc : Completes changes s s')
    (h : ∀ ch ∈ changes, Told s' ch) (x : H.Core) {ch : Change} (hch : ch ∈ changes) :
    Reported changes s x ch := by
  obtain ⟨y, hy⟩ : ∃ y : H.Core, (y.val : ℤ) = ch.c2 := by
    obtain ⟨y, hy, -⟩ | ⟨hnone, hzero⟩ := H.coreToIP_cases ch.c2
    · exact ⟨y, hy⟩
    · -- an unlisted new owner: the cores are told that they own the pipe themselves
      have howner := (h ch hch x).2 (hnone x)
      exact absurd ((h ch hch x).1.mp (howner.trans hzero)) (hnone x)
  have hsame : ∀ ch' ∈ changes, ch'.nr = ch.nr → ch'.c2 = ch.c2 := by
    intro ch' hch' hnr
    have hown : s'.owner y ch'.nr = 0 := hnr ▸ (h ch hch y).1.mpr hy
    exact ((h ch' hch' y).1.mp hown).symm.trans hy
  refine ⟨⟨y, hy⟩, ?_, hsame, ?_⟩
  · intro heq
    -- the new owner is told in the second stage that it has the pipe itself, under its address
    have hlast : Last changes y ch.nr (H.addr y) 1 := by
      refine ⟨⟨ch.entry H y.val, ?_, rfl⟩, ?_, ?_⟩
      · refine mem_stageOf.mpr ⟨hy ▸ mem_readCores_newOwner hch, ch, hch, ?_, rfl⟩
        exact if_pos (hy.trans heq.symm)
      · intro e he hnr
        obtain ⟨-, ch', hch', hstage, rfl⟩ := mem_stageOf.mp he
        have hold : (y.val : ℤ) = ch'.c1 := by
          by_contra hold
          rw [Change.stage, if_neg hold] at hstage
          split_ifs at hstage
          omega
        simp [Change.entry, hold.symm, hsame ch' hch' hnr, ← hy, H.coreToIP_core]
      · intro k hk e he hnr
        obtain ⟨-, ch', hch', hstage, rfl⟩ := mem_stageOf.mp he
        have hnew : (y.val : ℤ) = ch'.c2 := hy.trans (hsame ch' hch' hnr).symm
        unfold Change.stage at hstage
        split_ifs at hstage <;> omega
    have hown := (h ch hch y).1.mpr hy
    exact H.addr_ne_zero y ((hlast.owner_eq hc).symm.trans hown)
  · by_cases hmem : (x.val : ℤ) ∈ readCores changes
    · exact .inl hmem
    · have hne : (x.val : ℤ) ≠ ch.c2 := fun heq => hmem (heq ▸ mem_readCores_newOwner hch)
      rw [← (untold_of_not_mem hmem ch.nr).owner_eq hc]
      exact .inr ((h ch hch x).2 hne)

/-- **What the cores know after a call.** All cores of the hosts file know the new owner of every
pipe that has changed exactly if the changes reach them all. -/
theorem told_iff {changes : List Change} (hc : Completes changes s s') :
    (∀ ch ∈ changes, Told s' ch) ↔ ∀ x, ∀ ch ∈ changes, Reported changes s x ch :=
  ⟨fun h x _ hch => reported_of_told hc h x hch, fun h _ hch => told_of_reported hc h hch⟩

/-- Two changes that mention all three cores, and a whole call with them. -/
def twoChanges : List Change := [⟨7, 0, 1⟩, ⟨8, 2, 0⟩]

theorem completes_twoChanges : ∃ s' : Cluster threeHosts,
    Completes twoChanges (loaded threeHosts fun nr => if nr = 8 then 2 else 0) s' := by
  refine ⟨_, [.apply ⟨0, by decide⟩ ⟨8, 0⟩, .apply ⟨1, by decide⟩ ⟨7, 0⟩, .answered,
    .apply ⟨2, by decide⟩ ⟨8, 0x0a010101⟩, .apply ⟨0, by decide⟩ ⟨7, 0x0a010102⟩, .answered,
    .apply ⟨1, by decide⟩ ⟨8, 0x0a010101⟩, .apply ⟨2, by decide⟩ ⟨7, 0x0a010102⟩, .answered],
    ?_, rfl, rfl⟩
  simp

theorem told_twoChanges : ∃ s' : Cluster threeHosts, ∀ ch ∈ twoChanges, Told s' ch := by
  obtain ⟨s', hc⟩ := completes_twoChanges
  exact ⟨s', (told_iff hc).mpr (by decide)⟩

/-- A core of the hosts file that takes part in no change is not told of the change. -/
theorem bystander_not_told : ¬ ∀ (H : Hosts) (home : ℤ → ℤ) (changes : List Change)
    (s' : Cluster H), Accepted changes →
    (∀ ch ∈ changes, ch.c1 = home ch.nr ∧ (∃ x : H.Core, (x.val : ℤ) = ch.c1) ∧
      ∃ y : H.Core, (y.val : ℤ) = ch.c2) →
    Completes changes (loaded H home) s' → ∀ ch ∈ changes, Told s' ch := by
  intro h
  have hc : Completes [⟨7, 0, 1⟩] (loaded threeHosts fun _ => 0) _ :=
    ⟨[.apply ⟨1, by decide⟩ ⟨7, 0⟩, .answered, .apply ⟨0, by decide⟩ ⟨7, 0x0a010102⟩, .answered,
      .answered], by simp, rfl, rfl⟩
  have htold := h threeHosts (fun _ => 0) [⟨7, 0, 1⟩] _ ⟨by decide, by simp⟩ (by decide) hc
    ⟨7, 0, 1⟩ List.mem_cons_self
  -- the third core still names the old owner
  exact absurd ((htold ⟨2, by decide⟩).2 (by decide)) (by decide)

end Modelnet.Tools
