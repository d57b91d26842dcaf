import Mathlib.Data.List.Basic
import Mathlib.Data.List.Induction
import Mathlib.Data.Option.Basic

/-!
# Runs of a partial step function

`step s e = none` means that the event `e` cannot be completed from `s` (the machine stops
there). A run feeds a list of events to the step function; the induction rules below carry an
invariant from one step to a whole run, also when the steps are only required to be good under a
condition on the state before the step (`Guarded`). `Fold` has the same for steps that always
complete.
-/

namespace PartialRun

variable {σ ε : Type*} (step : σ → ε → Option σ)

/-- The state after the events, if every step completes. -/
def run : σ → List ε → Option σ
  | s, [] => some s
  | s, e :: es => (step s e).bind fun s' => run s' es

@[simp] theorem run_nil (s : σ) : run step s [] = some s := rfl

theorem run_cons (s : σ) (e : ε) (es : List ε) :
    run step s (e :: es) = (step s e).bind fun s' => run step s' es := rfl

theorem run_append (s : σ) (es fs : List ε) :
    run step s (es ++ fs) = (run step s es).bind fun s' => run step s' fs := by
  induction es generalizing s with
  | nil => rfl
  | cons e es ih =>
    simp only [List.cons_append, run_cons, Option.bind_assoc]
    congr 1
    funext s'
    exact ih s'

theorem run_concat (s : σ) (es : List ε) (e : ε) :
    run step s (es ++ [e]) = (run step s es).bind fun s' => step s' e := by
  rw [run_append]
  congr 1
  funext s'
  rw [run_cons]
  cases step s' e <;> rfl

variable {step}

/-- **Run rule.** What every completed step preserves holds at the end of every completed run. -/
theorem run_invariant {I : σ → Prop} (hstep : ∀ s e s', I s → step s e = some s' → I s')
    {s s' : σ} {es : List ε} (h : run step s es = some s') (hs : I s) : I s' := by
  induction es generalizing s with
  | nil => cases h; exact hs
  | cons e es ih =>
    obtain ⟨t, ht, hrun⟩ := Option.bind_eq_some_iff.mp h
    exact ih hrun (hstep s e t hs ht)

/-- Every step of the run meets the condition `G` on its state and its event. -/
def Guarded (step : σ → ε → Option σ) (G : σ → ε → Prop) : σ → List ε → Prop
  | _, [] => True
  | s, e :: es => G s e ∧ ∀ s', step s e = some s' → Guarded step G s' es

theorem guarded_cons {G : σ → ε → Prop} {s : σ} {e : ε} {es : List ε} :
    Guarded step G s (e :: es) ↔ G s e ∧ ∀ s', step s e = some s' → Guarded step G s' es :=
  Iff.rfl

theorem Guarded.last {G : σ → ε → Prop} {s s' : σ} {es : List ε} {e : ε}
    (h : Guarded step G s (es ++ [e])) (hrun : run step s es = some s') : G s' e := by
  induction es generalizing s with
  | nil =>
    cases hrun
    exact h.1
  | cons a es ih =>
    obtain ⟨t, ht, hrest⟩ := Option.bind_eq_some_iff.mp hrun
    exact ih (h.2 t ht) hrest

/-- A condition that follows from another one on the states of an invariant guards the same runs. -/
theorem Guarded.imp {I : σ → Prop} {G H : σ → ε → Prop} {s : σ} {es : List ε}
    (h : Guarded step G s es) (hstep : ∀ s e s', I s → G s e → step s e = some s' → I s')
    (hGH : ∀ s e, I s → G s e → H s e) (hs : I s) : Guarded step H s es := by
  induction es generalizing s with
  | nil => trivial
  | cons e es ih =>
    exact ⟨hGH s e hs h.1, fun s' hs' => ih (h.2 s' hs') (hstep s e s' hs h.1 hs')⟩

theorem guarded_of_forall {G : σ → ε → Prop} {es : List ε} (h : ∀ s, ∀ e ∈ es, G s e) (s : σ) :
    Guarded step G s es := by
  induction es generalizing s with
  | nil => trivial
  | cons e es ih =>
    exact ⟨h s e List.mem_cons_self,
      fun s' _ => ih (fun t a ha => h t a (List.mem_cons_of_mem e ha)) s'⟩

theorem guarded_concat {G : σ → ε → Prop} {s : σ} {es : List ε} {e : ε}
    (h : Guarded step G s es) (hlast : ∀ s', run step s es = some s' → G s' e) :
    Guarded step G s (es ++ [e]) := by
  induction es generalizing s with
  | nil => exact ⟨hlast s rfl, fun _ _ => trivial⟩
  | cons a es ih =>
    refine ⟨h.1, fun t ht => ih (h.2 t ht) fun s' hs' => hlast s' ?_⟩
    rw [run_cons, ht]
    exact hs'

theorem run_invariant_guarded {I : σ → Prop} {G : σ → ε → Prop}
    (hstep : ∀ s e s', I s → G s e → step s e = some s' → I s')
    {s s' : σ} {es : List ε} (hG : Guarded step G s es) (h : run step s es = some s')
    (hs : I s) : I s' := by
  induction es generalizing s with
  | nil => cases h; exact hs
  | cons e es ih =>
    obtain ⟨t, ht, hrun⟩ := Option.bind_eq_some_iff.mp h
    exact ih (hG.2 t ht) hrun (hstep s e t hs hG.1 ht)

/-- Two conditions that agree on the states of an invariant guard the same runs, as long as the
first one preserves the invariant. -/
theorem guarded_iff_of_invariant {I : σ → Prop} {G H : σ → ε → Prop}
    (hstep : ∀ s e s', I s → G s e → step s e = some s' → I s')
    (hGH : ∀ s e, I s → (G s e ↔ H s e)) {s : σ} {es : List ε} (hs : I s) :
    Guarded step G s es ↔ Guarded step H s es := by
  induction es generalizing s with
  | nil => exact Iff.rfl
  | cons e es ih =>
    rw [guarded_cons, guarded_cons]
    constructor
    · rintro ⟨hG, hrest⟩
      exact ⟨(hGH s e hs).mp hG, fun s' hs' => (ih (hstep s e s' hs hG hs')).mp (hrest s' hs')⟩
    · rintro ⟨hH, hrest⟩
      have hG := (hGH s e hs).mpr hH
      exact ⟨hG, fun s' hs' => (ih (hstep s e s' hs hG hs')).mpr (hrest s' hs')⟩

/-- Two conditions that agree on the completed steps from the states of an invariant guard the same
completed runs. -/
theorem guarded_iff_of_run {I : σ → Prop} {G H : σ → ε → Prop}
    (hstep : ∀ s e s', I s → step s e = some s' → (G s e ↔ H s e) ∧ (G s e → I s'))
    {s s' : σ} {es : List ε} (hs : I s) (hrun : run step s es = some s') :
    Guarded step G s es ↔ Guarded step H s es := by
  induction es generalizing s with
  | nil => exact Iff.rfl
  | cons e es ih =>
    obtain ⟨t, ht, hrest⟩ := Option.bind_eq_some_iff.mp hrun
    obtain ⟨hiff, hnext⟩ := hstep s e t hs ht
    have hguard : ∀ K : σ → ε → Prop, Guarded step K s (e :: es) ↔ K s e ∧ Guarded step K t es := by
      intro K
      rw [guarded_cons]
      refine and_congr_right fun _ => ⟨fun h => h t ht, fun h s' hs' => ?_⟩
      rw [← Option.some.inj (ht.symm.trans hs')]
      exact h
    rw [hguard G, hguard H]
    constructor
    · rintro ⟨hG, hes⟩
      exact ⟨hiff.mp hG, (ih (hnext hG) hrest).mp hes⟩
    · rintro ⟨hH, hes⟩
      have hG := hiff.mpr hH
      exact ⟨hG, (ih (hnext hG) hrest).mpr hes⟩

/-- **Clocked run rule.** Events with a clock that never runs back keep an invariant that depends on
the time, and each meets the condition `G`. -/
theorem guarded_of_clock (clock : ε → ℕ) (I : ℕ → σ → Prop) {P : ε → Prop} {G : σ → ε → Prop}
    (hstep : ∀ t s e, I t s → t ≤ clock e → P e →
      G s e ∧ ∀ s', step s e = some s' → I (clock e) s')
    {t : ℕ} {s : σ} {es : List ε} (hs : I t s)
    (hclock : (t :: es.map clock).Pairwise (· ≤ ·)) (hP : ∀ e ∈ es, P e) : Guarded step G s es := by
  induction es generalizing t s with
  | nil => trivial
  | cons e es ih =>
    obtain ⟨hle, hrest⟩ := List.pairwise_cons.mp hclock
    obtain ⟨hG, hnext⟩ := hstep t s e hs (hle _ List.mem_cons_self) (hP e List.mem_cons_self)
    exact ⟨hG, fun s' hs' =>
      ih (hnext s' hs') hrest fun a ha => hP a (List.mem_cons_of_mem e ha)⟩

/-- A run whose steps always complete from states of the invariant completes. -/
theorem run_isSome {I : σ → Prop} (hstep : ∀ s e, I s → ∃ s', step s e = some s' ∧ I s')
    {s : σ} (es : List ε) (hs : I s) : ∃ s', run step s es = some s' ∧ I s' := by
  induction es generalizing s with
  | nil => exact ⟨s, rfl, hs⟩
  | cons e es ih =>
    obtain ⟨t, ht, hI⟩ := hstep s e hs
    obtain ⟨s', hrun, hs'⟩ := ih hI
    exact ⟨s', by rw [run_cons, ht]; exact hrun, hs'⟩

/-- **Guarded total runs.** The same for runs whose steps meet a condition. -/
theorem run_isSome_guarded {I : σ → Prop} {G : σ → ε → Prop}
    (hstep : ∀ s e, I s → G s e → ∃ s', step s e = some s' ∧ I s')
    {s : σ} {es : List ε} (hG : Guarded step G s es) (hs : I s) :
    ∃ s', run step s es = some s' ∧ I s' := by
  induction es generalizing s with
  | nil => exact ⟨s, rfl, hs⟩
  | cons e es ih =>
    obtain ⟨t, ht, hI⟩ := hstep s e hs hG.1
    obtain ⟨s', hrun, hs'⟩ := ih (hG.2 t ht) hI
    exact ⟨s', by rw [run_cons, ht]; exact hrun, hs'⟩

/-! ## Two machines in lockstep -/

section

variable {τ : Type*} {step' : τ → ε → Option τ}

/-- Both machines take the event. -/
def both (step : σ → ε → Option σ) (step' : τ → ε → Option τ) (p : σ × τ) (e : ε) :
    Option (σ × τ) := (step p.1 e).bind fun s => (step' p.2 e).map fun t => (s, t)

/-- **Lockstep rule.** Let the first machine be the image of the second one under `f` as long as
the condition `G` holds. Then `G` guards a run of the second machine exactly if a condition `H` on
both states guards the run of both, when the two conditions agree on a state and its image. `W` is
what is known of the states of the run. -/
theorem guarded_both_iff {f : τ → σ} {W G : τ → ε → Prop} {H : σ × τ → ε → Prop}
    (hsim : ∀ t e, W t e → G t e → step (f t) e = (step' t e).map f)
    (hiff : ∀ t e, W t e → (G t e ↔ H (f t, t) e)) {t : τ} {es : List ε}
    (hW : Guarded step' W t es) :
    Guarded step' G t es ↔ Guarded (both step step') H (f t, t) es := by
  induction es generalizing t with
  | nil => exact Iff.rfl
  | cons e es ih =>
    rw [guarded_cons, guarded_cons, hiff t e hW.1]
    refine and_congr_right fun hH => ?_
    have hstep := hsim t e hW.1 ((hiff t e hW.1).mpr hH)
    constructor
    · intro h p hp
      obtain ⟨s, hs, hp⟩ := Option.bind_eq_some_iff.mp hp
      obtain ⟨t', ht', rfl⟩ := Option.map_eq_some_iff.mp hp
      dsimp only at hs ht'
      rw [hstep, ht'] at hs
      cases hs
      exact (ih (hW.2 t' ht')).mp (h t' ht')
    · intro h t' ht'
      refine (ih (hW.2 t' ht')).mpr (h (f t', t') ?_)
      unfold both
      dsimp only
      rw [hstep, ht']
      rfl

end

end PartialRun

namespace Fold

variable {σ α : Type*} {f : σ → α → σ}

/-- Every step of a fold meets the condition `G` on its state and its element. -/
def Guarded (f : σ → α → σ) (G : σ → α → Prop) : σ → List α → Prop
  | _, [] => True
  | s, a :: l => G s a ∧ Guarded f G (f s a) l

theorem guarded_of_forall {G : σ → α → Prop} (h : ∀ s a, G s a) (s : σ) (l : List α) :
    Guarded f G s l := by
  induction l generalizing s with
  | nil => trivial
  | cons a l ih => exact ⟨h s a, ih _⟩

theorem Guarded.foldl {I : σ → Prop} {G : σ → α → Prop} {l : List α}
    (hstep : ∀ s, ∀ a ∈ l, I s → G s a → I (f s a)) {s : σ} (h : Guarded f G s l) (hs : I s) :
    I (l.foldl f s) := by
  induction l generalizing s with
  | nil => exact hs
  | cons a l ih =>
    exact ih (fun t b hb => hstep t b (List.mem_cons_of_mem a hb)) h.2
      (hstep s a List.mem_cons_self hs h.1)

/-- **Fold rule.** What every step keeps holds in the end, and what every element brings about and
later steps keep holds of all elements. -/
theorem foldl_all {I : σ → Prop} {R : σ → α → Prop} {l : List α}
    (hstep : ∀ s, ∀ a ∈ l, I s → I (f s a) ∧ R (f s a) a)
    (hkeep : ∀ s b, ∀ a ∈ l, I s → R s b → R (f s a) b) {s : σ} (hs : I s) :
    I (l.foldl f s) ∧ ∀ a ∈ l, R (l.foldl f s) a := by
  induction l using List.reverseRecOn with
  | nil => exact ⟨hs, by simp⟩
  | append_singleton l a ih =>
    obtain ⟨hI, hR⟩ := ih (fun t b hb => hstep t b (List.mem_append_left _ hb))
      fun t b c hc => hkeep t b c (List.mem_append_left _ hc)
    have hlast := hstep _ a (List.mem_append_right l (List.mem_singleton_self a)) hI
    rw [List.foldl_append, List.foldl_cons, List.foldl_nil]
    refine ⟨hlast.1, fun b hb => ?_⟩
    rcases List.mem_append.mp hb with hb | hb
    · exact hkeep _ b a (List.mem_append_right l (List.mem_singleton_self a)) hI (hR b hb)
    · rw [List.mem_singleton.mp hb]
      exact hlast.2

end Fold
