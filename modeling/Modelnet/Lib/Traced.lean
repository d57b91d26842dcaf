import Modelnet.Lib.Outcome
import Mathlib.Data.List.Basic

/-!
# Computations with a trace

A computation in `Except` together with what it has done until it ended or failed. Forgetting the
trace of a bind is a bind (`result_bind`), so that an instrumented function is compared with the
plain one step by step. A condition on everything that is done follows the binds (`safe_bind_iff`):
a later part only counts when the earlier ones have returned.
-/

/-- A computation and its trace, oldest entry first. -/
structure Traced (ω ε α : Type*) where
  trace : List ω
  result : Except ε α

namespace Traced

universe u

variable {ω ε : Type*} {α β : Type u}

def andThen (x : Traced ω ε α) (f : α → Traced ω ε β) : Traced ω ε β :=
  match x.result with
  | .ok a => ⟨x.trace ++ (f a).trace, (f a).result⟩
  | .error e => ⟨x.trace, .error e⟩

instance : Monad (Traced ω ε) where
  pure a := ⟨[], .ok a⟩
  bind := andThen

/-- A computation that leaves no trace. -/
def lift (x : Except ε α) : Traced ω ε α := ⟨[], x⟩

def observe (w : ω) : Traced ω ε PUnit.{u + 1} := ⟨[w], .ok ⟨⟩⟩

variable {x : Traced ω ε α} {f : α → Traced ω ε β}

/-! ## Results -/

@[simp] theorem result_pure (a : α) : (pure a : Traced ω ε α).result = .ok a := rfl

@[simp] theorem result_lift (x : Except ε α) : (lift x : Traced ω ε α).result = x := rfl

@[simp] theorem result_observe (w : ω) : (observe w : Traced ω ε PUnit).result = .ok ⟨⟩ := rfl

/-- **Erasure** goes through binds. -/
theorem result_bind (x : Traced ω ε α) (f : α → Traced ω ε β) :
    (x >>= f).result = x.result >>= fun a => (f a).result := by
  show (andThen x f).result = _
  unfold andThen
  cases x.result with
  | ok a => rfl
  | error e => rfl

theorem result_observe_bind (w : ω) (f : PUnit → Traced ω ε β) :
    (observe w >>= f).result = (f ⟨⟩).result := result_bind _ _

theorem result_lift_bind (x : Except ε α) (f : α → Traced ω ε β) :
    (lift x >>= f).result = x >>= fun a => (f a).result := result_bind _ _

/-! ## Conditions on the trace -/

/-- All entries meet `P`. -/
def Safe (P : ω → Prop) (x : Traced ω ε α) : Prop := ∀ w ∈ x.trace, P w

variable {P : ω → Prop}

@[simp] theorem safe_pure (a : α) : (pure a : Traced ω ε α).Safe P := fun _ hw =>
  absurd hw List.not_mem_nil

@[simp] theorem safe_lift (x : Except ε α) : (lift x : Traced ω ε α).Safe P := fun _ hw =>
  absurd hw List.not_mem_nil

@[simp] theorem safe_observe {w : ω} : (observe w : Traced ω ε PUnit).Safe P ↔ P w :=
  List.forall_mem_singleton

theorem safe_bind_iff :
    (x >>= f).Safe P ↔ x.Safe P ∧ ∀ a, x.result = .ok a → (f a).Safe P := by
  show (andThen x f).Safe P ↔ _
  unfold andThen Safe
  cases hx : x.result with
  | ok a =>
    simp only [List.forall_mem_append, Except.ok.injEq, forall_eq']
  | error e =>
    exact ⟨fun h => ⟨h, fun a ha => nomatch ha⟩, fun h => h.1⟩

theorem safe_lift_bind_iff {x : Except ε α} :
    (lift x >>= f).Safe P ↔ ∀ a, x = .ok a → (f a).Safe P :=
  safe_bind_iff.trans (and_iff_right (safe_lift x))

theorem safe_observe_bind_iff {w : ω} {f : PUnit → Traced ω ε β} :
    (observe w >>= f).Safe P ↔ P w ∧ (f ⟨⟩).Safe P := by
  rw [safe_bind_iff, safe_observe, result_observe]
  exact and_congr_right fun _ => ⟨fun h => h _ rfl, fun h _ _ => h⟩

end Traced
