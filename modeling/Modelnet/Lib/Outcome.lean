import Mathlib.Logic.Basic

/-!
# Computations that may fail

What a computation in `Except` may return and which errors it may end with, as one predicate
(`Except.Yields`). The rules follow the binds of the computation.
-/

namespace Except

universe u

variable {ε : Type*} {α β : Type u} {E : ε → Prop} {P Q : α → Prop} {x : Except ε α}

/-- Errors meet `E` and results meet `Q`. -/
def Yields (x : Except ε α) (E : ε → Prop) (Q : α → Prop) : Prop :=
  match x with
  | .ok a => Q a
  | .error e => E e

@[simp] theorem yields_ok {a : α} : (ok a : Except ε α).Yields E Q ↔ Q a := Iff.rfl

@[simp] theorem yields_error {e : ε} : (error e : Except ε α).Yields E Q ↔ E e := Iff.rfl

@[simp] theorem yields_pure {a : α} : (pure a : Except ε α).Yields E Q ↔ Q a := Iff.rfl

theorem Yields.imp (h : x.Yields E P) (hPQ : ∀ a, P a → Q a) : x.Yields E Q := by
  cases x with
  | ok a => exact hPQ a h
  | error e => exact h

theorem Yields.imp_error {E' : ε → Prop} (h : x.Yields E Q) (hE : ∀ e, E e → E' e) :
    x.Yields E' Q := by
  cases x with
  | ok a => exact h
  | error e => exact hE e h

theorem Yields.bind {R : β → Prop} {f : α → Except ε β} (h : x.Yields E P)
    (hf : ∀ a, P a → (f a).Yields E R) : (x >>= f).Yields E R := by
  cases x with
  | ok a => exact hf a h
  | error e => exact h

theorem Yields.of_ok (h : x.Yields E Q) {a : α} (hx : x = ok a) : Q a := by
  subst hx
  exact h

theorem Yields.of_error (h : x.Yields E Q) {e : ε} (hx : x = error e) : E e := by
  subst hx
  exact h

theorem bind_eq_ok_iff {f : α → Except ε β} {b : β} :
    (x >>= f) = ok b ↔ ∃ a, x = ok a ∧ f a = ok b := by
  cases x with
  | ok a =>
    constructor
    · exact fun h => ⟨a, rfl, h⟩
    · rintro ⟨a', ha, h⟩
      cases ha
      exact h
  | error e =>
    constructor
    · exact fun h => absurd h (by rintro ⟨⟩)
    · rintro ⟨a, ha, -⟩
      cases ha

theorem toOption_eq_some_iff {a : α} : x.toOption = some a ↔ x = ok a := by
  cases x with
  | ok a' => exact ⟨by rintro ⟨⟩; rfl, by rintro ⟨⟩; rfl⟩
  | error e => exact ⟨by rintro ⟨⟩, by rintro ⟨⟩⟩

end Except
