import Mathlib.Data.Stream.Init

/-!
# Drawing until something is accepted

Draws come from a stream, and what is left of it goes on to the next ones. Drawing until a draw is
accepted ends if draws that are accepted keep coming (`Draws.exists_accept`), and it does not if
there are none (`Draws.accept_eq_none`). The number of the draws is bounded by a fuel, and what is
made of such loops ends if there is a result from some fuel on (`Draws.Ends`).
-/

namespace Draws

variable {α β : Type*}

/-- Draws with a property keep coming. -/
def Recurs (p : α → Prop) (s : Stream' α) : Prop := ∀ n, ∃ i, n ≤ i ∧ p (s.get i)

/-- Draws are made until one of them is accepted. -/
def accept (f : α → Option β) : ℕ → Stream' α → Option (β × Stream' α)
  | 0, _ => none
  | fuel + 1, s =>
    match f s.head with
    | some b => some (b, s.tail)
    | none => accept f fuel s.tail

variable {p : α → Prop} {f : α → Option β} {s : Stream' α} {a : α} {b : β} {fuel : ℕ}

theorem Recurs.mono {q : α → Prop} (h : Recurs p s) (hpq : ∀ a, p a → q a) : Recurs q s := by
  intro n
  obtain ⟨i, hi, hp⟩ := h n
  exact ⟨i, hi, hpq _ hp⟩

theorem Recurs.tail (h : Recurs p s) : Recurs p s.tail := by
  intro n
  obtain ⟨i, hi, hp⟩ := h (n + 1)
  obtain ⟨j, rfl⟩ := Nat.exists_eq_add_of_le hi
  refine ⟨n + j, Nat.le_add_right n j, ?_⟩
  rw [Stream'.get_tail, show n + j + 1 = n + 1 + j by omega]
  exact hp

theorem Recurs.append (h : Recurs p s) (l : List α) : Recurs p (l ++ₛ s) := by
  intro n
  obtain ⟨i, hi, hp⟩ := h n
  refine ⟨l.length + i, by omega, ?_⟩
  rwa [Stream'.get_append_right]

/-- What is left of a stream. -/
def IsRest (rest s : Stream' α) : Prop := ∃ l : List α, s = l ++ₛ rest

theorem IsRest.refl (s : Stream' α) : IsRest s s := ⟨[], rfl⟩

theorem IsRest.tail (s : Stream' α) : IsRest s.tail s := ⟨[s.head], (Stream'.eta s).symm⟩

theorem IsRest.trans {s₁ s₂ s₃ : Stream' α} (h : IsRest s₁ s₂) (h' : IsRest s₂ s₃) :
    IsRest s₁ s₃ := by
  obtain ⟨l, rfl⟩ := h
  obtain ⟨l', rfl⟩ := h'
  exact ⟨l' ++ l, (Stream'.append_append_stream l' l s₁).symm⟩

theorem Recurs.of_isRest {rest : Stream' α} (h : Recurs p s) (hrest : IsRest rest s) :
    Recurs p rest := by
  obtain ⟨l, rfl⟩ := hrest
  induction l with
  | nil => exact h
  | cons a l ih => exact ih h.tail

theorem accept_mono {r : β × Stream' α} {fuel' : ℕ} (hle : fuel ≤ fuel')
    (h : accept f fuel s = some r) : accept f fuel' s = some r := by
  induction fuel generalizing s fuel' with
  | zero => cases h
  | succ fuel ih =>
    obtain ⟨fuel', rfl⟩ := Nat.exists_eq_add_of_le' (Nat.one_le_of_lt hle)
    rw [accept] at h ⊢
    cases heq : f s.head with
    | some b =>
      rw [heq] at h
      exact h
    | none =>
      rw [heq] at h
      exact ih (Nat.le_of_succ_le_succ hle) h

theorem of_accept {r : β × Stream' α} (h : accept f fuel s = some r) :
    (∃ a, f a = some r.1) ∧ IsRest r.2 s := by
  induction fuel generalizing s with
  | zero => cases h
  | succ fuel ih =>
    rw [accept] at h
    split at h
    · next heq =>
      cases h
      exact ⟨⟨_, heq⟩, IsRest.tail s⟩
    · obtain ⟨hf, hrest⟩ := ih h
      exact ⟨hf, hrest.trans (IsRest.tail s)⟩

theorem accept_eq_none (h : ∀ a, f a = none) (fuel : ℕ) (s : Stream' α) :
    accept f fuel s = none := by
  induction fuel generalizing s with
  | zero => rfl
  | succ fuel ih =>
    rw [accept, h]
    exact ih s.tail

theorem exists_accept (h : Recurs (fun a => (f a).isSome) s) :
    ∃ fuel r, accept f fuel s = some r := by
  obtain ⟨i, -, hi⟩ := h 0
  suffices hrun : ∀ i s, (f (s.get i)).isSome → ∃ r, accept f (i + 1) s = some r from
    ⟨i + 1, hrun i s hi⟩
  intro i
  induction i with
  | zero =>
    intro s hs
    obtain ⟨b, hb⟩ := Option.isSome_iff_exists.mp hs
    refine ⟨(b, s.tail), ?_⟩
    rw [accept, show f s.head = some b from hb]
  | succ i ih =>
    intro s hs
    rw [accept]
    cases heq : f s.head with
    | some b => exact ⟨_, rfl⟩
    | none => exact ih s.tail hs

theorem accept_cons {r : β × Stream' α} (ha : f a = some b)
    (h : accept f fuel (Stream'.cons a s) = some r) : r = (b, s) := by
  rcases fuel with _ | fuel
  · cases h
  · rw [accept, Stream'.head_cons, ha] at h
    exact (Option.some.inj h).symm

/-! ## Ending -/

section

variable {σ τ : Type*} {post : σ → Prop} {post' : τ → Prop}

/-- There is a result from some fuel on, and always the same one. -/
def Ends (run : ℕ → Option σ) (post : σ → Prop) : Prop :=
  ∃ fuel r, (∀ fuel', fuel ≤ fuel' → run fuel' = some r) ∧ post r

theorem Ends.pure {r : σ} (h : post r) : Ends (fun _ => some r) post :=
  ⟨0, r, fun _ _ => rfl, h⟩

theorem Ends.bind {run : ℕ → Option σ} {next : ℕ → σ → Option τ} (h : Ends run post)
    (hnext : ∀ r, post r → Ends (fun fuel => next fuel r) post') :
    Ends (fun fuel => (run fuel).bind (next fuel)) post' := by
  obtain ⟨fuel, r, hrun, hr⟩ := h
  obtain ⟨fuel', r', hrun', hr'⟩ := hnext r hr
  refine ⟨max fuel fuel', r', fun k hk => ?_, hr'⟩
  obtain ⟨hk1, hk2⟩ := Nat.max_le.mp hk
  dsimp only
  rw [hrun k hk1, Option.bind_some]
  exact hrun' k hk2

theorem Ends.foldlM {ε : Type*} {step : ℕ → σ → ε → Option σ} {es : List ε}
    (hstep : ∀ e ∈ es, ∀ r, post r → Ends (fun fuel => step fuel r e) post) {r : σ} (hr : post r) :
    Ends (fun fuel => es.foldlM (step fuel) r) post := by
  induction es generalizing r with
  | nil => exact Ends.pure hr
  | cons e es ih =>
    obtain ⟨hhead, htail⟩ := List.forall_mem_cons.mp hstep
    exact (hhead r hr).bind fun r' hr' => ih htail hr'

theorem ends_accept (h : Recurs (fun a => (f a).isSome) s) :
    Ends (fun fuel => accept f fuel s) fun r => (∃ a, f a = some r.1) ∧ IsRest r.2 s := by
  obtain ⟨fuel, r, hr⟩ := exists_accept h
  exact ⟨fuel, r, fun _ hle => accept_mono hle hr, of_accept hr⟩

end

end Draws
