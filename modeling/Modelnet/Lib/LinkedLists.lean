import Mathlib.Data.List.Nodup
import Mathlib.Data.List.Perm.Subperm

/-!
# Linked lists in a store

`load a` is the cell at the address `a`, if there is one, and `next x` the address that the cell `x`
points at. `Linked load next p l` says that whoever starts at `p` and follows the pointers comes
through the cells `l` and then to an end. So no cell is on a chain twice (`Linked.nodup`). A chain
survives the changes that list code makes: cells elsewhere (`Linked.congr`), a cell put in front
(`Linked.push`), a cell taken out (`Linked.unlink`).
-/

variable {α β : Type*}

/-- From `p`, the pointers lead through the cells `l` and then end. -/
def Linked (load : α → Option β) (next : β → Option α) : Option α → List α → Prop
  | p, [] => p = none
  | p, a :: l => p = some a ∧ ∃ x, load a = some x ∧ Linked load next (next x) l

/-- The loop along a chain to the first cell that meets `q`, with the cell before it. It fails at an
address without a cell, and after `n` cells. -/
def searchLinked (load : α → Option β) (next : β → Option α) (q : β → Bool) :
    ℕ → Option α → Option α → Option (Option (Option α × α))
  | _, _, none => some none
  | 0, _, some _ => none
  | n + 1, a, some b =>
    match load b with
    | none => none
    | some x => if q x then some (some (a, b)) else searchLinked load next q n (some b) (next x)

namespace Linked

variable {load load' : α → Option β} {next : β → Option α} {p : Option α} {l l' l₁ l₂ : List α}
  {a b : α}

@[simp] theorem nil_iff : Linked load next p [] ↔ p = none := Iff.rfl

@[simp] theorem cons_iff : Linked load next p (a :: l) ↔
    p = some a ∧ ∃ x, load a = some x ∧ Linked load next (next x) l := Iff.rfl

theorem exists_cell (h : Linked load next p l) : ∀ a ∈ l, ∃ x, load a = some x := by
  induction l generalizing p with
  | nil => exact fun a ha => absurd ha List.not_mem_nil
  | cons b l ih =>
    obtain ⟨-, x, hx, hl⟩ := h
    intro a ha
    obtain rfl | ha := List.mem_cons.mp ha
    · exact ⟨x, hx⟩
    · exact ih hl a ha

theorem unique (h : Linked load next p l) (h' : Linked load next p l') : l = l' := by
  induction l generalizing p l' with
  | nil =>
    cases l' with
    | nil => rfl
    | cons b l' => exact absurd (h.symm.trans h'.1) (by simp)
  | cons a l ih =>
    obtain ⟨hp, x, hx, hl⟩ := h
    cases l' with
    | nil => exact absurd (hp.symm.trans h') (by simp)
    | cons b l' =>
      obtain ⟨hp', y, hy, hl'⟩ := h'
      cases hp.symm.trans hp'
      cases hx.symm.trans hy
      rw [ih hl hl']

/-- The rest of a chain is a chain from the first of its cells. -/
theorem suffix (h : Linked load next p (l₁ ++ a :: l₂)) : Linked load next (some a) (a :: l₂) := by
  induction l₁ generalizing p with
  | nil => exact ⟨rfl, h.2⟩
  | cons b l₁ ih =>
    obtain ⟨-, x, -, hl⟩ := h
    exact ih hl

/-- **A chain has no cell twice**: from such a cell there would be two chains. -/
theorem nodup (h : Linked load next p l) : l.Nodup := by
  induction l generalizing p with
  | nil => exact List.nodup_nil
  | cons a l ih =>
    obtain ⟨-, x, hx, hl⟩ := h
    refine List.nodup_cons.mpr ⟨?_, ih hl⟩
    intro ha
    obtain ⟨l₁, l₂, rfl⟩ := List.append_of_mem ha
    have hlong : Linked load next (some a) (a :: (l₁ ++ a :: l₂)) := ⟨rfl, x, hx, hl⟩
    have hlen := congrArg List.length (hlong.unique hl.suffix)
    simp only [List.length_cons, List.length_append] at hlen
    omega

theorem notMem (h : Linked load next p (l₁ ++ a :: l₂)) : a ∉ l₁ ++ l₂ :=
  (List.nodup_cons.mp (List.nodup_middle.mp h.nodup)).1

theorem length_le (h : Linked load next p l) (cells : List α)
    (hcells : ∀ a x, load a = some x → a ∈ cells) : l.length ≤ cells.length := by
  refine (h.nodup.subperm ?_).length_le
  intro a ha
  obtain ⟨x, hx⟩ := h.exists_cell a ha
  exact hcells a x hx

theorem congr (h : Linked load next p l) (heq : ∀ a ∈ l, load' a = load a) :
    Linked load' next p l := by
  induction l generalizing p with
  | nil => exact h
  | cons a l ih =>
    obtain ⟨hp, x, hx, hl⟩ := h
    refine ⟨hp, x, ?_, ih hl fun b hb => heq b (List.mem_cons_of_mem a hb)⟩
    rw [heq a List.mem_cons_self, hx]

/-- **A cell is put in front.** -/
theorem push (h : Linked load next p l) {y : β} (hy : load' b = some y) (hnext : next y = p)
    (heq : ∀ c ∈ l, load' c = load c) : Linked load' next (some b) (b :: l) := by
  refine ⟨rfl, y, hy, ?_⟩
  rw [hnext]
  exact h.congr heq

/-- **A cell is taken out**: the cell before it now points at the cell after it. -/
theorem unlink (h : Linked load next p (l₁ ++ a :: b :: l₂)) {x y : β} (hy : load b = some y)
    (hx : load' a = some x) (hnext : next x = next y)
    (heq : ∀ c ∈ l₁ ++ l₂, load' c = load c) : Linked load' next p (l₁ ++ a :: l₂) := by
  induction l₁ generalizing p with
  | nil =>
    obtain ⟨hp, x₀, -, hb⟩ := h
    obtain ⟨-, y₀, hy₀, hl₂⟩ := hb
    cases hy.symm.trans hy₀
    refine ⟨hp, x, hx, ?_⟩
    rw [hnext]
    exact hl₂.congr fun c hc => heq c (by simpa using hc)
  | cons d l₁ ih =>
    obtain ⟨hp, z, hz, hl⟩ := h
    refine ⟨hp, z, ?_, ih hl fun c hc => heq c (List.mem_cons_of_mem d hc)⟩
    rw [heq d (by simp), hz]

/-- **The search along a chain**: it stops at the first cell that meets `q`, or no cell does. -/
theorem search (h : Linked load next p l) (q : β → Bool) {n : ℕ} (hn : l.length ≤ n)
    (a : Option α) :
    (searchLinked load next q n a p = some none ∧ ∀ b ∈ l, ∀ x, load b = some x → q x = false) ∨
    ∃ l₁ b l₂ x, l = l₁ ++ b :: l₂ ∧ load b = some x ∧ q x = true ∧
      searchLinked load next q n a p = some (some (l₁.getLast?.or a, b)) := by
  induction l generalizing n p a with
  | nil =>
    left
    cases h
    exact ⟨by cases n <;> rfl, fun b hb => absurd hb List.not_mem_nil⟩
  | cons b l ih =>
    obtain ⟨rfl, x, hx, hl⟩ := h
    obtain ⟨n, rfl⟩ : ∃ m, n = m + 1 := ⟨n - 1, by simp at hn; omega⟩
    have hturn : searchLinked load next q (n + 1) a (some b) =
        if q x then some (some (a, b)) else searchLinked load next q n (some b) (next x) := by
      simp only [searchLinked, hx]
    cases hq : q x with
    | true =>
      right
      exact ⟨[], b, l, x, rfl, hx, hq, by rw [hturn, if_pos hq]; rfl⟩
    | false =>
      have hrest := ih hl (Nat.le_of_succ_le_succ hn) (some b)
      rw [hturn, hq, if_neg Bool.false_ne_true]
      obtain ⟨hnone, hall⟩ | ⟨l₁, c, l₂, y, rfl, hy, hqy, hfound⟩ := hrest
      · left
        refine ⟨hnone, ?_⟩
        intro c hc y hy
        obtain rfl | hc := List.mem_cons.mp hc
        · rw [hx] at hy
          cases hy
          exact hq
        · exact hall c hc y hy
      · right
        refine ⟨b :: l₁, c, l₂, y, rfl, hy, hqy, ?_⟩
        rw [hfound]
        cases l₁ <;> simp [List.getLast?_cons]

end Linked
