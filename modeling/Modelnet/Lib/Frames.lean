import Mathlib.Data.List.Basic
import Mathlib.Data.List.Flatten
import Mathlib.Data.List.TakeWhile
import Mathlib.Data.Nat.Notation

/-!
# Frames

Records of different sizes one after the other, each with a header of a fixed size that tells how
long the whole record is. A reader that stops at the first record it cannot take reads what was
written, and of a file that was cut off it reads the records in front of the cut.
-/

/-- How records are told apart. -/
structure Framing (α : Type*) where
  /-- the size of a header -/
  head : ℕ
  head_pos : 0 < head
  /-- the size of the record a header belongs to, if it is one the reader takes -/
  size : List α → Option ℕ

namespace Framing

variable {α : Type*} (F : Framing α)

/-- The next record, and what follows it. -/
def read (bs : List α) : Option (List α × List α) :=
  if bs.length < F.head then none
  else
    (F.size (bs.take F.head)).bind fun n =>
      if n < F.head ∨ bs.length < n then none else some (bs.take n, bs.drop n)

/-- At most `n` records. -/
def readAll : ℕ → List α → List (List α)
  | 0, _ => []
  | n + 1, bs =>
    match F.read bs with
    | none => []
    | some (e, rest) => e :: readAll n rest

/-- The records in front of the first one that cannot be read. -/
def entries (bs : List α) : List (List α) := F.readAll bs.length bs

/-- A record with its own size in its header. -/
structure Framed (e : List α) : Prop where
  head_le : F.head ≤ e.length
  size_eq : F.size (e.take F.head) = some e.length

variable {F} {e bs rest : List α} {es : List (List α)}

theorem read_append (h : F.Framed e) (rest : List α) : F.read (e ++ rest) = some (e, rest) := by
  have hhead := h.head_le
  unfold read
  rw [if_neg (by rw [List.length_append]; omega), List.take_append_of_le_length hhead, h.size_eq,
    Option.bind_some, if_neg (by rw [List.length_append]; omega), List.take_left, List.drop_left]

theorem read_eq_some : F.read bs = some (e, rest) ↔ bs = e ++ rest ∧ F.Framed e := by
  constructor
  · intro h
    unfold read at h
    split_ifs at h with hlen
    obtain ⟨n, hn, h⟩ := Option.bind_eq_some_iff.mp h
    split_ifs at h with hbad
    rw [not_or, not_lt, not_lt] at hbad
    obtain ⟨rfl, rfl⟩ := Prod.mk.inj (Option.some.inj h)
    have htake : (bs.take n).length = n := List.length_take_of_le hbad.2
    refine ⟨(List.take_append_drop n bs).symm, ?_, ?_⟩
    · rw [htake]
      exact hbad.1
    · rw [List.take_take, Nat.min_eq_left hbad.1, htake]
      exact hn
  · rintro ⟨rfl, hframed⟩
    exact read_append hframed rest

theorem read_eq_none : F.read bs = none ↔ bs.length < F.head ∨
    ∀ n, F.size (bs.take F.head) = some n → n < F.head ∨ bs.length < n := by
  unfold read
  split_ifs with hlen
  · exact ⟨fun _ => .inl hlen, fun _ => rfl⟩
  · rw [Option.bind_eq_none_iff]
    constructor
    · intro h
      refine .inr fun n hn => ?_
      by_contra hfit
      exact absurd (h n hn) (by rw [if_neg hfit]; exact nofun)
    · intro h n hn
      exact if_pos (h.resolve_left hlen n hn)

/-- Nothing can be read of a record that has been cut off. -/
theorem read_take (h : F.Framed e) {n : ℕ} (hn : n < e.length) : F.read (e.take n) = none := by
  have htake : (e.take n).length = n := List.length_take_of_le hn.le
  unfold read
  rw [htake]
  split_ifs with hlen
  · rfl
  · rw [List.take_take, Nat.min_eq_left (not_lt.mp hlen), h.size_eq, Option.bind_some,
      if_pos (.inr hn)]

theorem readAll_iff {n : ℕ} (hn : bs.length ≤ n) :
    F.readAll n bs = es ↔
      ∃ rest, bs = es.flatten ++ rest ∧ (∀ e ∈ es, F.Framed e) ∧ F.read rest = none := by
  induction n generalizing bs es with
  | zero =>
    have hbs : bs = [] := List.length_eq_zero_iff.mp (Nat.le_zero.mp hn)
    have hnil : F.read [] = none := if_pos F.head_pos
    subst hbs
    constructor
    · rintro rfl
      exact ⟨[], rfl, nofun, hnil⟩
    · rintro ⟨rest, hflat, hframed, -⟩
      cases es with
      | nil => rfl
      | cons e es =>
        have hpos := F.head_pos
        have hhead := (hframed e List.mem_cons_self).head_le
        have hlen := congrArg List.length hflat
        simp only [List.flatten_cons, List.length_nil, List.length_append] at hlen
        omega
  | succ n ih =>
    unfold readAll
    cases hread : F.read bs with
    | none =>
      constructor
      · rintro rfl
        exact ⟨bs, rfl, by simp, hread⟩
      · rintro ⟨rest, hflat, hframed, -⟩
        cases es with
        | nil => rfl
        | cons e es =>
          rw [hflat, List.flatten_cons, List.append_assoc,
            read_append (hframed e List.mem_cons_self)] at hread
          cases hread
    | some r =>
      obtain ⟨e, tail⟩ := r
      obtain ⟨rfl, he⟩ := read_eq_some.mp hread
      have hpos := F.head_pos
      have hhead := he.head_le
      have htail : tail.length ≤ n := by
        rw [List.length_append] at hn
        omega
      constructor
      · rintro rfl
        obtain ⟨rest, hflat, hframed, hrest⟩ := (ih htail).mp rfl
        refine ⟨rest, ?_, List.forall_mem_cons.mpr ⟨he, hframed⟩, hrest⟩
        rw [List.flatten_cons, List.append_assoc, ← hflat]
      · rintro ⟨rest, hflat, hframed, hrest⟩
        cases es with
        | nil =>
          rw [List.flatten_nil, List.nil_append] at hflat
          rw [hflat, hrest] at hread
          cases hread
        | cons e' es =>
          rw [hflat, List.flatten_cons, List.append_assoc,
            read_append (hframed e' List.mem_cons_self)] at hread
          obtain ⟨rfl, rfl⟩ := Prod.mk.inj (Option.some.inj hread)
          exact congrArg _ ((ih htail).mpr
            ⟨rest, rfl, fun x hx => hframed x (List.mem_cons_of_mem _ hx), hrest⟩)

/-- **What is read.** The records are the beginning of the file, and no record can be read behind
them. -/
theorem entries_iff : F.entries bs = es ↔
    ∃ rest, bs = es.flatten ++ rest ∧ (∀ e ∈ es, F.Framed e) ∧ F.read rest = none :=
  readAll_iff le_rfl

/-- The records that end within the first `n` symbols. -/
def within : ℕ → List (List α) → List (List α)
  | _, [] => []
  | n, e :: es => if e.length ≤ n then e :: within (n - e.length) es else []

/-- **Cut off.** Of a file that ends early the records in front of its end are read. -/
theorem entries_take_flatten (h : ∀ e ∈ es, F.Framed e) (n : ℕ) :
    F.entries (es.flatten.take n) = within n es := by
  rw [entries_iff]
  induction es generalizing n with
  | nil => exact ⟨[], by simp [within], by simp [within], if_pos F.head_pos⟩
  | cons e es ih =>
    obtain ⟨he, hes⟩ := List.forall_mem_cons.mp h
    unfold within
    split_ifs with hle
    · obtain ⟨rest, hflat, hframed, hrest⟩ := ih hes (n - e.length)
      refine ⟨rest, ?_, List.forall_mem_cons.mpr ⟨he, hframed⟩, hrest⟩
      rw [List.flatten_cons, List.take_append, List.take_of_length_le hle, hflat, List.flatten_cons,
        List.append_assoc]
    · have hlt := not_le.mp hle
      refine ⟨e.take n, ?_, by simp, read_take he hlt⟩
      rw [List.flatten_cons, List.take_append_of_le_length hlt.le, List.flatten_nil,
        List.nil_append]

end Framing
