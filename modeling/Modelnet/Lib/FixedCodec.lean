import Mathlib.Data.List.Basic
import Mathlib.Data.List.Flatten
import Mathlib.Data.Nat.Notation

/-!
# Codecs of a fixed size

Values that are written in a fixed number of symbols, one after the other and without separators.
A reader that knows the size gets the values back, in order, whatever follows them.
-/

/-- Values of type `α` written in `size` symbols each. -/
structure FixedCodec (β α : Type*) where
  size : ℕ
  size_pos : 0 < size
  encode : α → List β
  /-- The value at the start of the symbols. -/
  decode : List β → α
  length_encode : ∀ a, (encode a).length = size
  decode_encode_append : ∀ a rest, decode (encode a ++ rest) = a

namespace FixedCodec

variable {β α : Type*} (C : FixedCodec β α)

def encodeAll (l : List α) : List β := l.flatMap C.encode

/-- The first `n` values. -/
def decodeAll : ℕ → List β → List α
  | 0, _ => []
  | n + 1, bs => C.decode bs :: decodeAll n (bs.drop C.size)

@[simp] theorem encodeAll_nil : C.encodeAll [] = [] := rfl

theorem encodeAll_cons (a : α) (l : List α) : C.encodeAll (a :: l) = C.encode a ++ C.encodeAll l :=
  List.flatMap_cons

theorem encodeAll_append (l l' : List α) :
    C.encodeAll (l ++ l') = C.encodeAll l ++ C.encodeAll l' := List.flatMap_append

@[simp] theorem encodeAll_singleton (a : α) : C.encodeAll [a] = C.encode a := by
  rw [encodeAll_cons, encodeAll_nil, List.append_nil]

@[simp] theorem length_encodeAll (l : List α) : (C.encodeAll l).length = l.length * C.size := by
  induction l with
  | nil => simp
  | cons a l ih => rw [encodeAll_cons, List.length_append, ih, C.length_encode, List.length_cons,
      Nat.succ_mul, Nat.add_comm]

theorem drop_encode_append (a : α) (rest : List β) :
    (C.encode a ++ rest).drop C.size = rest := by
  rw [← C.length_encode a, List.drop_left]

/-- **Round trip.** The values are read back. -/
theorem decodeAll_encodeAll_append (l : List α) (rest : List β) :
    C.decodeAll l.length (C.encodeAll l ++ rest) = l := by
  induction l with
  | nil => rfl
  | cons a l ih =>
    rw [encodeAll_cons, List.append_assoc, List.length_cons]
    show C.decode _ :: C.decodeAll _ _ = _
    rw [C.decode_encode_append, drop_encode_append, ih]

end FixedCodec
