import Mathlib.Data.List.Basic

/-!
# Lists made of pieces of one length

Words are stored as pairs of bytes, pixels are listed row by row and shown as triples of bytes:
where each element of a list is replaced by a piece of the same length, the place of an element in
the result is the place of its piece and its place in the piece.
-/

namespace List

variable {α β : Type} {f : α → List β} {n : Nat}

theorem length_flatMap_of_length (h : ∀ a, (f a).length = n) (xs : List α) :
    (xs.flatMap f).length = n * xs.length := by
  induction xs with
  | nil => rfl
  | cons a xs ih =>
    rw [List.flatMap_cons, List.length_append, h, ih, List.length_cons, Nat.mul_succ, Nat.add_comm]

theorem getElem?_flatMap_of_length (h : ∀ a, (f a).length = n) (xs : List α) (i : Nat) {j : Nat}
    (hj : j < n) : (xs.flatMap f)[n * i + j]? = xs[i]?.bind fun a => (f a)[j]? := by
  induction xs generalizing i with
  | nil => rfl
  | cons a xs ih =>
    have hlength := h a
    rw [List.flatMap_cons]
    cases i with
    -- The place is in the piece of the first element.
    | zero =>
      rw [Nat.mul_zero, Nat.zero_add, List.getElem?_append_left (by omega)]
      rfl
    | succ i =>
      -- The place is behind it, and the other pieces begin as many places later as it is long.
      have hplace : n * (i + 1) + j - (f a).length = n * i + j := by
        rw [hlength, Nat.mul_succ]
        omega
      have hle : (f a).length ≤ n * (i + 1) + j := by
        rw [hlength, Nat.mul_succ]
        omega
      rw [List.getElem?_append_right hle, hplace, ih]
      rfl

end List
