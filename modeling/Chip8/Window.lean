/-! # Windows of a vector

A window is a run of consecutive cells of a vector of fixed size.  `window` reads
one as a list and `overwrite` replaces one by the elements of a list.  Cells
outside of the window keep their value (`getElem_overwrite`, `toList_overwrite`), a
window that was just written reads back as written (`window_overwrite`), and one that
lies apart from it reads as before (`window_overwrite_of_disjoint`). -/

namespace Vector

variable {α : Type} {n : Nat}

/-- The `length` cells from `start` on. -/
def window (cells : Vector α n) (start length : Nat) (h : start + length ≤ n) : List α :=
  List.ofFn fun k : Fin length => cells[start + k]

/-- The vector with the elements of `data` in the cells from `start` on.  Elements
    that would fall past the end are dropped. -/
def overwrite (cells : Vector α n) (start : Nat) : List α → Vector α n
  | [] => cells
  | a :: data => overwrite (cells.setIfInBounds start a) (start + 1) data

@[simp] theorem length_window (cells : Vector α n) {start length : Nat}
    (h : start + length ≤ n) : (cells.window start length h).length = length := by
  simp [window]

theorem getElem?_window (cells : Vector α n) {start length k : Nat}
    (h : start + length ≤ n) (hk : k < length) :
    (cells.window start length h)[k]? = some cells[start + k] := by
  simp [window, hk]

@[simp] theorem overwrite_nil (cells : Vector α n) (start : Nat) :
    cells.overwrite start [] = cells := rfl

/-- A cell inside the written run holds the element written to it, any other cell
    what it held before. -/
theorem getElem_overwrite (cells : Vector α n) (start : Nat) (data : List α) {i : Nat}
    (hi : i < n) :
    (cells.overwrite start data)[i] =
      if h : start ≤ i ∧ i - start < data.length then data[i - start] else cells[i] := by
  induction data generalizing cells start with
  | nil => simp
  | cons a data ih =>
    rw [overwrite, ih]
    by_cases hs : start = i
    · subst hs
      rw [dif_neg (by omega), dif_pos (by simp), Vector.getElem_setIfInBounds]
      simp
    · by_cases h : start + 1 ≤ i ∧ i - (start + 1) < data.length
      · have e : i - start = (i - (start + 1)) + 1 := by omega
        rw [dif_pos h, dif_pos (by simp; omega)]
        simp [e]
      · rw [dif_neg h, dif_neg (by simp; omega), Vector.getElem_setIfInBounds, if_neg hs]

/-- Overwriting a window replaces it in the list of all cells. -/
theorem toList_overwrite (cells : Vector α n) {start : Nat}
    {data : List α} (h : start + data.length ≤ n) :
    (cells.overwrite start data).toList =
      cells.toList.take start ++ data ++ cells.toList.drop (start + data.length) := by
  apply List.ext_getElem
  · simp only [Vector.length_toList, List.length_append, List.length_take, List.length_drop]
    omega
  · intro k hk hk'
    have hlt : k < n := by simpa using hk
    rw [Vector.getElem_toList, Vector.getElem_overwrite _ _ _ hlt]
    -- The cell is in front of the window, in it, or behind it.
    by_cases hfront : k < start
    · rw [dif_neg (by omega), List.getElem_append_left (by simp; omega),
        List.getElem_append_left (by simp; omega)]
      simp
    · by_cases hinside : k - start < data.length
      · rw [dif_pos ⟨by omega, hinside⟩, List.getElem_append_left (by simp; omega),
          List.getElem_append_right (by simp; omega)]
        simp only [List.length_take, Vector.length_toList,
          Nat.min_eq_left (show start ≤ n by omega)]
      · have hplace : start + data.length + (k - (start + data.length)) = k := by omega
        rw [dif_neg (by omega), List.getElem_append_right (by simp; omega)]
        simp [Nat.min_eq_left (show start ≤ n by omega), hplace]

/-- One more of the first cells. -/
theorem take_toList_succ (cells : Vector α n) {k : Nat} (h : k < n) :
    cells.toList.take (k + 1) = cells.toList.take k ++ [cells[k]] := by
  have hlength : k < cells.toList.length := by simpa using h
  rw [← List.take_append_getElem hlength, Vector.getElem_toList]

/-- Setting the cell behind the first ones puts its element behind theirs. -/
theorem take_toList_set (cells : Vector α n) {k : Nat} (h : k < n) (a : α) :
    (cells.set k a).toList.take (k + 1) = cells.toList.take k ++ [a] := by
  rw [take_toList_succ _ h, Vector.getElem_set_self, Vector.toList_set, List.take_set,
    List.set_eq_of_length_le (List.length_take_le ..)]

/-- Reading a window that lies apart from the written run gives what was there. -/
theorem window_overwrite_of_disjoint (cells : Vector α n) {start length : Nat}
    (h : start + length ≤ n) {first : Nat} {data : List α}
    (apart : start + length ≤ first ∨ first + data.length ≤ start) :
    (cells.overwrite first data).window start length h = cells.window start length h := by
  apply List.ext_getElem?
  intro k
  by_cases hk : k < length
  · rw [getElem?_window _ h hk, getElem?_window _ h hk, getElem_overwrite, dif_neg (by omega)]
  · rw [List.getElem?_eq_none (by simp; omega), List.getElem?_eq_none (by simp; omega)]

/-- Reading a window right after writing it gives what was written. -/
theorem window_overwrite (cells : Vector α n) (start : Nat) (data : List α)
    (h : start + data.length ≤ n) :
    (cells.overwrite start data).window start data.length h = data := by
  apply List.ext_getElem?
  intro k
  by_cases hk : k < data.length
  · rw [getElem?_window _ h hk, getElem_overwrite, dif_pos (by omega)]
    simp [hk]
  · rw [List.getElem?_eq_none (by simp; omega), List.getElem?_eq_none (by omega)]

end Vector
