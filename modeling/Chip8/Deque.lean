/-! # Double-ended queues

Entries are put in at the front; they are taken out at the front, or at the back to make
room.  None of this may walk along the queue, so it is kept as two lists that lie back to
back: the front one in order, the back one in reverse.  Where one of them has run out, the
other one is turned around once.

Only `toList`, the entries in order, can be seen; the lemmas below say what each operation
does to it. -/

namespace Chip8

/-- Entries in two lists. -/
structure Deque (α : Type) where
  front : List α
  /-- The entries behind those in front, the last one first. -/
  back : List α
  /-- How many entries there are. -/
  size : Nat
  size_eq : size = front.length + back.length

namespace Deque

variable {α : Type}

/-- The entries, in order. -/
def toList (d : Deque α) : List α := d.front ++ d.back.reverse

/-- The queue of the entries of a list. -/
def ofList (entries : List α) : Deque α :=
  { front := entries, back := [], size := entries.length, size_eq := rfl }

/-- No entries. -/
def empty : Deque α := ofList []

/-- Put an entry in front. -/
def pushFront (d : Deque α) (a : α) : Deque α where
  front := a :: d.front
  back := d.back
  size := d.size + 1
  size_eq := by rw [d.size_eq, List.length_cons, Nat.add_right_comm]

/-- The first entry, and the queue without it. -/
def popFront? : Deque α → Option (α × Deque α)
  | { front := a :: rest, back, size, size_eq } =>
    some (a, { front := rest, back, size := size - 1, size_eq := by simp [size_eq] })
  | { front := [], back, .. } =>
    match back.reverse with
    | [] => none
    | a :: rest => some (a, ofList rest)

/-- The queue without its last entry. -/
def popBack : Deque α → Deque α
  | { front, back := _ :: rest, size, size_eq } =>
    { front, back := rest, size := size - 1, size_eq := by simp [size_eq] }
  | { front, back := [], .. } =>
    { front := [], back := front.reverse.tail, size := front.length - 1, size_eq := by simp }

/-- The first `n` entries. -/
def truncate (d : Deque α) (n : Nat) : Deque α :=
  if d.size ≤ n then d else ofList (d.toList.take n)

/-! ## Entries -/

@[simp] theorem toList_ofList (entries : List α) : (ofList entries).toList = entries :=
  List.append_nil _

@[simp] theorem toList_empty : (empty : Deque α).toList = [] := rfl

@[simp] theorem length_toList (d : Deque α) : d.toList.length = d.size := by
  rw [toList, List.length_append, List.length_reverse, d.size_eq]

@[simp] theorem toList_pushFront (d : Deque α) (a : α) :
    (d.pushFront a).toList = a :: d.toList := rfl

theorem popFront?_eq_none_iff (d : Deque α) : d.popFront? = none ↔ d.toList = [] := by
  obtain ⟨front, back, size, -⟩ := d
  cases front with
  | cons a rest => simp [popFront?, toList]
  | nil =>
    simp only [popFront?, toList, List.nil_append]
    cases back.reverse with
    | nil => simp
    | cons a rest => simp

theorem toList_of_popFront? {d d' : Deque α} {a : α} (h : d.popFront? = some (a, d')) :
    d.toList = a :: d'.toList := by
  obtain ⟨front, back, size, hsize⟩ := d
  cases front with
  | cons b rest =>
    cases h
    rfl
  | nil =>
    -- What is popped is the front of the list that was turned around.
    simp only [popFront?] at h
    cases hback : back.reverse with
    | nil =>
      rw [hback] at h
      exact nomatch h
    | cons b rest =>
      rw [hback] at h
      cases h
      rw [toList_ofList]
      exact hback

@[simp] theorem toList_popBack (d : Deque α) : d.popBack.toList = d.toList.dropLast := by
  obtain ⟨front, back, size, -⟩ := d
  cases back with
  | cons b rest => simp [popBack, toList, ← List.append_assoc]
  | nil => simp [popBack, toList]

@[simp] theorem toList_truncate (d : Deque α) (n : Nat) :
    (d.truncate n).toList = d.toList.take n := by
  unfold truncate
  split
  · rename_i h
    exact (List.take_of_length_le (Nat.le_trans (Nat.le_of_eq d.length_toList) h)).symm
  · exact toList_ofList _

end Deque

end Chip8
