import Chip8.Deque
import Chip8.State

/-! # History

The states to which a machine can be rewound: at most `limit` of them, the latest
first.  Saving one more than the limit drops the oldest, and a limit of zero keeps
none.

`Snapshots` are a queue of states and a limit that nothing ties to it: whether one is
dropped is decided by asking if there are exactly as many as the limit.  That is enough
as long as there were never more, so a `History` is a queue in which there are not, and
each operation shows that it stays so.  What is kept is told by `saved`, and by the
lemmas about it. -/

namespace Chip8

/-- Saved states, the latest first, and how many of them are to be kept. -/
structure Snapshots where
  limit : Nat
  states : Deque State

namespace Snapshots

/-- Save a state in front.  If there are as many as the limit, the oldest one makes room. -/
def save (q : Snapshots) (s : State) : Snapshots :=
  if q.limit = 0 then q
  else
    let kept := if q.states.size = q.limit then q.states.popBack else q.states
    { q with states := kept.pushFront s }

/-- Keep at most `limit` states from now on. -/
def resize (q : Snapshots) (limit : Nat) : Snapshots :=
  { limit, states := q.states.truncate limit }

/-- The latest state, and the queue without it. -/
def pop? (q : Snapshots) : Option (State × Snapshots) :=
  q.states.popFront?.map fun popped => (popped.1, { q with states := popped.2 })

/-- The states, the latest first. -/
def toList (q : Snapshots) : List State := q.states.toList

@[simp] theorem limit_save (q : Snapshots) (s : State) : (q.save s).limit = q.limit := by
  unfold save
  split <;> rfl

/-- Where there are not too many states, the saved one comes in front of as many as still fit. -/
theorem toList_save {q : Snapshots} (h : q.toList.length ≤ q.limit) (s : State) :
    (q.save s).toList = (s :: q.toList).take q.limit := by
  have hsize : q.toList.length = q.states.size := q.states.length_toList
  unfold save
  split
  · rename_i hlimit
    rw [hlimit, Nat.le_zero, List.length_eq_zero_iff] at h
    rw [hlimit, h, List.take_zero]
  · rename_i hlimit
    obtain ⟨room, hroom⟩ : ∃ room, q.limit = room + 1 := Nat.exists_eq_succ_of_ne_zero hlimit
    rw [hroom, List.take_succ_cons]
    refine (Deque.toList_pushFront _ _).trans (congrArg (s :: ·) ?_)
    split
    · -- The queue is full: without its last state it has room for one.
      have hdrop : q.toList.dropLast = q.toList.take room := by
        rw [List.dropLast_eq_take]
        exact congrArg q.toList.take (by omega)
      exact (Deque.toList_popBack _).trans hdrop
    · have hroom_le : q.toList.length ≤ room := by omega
      exact (List.take_of_length_le hroom_le).symm

@[simp] theorem toList_resize (q : Snapshots) (limit : Nat) :
    (q.resize limit).toList = q.toList.take limit := Deque.toList_truncate _ _

theorem pop?_eq_none_iff (q : Snapshots) : q.pop? = none ↔ q.toList = [] := by
  rw [pop?, Option.map_eq_none_iff]
  exact Deque.popFront?_eq_none_iff _

theorem toList_of_pop? {q q' : Snapshots} {s : State} (h : q.pop? = some (s, q')) :
    q.toList = s :: q'.toList ∧ q'.limit = q.limit := by
  obtain ⟨popped, hpop, heq⟩ := Option.map_eq_some_iff.1 h
  cases heq
  exact ⟨Deque.toList_of_popFront? hpop, rfl⟩

end Snapshots

/-- Saved states of which there are not more than are to be kept. -/
structure History extends Snapshots where
  length_le : toSnapshots.toList.length ≤ limit

namespace History

/-- The states that can be gone back to, the latest first. -/
def saved (h : History) : List State := h.toSnapshots.toList

/-- A history that will keep at most `limit` states and has none yet. -/
def empty (limit : Nat) : History := { limit, states := .empty, length_le := Nat.zero_le _ }

/-- Save a state in front. -/
def save (h : History) (s : State) : History where
  toSnapshots := h.toSnapshots.save s
  length_le := by
    rw [Snapshots.toList_save h.length_le, Snapshots.limit_save]
    exact List.length_take_le _ _

/-- Keep at most `limit` states from now on. -/
def resize (h : History) (limit : Nat) : History where
  toSnapshots := h.toSnapshots.resize limit
  length_le := by
    rw [Snapshots.toList_resize]
    exact List.length_take_le _ _

/-- The latest state, and the history without it. -/
def pop? (h : History) : Option (State × History) :=
  match hpop : h.toSnapshots.pop? with
  | none => none
  | some (s, rest) =>
    some (s,
      { toSnapshots := rest
        length_le := by
          have hcons := Snapshots.toList_of_pop? hpop
          have hle := h.length_le
          rw [hcons.1, List.length_cons] at hle
          rw [hcons.2]
          exact Nat.le_of_succ_le hle })

/-- There are never more saved states than the limit. -/
theorem length_saved_le (h : History) : h.saved.length ≤ h.limit := h.length_le

@[simp] theorem limit_save (h : History) (s : State) : (h.save s).limit = h.limit :=
  Snapshots.limit_save _ _

@[simp] theorem saved_save (h : History) (s : State) :
    (h.save s).saved = (s :: h.saved).take h.limit := Snapshots.toList_save h.length_le s

@[simp] theorem saved_resize (h : History) (limit : Nat) :
    (h.resize limit).saved = h.saved.take limit := Snapshots.toList_resize _ _

/-- A state is popped where the queue has one, and the queue is then the one without it. -/
theorem pop?_map (h : History) :
    h.pop?.map (fun popped => (popped.1, popped.2.toSnapshots)) = h.toSnapshots.pop? := by
  unfold pop?
  split
  · rename_i hpop
    exact hpop.symm
  · rename_i hpop
    exact hpop.symm

theorem pop?_eq_none_iff (h : History) : h.pop? = none ↔ h.saved = [] := by
  rw [← Option.map_eq_none_iff, pop?_map]
  exact Snapshots.pop?_eq_none_iff _

theorem saved_of_pop? {h h' : History} {s : State} (e : h.pop? = some (s, h')) :
    h.saved = s :: h'.saved ∧ h'.limit = h.limit := by
  have hpop := h.pop?_map
  rw [e] at hpop
  exact Snapshots.toList_of_pop? hpop.symm

end History

end Chip8
