import Chip8.History

/-!
# Saved states are a list that is cut

To whoever steps and goes back, saved states are a list: a state goes in front, and the list is cut
to as many as are to be kept.  A queue of snapshots never cuts itself when a state is saved.  It
asks whether there are exactly as many states as the limit, and if so drops one.  This file shows
that the two do the same through any sequence of operations, because no operation ever leaves more
states behind than the limit, and that the question would not do if there were more.

## Key results

- `Snapshots.perform_eq`, `Snapshots.Bounded.perform`: an operation on a queue and on its list
- `Snapshots.run_eq`: any sequence of operations
- `Snapshots.toList_save_of_lt`: a queue that is too long is not cut
-/

namespace Chip8

/-- What is asked of saved states. -/
inductive SnapshotOp where
  | save (s : State)
  | resize (limit : Nat)
  | pop

/-! ## Lists -/

namespace SnapshotOp

/-- An operation on a list that is cut to a limit: the state that is gone back to, the limit after
    it, and the list. -/
def onList (limit : Nat) (states : List State) : SnapshotOp → Option State × Nat × List State
  | save s => (none, limit, (s :: states).take limit)
  | resize limit => (none, limit, states.take limit)
  | pop => (states.head?, limit, states.tail)

/-- Operations on a list one after the other: the states that are gone back to, the limit in the
    end, and the list. -/
def runList (limit : Nat) (states : List State) :
    List SnapshotOp → List (Option State) × Nat × List State
  | [] => ([], limit, states)
  | op :: ops =>
    let first := op.onList limit states
    let rest := runList first.2.1 first.2.2 ops
    (first.1 :: rest.1, rest.2)

end SnapshotOp

/-! ## Queues -/

namespace Snapshots

/-- An operation on a queue.  There may be no state to go back to. -/
def perform (q : Snapshots) : SnapshotOp → Option State × Snapshots
  | .save s => (none, q.save s)
  | .resize limit => (none, q.resize limit)
  | .pop =>
    match q.pop? with
    | none => (none, q)
    | some (s, rest) => (some s, rest)

/-- Operations on a queue one after the other: the states that are gone back to, and the queue in
    the end. -/
def run (q : Snapshots) : List SnapshotOp → List (Option State) × Snapshots
  | [] => ([], q)
  | op :: ops =>
    let first := q.perform op
    let rest := first.2.run ops
    (first.1 :: rest.1, rest.2)

/-- There are no more states than are to be kept. -/
def Bounded (q : Snapshots) : Prop := q.toList.length ≤ q.limit

/-- An operation does the same to a queue and to the list of its states. -/
theorem perform_eq {q : Snapshots} (h : q.Bounded) (op : SnapshotOp) :
    op.onList q.limit q.toList =
      ((q.perform op).1, (q.perform op).2.limit, (q.perform op).2.toList) := by
  -- A queue that is not too long loses its oldest state at the limit, as the cut list does.
  cases op with
  | save s => simp only [SnapshotOp.onList, perform, limit_save, toList_save h]
  | resize limit =>
    simp only [SnapshotOp.onList, perform, toList_resize]
    rfl
  | pop =>
    cases hpop : q.pop? with
    | none =>
      have hnil := q.pop?_eq_none_iff.1 hpop
      simp only [SnapshotOp.onList, perform, hpop, hnil, List.head?_nil, List.tail_nil]
    | some popped =>
      obtain ⟨s, rest⟩ := popped
      obtain ⟨hcons, hlimit⟩ := toList_of_pop? hpop
      simp only [SnapshotOp.onList, perform, hpop, hcons, hlimit, List.head?_cons, List.tail_cons]

/-- No operation leaves more states behind than are to be kept. -/
theorem Bounded.perform {q : Snapshots} (h : q.Bounded) (op : SnapshotOp) :
    (q.perform op).2.Bounded := by
  have heq := perform_eq h op
  have hle : (op.onList q.limit q.toList).2.2.length ≤ (op.onList q.limit q.toList).2.1 := by
    cases op with
    | save s => exact List.length_take_le _ _
    | resize limit => exact List.length_take_le _ _
    -- Going back only makes the queue shorter.
    | pop =>
      refine Nat.le_trans ?_ h
      rw [SnapshotOp.onList, List.length_tail]
      exact Nat.sub_le _ _
  rw [heq] at hle
  exact hle

/-- From a queue that is not too long on, any operations go back to the same states on the queue
    and on the list, and leave the same ones behind. -/
theorem run_eq {q : Snapshots} (h : q.Bounded) (ops : List SnapshotOp) :
    SnapshotOp.runList q.limit q.toList ops =
        ((q.run ops).1, (q.run ops).2.limit, (q.run ops).2.toList) ∧
      (q.run ops).2.Bounded := by
  induction ops generalizing q with
  | nil => exact ⟨rfl, h⟩
  | cons op ops ih =>
    -- The bound is what carries the induction: the next operation relies on it in turn.
    obtain ⟨hrest, hbounded⟩ := ih (h.perform op)
    refine ⟨?_, hbounded⟩
    rw [SnapshotOp.runList, perform_eq h op, hrest]
    rfl

/-- A queue that is too long is not cut when a state is saved; it grows. -/
theorem toList_save_of_lt {q : Snapshots} (hpos : 0 < q.limit) (h : q.limit < q.toList.length)
    (s : State) : (q.save s).toList = s :: q.toList := by
  have hsize : q.toList.length = q.states.size := q.states.length_toList
  rw [save, if_neg (Nat.ne_of_gt hpos), if_neg (by omega)]
  exact Deque.toList_pushFront _ _

end Snapshots

/-- In a new history, any operations go back to the states to which they go back in a list that is
    cut. -/
theorem History.run_eq_of_empty (limit : Nat) (ops : List SnapshotOp) :
    ((empty limit).toSnapshots.run ops).1 = (SnapshotOp.runList limit [] ops).1 ∧
      ((empty limit).toSnapshots.run ops).2.toList = (SnapshotOp.runList limit [] ops).2.2 := by
  have hrun := (Snapshots.run_eq (empty limit).length_le ops).1
  have hempty : (empty limit).toSnapshots.toList = [] := Deque.toList_empty
  rw [hempty] at hrun
  constructor
  · exact (congrArg Prod.fst hrun).symm
  · exact (congrArg (·.2.2) hrun).symm

end Chip8
