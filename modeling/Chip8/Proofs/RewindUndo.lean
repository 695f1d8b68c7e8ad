import Chip8.Operation
import Chip8.Proofs.StepAtomic

/-!
# Rewinding undoes steps

A user who wants to know what a rewind will do can keep a list of their own: the state
before each step that executed an instruction goes in front, a rewind takes the front
away, and the list is cut to as many states as the machine was told to keep.  This file
shows that such a list always agrees with what a machine has saved, so a rewind is the
exact undo of a step, except for the keypad and the random source, which are never
rewound.

## Key results

- `Machine.saved_perform` / `Machine.saved_after`: the saved states are the remembered ones
- `Machine.rewindUpTo_fst`, `Machine.rewindUpTo_snd`: what several rewinds in a row do
- `Machine.rememberAll_of_forward`: what is remembered of a run without rewinds
- `Machine.rewindUpTo_fst_of_forward`, `Machine.rewindUpTo_snd_of_forward`: what rewinds do
  after such a run
- `Machine.rewind_undoes_run`: what rewinds do after any run
-/

namespace Chip8.Machine

/-! ## What is remembered -/

/-- The states that can be gone back to after an operation, the latest first, when they
    were `past` before it. -/
def remember (m : Machine) (past : List State) : Operation → List State
  | .step =>
    match m.step.1 with
    | .ok (.executed _) => (m.state :: past).take m.history.limit
    | _ => past
  | .rewind => past.tail
  | .limitHistory limit => past.take limit
  | .load _ | .decay | .key _ => past

/-- The states that can be gone back to after several operations. -/
def rememberAll (m : Machine) (past : List State) : List Operation → List State
  | [] => past
  | op :: ops => (m.perform op).rememberAll (m.remember past op) ops

/-- The state before an operation, if the operation is a step and executes an
    instruction. -/
def executedState? (m : Machine) : Operation → Option State
  | .step =>
    match m.step.1 with
    | .ok (.executed _) => some m.state
    | _ => none
  | _ => none

/-- The states before the steps of a run that execute an instruction, in order. -/
def executedStates (m : Machine) : List Operation → List State
  | [] => []
  | op :: ops => (m.executedState? op).toList ++ (m.perform op).executedStates ops

/-! ## What is saved -/

@[simp] theorem history_load (m : Machine) (image : List UInt8) :
    (m.load image).2.history = m.history := by
  unfold load
  split
  · rfl
  · split <;> rfl

theorem rewind_of_saved_nil {m : Machine} (h : m.history.saved = []) : m.rewind = (false, m) := by
  simp only [rewind, (History.pop?_eq_none_iff _).2 h]

theorem rewind_of_saved_cons {m : Machine} {s : State} {rest : List State}
    (h : m.history.saved = s :: rest) :
    ∃ history : History, history.saved = rest ∧ history.limit = m.history.limit ∧
      m.rewind = (true, { m with state := { s with keys := m.state.keys }, history }) := by
  cases hpop : m.history.pop? with
  | none =>
    rw [(History.pop?_eq_none_iff _).1 hpop] at h
    exact nomatch h
  | some popped =>
    obtain ⟨t, history⟩ := popped
    obtain ⟨hsaved, hlimit⟩ := History.saved_of_pop? hpop
    rw [h] at hsaved
    cases hsaved
    -- What was popped is the newest state, and the rest is what stays saved.
    exact ⟨history, rfl, hlimit, by simp only [rewind, hpop]⟩

/-- What a machine has saved is what is remembered, operation by operation. -/
theorem saved_perform (m : Machine) (op : Operation) :
    (m.perform op).history.saved = m.remember m.history.saved op := by
  cases op with
  | load image => rw [perform, history_load, remember]
  | step =>
    rcases m.step_cases with ⟨_, -, hstep⟩ | ⟨_, _, -, -, hstep⟩ | ⟨_, -, -, hstep⟩ |
      ⟨i, next, pc, -, -, -, hstep⟩
    · simp only [perform, remember, hstep]
    · simp only [perform, remember, hstep]
    · simp only [perform, remember, hstep]
    · -- Only here is the old state saved.
      simp only [perform, remember, hstep, History.saved_save]
  | rewind =>
    cases hsaved : m.history.saved with
    | nil => rw [perform, rewind_of_saved_nil hsaved, remember, hsaved, List.tail_nil]
    | cons s rest =>
      obtain ⟨history, hrest, -, hrewind⟩ := rewind_of_saved_cons hsaved
      rw [perform, hrewind, remember, List.tail_cons]
      exact hrest
  | limitHistory limit => exact History.saved_resize _ _
  | decay => rfl
  | key event => rw [perform, history_handle, remember]

/-- What a machine has saved after a run is what is remembered of it. -/
theorem saved_after (m : Machine) (ops : List Operation) :
    (m.after ops).history.saved = m.rememberAll m.history.saved ops := by
  induction ops generalizing m with
  | nil => rfl
  | cons op ops ih => rw [after_cons, ih, saved_perform, rememberAll]

/-! ## Several rewinds -/

/-- As many rewinds succeed as there are saved states. -/
theorem rewindUpTo_fst (n : Nat) (m : Machine) :
    (rewindUpTo n m).1 = min n m.history.saved.length := by
  -- On the rewinds that are left, for any machine: each one leaves a machine with one state less.
  induction n generalizing m with
  | zero => simp [rewindUpTo]
  | succ n ih =>
    cases hsaved : m.history.saved with
    | nil => simp [rewindUpTo, rewind_of_saved_nil hsaved]
    | cons s rest =>
      obtain ⟨history, hrest, -, hrewind⟩ := rewind_of_saved_cons hsaved
      simp only [rewindUpTo, hrewind, ih, hrest, List.length_cons]
      omega

/-- The last of several rewinds restores a saved state.  The keypad, the random source and
    whether a program is loaded are left as they are. -/
theorem rewindUpTo_snd {n : Nat} {m : Machine} {s : State} (h : m.history.saved[n]? = some s) :
    (rewindUpTo (n + 1) m).2.state = { s with keys := m.state.keys } ∧
      (rewindUpTo (n + 1) m).2.random = m.random ∧
      (rewindUpTo (n + 1) m).2.loaded = m.loaded := by
  induction n generalizing m with
  | zero =>
    cases hsaved : m.history.saved with
    | nil =>
      rw [hsaved] at h
      exact nomatch h
    | cons t rest =>
      rw [hsaved] at h
      cases h
      obtain ⟨history, -, -, hrewind⟩ := rewind_of_saved_cons hsaved
      simp only [rewindUpTo, hrewind, and_self]
  | succ n ih =>
    cases hsaved : m.history.saved with
    | nil =>
      rw [hsaved] at h
      exact nomatch h
    | cons t rest =>
      obtain ⟨history, hrest, -, hrewind⟩ := rewind_of_saved_cons hsaved
      rw [hsaved, List.getElem?_cons_succ, ← hrest] at h
      -- The first rewind leaves the keypad alone, so the others find it as it was.
      have hlater := ih (m := { m with state := { t with keys := m.state.keys }, history }) h
      rw [rewindUpTo, hrewind]
      exact hlater

/-! ## Runs without rewinds -/

/-- Operations that neither go back nor change how many states are kept. -/
def Forward (ops : List Operation) : Prop :=
  ∀ op ∈ ops, op ≠ .rewind ∧ ∀ limit, op ≠ .limitHistory limit

private theorem limit_perform {m : Machine} {op : Operation}
    (h : ∀ limit, op ≠ .limitHistory limit) :
    (m.perform op).history.limit = m.history.limit := by
  cases op with
  | load image => rw [perform, history_load]
  | step =>
    rcases m.step_snd_cases with hsame | ⟨_, _, _, -, -, -, hstep⟩
    · rw [perform, hsame]
    · rw [perform, hstep]
      exact History.limit_save _ _
  | rewind =>
    cases hsaved : m.history.saved with
    | nil => rw [perform, rewind_of_saved_nil hsaved]
    | cons s rest =>
      obtain ⟨history, -, hlimit, hrewind⟩ := rewind_of_saved_cons hsaved
      rw [perform, hrewind]
      exact hlimit
  | limitHistory limit => exact absurd rfl (h limit)
  | decay => rfl
  | key event => rw [perform, history_handle]

private theorem remember_of_executed {m : Machine} {past : List State} {op : Operation} {s : State}
    (h : m.executedState? op = some s) : m.remember past op = (s :: past).take m.history.limit := by
  cases op with
  | step =>
    simp only [executedState?] at h
    split at h
    · rename_i i hstep
      cases h
      simp only [remember, hstep]
    · exact nomatch h
  | _ => exact nomatch h

/-- Without an executed instruction nothing is added to what is remembered. -/
private theorem remember_of_idle {m : Machine} {past : List State} {op : Operation}
    (h : m.executedState? op = none) (hrewind : op ≠ .rewind)
    (hlimit : ∀ limit, op ≠ .limitHistory limit) : m.remember past op = past := by
  cases op with
  | step =>
    simp only [executedState?] at h
    split at h
    · exact nomatch h
    · simp only [remember]
  | load image => rfl
  | rewind => exact absurd rfl hrewind
  | limitHistory limit => exact absurd rfl (hlimit limit)
  | decay => rfl
  | key event => rfl

/-- Cutting a list in the middle of putting more in front of it makes no difference. -/
private theorem take_append_take {α : Type} (front back : List α) (n : Nat) :
    (front ++ back.take n).take n = (front ++ back).take n := by
  rw [List.take_append, List.take_append, List.take_take, Nat.min_eq_left (Nat.sub_le _ _)]

/-- Of a run without rewinds the latest executed steps are remembered, as many as are
    kept. -/
theorem rememberAll_of_forward {m : Machine} {past : List State} {ops : List Operation}
    (hpast : past.length ≤ m.history.limit) (hops : Forward ops) :
    m.rememberAll past ops =
      ((m.executedStates ops).reverse ++ past).take m.history.limit := by
  induction ops generalizing m past with
  | nil => simp [rememberAll, executedStates, List.take_of_length_le hpast]
  | cons op ops ih =>
    -- Whether the oldest is cut off before the later steps or after them is the same.
    obtain ⟨hrewind, hlimit⟩ := hops op List.mem_cons_self
    have hsame := limit_perform (m := m) hlimit
    have hlater : Forward ops := fun op hop => hops op (List.mem_cons_of_mem _ hop)
    cases hstate : m.executedState? op with
    | some s =>
      have hremember : m.remember past op = (s :: past).take m.history.limit :=
        remember_of_executed hstate
      have hlength : (m.remember past op).length ≤ (m.perform op).history.limit := by
        rw [hremember, hsame]
        exact List.length_take_le _ _
      rw [rememberAll, ih hlength hlater, executedStates, hstate, hremember, hsame,
        take_append_take, Option.toList_some, List.singleton_append, List.reverse_cons,
        List.append_assoc, List.singleton_append]
    | none =>
      have hremember : m.remember past op = past := remember_of_idle hstate hrewind hlimit
      rw [rememberAll, hremember, ih (hsame ▸ hpast) hlater, executedStates, hstate, hsame,
        Option.toList_none, List.nil_append]

/-- After a run without rewinds, the states that are saved are those before the latest
    executed steps. -/
theorem getElem?_saved_of_forward {m : Machine} (hm : m.history.saved = [])
    {ops : List Operation} (hops : Forward ops) {n : Nat}
    (hn : n < min (m.executedStates ops).length m.history.limit) :
    (m.after ops).history.saved[n]? =
      (m.executedStates ops)[(m.executedStates ops).length - (n + 1)]? := by
  -- The latest of the executed steps are the first of them from behind.
  rw [saved_after, hm, rememberAll_of_forward (Nat.zero_le _) hops, List.append_nil,
    List.getElem?_take_of_lt (by omega), List.getElem?_reverse (by omega)]
  congr 1
  omega

/-- After a run without rewinds, as many steps are undone as were executed, up to the limit. -/
theorem rewindUpTo_fst_of_forward {m : Machine} (hm : m.history.saved = []) {ops : List Operation}
    (hops : Forward ops) (n : Nat) :
    (rewindUpTo n (m.after ops)).1 =
      min n (min (m.executedStates ops).length m.history.limit) := by
  rw [rewindUpTo_fst, saved_after, hm, rememberAll_of_forward (Nat.zero_le _) hops,
    List.append_nil, List.length_take, List.length_reverse, Nat.min_comm m.history.limit]

/-- After a run without rewinds, going back by `k` steps restores the state before the
    executed step with the number `k` from the last. -/
theorem rewindUpTo_snd_of_forward {m : Machine} (hm : m.history.saved = []) {ops : List Operation}
    (hops : Forward ops) {k : Nat} (hpos : 0 < k)
    (hk : k ≤ min (m.executedStates ops).length m.history.limit) :
    ∃ s, (m.executedStates ops)[(m.executedStates ops).length - k]? = some s ∧
      (rewindUpTo k (m.after ops)).2.state = { s with keys := (m.after ops).state.keys } ∧
      (rewindUpTo k (m.after ops)).2.random = (m.after ops).random := by
  obtain ⟨n, rfl⟩ := Nat.exists_eq_succ_of_ne_zero (Nat.ne_of_gt hpos)
  have hlt : (m.executedStates ops).length - (n + 1) < (m.executedStates ops).length := by omega
  have hstate := List.getElem?_eq_getElem hlt
  obtain ⟨hback, hrandom, -⟩ :=
    rewindUpTo_snd ((getElem?_saved_of_forward hm hops hk).trans hstate)
  exact ⟨_, hstate, hback, hrandom⟩

/-! ## Rewinding after a run -/

/-- After any run on a machine with no saved states, a rewind succeeds exactly if a state is
    remembered, and restores the latest one, up to the keypad and the random source, which
    stay as they are.

    In a run without rewinds, under a fixed limit, that is as follows.  As many rewinds
    succeed as instructions were executed, up to the limit, and each of them goes back to
    the state before one more of the executed steps, counted from the last. -/
theorem rewind_undoes_run (m : Machine) (hm : m.history.saved = []) (ops : List Operation) :
    let m' := m.after ops
    let past := m.rememberAll [] ops
    (m'.rewind.1 = true ↔ past ≠ []) ∧
      (∀ s rest, past = s :: rest →
        m'.rewind.2.state = { s with keys := m'.state.keys } ∧
          m'.rewind.2.random = m'.random ∧ m'.rewind.2.loaded = m'.loaded) ∧
      (Forward ops →
        let states := m.executedStates ops
        let undone := min states.length m.history.limit
        (∀ n, (rewindUpTo n m').1 = min n undone) ∧
          ∀ k, 0 < k → k ≤ undone →
            ∃ s, states[states.length - k]? = some s ∧
              (rewindUpTo k m').2.state = { s with keys := m'.state.keys } ∧
              (rewindUpTo k m').2.random = m'.random) := by
  intro m' past
  have hsaved : m'.history.saved = past := by
    rw [saved_after, hm]
  -- A rewind looks at nothing but what is saved, and that is what is remembered.
  refine ⟨?_, ?_, ?_⟩
  · cases hpast : past with
    | nil => simp [rewind_of_saved_nil (hsaved.trans hpast)]
    | cons s rest =>
      obtain ⟨_, -, -, hrewind⟩ := rewind_of_saved_cons (hsaved.trans hpast)
      simp [hrewind]
  · intro s rest hpast
    obtain ⟨_, -, -, hrewind⟩ := rewind_of_saved_cons (hsaved.trans hpast)
    rw [hrewind]
    exact ⟨rfl, rfl, rfl⟩
  · intro hops
    exact ⟨rewindUpTo_fst_of_forward hm hops, fun _ => rewindUpTo_snd_of_forward hm hops⟩

/-- Two instructions are executed under a limit of one, and a key goes down in between.  Only
    the second is undone, and the key stays pending. -/
theorem rewind_undoes_last_load :
    let m := ((Machine.new (.counter 0 0)).limitHistory 1).after [.load [0x60, 0x05, 0x61, 0x07]]
    let ops : List Operation := [.step, .key (.press 3), .decay, .step]
    let m' := m.after ops
    m.history.saved = [] ∧ Forward ops ∧ m'.state.pc = 0x204 ∧ m'.rewind.1 = true ∧
      (rewindUpTo 9 m').1 = 1 ∧ (rewindUpTo 1 m').2.state.pc = 0x202 ∧
      (rewindUpTo 1 m').2.state.keys.pending = [3] := by
  intro m ops m'
  have hforward : Forward ops := by simp [Forward, ops]
  obtain ⟨hfirst, -, hrun⟩ := rewind_undoes_run m rfl ops
  obtain ⟨hcount, hback⟩ := hrun hforward
  obtain ⟨hpc, hpending, hlimit, hpast, hstates⟩ :
      m'.state.pc = 0x204 ∧ m'.state.keys.pending = [3] ∧ m.history.limit = 1 ∧
        (m.rememberAll [] ops).length = 1 ∧
        (m.executedStates ops).map State.pc = [0x200, 0x202] := by
    decide +kernel
  have hlength : (m.executedStates ops).length = 2 := by
    rw [← List.length_map (f := State.pc), hstates]
    rfl
  have hundone : min (m.executedStates ops).length m.history.limit = 1 := by
    rw [hlength, hlimit]
    rfl
  rw [hundone] at hcount hback
  obtain ⟨s, hs, hstate, -⟩ := hback 1 (by decide) (by decide)
  have hbefore : s.pc = 0x202 := by
    have hmap := congrArg (Option.map State.pc) hs
    rw [← List.getElem?_map, hstates, hlength] at hmap
    exact (Option.some.inj hmap).symm
  refine ⟨rfl, hforward, hpc, hfirst.2 (List.ne_nil_of_length_pos (by rw [hpast]; decide)),
    hcount 9, ?_, ?_⟩
  · simp only [m', hstate, hbefore]
  · simpa only [m', hstate] using hpending

end Chip8.Machine
