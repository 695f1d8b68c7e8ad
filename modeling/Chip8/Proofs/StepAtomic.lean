import Chip8.Machine
import Mathlib.Control.Monad.Basic

/-!
# A step is all or nothing

`Machine.step` executes on a copy of the state, but on the random source itself, and
execution may stop with a fault or with a key wait.  This file follows every
instruction to the places where it can stop and shows that neither the copy nor the
random source has been touched by then, so that the machine is left as it was.

## Key results

- `execute_of_fault` / `execute_of_wait`: an instruction that stops leaves its state and
  the random source alone
- `Machine.step_cases`: everything that a step can do
- `Machine.step_eq_self_of_blocked`: a step that does not execute an instruction leaves the
  machine as it was
-/

namespace Chip8

/-! ## Execution that stops -/

/-- An attempt faults exactly where the answer does. -/
theorem attempt_fst_eq_error_iff {α : Type} {s : State} {answer : Except RangeFault α}
    {goOn : α → Next × State} {cause : RangeFault} :
    (attempt s answer goOn).1 = .error cause ↔ answer = .error cause := by
  cases answer with
  | error c => simp [attempt]
  | ok a => simp [attempt]

/-- An attempt that faults leaves the state in the condition it was in. -/
theorem attempt_snd_of_error {α : Type} {s : State} {answer : Except RangeFault α}
    {goOn : α → Next × State} {cause : RangeFault} (h : (attempt s answer goOn).1 = .error cause) :
    (attempt s answer goOn).2 = s := by
  rw [attempt_fst_eq_error_iff] at h
  subst h
  rfl

/-- An attempt that does not fault goes on with the answer. -/
theorem attempt_fst_eq_ok_iff {α : Type} {s : State} {answer : Except RangeFault α}
    {goOn : α → Next × State} {next : Next} :
    (attempt s answer goOn).1 = .ok next ↔ ∃ a, answer = .ok a ∧ (goOn a).1 = next := by
  cases answer with
  | error c => simp [attempt]
  | ok a => simp [attempt]

theorem Next.skipIf_ne_wait (condition : Bool) : skipIf condition ≠ wait := by
  cases condition <;> simp [skipIf]

/-- Only waiting leaves the program counter where it is. -/
theorem Next.target?_eq_none_iff {pc : UInt16} {next : Next} :
    next.target? pc = none ↔ next = wait := by
  cases next <;> simp [target?]

private theorem AddressOp.execute_of_fault {op : AddressOp} {addr : UInt16} {s : State}
    {cause : RangeFault} (h : (op.execute addr s).1 = .error cause) :
    (op.execute addr s).2 = s := by
  cases op with
  | jump => exact nomatch h
  -- Only the push can fail, and it is tried before anything is written.
  | call => exact attempt_snd_of_error h
  | loadI => exact nomatch h
  | jumpV0 => exact nomatch h

/-- An operation on a register and a byte cannot fault. -/
theorem ByteOp.execute_outcome_ne_error (op : ByteOp) (x : Register) (kk : UInt8)
    (s : State) (r : RandomSource) (cause : RangeFault) :
    (op.execute x kk s r).outcome ≠ .error cause := by
  cases op <;> exact nofun

private theorem SingleOp.execute_of_fault {op : SingleOp} {x : Register} {s : State}
    {cause : RangeFault} (h : (op.execute x s).1 = .error cause) :
    (op.execute x s).2 = s := by
  cases op with
  -- Memory is asked first, and registers are written only when it has answered.
  | bcd => exact attempt_snd_of_error h
  | store => exact attempt_snd_of_error h
  | read => exact attempt_snd_of_error h
  | waitKey =>
    -- With a key and without one, the outcome is a success.
    simp only [SingleOp.execute] at h
    split at h <;> exact nomatch h
  | _ => exact nomatch h

/-- An instruction that faults has changed nothing yet and has drawn no random byte. -/
theorem execute_of_fault {i : Instruction} {s : State} {r : RandomSource} {cause : RangeFault}
    (h : (execute i s r).outcome = .error cause) :
    (execute i s r).state = s ∧ (execute i s r).random = r := by
  cases i with
  | clear => exact nomatch h
  | ret => exact ⟨attempt_snd_of_error h, rfl⟩
  | address op addr => exact ⟨AddressOp.execute_of_fault h, rfl⟩
  | byte op x kk => exact absurd h (op.execute_outcome_ne_error x kk s r cause)
  | pair op x y => exact nomatch h
  | draw x y height => exact ⟨attempt_snd_of_error h, rfl⟩
  | single op x => exact ⟨SingleOp.execute_of_fault h, rfl⟩

private theorem AddressOp.execute_ne_wait (op : AddressOp) (addr : UInt16) (s : State) :
    (op.execute addr s).1 ≠ .ok .wait := by
  intro h
  cases op with
  | jump => exact nomatch h
  | call =>
    -- A call goes on at its target.
    obtain ⟨stack, -, hnext⟩ := attempt_fst_eq_ok_iff.1 h
    exact nomatch hnext
  | loadI => exact nomatch h
  | jumpV0 => exact nomatch h

private theorem ByteOp.execute_ne_wait (op : ByteOp) (x : Register) (kk : UInt8) (s : State)
    (r : RandomSource) : (op.execute x kk s r).outcome ≠ .ok .wait := by
  intro h
  cases op with
  | skipEqual => exact Next.skipIf_ne_wait _ (Except.ok.inj h)
  | skipUnequal => exact Next.skipIf_ne_wait _ (Except.ok.inj h)
  | _ => exact nomatch h

private theorem PairOp.execute_ne_wait (op : PairOp) (x y : Register) (s : State) :
    (op.execute x y s).1 ≠ .wait := by
  cases op with
  | skipEqual => exact Next.skipIf_ne_wait _
  | skipUnequal => exact Next.skipIf_ne_wait _
  | _ => exact nofun

/-- Of the operations on one register only the key wait can wait, and it does so exactly
    when no key press is pending. -/
private theorem SingleOp.execute_eq_wait_iff {op : SingleOp} {x : Register} {s : State} :
    (op.execute x s).1 = .ok .wait ↔ op = .waitKey ∧ s.keys.pending = [] := by
  constructor
  · intro h
    cases op with
    | waitKey =>
      simp only [SingleOp.execute] at h
      split at h
      -- The latch has nothing to give.
      · rename_i htake
        exact ⟨rfl, (KeyLatch.take_eq_none_iff _).1 htake⟩
      · exact nomatch h
    -- A skip goes on at one of two places.
    | skipPressed => exact absurd (Except.ok.inj h) (Next.skipIf_ne_wait _)
    | skipNotPressed => exact absurd (Except.ok.inj h) (Next.skipIf_ne_wait _)
    | bcd => obtain ⟨_, -, hnext⟩ := attempt_fst_eq_ok_iff.1 h; exact nomatch hnext
    | store => obtain ⟨_, -, hnext⟩ := attempt_fst_eq_ok_iff.1 h; exact nomatch hnext
    | read => obtain ⟨_, -, hnext⟩ := attempt_fst_eq_ok_iff.1 h; exact nomatch hnext
    | _ => exact nomatch h
  · rintro ⟨rfl, hpending⟩
    simp only [SingleOp.execute, (KeyLatch.take_eq_none_iff _).2 hpending]

/-- An instruction waits exactly when it is a key wait and no key press is pending. -/
theorem execute_outcome_eq_wait_iff {i : Instruction} {s : State} {r : RandomSource} :
    (execute i s r).outcome = .ok .wait ↔
      (∃ x, i = .single .waitKey x) ∧ s.keys.pending = [] := by
  constructor
  · intro h
    cases i with
    -- Everything but the key wait says where to go on.
    | clear => exact nomatch h
    | ret =>
      obtain ⟨_, -, hnext⟩ := attempt_fst_eq_ok_iff.1 h
      exact nomatch hnext
    | address op addr => exact absurd h (op.execute_ne_wait addr s)
    | byte op x kk => exact absurd h (op.execute_ne_wait x kk s r)
    | pair op x y => exact absurd (Except.ok.inj h) (op.execute_ne_wait x y s)
    | draw x y height =>
      obtain ⟨_, -, hnext⟩ := attempt_fst_eq_ok_iff.1 h
      exact nomatch hnext
    | single op x =>
      obtain ⟨rfl, hpending⟩ := SingleOp.execute_eq_wait_iff.1 h
      exact ⟨⟨x, rfl⟩, hpending⟩
  · rintro ⟨⟨x, rfl⟩, hpending⟩
    exact SingleOp.execute_eq_wait_iff.2 ⟨rfl, hpending⟩

/-- An instruction that waits has changed nothing and has drawn no random byte. -/
theorem execute_of_wait {i : Instruction} {s : State} {r : RandomSource}
    (h : (execute i s r).outcome = .ok .wait) :
    (execute i s r).state = s ∧ (execute i s r).random = r := by
  obtain ⟨⟨x, rfl⟩, hpending⟩ := execute_outcome_eq_wait_iff.1 h
  refine ⟨?_, rfl⟩
  show (SingleOp.execute .waitKey x s).2 = s
  simp only [SingleOp.execute, (KeyLatch.take_eq_none_iff _).2 hpending]

/-! ## Everything that a step can do -/

namespace Machine

/-- A step faults while it fetches, faults while it executes, waits, or executes an
    instruction.  Only the last saves the state and takes over a new one. -/
theorem step_cases (m : Machine) :
    (∃ fault, m.state.fetch = .error fault ∧ m.step = (.error fault, m)) ∨
    (∃ i cause, m.state.fetch = .ok i ∧ (execute i m.state m.random).outcome = .error cause ∧
      m.step = (.error (.range cause), m)) ∨
    (∃ i, m.state.fetch = .ok i ∧ (execute i m.state m.random).outcome = .ok .wait ∧
      m.step = (.ok .awaitingKey, m)) ∨
    (∃ i next pc, m.state.fetch = .ok i ∧
      (execute i m.state m.random).outcome = .ok next ∧ next.target? m.state.pc = some pc ∧
      m.step = (.ok (.executed i),
        { m with
          state := { (execute i m.state m.random).state with pc }
          history := m.history.save m.state
          random := (execute i m.state m.random).random })) := by
  cases hfetch : m.state.fetch with
  | error fault =>
    refine .inl ⟨fault, rfl, ?_⟩
    simp only [step, hfetch]
  | ok i =>
    cases hout : (execute i m.state m.random).outcome with
    | error cause =>
      refine .inr (.inl ⟨i, cause, rfl, hout, ?_⟩)
      simp only [step, hfetch, hout, (execute_of_fault hout).2]
    | ok next =>
      cases htarget : next.target? m.state.pc with
      | none =>
        -- Without an address to go on at, the instruction waits.
        obtain rfl := Next.target?_eq_none_iff.1 htarget
        refine .inr (.inr (.inl ⟨i, rfl, hout, ?_⟩))
        simp only [step, hfetch, hout, htarget, (execute_of_wait hout).2]
      | some pc =>
        refine .inr (.inr (.inr ⟨i, next, pc, rfl, hout, htarget, ?_⟩))
        simp only [step, hfetch, hout, htarget]

/-- What a step leaves behind is the machine as it was, or the machine after an instruction. -/
theorem step_snd_cases (m : Machine) :
    m.step.2 = m ∨
    ∃ i next pc, m.state.fetch = .ok i ∧
      (execute i m.state m.random).outcome = .ok next ∧ next.target? m.state.pc = some pc ∧
      m.step.2 =
        { m with
          state := { (execute i m.state m.random).state with pc }
          history := m.history.save m.state
          random := (execute i m.state m.random).random } := by
  rcases m.step_cases with ⟨_, -, hstep⟩ | ⟨_, _, -, -, hstep⟩ | ⟨_, -, -, hstep⟩ |
    ⟨i, next, pc, hi, hout, htarget, hstep⟩
  · exact .inl (congrArg Prod.snd hstep)
  · exact .inl (congrArg Prod.snd hstep)
  · exact .inl (congrArg Prod.snd hstep)
  · exact .inr ⟨i, next, pc, hi, hout, htarget, congrArg Prod.snd hstep⟩

/-- A step that executes an instruction has fetched it, and takes over the state that the
    instruction leaves behind. -/
theorem step_of_executed {m : Machine} {i : Instruction} (h : m.step.1 = .ok (.executed i)) :
    ∃ next pc, m.state.fetch = .ok i ∧
      (execute i m.state m.random).outcome = .ok next ∧ next.target? m.state.pc = some pc ∧
      m.step.2 =
        { m with
          state := { (execute i m.state m.random).state with pc }
          history := m.history.save m.state
          random := (execute i m.state m.random).random } := by
  rcases m.step_cases with ⟨_, -, hstep⟩ | ⟨_, _, -, -, hstep⟩ | ⟨_, -, -, hstep⟩ |
    ⟨_, next, pc, hi, hout, htarget, hstep⟩
  -- Of the four cases only the last executes something.
  · rw [hstep] at h
    exact nomatch h
  · rw [hstep] at h
    exact nomatch h
  · rw [hstep] at h
    exact nomatch h
  · rw [hstep] at h
    cases h
    exact ⟨next, pc, hi, hout, htarget, congrArg Prod.snd hstep⟩

/-- A step that faults, or that waits for a key, leaves the whole machine as it was: the
    state, the saved states, the position in the random source, and whether a program
    is loaded. -/
theorem step_eq_self_of_blocked (m : Machine)
    (h : (∃ fault, m.step.1 = .error fault) ∨ m.step.1 = .ok .awaitingKey) : m.step.2 = m := by
  rcases m.step_cases with ⟨_, -, hstep⟩ | ⟨_, _, -, -, hstep⟩ | ⟨_, -, -, hstep⟩ |
    ⟨_, _, _, -, -, -, hstep⟩
  · rw [hstep]
  · rw [hstep]
  · rw [hstep]
  · -- An executed instruction is neither a fault nor a wait.
    rw [hstep] at h
    rcases h with ⟨_, h⟩ | h <;> exact nomatch h

/-- Storing three registers at `0xFFE` goes past the end of memory, and nothing is stored. -/
theorem step_store_past_end_eq_self :
    let program := [0x60, 0x09, 0xAF, 0xFE, 0xF2, 0x55]
    let m := ((Machine.new (.counter 0 0)).load program).2.step.2.step.2
    m.step.1 = .error (.range (.outOfBounds 0xFFE 3)) ∧ m.step.2 = m := by
  intro program m
  have hfault : m.step.1 = .error (.range (.outOfBounds 0xFFE 3)) := by decide +kernel
  exact ⟨hfault, step_eq_self_of_blocked m (.inl ⟨_, hfault⟩)⟩

end Machine

end Chip8
