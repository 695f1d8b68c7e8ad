import Chip8.Operation
import Chip8.Proofs.ExecutionEffect
import Chip8.Proofs.StepFaults

/-!
# Calls and returns

A call leaves the address behind it on top of the return addresses that are there already.
As long as the calls that are open are more than before the call, nothing below that
address is taken off, whatever else is called and returned from in between.  So the
return that closes the call finds the address on top, and the others below it as they
were.

## Key results

- `Machine.step_call`, `Machine.step_ret`: what a call and a return do
- `Machine.returns_perform`: an operation takes at most one return address off, or adds one
- `Machine.suffix_returns_after`: return addresses below the depth of a whole run stay
- `Machine.return_matches_call`: the return that closes a call
-/

namespace Chip8.Machine

/-! ## One call and one return -/

/-- A call puts the address behind it on top of the return addresses. -/
theorem step_call {m : Machine} {addr : UInt16}
    (h : m.step.1 = .ok (.executed (.address .call addr))) :
    m.step.2.state.stack.returns = (m.state.pc + 2) :: m.state.stack.returns := by
  obtain ⟨next, pc, -, hout, -, hstep⟩ := step_of_executed h
  obtain ⟨stack, hpush, -⟩ := attempt_fst_eq_ok_iff.1 hout
  -- The push has succeeded, and its result is in the state that is left behind.
  have hstack : (execute (.address .call addr) m.state m.random).state.stack = stack := by
    simp only [execute, Effect.undrawn, AddressOp.execute, hpush, attempt]
  rw [hstep]
  show (execute (.address .call addr) m.state m.random).state.stack.returns = _
  rw [hstack]
  exact CallStack.returns_push hpush

/-- A return goes on at the latest return address and takes it off. -/
theorem step_ret {m : Machine} (h : m.step.1 = .ok (.executed .ret)) :
    m.state.stack.returns = m.step.2.state.pc :: m.step.2.state.stack.returns := by
  obtain ⟨next, pc, -, hout, htarget, hstep⟩ := step_of_executed h
  obtain ⟨⟨address, stack⟩, hpop, hnext⟩ := attempt_fst_eq_ok_iff.1 hout
  have hstack : (execute .ret m.state m.random).state.stack = stack := by
    simp only [execute, Effect.undrawn, hpop, attempt]
  cases hnext
  cases htarget
  rw [hstep]
  show _ = pc :: (execute .ret m.state m.random).state.stack.returns
  rw [hstack]
  exact CallStack.returns_pop hpop

/-- The address behind an instruction that was fetched does not wrap. -/
theorem toNat_pc_add_two {m : Machine} {i : Instruction} (h : m.step.1 = .ok (.executed i)) :
    (m.state.pc + 2).toNat = m.state.pc.toNat + 2 := by
  obtain ⟨_, _, hfetch, -⟩ := step_of_executed h
  have hpc := (State.decode?_of_fetch hfetch).1
  rw [UInt16.toNat_add]
  exact Nat.mod_eq_of_lt (by simp; omega)

/-! ## What a run leaves on the stack -/

/-- Short of going back, an operation leaves the return addresses alone, adds one, or takes
    the latest off. -/
theorem returns_perform {m : Machine} {op : Operation} (hop : op ≠ .rewind) :
    (m.perform op).state.stack.returns = m.state.stack.returns ∨
      (∃ address, (m.perform op).state.stack.returns = address :: m.state.stack.returns) ∨
      ∃ address, m.state.stack.returns = address :: (m.perform op).state.stack.returns := by
  cases op with
  | load image =>
    left
    simp only [perform, load]
    split
    · rfl
    · split <;> rfl
  | step =>
    simp only [perform]
    rcases m.step_snd_cases with hsame | ⟨i, _, _, -, -, -, hstep⟩
    · left
      rw [hsame]
    · rw [hstep]
      rcases execute_stack i m.state m.random with hsame | hpush | ⟨address, hpop⟩
      · left
        exact congrArg CallStack.returns hsame
      · right; left
        exact ⟨_, CallStack.returns_push hpush⟩
      · right; right
        exact ⟨address, CallStack.returns_pop hpop⟩
  | rewind => exact absurd rfl hop
  | limitHistory limit => exact .inl rfl
  | decay => exact .inl rfl
  | key event =>
    left
    rw [perform, handle_eq]

/-- Return addresses at the bottom of the stack stay there over an operation after which the
    stack is at least as deep as they are. -/
theorem suffix_returns_perform {m : Machine} {op : Operation} {base : List UInt16}
    (hop : op ≠ .rewind) (hdeep : base.length ≤ (m.perform op).state.stack.depth)
    (h : base <:+ m.state.stack.returns) : base <:+ (m.perform op).state.stack.returns := by
  rcases returns_perform (m := m) hop with hsame | ⟨address, hpush⟩ | ⟨address, hpop⟩
  · rwa [hsame]
  · rw [hpush]
    exact h.trans (List.suffix_cons _ _)
  · rw [hpop, List.suffix_cons_iff] at h
    cases h with
    | inl heq =>
      -- What was taken off would be one of them, and too few would be left.
      have hlength := congrArg List.length heq
      rw [List.length_cons] at hlength
      unfold CallStack.depth at hdeep
      omega
    | inr hrest => exact hrest

/-- Return addresses at the bottom of the stack stay there over a run in which the stack
    never gets less deep than they are. -/
theorem suffix_returns_after {m : Machine} {ops : List Operation} {base : List UInt16}
    (hops : ∀ op ∈ ops, op ≠ .rewind)
    (hdeep : ∀ n ≤ ops.length, base.length ≤ (m.after (ops.take n)).state.stack.depth)
    (h : base <:+ m.state.stack.returns) : base <:+ (m.after ops).state.stack.returns := by
  induction ops generalizing m with
  | nil => exact h
  | cons op ops ih =>
    have hfirst : base.length ≤ (m.perform op).state.stack.depth := by
      have := hdeep 1 (by simp)
      simpa using this
    have hrest : ∀ n ≤ ops.length,
        base.length ≤ ((m.perform op).after (ops.take n)).state.stack.depth := by
      intro n hn
      have := hdeep (n + 1) (by simp; omega)
      simpa using this
    have hstay := suffix_returns_perform (hops op List.mem_cons_self) hfirst h
    exact ih (fun op hmem => hops op (List.mem_cons_of_mem _ hmem)) hrest hstay

/-! ## Matching -/

/-- After a call, let there be any run that does not go back and in which the call stays
    open, and then a return that closes it.  All the while the return addresses from before
    the call are where they were, and the return goes on behind the call and leaves exactly
    these. -/
theorem return_matches_call {m : Machine} {addr : UInt16} {ops : List Operation}
    (hcall : m.step.1 = .ok (.executed (.address .call addr)))
    (hops : ∀ op ∈ ops, op ≠ .rewind)
    (hopen : ∀ n ≤ ops.length,
      m.state.stack.depth + 1 ≤ (m.step.2.after (ops.take n)).state.stack.depth)
    (hret : (m.step.2.after ops).step.1 = .ok (.executed .ret))
    (hclosed : (m.step.2.after ops).step.2.state.stack.depth = m.state.stack.depth) :
    (∀ n ≤ ops.length,
      m.state.stack.returns <:+ (m.step.2.after (ops.take n)).state.stack.returns) ∧
      (m.step.2.after ops).step.2.state.pc.toNat = m.state.pc.toNat + 2 ∧
      (m.step.2.after ops).step.2.state.stack.returns = m.state.stack.returns := by
  have hpushed := step_call hcall
  -- The invariant of the run: the address behind the call, and below it those from before.
  have hstay : ∀ n ≤ ops.length, ((m.state.pc + 2) :: m.state.stack.returns) <:+
      (m.step.2.after (ops.take n)).state.stack.returns := by
    intro n hn
    refine suffix_returns_after (fun op hop => hops op (List.mem_of_mem_take hop)) ?_ ?_
    · intro k hk
      rw [List.take_take]
      exact hopen _ (by rw [List.length_take] at hk; omega)
    · show _ <:+ m.step.2.state.stack.returns
      simp only [hpushed, List.suffix_rfl]
  have hlast := hstay ops.length (Nat.le_refl _)
  rw [List.take_length, step_ret hret] at hlast
  -- The return has left as many as there were before the call, so nothing else is on top.
  have heq := hlast.eq_of_length (by
    unfold CallStack.depth at hclosed
    rw [List.length_cons, List.length_cons, hclosed])
  rw [List.cons.injEq] at heq
  refine ⟨fun n hn => (List.suffix_cons _ _).trans (hstay n hn), ?_, heq.2.symm⟩
  rw [← heq.1]
  exact toNat_pc_add_two hcall

/-- A subroutine that is called from within another one calls a third, which returns, and
    while it runs a timer ticks and a key goes down.  It goes back into the first. -/
theorem return_matches_nested_call :
    let image := [0x22, 0x04, 0x00, 0x00, 0x22, 0x08, 0x00, 0xEE, 0x22, 0x0C, 0x00, 0xEE,
      0x00, 0xEE]
    let m := (Machine.new (.counter 0 1)).after [.load image, .step]
    let ops : List Operation := [.step, .decay, .key (.press 3), .step]
    m.state.pc = 0x204 ∧ m.state.stack.returns = [0x202] ∧
      (m.step.2.after (ops.take 1)).state.stack.returns = [0x20A, 0x206, 0x202] ∧
      (m.step.2.after ops).step.2.state.pc.toNat = 0x206 ∧
      (m.step.2.after ops).step.2.state.stack.returns = [0x202] := by
  intro image m ops
  obtain ⟨hcall, hopen, hret, hclosed⟩ :
      m.step.1 = .ok (.executed (.address .call 0x208)) ∧
        (∀ n ≤ ops.length,
          m.state.stack.depth + 1 ≤ (m.step.2.after (ops.take n)).state.stack.depth) ∧
        (m.step.2.after ops).step.1 = .ok (.executed .ret) ∧
        (m.step.2.after ops).step.2.state.stack.depth = m.state.stack.depth := by
    decide +kernel
  obtain ⟨hpc, hreturns, hnested⟩ :
      m.state.pc = 0x204 ∧ m.state.stack.returns = [0x202] ∧
        (m.step.2.after (ops.take 1)).state.stack.returns = [0x20A, 0x206, 0x202] := by
    decide +kernel
  have hops : ∀ op ∈ ops, op ≠ .rewind := by simp [ops]
  obtain ⟨-, hback, hstack⟩ := return_matches_call hcall hops hopen hret hclosed
  rw [hpc] at hback
  rw [hreturns] at hstack
  exact ⟨hpc, hreturns, hnested, hback, hstack⟩

end Chip8.Machine
