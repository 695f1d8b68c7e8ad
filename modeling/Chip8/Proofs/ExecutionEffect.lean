import Chip8.Proofs.StepAtomic

/-!
# What execution changes

What an instruction can do to each part of a state, whether it succeeds or not.  Each part
is followed through all instructions once, here, and later proofs cite these lemmas
instead of looking at the instructions again.

## Key results

- `execute_timers`: only the instructions that set a timer change it
- `execute_memory`: memory is left alone or written at `I`
- `execute_stack`: the call stack is left alone, pushed to, or popped
- `execute_jump`: where an instruction can jump to
-/

namespace Chip8

/-- A part of the state that the continuation of an attempt leaves alone is left alone by
    the whole attempt. -/
theorem attempt_snd_part {α β : Type} (part : State → β) {s : State}
    {answer : Except RangeFault α} {goOn : α → Next × State}
    (hgoOn : ∀ a, part (goOn a).2 = part s) : part (attempt s answer goOn).2 = part s := by
  cases answer with
  | error cause => rfl
  | ok a => exact hgoOn a

/-! ## Operations that change registers only -/

theorem ByteOp.state_execute (op : ByteOp) (x : Register) (kk : UInt8) (s : State)
    (r : RandomSource) :
    (op.execute x kk s r).state = { s with v := (op.execute x kk s r).state.v } := by
  cases op <;> rfl

theorem PairOp.state_execute (op : PairOp) (x y : Register) (s : State) :
    (op.execute x y s).2 = { s with v := (op.execute x y s).2.v } := by
  cases op <;> rfl

/-! ## Timers -/

/-- The operation that sets a timer. -/
def Timer.setter : Timer → SingleOp
  | delay => .setDelay
  | sound => .setSound

private theorem SingleOp.execute_timers {op : SingleOp} {timer : Timer} (h : op ≠ timer.setter)
    (x : Register) (s : State) :
    (op.execute x s).2.timers.get timer = s.timers.get timer := by
  cases op with
  -- Only the two operations that set a timer touch one, and each sets its own.
  | setDelay =>
    cases timer with
    | delay => exact absurd rfl h
    | sound => rfl
  | setSound =>
    cases timer with
    | delay => rfl
    | sound => exact absurd rfl h
  | waitKey =>
    simp only [SingleOp.execute]
    split <;> rfl
  -- The operations that go through memory end early if it refuses them.
  | bcd => exact attempt_snd_part (·.timers.get timer) fun _ => rfl
  | store => exact attempt_snd_part (·.timers.get timer) fun _ => rfl
  | read => exact attempt_snd_part (·.timers.get timer) fun _ => rfl
  | _ => rfl

/-- A timer is changed by the operation that sets it and by no other instruction. -/
theorem execute_timers {i : Instruction} {timer : Timer} (h : ∀ x, i ≠ .single timer.setter x)
    (s : State) (r : RandomSource) :
    (execute i s r).state.timers.get timer = s.timers.get timer := by
  cases i with
  | clear => rfl
  | ret => exact attempt_snd_part (·.timers.get timer) fun _ => rfl
  | address op addr =>
    cases op with
    | call => exact attempt_snd_part (·.timers.get timer) fun _ => rfl
    | _ => rfl
  | byte op x kk =>
    -- All that such an operation changes are registers, and timers are none.
    show (op.execute x kk s r).state.timers.get timer = _
    rw [op.state_execute]
  | pair op x y =>
    show (op.execute x y s).2.timers.get timer = _
    rw [op.state_execute]
  | draw x y height => exact attempt_snd_part (·.timers.get timer) fun _ => rfl
  | single op x =>
    refine SingleOp.execute_timers (fun hop => ?_) x s
    exact h x (by rw [hop])

/-! ## Memory -/

private theorem SingleOp.execute_memory (op : SingleOp) (x : Register) (s : State) :
    (op.execute x s).2.memory = s.memory ∨
      ∃ data, s.memory.write s.i.toNat data = .ok (op.execute x s).2.memory := by
  cases op with
  | bcd =>
    -- A write that is refused has left memory as it was.
    simp only [SingleOp.execute]
    cases hwrite : s.memory.write s.i.toNat (decimalDigits (s.reg x)) with
    | error cause => exact .inl rfl
    | ok memory => exact .inr ⟨_, hwrite⟩
  | store =>
    simp only [SingleOp.execute]
    cases hwrite : s.memory.write s.i.toNat (s.v.toList.take (x.val + 1)) with
    | error cause => exact .inl rfl
    | ok memory => exact .inr ⟨_, hwrite⟩
  | read => exact .inl (attempt_snd_part State.memory fun _ => rfl)
  | waitKey =>
    simp only [SingleOp.execute]
    split <;> exact .inl rfl
  | _ => exact .inl rfl

/-- Execution leaves memory alone, or it writes at `I`. -/
theorem execute_memory (i : Instruction) (s : State) (r : RandomSource) :
    (execute i s r).state.memory = s.memory ∨
      ∃ data, s.memory.write s.i.toNat data = .ok (execute i s r).state.memory := by
  cases i with
  | clear => exact .inl rfl
  | ret => exact .inl (attempt_snd_part State.memory fun _ => rfl)
  | address op addr =>
    cases op with
    | call => exact .inl (attempt_snd_part State.memory fun _ => rfl)
    | _ => exact .inl rfl
  | byte op x kk =>
    left
    show (op.execute x kk s r).state.memory = _
    rw [op.state_execute]
  | pair op x y =>
    left
    show (op.execute x y s).2.memory = _
    rw [op.state_execute]
  | draw x y height => exact .inl (attempt_snd_part State.memory fun _ => rfl)
  | single op x => exact op.execute_memory x s

/-! ## The call stack -/

private theorem SingleOp.execute_stack (op : SingleOp) (x : Register) (s : State) :
    (op.execute x s).2.stack = s.stack := by
  cases op with
  | waitKey =>
    simp only [SingleOp.execute]
    split <;> rfl
  | bcd => exact attempt_snd_part State.stack fun _ => rfl
  | store => exact attempt_snd_part State.stack fun _ => rfl
  | read => exact attempt_snd_part State.stack fun _ => rfl
  | _ => rfl

/-- Execution leaves the call stack alone, pushes the address of the next instruction, or
    pops. -/
theorem execute_stack (i : Instruction) (s : State) (r : RandomSource) :
    (execute i s r).state.stack = s.stack ∨
      s.stack.push (s.pc + 2) = .ok (execute i s r).state.stack ∨
      ∃ address, s.stack.pop = .ok (address, (execute i s r).state.stack) := by
  cases i with
  | clear => exact .inl rfl
  | ret =>
    -- Without an address to return to, the stack is still empty.
    simp only [execute, Effect.undrawn]
    cases hpop : s.stack.pop with
    | error cause => exact .inl rfl
    | ok popped => exact .inr (.inr ⟨popped.1, rfl⟩)
  | address op addr =>
    cases op with
    | call =>
      -- A call that is refused has pushed nothing.
      simp only [execute, Effect.undrawn, AddressOp.execute]
      cases hpush : s.stack.push (s.pc + 2) with
      | error cause => exact .inl rfl
      | ok stack => exact .inr (.inl rfl)
    | _ => exact .inl rfl
  | byte op x kk =>
    left
    show (op.execute x kk s r).state.stack = _
    rw [op.state_execute]
  | pair op x y =>
    left
    show (op.execute x y s).2.stack = _
    rw [op.state_execute]
  | draw x y height => exact .inl (attempt_snd_part State.stack fun _ => rfl)
  | single op x => exact .inl (op.execute_stack x s)

/-! ## Jumps -/

theorem Next.skipIf_ne_jump (condition : Bool) (address : UInt16) :
    skipIf condition ≠ jump address := by
  cases condition <;> simp [skipIf]

private theorem SingleOp.execute_ne_jump (op : SingleOp) (x : Register) (s : State)
    (address : UInt16) : (op.execute x s).1 ≠ .ok (.jump address) := by
  intro h
  cases op with
  -- A skip goes one or two instructions on.
  | skipPressed => exact Next.skipIf_ne_jump _ _ (Except.ok.inj h)
  | skipNotPressed => exact Next.skipIf_ne_jump _ _ (Except.ok.inj h)
  | waitKey =>
    simp only [SingleOp.execute] at h
    split at h <;> cases h
  -- An attempt that succeeds goes on behind the instruction, and one that fails goes nowhere.
  | bcd => obtain ⟨_, -, hnext⟩ := attempt_fst_eq_ok_iff.1 h; cases hnext
  | store => obtain ⟨_, -, hnext⟩ := attempt_fst_eq_ok_iff.1 h; cases hnext
  | read => obtain ⟨_, -, hnext⟩ := attempt_fst_eq_ok_iff.1 h; cases hnext
  | _ => cases h

/-- A jump goes to the address in the instruction, to that address plus `V0`, or to the
    return address on top of the call stack. -/
theorem execute_jump {i : Instruction} {s : State} {r : RandomSource} {address : UInt16}
    (h : (execute i s r).outcome = .ok (.jump address)) :
    (∃ op, i = .address op address) ∨
      (∃ addr, i = .address .jumpV0 addr ∧ address = (s.reg 0).toUInt16 + addr) ∨
      ∃ stack, s.stack.pop = .ok (address, stack) := by
  cases i with
  | clear => exact nomatch h
  | ret =>
    -- A return jumps to what it has popped.
    obtain ⟨⟨popped, stack⟩, hpop, hnext⟩ := attempt_fst_eq_ok_iff.1 h
    cases hnext
    exact .inr (.inr ⟨stack, hpop⟩)
  | address op addr =>
    cases op with
    | jump => cases h; exact .inl ⟨_, rfl⟩
    | call =>
      -- A call jumps only after it has pushed where to return to.
      obtain ⟨stack, -, hnext⟩ := attempt_fst_eq_ok_iff.1 h
      cases hnext
      exact .inl ⟨_, rfl⟩
    | loadI => exact nomatch h
    | jumpV0 => cases h; exact .inr (.inl ⟨_, rfl, rfl⟩)
  | byte op x kk =>
    cases op with
    | skipEqual => exact absurd (Except.ok.inj h) (Next.skipIf_ne_jump _ _)
    | skipUnequal => exact absurd (Except.ok.inj h) (Next.skipIf_ne_jump _ _)
    | _ => exact nomatch h
  | pair op x y =>
    cases op with
    | skipEqual => exact absurd (Except.ok.inj h) (Next.skipIf_ne_jump _ _)
    | skipUnequal => exact absurd (Except.ok.inj h) (Next.skipIf_ne_jump _ _)
    | _ => exact nomatch h
  | draw x y height =>
    obtain ⟨_, -, hnext⟩ := attempt_fst_eq_ok_iff.1 h
    exact nomatch hnext
  | single op x => exact absurd h (op.execute_ne_jump x s address)

end Chip8
