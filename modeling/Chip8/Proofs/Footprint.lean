import Chip8.Proofs.ExecutionEffect

/-!
# The footprint of an instruction

An instruction is for one part of the state at most, besides the registers that take its
results.  `Instruction.part?` and `Instruction.results` are tables of what each
instruction is for, and this file shows that execution keeps to them: every other
register, every byte of memory away from the bytes that are stored, and every other part
of the state are as they were.

The state is followed through all instructions once (`execute_state_eq`); what that says
of its parts is read off from there.

## Key results

- `execute_state_eq`: a state after execution is the old one but for the registers and one
  part
- `execute_reg`: the registers that take no result keep their contents
- `execute_bytes`: so do the bytes that are not stored to
- `execute_keepsTo`: an instruction that succeeds keeps to what it is for
-/

namespace Chip8

/-! ## What instructions are for -/

/-- What an instruction can be for, besides changing registers. -/
inductive Part where
  | frame
  /-- The memory at `I`. -/
  | memory
  /-- The register `I`. -/
  | index
  | stack
  | timer (timer : Timer)
  /-- The keys that are pending. -/
  | keys
  | random
  deriving DecidableEq

namespace Instruction

/-- The part that an instruction changes, if it changes any. -/
def part? : Instruction → Option Part
  | clear | draw _ _ _ => some .frame
  | ret | address .call _ => some .stack
  | address .loadI _ | single .addI _ | single .loadFont _ => some .index
  | single .bcd _ | single .store _ => some .memory
  | single .setDelay _ => some (.timer .delay)
  | single .setSound _ => some (.timer .sound)
  | single .waitKey _ => some .keys
  | byte .random _ _ => some .random
  | _ => none

/-- The registers that take the results of an instruction. -/
def results : Instruction → List Register
  | byte .load x _ | byte .add x _ | byte .random x _ => [x]
  | pair .move x _ | pair .or x _ | pair .and x _ | pair .xor x _ => [x]
  | pair .add x _ | pair .sub x _ | pair .subFrom x _ | pair .shiftRight x _
  | pair .shiftLeft x _ => [x, Register.flag]
  | draw _ _ _ => [Register.flag]
  | single .readDelay x | single .waitKey x => [x]
  | single .read x => (List.finRange 16).filter (· ≤ x)
  | _ => []

/-- How many bytes an instruction stores, from `I` on. -/
def stored : Instruction → Nat
  | single .bcd _ => 3
  | single .store x => x.val + 1
  | _ => 0

end Instruction

/-! ## The state as a whole -/

/-- A state with the registers of another one, and with one part of it. -/
def State.taking (s : State) (part : Option Part) (t : State) : State where
  v := t.v
  i := if part = some .index then t.i else s.i
  pc := s.pc
  stack := if part = some .stack then t.stack else s.stack
  memory := if part = some .memory then t.memory else s.memory
  frame := if part = some .frame then t.frame else s.frame
  timers :=
    { delay := if part = some (.timer .delay) then t.timers.delay else s.timers.delay
      sound := if part = some (.timer .sound) then t.timers.sound else s.timers.sound }
  keys := if part = some .keys then t.keys else s.keys

theorem State.taking_self (s : State) (part : Option Part) : s.taking part s = s := by
  simp only [taking, ite_self]

/-- An attempt takes no more than its continuation does. -/
theorem attempt_snd_eq_taking {α : Type} {part : Option Part} {s : State}
    {answer : Except RangeFault α} {goOn : α → Next × State}
    (hgoOn : ∀ a, (goOn a).2 = s.taking part (goOn a).2) :
    (attempt s answer goOn).2 = s.taking part (attempt s answer goOn).2 := by
  -- If it is refused, nothing was taken, and otherwise its continuation has taken it.
  cases answer with
  | error cause => exact (s.taking_self part).symm
  | ok a => exact hgoOn a

/-- Execution changes the registers and the part that the instruction is for, and nothing
    else of the state. -/
theorem execute_state_eq (i : Instruction) (s : State) (r : RandomSource) :
    (execute i s r).state = s.taking i.part? (execute i s r).state := by
  cases i with
  | clear => rfl
  | ret => exact attempt_snd_eq_taking fun _ => rfl
  | address op addr =>
    cases op with
    | call => exact attempt_snd_eq_taking fun _ => rfl
    | _ => rfl
  | byte op x kk => cases op <;> rfl
  | pair op x y => cases op <;> rfl
  | draw x y height => exact attempt_snd_eq_taking fun _ => rfl
  | single op x =>
    cases op with
    -- A key wait goes on or stays, depending on whether a key is pending.
    | waitKey =>
      show (SingleOp.execute .waitKey x s).2 = s.taking _ (SingleOp.execute .waitKey x s).2
      simp only [SingleOp.execute]
      split <;> rfl
    | bcd => exact attempt_snd_eq_taking fun _ => rfl
    | store => exact attempt_snd_eq_taking fun _ => rfl
    | read => exact attempt_snd_eq_taking fun _ => rfl
    | _ => rfl

/-! ## Registers and bytes -/

theorem State.reg_setReg_of_ne {s : State} {x y : Register} (h : y ≠ x) (value : UInt8) :
    (s.setReg x value).reg y = s.reg y := by
  rw [State.reg_setReg, if_neg (Ne.symm h)]

/-- A register that takes no result of an operation on two registers keeps its contents. -/
private theorem PairOp.execute_reg {op : PairOp} {x y z : Register} {s : State}
    (h : z ∉ (Instruction.pair op x y).results) : (op.execute x y s).2.reg z = s.reg z := by
  -- In the results of an instruction are all the registers that it writes.
  have hone : ∀ value, z ∉ [x] → (s.setReg x value).reg z = s.reg z := fun value hz =>
    State.reg_setReg_of_ne (List.ne_of_not_mem_cons hz) value
  -- The result and the flag are written one after the other, in either order.
  have hboth : ∀ value condition, z ∉ [x, Register.flag] →
      ((s.setReg x value).setFlag condition).reg z = s.reg z ∧
        ((s.setFlag condition).setReg x value).reg z = s.reg z := by
    intro value condition hz
    have hx := List.ne_of_not_mem_cons hz
    have hflag := List.ne_of_not_mem_cons (List.not_mem_of_not_mem_cons hz)
    simp only [State.setFlag, State.reg_setReg_of_ne hx, State.reg_setReg_of_ne hflag, and_self]
  cases op with
  | skipEqual => rfl
  | skipUnequal => rfl
  | move => exact hone _ h
  | or => exact hone _ h
  | and => exact hone _ h
  | xor => exact hone _ h
  | add => exact (hboth _ _ h).1
  | sub => exact (hboth _ _ h).2
  | shiftRight => exact (hboth _ _ h).2
  | subFrom => exact (hboth _ _ h).2
  | shiftLeft => exact (hboth _ _ h).2

private theorem SingleOp.execute_reg {op : SingleOp} {x y : Register} {s : State}
    (h : y ∉ (Instruction.single op x).results) : (op.execute x s).2.reg y = s.reg y := by
  cases op with
  | readDelay => exact State.reg_setReg_of_ne (List.ne_of_not_mem_cons h) _
  | waitKey =>
    -- Without a pending key there is no result.
    simp only [SingleOp.execute]
    split
    · rfl
    · exact State.reg_setReg_of_ne (List.ne_of_not_mem_cons h) _
  | bcd => exact attempt_snd_part (·.reg y) fun _ => rfl
  | store => exact attempt_snd_part (·.reg y) fun _ => rfl
  | read =>
    simp only [SingleOp.execute]
    cases hslice : s.memory.slice s.i.toNat (x.val + 1) with
    | error cause => rfl
    | ok bytes =>
      have hbytes : bytes.length = x.val + 1 := by
        obtain ⟨hle, rfl⟩ := Memory.slice_eq_ok_iff.1 hslice
        exact Vector.length_window _ hle
      -- As many registers are read as there are up to the operand, and `y` is behind it.
      have hlt : x.val < y.val := by
        apply Nat.lt_of_not_le
        intro hle
        exact h (List.mem_filter.2 ⟨List.mem_finRange y, decide_eq_true hle⟩)
      show (s.v.overwrite 0 bytes)[y] = s.v[y]
      rw [Fin.getElem_fin, Fin.getElem_fin, Vector.getElem_overwrite, dif_neg (by omega)]
  | _ => rfl

/-- A register that takes no result of an instruction keeps its contents. -/
theorem execute_reg {i : Instruction} {y : Register} (h : y ∉ i.results) (s : State)
    (r : RandomSource) : (execute i s r).state.reg y = s.reg y := by
  cases i with
  | clear => rfl
  | ret => exact attempt_snd_part (·.reg y) fun _ => rfl
  | address op addr =>
    cases op with
    | call => exact attempt_snd_part (·.reg y) fun _ => rfl
    | _ => rfl
  | byte op x kk =>
    cases op with
    | skipEqual => rfl
    | skipUnequal => rfl
    | load => exact State.reg_setReg_of_ne (List.ne_of_not_mem_cons h) _
    | add => exact State.reg_setReg_of_ne (List.ne_of_not_mem_cons h) _
    | random => exact State.reg_setReg_of_ne (List.ne_of_not_mem_cons h) _
  | pair op x z => exact PairOp.execute_reg h
  | draw x z height =>
    exact attempt_snd_part (·.reg y) fun _ =>
      State.reg_setReg_of_ne (List.ne_of_not_mem_cons h) _
  | single op x => exact SingleOp.execute_reg h

/-- A write changes no byte but those that it stores. -/
theorem Memory.bytes_of_write {m m' : Memory} {address : Nat} {data : List UInt8}
    (h : m.write address data = .ok m') {a : Nat} (ha : a < 4096)
    (hapart : ¬(address ≤ a ∧ a < address + data.length)) : m'.bytes[a] = m.bytes[a] := by
  -- The stored bytes are those that overwrite the memory; all others are apart from them.
  obtain ⟨-, -, rfl⟩ := write_eq_ok_iff.1 h
  rw [Vector.getElem_overwrite, dif_neg (by omega)]

/-- An attempt to write at `I` changes no byte but those that it is to store. -/
private theorem attempt_write_bytes {s : State} {data : List UInt8} {a : Nat} (ha : a < 4096)
    (hapart : ¬(s.i.toNat ≤ a ∧ a < s.i.toNat + data.length)) :
    (attempt s (s.memory.write s.i.toNat data) fun memory =>
      (.advance, { s with memory })).2.memory.bytes[a] = s.memory.bytes[a] := by
  -- A write that is refused stores nothing.
  cases hwrite : s.memory.write s.i.toNat data with
  | error cause => rfl
  | ok memory => exact Memory.bytes_of_write hwrite ha hapart

/-- A byte that an instruction does not store to is as it was. -/
theorem execute_bytes {i : Instruction} {s : State} {a : Nat} (ha : a < 4096)
    (hapart : ¬(s.i.toNat ≤ a ∧ a < s.i.toNat + i.stored)) (r : RandomSource) :
    (execute i s r).state.memory.bytes[a] = s.memory.bytes[a] := by
  -- Of the instructions whose part is the memory, each attempts one write at `I`.
  by_cases hpart : i.part? = some .memory
  · cases i with
    | single op x =>
      cases op with
      | bcd => exact attempt_write_bytes ha hapart
      | store =>
        refine attempt_write_bytes ha ?_
        rw [RegisterFile.length_take_succ]
        exact hapart
      | _ => exact nomatch hpart
    | address op addr => cases op <;> exact nomatch hpart
    | byte op x kk => cases op <;> exact nomatch hpart
    | _ => exact nomatch hpart
  · -- All other instructions leave the memory as a whole alone.
    rw [execute_state_eq]
    simp only [State.taking, if_neg hpart]

/-! ## Footprints -/

/-- An effect on a state and a random source keeps to what an instruction is for. -/
structure Effect.KeepsTo (e : Effect) (i : Instruction) (s : State) (r : RandomSource) : Prop where
  pc : e.state.pc = s.pc
  registers : ∀ y ∉ i.results, e.state.reg y = s.reg y
  bytes : ∀ (a : Nat) (ha : a < 4096), ¬(s.i.toNat ≤ a ∧ a < s.i.toNat + i.stored) →
    e.state.memory.bytes[a] = s.memory.bytes[a]
  frame : i.part? ≠ some .frame → e.state.frame = s.frame
  index : i.part? ≠ some .index → e.state.i = s.i
  timer : ∀ timer, i.part? ≠ some (.timer timer) → e.state.timers.get timer = s.timers.get timer
  stack : i.part? ≠ some .stack → e.state.stack = s.stack
  /-- A call adds one return address to those that are there. -/
  call : ∀ addr, i = .address .call addr →
    ∃ address, e.state.stack.returns = address :: s.stack.returns
  /-- A return takes the latest one off. -/
  ret : i = .ret → ∃ address, s.stack.returns = address :: e.state.stack.returns
  held : e.state.keys.held = s.keys.held
  pending : i.part? ≠ some .keys → e.state.keys.pending = s.keys.pending
  /-- A key wait takes the latest pending key. -/
  taken : i.part? = some .keys → e.state.keys.pending = s.keys.pending.tail
  random : i.part? ≠ some .random → e.random = r
  /-- One byte is drawn. -/
  drawn : i.part? = some .random → e.random = { r with drawn := r.drawn + 1 }

/-- A key wait takes the latest pending key, if there is one, and leaves the held keys alone. -/
private theorem keys_waitKey (x : Register) (s : State) :
    (SingleOp.execute .waitKey x s).2.keys.pending = s.keys.pending.tail ∧
      (SingleOp.execute .waitKey x s).2.keys.held = s.keys.held := by
  simp only [SingleOp.execute]
  -- If no key is pending, none is left either.
  split
  · rename_i htake
    rw [(KeyLatch.take_eq_none_iff _).1 htake]
    exact ⟨rfl, rfl⟩
  · rename_i key keys htake
    obtain ⟨hpending, hheld⟩ := KeyLatch.pending_of_take htake
    rw [hpending]
    exact ⟨rfl, hheld⟩

/-- Execution changes the keys only at a key wait, which takes the latest pending one. -/
theorem execute_keys (i : Instruction) (s : State) (r : RandomSource) :
    (execute i s r).state.keys.held = s.keys.held ∧
      (i.part? = some .keys → (execute i s r).state.keys.pending = s.keys.pending.tail) := by
  -- Only the key wait has the keys as its part.
  by_cases hpart : i.part? = some .keys
  · cases i with
    | single op x =>
      cases op with
      | waitKey =>
        obtain ⟨hpending, hheld⟩ := keys_waitKey x s
        exact ⟨hheld, fun _ => hpending⟩
      | _ => exact nomatch hpart
    | address op addr => cases op <;> exact nomatch hpart
    | byte op x kk => cases op <;> exact nomatch hpart
    | _ => exact nomatch hpart
  · rw [execute_state_eq]
    simp only [State.taking, if_neg hpart]
    exact ⟨trivial, fun h => absurd h hpart⟩

/-- The random source is advanced by one byte, or it is left alone. -/
theorem execute_random (i : Instruction) (s : State) (r : RandomSource) :
    (execute i s r).random =
      if i.part? = some .random then { r with drawn := r.drawn + 1 } else r := by
  cases i with
  | address op addr => cases op <;> rfl
  | byte op x kk => cases op <;> rfl
  | single op x => cases op <;> rfl
  | _ => rfl

/-- An instruction that succeeds changes only what it is for: the registers that take its
    results, the bytes that it stores, and one part of the state at most. -/
theorem execute_keepsTo {i : Instruction} {s : State} {r : RandomSource} {next : Next}
    (h : (execute i s r).outcome = .ok next) : (execute i s r).KeepsTo i s r where
  pc := by
    -- The program counter is no part of its own: it is set by the step, not by the execution.
    rw [execute_state_eq]
    rfl
  registers := fun y hy => execute_reg hy s r
  bytes := fun a ha hapart => execute_bytes ha hapart r
  frame := by
    intro hpart
    -- Each part is as it was, unless it is the one that the instruction is for.
    rw [execute_state_eq]
    exact if_neg hpart
  index := by
    intro hpart
    rw [execute_state_eq]
    exact if_neg hpart
  timer := by
    intro timer hpart
    rw [execute_state_eq]
    cases timer with
    | delay => exact if_neg hpart
    | sound => exact if_neg hpart
  stack := by
    intro hpart
    rw [execute_state_eq]
    exact if_neg hpart
  call := by
    rintro addr rfl
    -- A call that has succeeded has pushed an address.
    obtain ⟨stack, hpush, -⟩ := attempt_fst_eq_ok_iff.1 h
    refine ⟨s.pc + 2, ?_⟩
    simp only [execute, Effect.undrawn, AddressOp.execute, hpush, attempt]
    exact CallStack.returns_push hpush
  ret := by
    rintro rfl
    -- A return that has succeeded has popped one.
    obtain ⟨⟨address, stack⟩, hpop, -⟩ := attempt_fst_eq_ok_iff.1 h
    refine ⟨address, ?_⟩
    simp only [execute, Effect.undrawn, hpop, attempt]
    exact CallStack.returns_pop hpop
  held := (execute_keys i s r).1
  pending := by
    intro hpart
    rw [execute_state_eq]
    exact congrArg KeyLatch.pending (if_neg hpart)
  taken := (execute_keys i s r).2
  random := by
    intro hpart
    rw [execute_random, if_neg hpart]
  drawn := by
    intro hpart
    rw [execute_random, if_pos hpart]

/-- Three registers are stored at `0x300`, and the bytes on either side stay. -/
theorem execute_keepsTo_store :
    let s := { State.initial with i := 0x300, v := Vector.replicate 16 7 }
    let e := execute (.single .store 2) s (.counter 0 1)
    e.outcome = .ok .advance ∧ e.KeepsTo (.single .store 2) s (.counter 0 1) ∧
      e.state.memory.slice 0x2FF 5 = .ok [0, 7, 7, 7, 0] := by
  intro s e
  have hout : e.outcome = .ok .advance := by decide +kernel
  exact ⟨hout, execute_keepsTo hout, by decide +kernel⟩

end Chip8
