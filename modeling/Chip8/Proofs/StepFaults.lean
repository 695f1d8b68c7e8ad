import Chip8.Proofs.EncodingTable
import Chip8.Proofs.StepAtomic

/-!
# When a step faults

The rules by which a step must fault, read off the word at the program counter, and
the proof that a step faults by these rules and in no other case.

## Key results

- `State.Faults`: the rules, in the order in which they are checked
- `Machine.step_outcome_iff`: a step faults exactly by the rules, waits exactly at a key
  wait without a pending key, and executes an instruction in every other case
-/

namespace Chip8

/-! ## When the parts of a state refuse

Each part that can refuse an operation says exactly when it does, and with which fault. -/

theorem CallStack.push_eq_error_iff {s : CallStack} {address : UInt16} {cause : RangeFault} :
    s.push address = .error cause ↔ s.depth = 16 ∧ cause = .stackOverflow 16 := by
  have hle := s.depth_le
  unfold push
  split
  · rename_i hlt
    simp only [depth, reduceCtorEq, false_iff, not_and]
    omega
  · rename_i hge
    have hdepth : s.depth = 16 := by
      unfold depth
      omega
    -- The stack never exceeds its capacity, so a refused push means that it is full.
    simp only [hdepth, Except.error.injEq, true_and]
    exact eq_comm

theorem CallStack.pop_eq_error_iff {s : CallStack} {cause : RangeFault} :
    s.pop = .error cause ↔ s.depth = 0 ∧ cause = .stackUnderflow := by
  match s with
  | ⟨[], _⟩ => simp [pop, depth, eq_comm]
  | ⟨_ :: _, _⟩ => simp [pop, depth]

theorem Memory.slice_eq_error_iff {m : Memory} {address length : Nat} {cause : RangeFault} :
    m.slice address length = .error cause ↔
      4096 < address + length ∧ cause = .outOfBounds address length := by
  unfold slice
  split
  · rename_i hle
    simp only [reduceCtorEq, false_iff, not_and]
    omega
  · rename_i hgt
    simp only [Except.error.injEq, Nat.lt_of_not_le hgt, true_and]
    exact eq_comm

theorem Memory.write_eq_error_iff {m : Memory} {address : Nat} {data : List UInt8}
    {cause : RangeFault} :
    m.write address data = .error cause ↔
      (4096 < address + data.length ∧ cause = .outOfBounds address data.length) ∨
      (address + data.length ≤ 4096 ∧ data ≠ [] ∧ address < 0x50 ∧ cause = .readOnly address) := by
  have hend : fontEnd = 0x50 := rfl
  unfold write
  rw [hend]
  split
  · rename_i hle
    -- In bounds only the font can refuse the write.
    have hnot : ¬4096 < address + data.length := by omega
    split
    · rename_i hfont
      simp only [Except.error.injEq, hnot, hle, hfont, false_and, true_and, false_or, ne_eq,
        not_false_eq_true]
      exact eq_comm
    · rename_i hfont
      simp only [reduceCtorEq, hnot, hle, false_and, true_and, false_or, false_iff]
      rintro ⟨hdata, hlt, -⟩
      exact hfont ⟨hdata, hlt⟩
  · rename_i hgt
    -- Out of bounds the font does not matter.
    have hlt : 4096 < address + data.length := by omega
    simp only [Except.error.injEq, hlt, hgt, true_and, false_and, or_false]
    exact eq_comm

/-! ## When an instruction faults -/

/-- How many bytes of memory, from `I` on, an instruction uses as its operand. -/
def Instruction.span? : Instruction → Option Nat
  | draw _ _ height => some height.toNat
  | single .bcd _ => some 3
  | single .store x => some (x.val + 1)
  | single .read x => some (x.val + 1)
  | _ => none

/-- Whether the operand in memory is written. -/
def Instruction.Stores : Instruction → Prop
  | single .bcd _ | single .store _ => True
  | _ => False

/-- The ways in which execution faults: on the call stack, past the end of memory, or in
    the font. -/
inductive ExecuteFaults (s : State) : Instruction → RangeFault → Prop where
  | underflow (h : s.stack.depth = 0) : ExecuteFaults s .ret .stackUnderflow
  | overflow {addr : UInt16} (h : s.stack.depth = 16) :
    ExecuteFaults s (.address .call addr) (.stackOverflow 16)
  | access {i : Instruction} {length : Nat} (hspan : i.span? = some length)
    (h : 4096 < s.i.toNat + length) : ExecuteFaults s i (.outOfBounds s.i.toNat length)
  | font {i : Instruction} {length : Nat} (hspan : i.span? = some length) (hstores : i.Stores)
    (hle : s.i.toNat + length ≤ 4096) (h : s.i.toNat < 0x50) :
    ExecuteFaults s i (.readOnly s.i.toNat)

/-- A write of at least one byte at `I`, in terms of its length. -/
private theorem writeFault_iff {s : State} {data : List UInt8} {length : Nat} {cause : RangeFault}
    (hlength : data.length = length) (hpos : 0 < length) :
    s.memory.write s.i.toNat data = .error cause ↔
      (4096 < s.i.toNat + length ∧ cause = .outOfBounds s.i.toNat length) ∨
      (s.i.toNat + length ≤ 4096 ∧ s.i.toNat < 0x50 ∧ cause = .readOnly s.i.toNat) := by
  have hne : data ≠ [] := by
    rintro rfl
    simp only [List.length_nil] at hlength
    omega
  rw [Memory.write_eq_error_iff, hlength]
  simp only [ne_eq, hne, not_false_eq_true, true_and]

/-- An instruction that writes at `I` faults by the two rules for memory. -/
private theorem executeFaults_of_stores {s : State} {i : Instruction} {length : Nat}
    {cause : RangeFault} (hspan : i.span? = some length) (hstores : i.Stores) :
    ExecuteFaults s i cause ↔
      (4096 < s.i.toNat + length ∧ cause = .outOfBounds s.i.toNat length) ∨
      (s.i.toNat + length ≤ 4096 ∧ s.i.toNat < 0x50 ∧ cause = .readOnly s.i.toNat) := by
  constructor
  · intro h
    cases h with
    -- Neither a return nor a call has an operand in memory.
    | underflow => exact nomatch hspan
    | overflow => exact nomatch hspan
    | access hspan' h =>
      obtain rfl := Option.some.inj (hspan.symm.trans hspan')
      exact .inl ⟨h, rfl⟩
    | font hspan' hstores' hle h =>
      obtain rfl := Option.some.inj (hspan.symm.trans hspan')
      exact .inr ⟨hle, h, rfl⟩
  · rintro (⟨h, rfl⟩ | ⟨hle, h, rfl⟩)
    · exact .access hspan h
    · exact .font hspan hstores hle h

/-- An instruction that only reads at `I` faults by the first of them. -/
private theorem executeFaults_of_reads {s : State} {i : Instruction} {length : Nat}
    {cause : RangeFault} (hspan : i.span? = some length) (hstores : ¬i.Stores) :
    ExecuteFaults s i cause ↔
      4096 < s.i.toNat + length ∧ cause = .outOfBounds s.i.toNat length := by
  constructor
  · intro h
    cases h with
    | underflow => exact nomatch hspan
    | overflow => exact nomatch hspan
    | access hspan' h =>
      obtain rfl := Option.some.inj (hspan.symm.trans hspan')
      exact ⟨h, rfl⟩
    | font _ hstores' => exact absurd hstores' hstores
  · rintro ⟨h, rfl⟩
    exact .access hspan h

/-- An instruction without an operand in memory, and that is neither a call nor a return,
    does not fault. -/
private theorem not_executeFaults {s : State} {i : Instruction} {cause : RangeFault}
    (hspan : i.span? = none) (hret : i ≠ .ret) (hcall : ∀ addr, i ≠ .address .call addr) :
    ¬ExecuteFaults s i cause := by
  intro h
  cases h with
  | underflow => exact hret rfl
  | overflow => exact hcall _ rfl
  | access hspan' => exact nomatch hspan.symm.trans hspan'
  | font hspan' => exact nomatch hspan.symm.trans hspan'

private theorem address_outcome_iff {op : AddressOp} {addr : UInt16} {s : State}
    {cause : RangeFault} :
    (op.execute addr s).1 = .error cause ↔ ExecuteFaults s (.address op addr) cause := by
  cases op with
  | call =>
    rw [AddressOp.execute, attempt_fst_eq_error_iff, CallStack.push_eq_error_iff]
    constructor
    · rintro ⟨h, rfl⟩
      exact .overflow h
    · intro h
      cases h with
      | overflow h => exact ⟨h, rfl⟩
      -- A call has no operand in memory, so the rules for memory do not apply.
      | access hspan => exact nomatch hspan
      | font hspan => exact nomatch hspan
  | _ => exact iff_of_false nofun (not_executeFaults rfl nofun nofun)

private theorem single_outcome_iff {op : SingleOp} {x : Register} {s : State}
    {cause : RangeFault} :
    (op.execute x s).1 = .error cause ↔ ExecuteFaults s (.single op x) cause := by
  cases op with
  | bcd =>
    rw [executeFaults_of_stores (i := .single .bcd x) rfl trivial, SingleOp.execute,
      attempt_fst_eq_error_iff]
    -- Three digits are written, whatever the register holds.
    exact writeFault_iff rfl (by decide)
  | store =>
    rw [executeFaults_of_stores (i := .single .store x) rfl trivial, SingleOp.execute,
      attempt_fst_eq_error_iff]
    -- At least `V0` is written.
    exact writeFault_iff (RegisterFile.length_take_succ s.v x) (Nat.succ_pos _)
  | read =>
    rw [executeFaults_of_reads (i := .single .read x) rfl id, SingleOp.execute,
      attempt_fst_eq_error_iff]
    exact Memory.slice_eq_error_iff
  | waitKey =>
    refine iff_of_false ?_ (not_executeFaults rfl (by simp) (by simp))
    simp only [SingleOp.execute]
    split <;> simp
  | _ =>
    refine iff_of_false ?_ (not_executeFaults rfl (by simp) (by simp))
    simp [SingleOp.execute]

/-- Execution faults by the rules and in no other way. -/
theorem execute_outcome_eq_error_iff {i : Instruction} {s : State} {r : RandomSource}
    {cause : RangeFault} :
    (execute i s r).outcome = .error cause ↔ ExecuteFaults s i cause := by
  cases i with
  | clear => exact iff_of_false nofun (not_executeFaults rfl nofun nofun)
  | ret =>
    show (attempt s s.stack.pop _).1 = .error cause ↔ _
    rw [attempt_fst_eq_error_iff, CallStack.pop_eq_error_iff]
    constructor
    · rintro ⟨h, rfl⟩
      exact .underflow h
    · intro h
      cases h with
      | underflow h => exact ⟨h, rfl⟩
      | access hspan => exact nomatch hspan
      | font hspan => exact nomatch hspan
  | address op addr => exact address_outcome_iff
  | byte op x kk =>
    exact iff_of_false (op.execute_outcome_ne_error x kk s r cause)
      (not_executeFaults rfl nofun nofun)
  | pair op x y => exact iff_of_false nofun (not_executeFaults rfl nofun nofun)
  | draw x y height =>
    show (attempt s (s.memory.slice _ _) _).1 = .error cause ↔ _
    rw [executeFaults_of_reads (i := .draw x y height) rfl id, attempt_fst_eq_error_iff]
    exact Memory.slice_eq_error_iff
  | single op x => exact single_outcome_iff

/-! ## The rules -/

/-- The word at the program counter, the high byte first. -/
def State.opcode (s : State) : Word :=
  Word.ofBytes (s.memory.bytes[s.pc.toNat]?.getD 0) (s.memory.bytes[s.pc.toNat + 1]?.getD 0)

/-- A word uses `length` bytes of memory, from `I` on, as its operand. -/
def Word.Accesses (w : Word) (length : Nat) : Prop :=
  (Encoding.draw.Admits w ∧ length = w.n.val) ∨
  (Encoding.bcd.Admits w ∧ length = 3) ∨
  (Encoding.store.Admits w ∧ length = w.x.val + 1) ∨
  (Encoding.read.Admits w ∧ length = w.x.val + 1)

/-- A word writes the `length` bytes from `I` on. -/
def Word.Stores (w : Word) (length : Nat) : Prop :=
  (Encoding.bcd.Admits w ∧ length = 3) ∨ (Encoding.store.Admits w ∧ length = w.x.val + 1)

/-- The faults that a step must end in.  Each rule supposes that those before it do not
    apply. -/
inductive State.Faults (s : State) : Fault → Prop where
  | fetch (h : 4096 < s.pc.toNat + 2) : Faults s (.range (.outOfBounds s.pc.toNat 2))
  | decode (hpc : s.pc.toNat + 2 ≤ 4096)
    (h : ∀ e ∈ Encoding.documented, ¬e.Admits s.opcode) : Faults s (.undecodable s.opcode)
  | underflow (hpc : s.pc.toNat + 2 ≤ 4096) (hword : Encoding.ret.Admits s.opcode)
    (h : s.stack.depth = 0) : Faults s (.range .stackUnderflow)
  | overflow (hpc : s.pc.toNat + 2 ≤ 4096) (hword : Encoding.call.Admits s.opcode)
    (h : s.stack.depth = 16) : Faults s (.range (.stackOverflow 16))
  | access {length : Nat} (hpc : s.pc.toNat + 2 ≤ 4096) (hword : s.opcode.Accesses length)
    (h : 4096 < s.i.toNat + length) : Faults s (.range (.outOfBounds s.i.toNat length))
  | font {length : Nat} (hpc : s.pc.toNat + 2 ≤ 4096) (hword : s.opcode.Stores length)
    (hle : s.i.toNat + length ≤ 4096) (h : s.i.toNat < 0x50) :
    Faults s (.range (.readOnly s.i.toNat))

/-! ## The rules and the instructions -/

namespace Instruction

/-- A word that uses memory is an instruction that does. -/
private theorem exists_of_accesses {w : Word} {length : Nat} (h : w.Accesses length) :
    ∃ i, decode? w = some i ∧ i.span? = some length := by
  rcases h with ⟨hw, rfl⟩ | ⟨hw, rfl⟩ | ⟨hw, rfl⟩ | ⟨hw, rfl⟩
  · refine ⟨_, decode?_eq_draw_iff.2 ⟨hw, rfl, rfl, rfl⟩, ?_⟩
    rw [span?, Word.toNat_ofNat_n]
  · exact ⟨_, decode?_eq_bcd_iff.2 ⟨hw, rfl⟩, rfl⟩
  · exact ⟨_, decode?_eq_store_iff.2 ⟨hw, rfl⟩, rfl⟩
  · exact ⟨_, decode?_eq_read_iff.2 ⟨hw, rfl⟩, rfl⟩

private theorem exists_of_stores {w : Word} {length : Nat} (h : w.Stores length) :
    ∃ i, decode? w = some i ∧ i.span? = some length ∧ i.Stores := by
  rcases h with ⟨hw, rfl⟩ | ⟨hw, rfl⟩
  · exact ⟨_, decode?_eq_bcd_iff.2 ⟨hw, rfl⟩, rfl, trivial⟩
  · exact ⟨_, decode?_eq_store_iff.2 ⟨hw, rfl⟩, rfl, trivial⟩

/-- An instruction uses the bytes that its word says. -/
private theorem accesses_of_span? {w : Word} {i : Instruction} {length : Nat}
    (h : decode? w = some i) (hspan : i.span? = some length) : w.Accesses length := by
  cases i with
  | draw x y height =>
    obtain ⟨hw, -, -, rfl⟩ := decode?_eq_draw_iff.1 h
    rw [span?, Word.toNat_ofNat_n, Option.some.injEq] at hspan
    exact .inl ⟨hw, hspan.symm⟩
  | single op x =>
    cases op with
    | bcd =>
      obtain rfl := Option.some.inj hspan
      exact .inr (.inl ⟨(decode?_eq_bcd_iff.1 h).1, rfl⟩)
    | store =>
      obtain ⟨hw, rfl⟩ := decode?_eq_store_iff.1 h
      exact .inr (.inr (.inl ⟨hw, (Option.some.inj hspan).symm⟩))
    | read =>
      obtain ⟨hw, rfl⟩ := decode?_eq_read_iff.1 h
      exact .inr (.inr (.inr ⟨hw, (Option.some.inj hspan).symm⟩))
    | _ => exact nomatch hspan
  | _ => exact nomatch hspan

private theorem stores_of_span? {w : Word} {i : Instruction} {length : Nat}
    (h : decode? w = some i) (hspan : i.span? = some length) (hstores : i.Stores) :
    w.Stores length := by
  cases i with
  | single op x =>
    cases op with
    | bcd =>
      obtain rfl := Option.some.inj hspan
      exact .inl ⟨(decode?_eq_bcd_iff.1 h).1, rfl⟩
    | store =>
      obtain ⟨hw, rfl⟩ := decode?_eq_store_iff.1 h
      exact .inr ⟨hw, (Option.some.inj hspan).symm⟩
    | _ => exact nomatch hstores
  | _ => exact nomatch hstores

end Instruction

/-! ## Fetching -/

namespace State

theorem fetch_of_outside {s : State} (h : 4096 < s.pc.toNat + 2) :
    s.fetch = .error (.range (.outOfBounds s.pc.toNat 2)) := by
  have hpair : s.memory.pair s.pc.toNat = .error (.outOfBounds s.pc.toNat 2) :=
    dif_neg (by omega)
  simp only [fetch, hpair]

theorem fetch_of_inside {s : State} (h : s.pc.toNat + 2 ≤ 4096) :
    s.fetch =
      match Instruction.decode? s.opcode with
      | none => .error (.undecodable s.opcode)
      | some i => .ok i := by
  have hhigh : s.pc.toNat < 4096 := by omega
  have hlow : s.pc.toNat + 1 < 4096 := by omega
  have hpair : s.memory.pair s.pc.toNat =
      .ok (s.memory.bytes[s.pc.toNat], s.memory.bytes[s.pc.toNat + 1]) := dif_pos h
  have hopcode : Word.ofBytes s.memory.bytes[s.pc.toNat] s.memory.bytes[s.pc.toNat + 1] =
      s.opcode := by
    simp only [opcode, Vector.getElem?_eq_getElem hhigh, Vector.getElem?_eq_getElem hlow,
      Option.getD_some]
  cases hi : Instruction.decode? s.opcode with
  | none => simp only [fetch, hpair, hopcode, hi]
  | some i => simp only [fetch, hpair, hopcode, hi]

/-- An instruction that was fetched is the word at the program counter, which is in memory. -/
theorem decode?_of_fetch {s : State} {i : Instruction} (h : s.fetch = .ok i) :
    s.pc.toNat + 2 ≤ 4096 ∧ Instruction.decode? s.opcode = some i := by
  by_cases hpc : s.pc.toNat + 2 ≤ 4096
  · rw [fetch_of_inside hpc] at h
    cases hi : Instruction.decode? s.opcode with
    | none => rw [hi] at h; exact nomatch h
    | some j =>
      rw [hi] at h
      cases h
      exact ⟨hpc, rfl⟩
  · rw [fetch_of_outside (by omega)] at h
    exact nomatch h

/-- When the word is an instruction, the remaining rules are those of its execution. -/
theorem faults_iff_executeFaults {s : State} {i : Instruction} {fault : Fault}
    (hpc : s.pc.toNat + 2 ≤ 4096) (hi : Instruction.decode? s.opcode = some i) :
    s.Faults fault ↔ ∃ cause, ExecuteFaults s i cause ∧ fault = .range cause := by
  constructor
  · intro h
    cases h with
    | fetch h => omega
    | decode _ h =>
      -- The word is decoded, so it is in a row of the table.
      obtain ⟨e, he, hword⟩ := Instruction.exists_decode?_iff.1 ⟨i, hi⟩
      exact absurd hword (h e he)
    | underflow _ hword h =>
      obtain rfl := Option.some.inj (hi.symm.trans (Instruction.decode?_eq_ret_iff.2 hword))
      exact ⟨_, .underflow h, rfl⟩
    | overflow _ hword h =>
      obtain rfl :=
        Option.some.inj (hi.symm.trans (Instruction.decode?_eq_call_iff.2 ⟨hword, rfl⟩))
      exact ⟨_, .overflow h, rfl⟩
    | access _ hword h =>
      -- The word is decoded in one way only.
      obtain ⟨j, hj, hspan⟩ := Instruction.exists_of_accesses hword
      obtain rfl := Option.some.inj (hi.symm.trans hj)
      exact ⟨_, .access hspan h, rfl⟩
    | font _ hword hle h =>
      obtain ⟨j, hj, hspan, hstores⟩ := Instruction.exists_of_stores hword
      obtain rfl := Option.some.inj (hi.symm.trans hj)
      exact ⟨_, .font hspan hstores hle h, rfl⟩
  · rintro ⟨cause, h, rfl⟩
    cases h with
    | underflow h => exact .underflow hpc (Instruction.decode?_eq_ret_iff.1 hi) h
    | overflow h => exact .overflow hpc (Instruction.decode?_eq_call_iff.1 hi).1 h
    | access hspan h => exact .access hpc (Instruction.accesses_of_span? hi hspan) h
    | font hspan hstores hle h =>
      exact .font hpc (Instruction.stores_of_span? hi hspan hstores) hle h

end State

/-! ## Steps -/

namespace Machine

/-- Whether a fetched instruction faults is up to its execution. -/
theorem step_fst_eq_error_iff {m : Machine} {i : Instruction} (hi : m.state.fetch = .ok i)
    {fault : Fault} :
    m.step.1 = .error fault ↔
      ∃ cause, (execute i m.state m.random).outcome = .error cause ∧ fault = .range cause := by
  rcases m.step_cases with ⟨_, hfetch, -⟩ | ⟨j, c, hfetch, hout, hstep⟩ |
    ⟨j, hfetch, hout, hstep⟩ | ⟨j, _, _, hfetch, hout, -, hstep⟩
  · exact nomatch hi.symm.trans hfetch
  · obtain rfl := Except.ok.inj (hi.symm.trans hfetch)
    simp only [hstep, hout, Except.error.injEq, exists_eq_left']
    exact eq_comm
  · obtain rfl := Except.ok.inj (hi.symm.trans hfetch)
    simp [hstep, hout]
  · obtain rfl := Except.ok.inj (hi.symm.trans hfetch)
    simp [hstep, hout]

/-- Whether a fetched instruction waits is up to its execution. -/
theorem step_fst_eq_awaitingKey_iff {m : Machine} {i : Instruction}
    (hi : m.state.fetch = .ok i) :
    m.step.1 = .ok .awaitingKey ↔ (execute i m.state m.random).outcome = .ok .wait := by
  rcases m.step_cases with ⟨_, hfetch, -⟩ | ⟨j, c, hfetch, hout, hstep⟩ |
    ⟨j, hfetch, hout, hstep⟩ | ⟨j, next, pc, hfetch, hout, htarget, hstep⟩
  · exact nomatch hi.symm.trans hfetch
  · obtain rfl := Except.ok.inj (hi.symm.trans hfetch)
    simp [hstep, hout]
  · obtain rfl := Except.ok.inj (hi.symm.trans hfetch)
    simp [hstep, hout]
  · obtain rfl := Except.ok.inj (hi.symm.trans hfetch)
    -- The next instruction has an address, so this one does not wait.
    have hne : next ≠ .wait := by
      rintro rfl
      exact nomatch htarget
    simp [hstep, hout, hne]

/-- A machine that cannot fetch a word faults with it. -/
private theorem step_fst_of_fetch_error {m : Machine} {fault : Fault}
    (h : m.state.fetch = .error fault) : m.step.1 = .error fault := by
  simp only [step, h]

/-- A step ends in a fault exactly by the rules. -/
theorem step_faults_iff (m : Machine) (fault : Fault) :
    m.step.1 = .error fault ↔ m.state.Faults fault := by
  by_cases hpc : m.state.pc.toNat + 2 ≤ 4096
  · have hfetch := State.fetch_of_inside hpc
    cases hi : Instruction.decode? m.state.opcode with
    | some i =>
      rw [hi] at hfetch
      rw [step_fst_eq_error_iff hfetch, State.faults_iff_executeFaults hpc hi]
      simp only [execute_outcome_eq_error_iff]
    | none =>
      rw [hi] at hfetch
      -- No row admits the word, so none of the rules for the rows applies.
      have hno : ∀ i, Instruction.decode? m.state.opcode ≠ some i := by
        intro i h
        exact nomatch hi.symm.trans h
      rw [step_fst_of_fetch_error hfetch, Except.error.injEq]
      constructor
      · rintro rfl
        refine .decode hpc fun e he hword => ?_
        obtain ⟨i, h⟩ := Instruction.exists_decode?_iff.2 ⟨e, he, hword⟩
        exact hno i h
      · intro h
        cases h with
        | fetch h => omega
        | decode => rfl
        | underflow _ hword => exact absurd (Instruction.decode?_eq_ret_iff.2 hword) (hno _)
        | overflow _ hword =>
          exact absurd (Instruction.decode?_eq_call_iff.2 ⟨hword, rfl⟩) (hno _)
        | access _ hword =>
          obtain ⟨i, h, -⟩ := Instruction.exists_of_accesses hword
          exact absurd h (hno i)
        | font _ hword =>
          obtain ⟨i, h, -⟩ := Instruction.exists_of_stores hword
          exact absurd h (hno i)
  · rw [step_fst_of_fetch_error (State.fetch_of_outside (by omega)), Except.error.injEq]
    constructor
    · rintro rfl
      exact .fetch (by omega)
    · intro h
      -- Every later rule supposes that the word can be fetched.
      cases h with
      | fetch => rfl
      | _ => contradiction

private theorem step_awaits_iff (m : Machine) :
    m.step.1 = .ok .awaitingKey ↔
      m.state.pc.toNat + 2 ≤ 4096 ∧ Encoding.waitKey.Admits m.state.opcode ∧
        m.state.keys.pending = [] := by
  by_cases hpc : m.state.pc.toNat + 2 ≤ 4096
  · have hfetch := State.fetch_of_inside hpc
    cases hi : Instruction.decode? m.state.opcode with
    | some i =>
      rw [hi] at hfetch
      rw [step_fst_eq_awaitingKey_iff hfetch, execute_outcome_eq_wait_iff]
      constructor
      · rintro ⟨⟨x, rfl⟩, hpending⟩
        exact ⟨hpc, (Instruction.decode?_eq_waitKey_iff.1 hi).1, hpending⟩
      · rintro ⟨-, hword, hpending⟩
        have h := hi.symm.trans (Instruction.decode?_eq_waitKey_iff.2 ⟨hword, rfl⟩)
        exact ⟨⟨_, Option.some.inj h⟩, hpending⟩
    | none =>
      rw [hi] at hfetch
      rw [step_fst_of_fetch_error hfetch]
      refine iff_of_false nofun ?_
      rintro ⟨-, hword, -⟩
      exact nomatch hi.symm.trans (Instruction.decode?_eq_waitKey_iff.2 ⟨hword, rfl⟩)
  · rw [step_fst_of_fetch_error (State.fetch_of_outside (by omega))]
    exact iff_of_false nofun fun h => hpc h.1

/-- A step faults exactly by the rules, whatever the state.  Where no rule applies it
    succeeds: it waits exactly at a key wait without a pending key, and executes an
    instruction otherwise. -/
theorem step_outcome_iff (m : Machine) :
    (∀ fault, m.step.1 = .error fault ↔ m.state.Faults fault) ∧
    (m.step.1 = .ok .awaitingKey ↔
      (∀ fault, ¬m.state.Faults fault) ∧
        Encoding.waitKey.Admits m.state.opcode ∧ m.state.keys.pending = []) ∧
    ((∃ i, m.step.1 = .ok (.executed i)) ↔
      (∀ fault, ¬m.state.Faults fault) ∧
        ¬(Encoding.waitKey.Admits m.state.opcode ∧ m.state.keys.pending = [])) := by
  have hfaults := m.step_faults_iff
  have hawaits := m.step_awaits_iff
  -- A machine on which no rule applies has its word in memory.
  have hpc : (∀ fault, ¬m.state.Faults fault) → m.state.pc.toNat + 2 ≤ 4096 := by
    intro hno
    by_contra h
    exact hno _ (.fetch (by omega))
  refine ⟨hfaults, ?_, ?_⟩
  · rw [hawaits]
    constructor
    · intro h
      refine ⟨fun fault hfault => ?_, h.2⟩
      exact nomatch (hawaits.2 h).symm.trans ((hfaults fault).2 hfault)
    · rintro ⟨hno, h⟩
      exact ⟨hpc hno, h⟩
  · constructor
    · rintro ⟨i, hi⟩
      have hno : ∀ fault, ¬m.state.Faults fault := by
        intro fault hfault
        exact nomatch hi.symm.trans ((hfaults fault).2 hfault)
      refine ⟨hno, fun h => ?_⟩
      exact nomatch hi.symm.trans (hawaits.2 ⟨hpc hno, h⟩)
    · rintro ⟨hno, hwait⟩
      cases hstep : m.step.1 with
      | error fault => exact absurd ((hfaults fault).1 hstep) (hno fault)
      | ok step =>
        cases step with
        | executed i => exact ⟨i, rfl⟩
        | awaitingKey => exact absurd (hawaits.1 hstep).2 hwait

end Machine

end Chip8
