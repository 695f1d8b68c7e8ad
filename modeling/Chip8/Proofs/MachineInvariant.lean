import Chip8.Operation
import Chip8.Proofs.ExecutionEffect
import Chip8.Proofs.StepFaults
import Mathlib.Data.Fintype.Card

/-!
# What holds of every state of a machine

Whatever is done to a new machine, its font stays as it is, and its program counter and
its return addresses stay close to memory.  The bounds lean on each other: a return goes
to what a call has pushed, a call pushes the address behind a word that was fetched, and
only a word that lies in memory is fetched.  Rewinding brings old states back, so the
same is shown of the saved states.

## Key results

- `State.Sound`: the invariant of a state, and `State.InRange`, what follows from it for
  the arithmetic on the program counter and for every index that is used
- `State.Sound.advance`: an executed instruction preserves the invariant
- `Machine.Sound.perform`: so does every operation
- `Machine.sound_after`: it holds after any sequence of operations on a new machine
-/

namespace Chip8

/-! ## The font -/

namespace Memory

theorem slice_of_le {m : Memory} {address length : Nat} (h : address + length ≤ 4096) :
    m.slice address length = .ok (m.bytes.window address length h) := dif_pos h

theorem slice_font_initial : initial.slice 0x000 0x50 = .ok font := by
  rw [slice_of_le (by decide), initial]
  exact congrArg Except.ok (Vector.window_overwrite _ 0 font (by decide))

/-- A write leaves the font alone: it starts above the font or writes nothing. -/
theorem slice_font_of_write {m m' : Memory} {address : Nat} {data : List UInt8}
    (h : m.write address data = .ok m') : m'.slice 0x000 0x50 = m.slice 0x000 0x50 := by
  obtain ⟨-, habove, rfl⟩ := write_eq_ok_iff.1 h
  cases data with
  | nil => rfl
  | cons a data =>
    have hle := habove (List.cons_ne_nil a data)
    rw [slice_of_le (by decide), slice_of_le (by decide)]
    -- The font ends at the first address that can be written.
    exact congrArg Except.ok (Vector.window_overwrite_of_disjoint _ _ (.inl (by omega)))

theorem slice_font_of_load {m m' : Memory} {image : List UInt8} (h : m.load image = .ok m') :
    m'.slice 0x000 0x50 = m.slice 0x000 0x50 := by
  obtain ⟨-, rfl⟩ := load_eq_ok_iff.1 h
  rw [slice_of_le (by decide), slice_of_le (by decide)]
  exact congrArg Except.ok (Vector.window_overwrite_of_disjoint _ _ (.inl (by decide)))

end Memory

/-! ## Sound states -/

/-- What holds of every state that a machine can be in. -/
structure State.Sound (s : State) : Prop where
  font : s.memory.slice 0x000 0x50 = .ok Memory.font
  /-- A call returns to the address behind a word of memory. -/
  return_le : ∀ address ∈ s.stack.returns, address.toNat ≤ 0x1000
  /-- No jump goes further than to the last address plus the largest byte. -/
  pc_le : s.pc.toNat ≤ 0x10FE

namespace State.Sound

theorem initial : State.initial.Sound where
  font := Memory.slice_font_initial
  return_le := nofun
  pc_le := by decide

/-- Whether a state is sound is up to its memory, its call stack and its program counter. -/
theorem congr {s t : State} (h : s.Sound) (hmemory : t.memory = s.memory)
    (hstack : t.stack = s.stack) (hpc : t.pc = s.pc) : t.Sound where
  font := hmemory ▸ h.font
  return_le := hstack ▸ h.return_le
  pc_le := hpc ▸ h.pc_le

/-- Execution leaves the font alone. -/
theorem font_execute {s : State} (h : s.Sound) (i : Instruction) (r : RandomSource) :
    (execute i s r).state.memory.slice 0x000 0x50 = .ok Memory.font := by
  rcases execute_memory i s r with hsame | ⟨data, hwrite⟩
  · rw [hsame]
    exact h.font
  · rw [Memory.slice_font_of_write hwrite]
    exact h.font

/-- After execution the return addresses are those of before, up to one that was pushed: the
    address of the next instruction, of which the current one is in memory. -/
theorem return_le_execute {s : State} (h : s.Sound) (hpc : s.pc.toNat + 2 ≤ 4096)
    (i : Instruction) (r : RandomSource) :
    ∀ address ∈ (execute i s r).state.stack.returns, address.toNat ≤ 0x1000 := by
  rcases execute_stack i s r with hsame | hpush | ⟨popped, hpop⟩
  · rw [hsame]
    exact h.return_le
  · -- The instruction itself is in memory, so the address behind it has not wrapped around.
    have hnext : (s.pc + 2).toNat = s.pc.toNat + 2 := by
      rw [UInt16.toNat_add]
      exact Nat.mod_eq_of_lt (by simp; omega)
    intro address hmem
    rw [CallStack.returns_push hpush, List.mem_cons] at hmem
    rcases hmem with rfl | hmem
    · rw [hnext]
      omega
    · exact h.return_le address hmem
  · intro address hmem
    refine h.return_le address ?_
    rw [CallStack.returns_pop hpop]
    exact List.mem_cons_of_mem popped hmem

/-- Where an executed instruction goes on is within the bound for program counters. -/
theorem target_le {s : State} (h : s.Sound) {i : Instruction} (hi : s.fetch = .ok i)
    {r : RandomSource} {next : Next} (hout : (execute i s r).outcome = .ok next) {pc : UInt16}
    (htarget : next.target? s.pc = some pc) : pc.toNat ≤ 0x10FE := by
  obtain ⟨hpc, hdecode⟩ := State.decode?_of_fetch hi
  -- An address in a word has twelve bits.
  have hfits := (Instruction.decode?_eq_some_iff.1 hdecode).1
  cases next with
  | advance =>
    cases htarget
    rw [UInt16.toNat_add]
    exact Nat.le_trans (Nat.mod_le _ _) (by simp; omega)
  | skip =>
    cases htarget
    rw [UInt16.toNat_add]
    exact Nat.le_trans (Nat.mod_le _ _) (by simp; omega)
  | wait => exact nomatch htarget
  | jump address =>
    cases htarget
    rcases execute_jump hout with ⟨op, rfl⟩ | ⟨addr, rfl, rfl⟩ | ⟨stack, hpop⟩
    · have hlt : pc.toNat < 4096 := hfits
      omega
    · -- The offset is a byte, and twelve bits and eight come to no more than the bound.
      have hlt : addr.toNat < 4096 := hfits
      have hbyte := (s.reg 0).toNat_lt
      rw [UInt16.toNat_add, UInt8.toNat_toUInt16]
      exact Nat.le_trans (Nat.mod_le _ _) (by omega)
    · -- The top of the call stack is one of the return addresses.
      have hle := h.return_le pc (by rw [CallStack.returns_pop hpop]; exact List.mem_cons_self)
      omega

/-- An executed instruction leaves a sound state behind. -/
theorem advance {s : State} (h : s.Sound) {i : Instruction} (hi : s.fetch = .ok i)
    {r : RandomSource} {next : Next} (hout : (execute i s r).outcome = .ok next) {pc : UInt16}
    (htarget : next.target? s.pc = some pc) :
    State.Sound { (execute i s r).state with pc } where
  font := h.font_execute i r
  return_le := h.return_le_execute (State.decode?_of_fetch hi).1 i r
  pc_le := h.target_le hi hout htarget

end State.Sound

/-! ## Arithmetic and indices -/

/-- There is a place for every pending key, as each of the sixteen is pending once at most. -/
theorem KeyLatch.length_pending_le (l : KeyLatch) : l.pending.length ≤ 16 :=
  l.pending_nodup.length_le_card.trans_eq (Fintype.card_fin 16)

/-- Another press of a key finds a place free: the key itself is not pending any more. -/
theorem KeyLatch.length_erase_pending_lt (l : KeyLatch) (key : Key) :
    (l.pending.erase key).length < 16 := by
  have hnodup : (key :: l.pending.erase key).Nodup :=
    List.nodup_cons.2 ⟨l.pending_nodup.not_mem_erase, l.pending_nodup.erase key⟩
  exact hnodup.length_le_card.trans_eq (Fintype.card_fin 16)

/-- The arithmetic on the program counter neither wraps nor overflows, and whatever is
    looked up or stored has its place.  Entries of a stack of sixteen are numbered from the
    oldest one. -/
structure State.InRange (s : State) : Prop where
  pc_advance : (s.pc + 2).toNat = s.pc.toNat + 2
  pc_skip : (s.pc + 4).toNat = s.pc.toNat + 4
  jumpV0 : ∀ addr, s.fetch = .ok (.address .jumpV0 addr) →
    ((s.reg 0).toUInt16 + addr).toNat = (s.reg 0).toNat + addr.toNat
  depth_le : s.stack.depth ≤ 16
  /-- A call is entered behind those that are open. -/
  push : ∀ address stack, s.stack.push address = .ok stack → s.stack.depth < 16
  /-- A return takes the entry behind those that stay open. -/
  pop : ∀ address stack, s.stack.pop = .ok (address, stack) → stack.depth < 16
  pending_nodup : s.keys.pending.Nodup
  pending_lt : ∀ key ∈ s.keys.pending, key.val < 16
  pending_le : s.keys.pending.length ≤ 16
  /-- A press is entered behind the presses of other keys. -/
  press : ∀ key, (s.keys.pending.erase key).length < 16
  /-- A key wait takes the entry behind those that stay pending. -/
  take : ∀ key keys, s.keys.take = some (key, keys) → keys.pending.length < 16
  register : ∀ x : Register, x.val + 1 ≤ 16
  fetch : ∀ i, s.fetch = .ok i → s.pc.toNat + 2 ≤ 4096
  operand : ∀ i r next length, (execute i s r).outcome = .ok next → i.span? = some length →
    s.i.toNat + length ≤ 4096
  image : ∀ image memory, s.memory.load image = .ok memory → 0x200 + image.length ≤ 4096
  pixel : ∀ x y, (Frame.byteIndex x y).val < 256

/-- In a sound state nothing leaves its range. -/
theorem State.Sound.inRange {s : State} (h : s.Sound) : s.InRange where
  pc_advance := by
    have := h.pc_le
    rw [UInt16.toNat_add]
    exact Nat.mod_eq_of_lt (by simp; omega)
  pc_skip := by
    have := h.pc_le
    rw [UInt16.toNat_add]
    exact Nat.mod_eq_of_lt (by simp; omega)
  jumpV0 := by
    intro addr hi
    have hlt : addr.toNat < 4096 :=
      (Instruction.decode?_eq_some_iff.1 (State.decode?_of_fetch hi).2).1
    have hbyte := (s.reg 0).toNat_lt
    rw [UInt16.toNat_add, UInt8.toNat_toUInt16]
    exact Nat.mod_eq_of_lt (by omega)
  depth_le := s.stack.depth_le
  push := by
    intro address stack hpush
    have hle := stack.depth_le
    -- The stack with the address on it is a stack as well, and no stack has more than sixteen.
    rw [CallStack.returns_push hpush, List.length_cons] at hle
    exact hle
  pop := by
    intro address stack hpop
    have hle := s.stack.depth_le
    rw [CallStack.returns_pop hpop, List.length_cons] at hle
    exact hle
  pending_nodup := s.keys.pending_nodup
  pending_lt := fun key _ => key.isLt
  pending_le := s.keys.length_pending_le
  press := s.keys.length_erase_pending_lt
  take := by
    intro key keys htake
    -- The key that is taken is one of sixteen, and it is not among those that stay.
    have hpress := s.keys.length_erase_pending_lt key
    rw [(KeyLatch.pending_of_take htake).1, List.erase_cons_head] at hpress
    exact hpress
  register := fun x => x.isLt
  fetch := fun i hi => (State.decode?_of_fetch hi).1
  operand := by
    intro i r next length hout hspan
    by_contra hgt
    -- An operand that goes past the end of memory is a fault.
    have hfault := execute_outcome_eq_error_iff (r := r).2
      (.access (s := s) hspan (Nat.lt_of_not_le hgt))
    rw [hout] at hfault
    exact nomatch hfault
  image := by
    intro image memory hload
    have hcapacity : Memory.programCapacity = 3584 := rfl
    have hfit := (Memory.load_eq_ok_iff.1 hload).1
    omega
  pixel := fun x y => (Frame.byteIndex x y).isLt

/-! ## Machines -/

namespace Machine

/-- The state of the machine and all saved states are sound. -/
structure Sound (m : Machine) : Prop where
  state : m.state.Sound
  saved : ∀ s ∈ m.history.saved, s.Sound

namespace Sound

theorem new (random : RandomSource) : (Machine.new random).Sound where
  state := .initial
  saved := nofun

private theorem load {m : Machine} (h : m.Sound) (image : List UInt8) : (m.load image).2.Sound := by
  unfold Machine.load
  split
  · exact h
  · split
    · exact h
    · rename_i memory hload
      exact
        { state :=
            { font := (Memory.slice_font_of_load hload).trans h.state.font
              return_le := h.state.return_le
              pc_le := h.state.pc_le }
          saved := h.saved }

private theorem step {m : Machine} (h : m.Sound) : m.step.2.Sound := by
  rcases m.step_snd_cases with hsame | ⟨i, next, pc, hi, hout, htarget, hstep⟩
  · rwa [hsame]
  · rw [hstep]
    refine ⟨h.state.advance hi hout htarget, fun s hs => ?_⟩
    -- What is saved now is the old state, in front of what was saved before.
    rw [History.saved_save] at hs
    rcases List.mem_cons.1 (List.mem_of_mem_take hs) with rfl | hs
    · exact h.state
    · exact h.saved s hs

private theorem rewind {m : Machine} (h : m.Sound) : m.rewind.2.Sound := by
  unfold Machine.rewind
  split
  · exact h
  · rename_i s history hpop
    obtain ⟨hsaved, -⟩ := History.saved_of_pop? hpop
    refine ⟨(h.saved s (hsaved ▸ List.mem_cons_self)).congr rfl rfl rfl, fun t ht => ?_⟩
    exact h.saved t (hsaved ▸ List.mem_cons_of_mem s ht)

/-- Every operation, also one that fails, leaves a sound machine behind. -/
theorem perform {m : Machine} (h : m.Sound) (op : Operation) : (m.perform op).Sound := by
  cases op with
  | load image => exact h.load image
  | step => exact h.step
  | rewind => exact h.rewind
  | limitHistory limit =>
    refine ⟨h.state, fun s hs => ?_⟩
    rw [Machine.perform, limitHistory, History.saved_resize] at hs
    exact h.saved s (List.mem_of_mem_take hs)
  | decay => exact ⟨h.state.congr rfl rfl rfl, h.saved⟩
  | key event =>
    rw [Machine.perform, handle_eq]
    exact ⟨h.state.congr rfl rfl rfl, h.saved⟩

end Sound

/-- After any sequence of operations on a new machine its state is sound, and so are the
    states it can be rewound to, of which there are no more than the limit.  In all of them
    nothing leaves its range. -/
theorem sound_after (random : RandomSource) (ops : List Operation) :
    let m := (Machine.new random).after ops
    (∀ s ∈ m.state :: m.history.saved, s.Sound ∧ s.InRange) ∧
      m.history.saved.length ≤ m.history.limit := by
  intro m
  have hsound : m.Sound := after_induction (fun _ op h => h.perform op) (.new random) ops
  refine ⟨fun s hs => ?_, m.history.length_saved_le⟩
  have h : s.Sound := by
    rcases List.mem_cons.1 hs with rfl | hs
    · exact hsound.state
    · exact hsound.saved s hs
  exact ⟨h, h.inRange⟩

/-- A program that has called a subroutine can go back one step, and both states are sound. -/
theorem sound_after_call :
    let m := (Machine.new (.counter 0 1)).after [.load [0x22, 0x04], .step, .key (.press 7)]
    m.state.pc = 0x204 ∧ m.state.stack.returns = [0x202] ∧ m.state.keys.pending = [7] ∧
      m.history.saved.length = 1 ∧ ∀ s ∈ m.state :: m.history.saved, s.Sound ∧ s.InRange := by
  intro m
  have hrun : m.state.pc = 0x204 ∧ m.state.stack.returns = [0x202] ∧
      m.state.keys.pending = [7] ∧ m.history.saved.length = 1 := by decide +kernel
  exact ⟨hrun.1, hrun.2.1, hrun.2.2.1, hrun.2.2.2, (sound_after _ _).1⟩

end Machine

end Chip8
