import Chip8.Proofs.Footprint

/-!
# Registers through memory

The first registers can be stored at `I` and read back later, all of them or fewer of
them, and a byte that is stored as decimal digits can be read back as three registers.
Both go the same way: a store is a write of some bytes at `I`, a read is a slice of memory
at `I`, and a slice of what was written is the first of its bytes.

## Key results

- `Memory.slice_of_write`, `Memory.slice_take`: what was written is read back, all of it or
  less
- `execute_read_of_slice`: what a read does if it is known what lies at `I`
- `decimalDigits_spec`: the digits of a byte
- `Effect.StoresTo`, `Effect.ReadsTo`: what a store and a read may change
- `registers_through_memory`: stored registers and digits are read back, whatever the
  registers hold in between, and nothing else is touched
-/

namespace Chip8

/-! ## Slices of what was written -/

namespace Memory

/-- Something is written if it lies above the font and within memory. -/
theorem exists_write_iff (m : Memory) (address : Nat) {data : List UInt8} (hne : data ≠ []) :
    (∃ m', m.write address data = .ok m') ↔
      0x50 ≤ address ∧ address + data.length ≤ 4096 := by
  constructor
  · rintro ⟨m', h⟩
    obtain ⟨hle, habove, -⟩ := write_eq_ok_iff.1 h
    exact ⟨habove hne, hle⟩
  · rintro ⟨habove, hle⟩
    exact ⟨_, write_eq_ok_iff.2 ⟨hle, fun _ => habove, rfl⟩⟩

/-- What was written is read back. -/
theorem slice_of_write {m m' : Memory} {address : Nat} {data : List UInt8}
    (h : m.write address data = .ok m') : m'.slice address data.length = .ok data := by
  obtain ⟨hle, -, rfl⟩ := write_eq_ok_iff.1 h
  exact slice_eq_ok_iff.2 ⟨hle, Vector.window_overwrite _ _ _ hle⟩

/-- A shorter slice has the first of the bytes. -/
theorem slice_take {m : Memory} {address length k : Nat} {data : List UInt8}
    (h : m.slice address length = .ok data) (hk : k ≤ length) :
    m.slice address k = .ok (data.take k) := by
  obtain ⟨hle, rfl⟩ := slice_eq_ok_iff.1 h
  refine slice_eq_ok_iff.2 ⟨by omega, ?_⟩
  -- Both sides have the bytes of memory from the address on.
  apply List.ext_getElem
  · simp [hk]
  · intro j _ _
    simp [Vector.window]

end Memory

/-! ## Storing and reading -/

/-- An effect stores to the bytes from `I` to `I + last`: it succeeds, and it changes none of
    the other bytes and nothing besides memory, `I` included. -/
structure Effect.StoresTo (e : Effect) (s : State) (r : RandomSource) (last : Nat) : Prop where
  eq : e = ⟨.ok .advance, { s with memory := e.state.memory }, r⟩
  bytes : ∀ (a : Nat) (ha : a < 4096), a < s.i.toNat ∨ s.i.toNat + last < a →
    e.state.memory.bytes[a] = s.memory.bytes[a]

/-- An effect reads the registers up to one of them: it succeeds, and it changes none of the
    registers above and nothing besides the registers, memory and `I` included. -/
structure Effect.ReadsTo (e : Effect) (t : State) (r : RandomSource) (last : Register) : Prop where
  eq : e = ⟨.ok .advance, { t with v := e.state.v }, r⟩
  registers : ∀ z, last < z → e.state.reg z = t.reg z

/-- What an operation does that writes at `I`: registers are stored this way, and so are the
    digits of one. -/
private def writeAtI (data : List UInt8) (s : State) (r : RandomSource) : Effect :=
  .undrawn r (attempt s (s.memory.write s.i.toNat data) fun memory =>
    (.advance, { s with memory }))

private theorem exists_writeAtI_iff {data : List UInt8} {last : Nat}
    (hlength : data.length = last + 1) (s : State) (r : RandomSource) :
    (∃ next, (writeAtI data s r).outcome = .ok next) ↔
      0x50 ≤ s.i.toNat ∧ s.i.toNat + last ≤ 0xFFF := by
  have hne : data ≠ [] := List.ne_nil_of_length_eq_add_one hlength
  have hwrite := s.memory.exists_write_iff s.i.toNat hne
  rw [hlength] at hwrite
  constructor
  · -- A write that has succeeded had room.
    rintro ⟨next, hout⟩
    obtain ⟨memory, h, -⟩ := attempt_fst_eq_ok_iff.1 hout
    have := hwrite.1 ⟨memory, h⟩
    omega
  · -- If there is room, the write has a result and nothing else can fail.
    intro h
    obtain ⟨memory, h⟩ := hwrite.2 (by omega)
    exact ⟨.advance, attempt_fst_eq_ok_iff.2 ⟨memory, h, rfl⟩⟩

/-- What was written at `I` is there. -/
private theorem writeAtI_of_ok {data : List UInt8} {last : Nat} {s : State} {r : RandomSource}
    {next : Next} (hlength : data.length = last + 1)
    (h : (writeAtI data s r).outcome = .ok next) :
    (writeAtI data s r).StoresTo s r last ∧
      (writeAtI data s r).state.memory.slice s.i.toNat data.length = .ok data := by
  obtain ⟨memory, hwrite, -⟩ := attempt_fst_eq_ok_iff.1 h
  have heq : writeAtI data s r = ⟨.ok .advance, { s with memory }, r⟩ := by
    simp only [writeAtI, hwrite, attempt, Effect.undrawn]
  rw [heq]
  refine ⟨⟨rfl, fun a ha hbeside => ?_⟩, Memory.slice_of_write hwrite⟩
  exact Memory.bytes_of_write hwrite ha (by omega)

/-- A read takes as many of the bytes at `I` as it has registers for. -/
theorem execute_read_of_slice {memory : Memory} {i : UInt16} {data : List UInt8}
    (h : memory.slice i.toNat data.length = .ok data) {t : State} (hmemory : t.memory = memory)
    (hi : t.i = i) {y : Register} (hy : y.val < data.length) (r : RandomSource) :
    (execute (.single .read y) t r).ReadsTo t r y ∧
      ∀ z ≤ y, data[z.val]? = some ((execute (.single .read y) t r).state.reg z) := by
  subst hmemory hi
  have hslice := Memory.slice_take h (Nat.succ_le_of_lt hy)
  have hlength : (data.take (y.val + 1)).length = y.val + 1 := by
    rw [List.length_take]
    omega
  have heq : execute (.single .read y) t r =
      ⟨.ok .advance, { t with v := t.v.overwrite 0 (data.take (y.val + 1)) }, r⟩ := by
    simp only [execute, SingleOp.execute, hslice, attempt, Effect.undrawn]
  rw [heq]
  refine ⟨⟨rfl, fun z hz => ?_⟩, fun z hz => ?_⟩
  · -- The registers above are not overwritten.
    have hlt : y.val < z.val := hz
    rw [State.reg, Fin.getElem_fin, Vector.getElem_overwrite, dif_neg (by omega)]
    rfl
  · -- The registers up to the last one hold the bytes at their place.
    have hle : z.val ≤ y.val := hz
    rw [State.reg, Fin.getElem_fin, Vector.getElem_overwrite, dif_pos (by omega),
      List.getElem_take]
    exact List.getElem?_eq_getElem (by omega)

/-- From a later state with the memory that a write at `I` has left, and with that `I`, what was
    written is read back. -/
private theorem read_of_writeAtI {data : List UInt8} {last : Nat} {s : State} {r : RandomSource}
    {next : Next} (hlength : data.length = last + 1)
    (h : (writeAtI data s r).outcome = .ok next) {t : State}
    (hmemory : t.memory = (writeAtI data s r).state.memory) (hi : t.i = s.i) {y : Register}
    (hy : y.val ≤ last) (r' : RandomSource) :
    (execute (.single .read y) t r').ReadsTo t r' y ∧
      ∀ z ≤ y, data[z.val]? = some ((execute (.single .read y) t r').state.reg z) :=
  execute_read_of_slice (writeAtI_of_ok hlength h).2 hmemory hi (by omega) r'

/-! ## What is stored -/

private theorem getElem?_take_registers (s : State) {x z : Register} (h : z ≤ x) :
    (s.v.toList.take (x.val + 1))[z.val]? = some (s.reg z) := by
  rw [List.getElem?_take_of_lt (Nat.lt_succ_of_le h), Vector.getElem?_toList,
    Vector.getElem?_eq_getElem z.isLt]
  rfl

/-- The digits of a byte are digits, and they are those of its value. -/
theorem decimalDigits_spec (value : UInt8) :
    ∃ hundreds tens ones, decimalDigits value = [hundreds, tens, ones] ∧
      hundreds.toNat ≤ 9 ∧ tens.toNat ≤ 9 ∧ ones.toNat ≤ 9 ∧
      100 * hundreds.toNat + 10 * tens.toNat + ones.toNat = value.toNat := by
  have hlt := value.toNat_lt
  refine ⟨value / 100, value / 10 % 10, value % 10, rfl, ?_⟩
  simp only [UInt8.toNat_div, UInt8.toNat_mod, UInt8.reduceToNat]
  omega

/-! ## There and back -/

/-- Registers go through memory as they are.  A store succeeds exactly if there is room for it
    above the font, up to and including the last address, and it changes the bytes from `I` to
    `I + x` at most.  From any later state with that memory and that `I`, and with any
    registers, a read of no more registers than were stored gives them what was stored.  The
    same goes for a register in decimal: the three bytes are read back as the digits of its
    value. -/
theorem registers_through_memory (s : State) (x : Register) (r : RandomSource) :
    let store := execute (.single .store x) s r
    let digits := execute (.single .bcd x) s r
    let read (y : Register) (t : State) (r' : RandomSource) := execute (.single .read y) t r'
    ((∃ next, store.outcome = .ok next) ↔ 0x50 ≤ s.i.toNat ∧ s.i.toNat + x.val ≤ 0xFFF) ∧
    (∀ next, store.outcome = .ok next →
      store.StoresTo s r x.val ∧
      ∀ (t : State) (y : Register) (r' : RandomSource),
        t.memory = store.state.memory → t.i = s.i → y ≤ x →
          (read y t r').ReadsTo t r' y ∧ ∀ z ≤ y, (read y t r').state.reg z = s.reg z) ∧
    ((∃ next, digits.outcome = .ok next) ↔ 0x50 ≤ s.i.toNat ∧ s.i.toNat + 2 ≤ 0xFFF) ∧
    ∀ next, digits.outcome = .ok next →
      digits.StoresTo s r 2 ∧
      ∀ (t : State) (r' : RandomSource), t.memory = digits.state.memory → t.i = s.i →
        let v := (read 2 t r').state.reg
        (read 2 t r').ReadsTo t r' 2 ∧
        (v 0).toNat ≤ 9 ∧ (v 1).toNat ≤ 9 ∧ (v 2).toNat ≤ 9 ∧
        100 * (v 0).toNat + 10 * (v 1).toNat + (v 2).toNat = (s.reg x).toNat := by
  intro store digits read
  have hregisters := RegisterFile.length_take_succ s.v x
  have hdigits : (decimalDigits (s.reg x)).length = 2 + 1 := rfl
  refine ⟨exists_writeAtI_iff hregisters s r, ?_, exists_writeAtI_iff hdigits s r, ?_⟩
  · intro next hout
    refine ⟨(writeAtI_of_ok hregisters hout).1, fun t y r' hmemory hi hy => ?_⟩
    obtain ⟨hreads, hbytes⟩ := read_of_writeAtI hregisters hout hmemory hi hy r'
    refine ⟨hreads, fun z hz => ?_⟩
    -- The byte that the register gets is the one that was stored for it.
    have hstored := getElem?_take_registers s (Fin.le_trans hz hy)
    exact Option.some.inj ((hbytes z hz).symm.trans hstored)
  · intro next hout
    refine ⟨(writeAtI_of_ok hdigits hout).1, fun t r' hmemory hi => ?_⟩
    have hle : (2 : Register).val ≤ 2 := Nat.le_refl 2
    obtain ⟨hreads, hbytes⟩ := read_of_writeAtI hdigits hout hmemory hi hle r'
    obtain ⟨hundreds, tens, ones, heq, hvalue⟩ := decimalDigits_spec (s.reg x)
    rw [heq] at hbytes
    intro v
    -- Digit by digit, what was stored is what is read.
    have h0 : hundreds = v 0 := Option.some.inj (hbytes 0 (by decide))
    have h1 : tens = v 1 := Option.some.inj (hbytes 1 (by decide))
    have h2 : ones = v 2 := Option.some.inj (hbytes 2 (by decide))
    rw [h0, h1, h2] at hvalue
    exact ⟨hreads, hvalue⟩

/-- Three registers are stored up to the last address and two of them are read back by a state
    that has nothing else in common with the first, and a byte is stored in decimal right above
    the font. -/
theorem registers_through_memory_at_both_ends :
    let r := RandomSource.counter 0 1
    let s := { State.initial with i := 0xFFD, v := Vector.ofFn fun x => UInt8.ofNat (x.val + 1) }
    let store := execute (.single .store 2) s r
    let t := { State.initial with i := 0xFFD, memory := store.state.memory }
    let s' := { State.initial with i := 0x50, v := Vector.replicate 16 254 }
    let digits := execute (.single .bcd 7) s' r
    store.outcome = .ok .advance ∧ (execute (.single .read 1) t r).ReadsTo t r 1 ∧
      (execute (.single .read 1) t r).state.reg 1 = 2 ∧ digits.outcome = .ok .advance ∧
      let v := (execute (.single .read 2) digits.state r).state.reg
      100 * (v 0).toNat + 10 * (v 1).toNat + (v 2).toNat = 254 := by
  intro r s store t s' digits
  have hstore : store.outcome = .ok .advance := by decide +kernel
  have hdigits : digits.outcome = .ok .advance := by decide +kernel
  obtain ⟨-, hback⟩ := (registers_through_memory s 2 r).2.1 .advance hstore
  obtain ⟨hreads, hregs⟩ := hback t 1 r rfl rfl (by decide)
  obtain ⟨hstores, hback'⟩ := (registers_through_memory s' 7 r).2.2.2 .advance hdigits
  have hi : digits.state.i = s'.i := congrArg (·.state.i) hstores.eq
  obtain ⟨-, -, -, -, hsum⟩ := hback' digits.state r rfl hi
  exact ⟨hstore, hreads, hregs 1 (by decide), hdigits, hsum⟩

end Chip8
