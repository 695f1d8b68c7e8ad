import Chip8.Proofs.AssemblyMeaning

/-!
# Programs as images

The image of a program is made of the words of its instructions, one behind the other.  A machine
that has loaded it finds every instruction at its place again, as far as its fields have room in a
word: of an address twelve bits are kept, of a sprite height four.  A sprite without a row in
these four bits cannot be told from a word that is no instruction.

## Key results

- `Instruction.encode_truncate`: a word keeps no more of an instruction than it has room for
- `Instruction.decode?_encode_eq`: what is read from the word of any instruction
- `Instruction.encode_inj`: instructions that fit have words of their own
- `State.fetch_of_pair`: what is fetched where the word of an instruction stands
- `Machine.fetch_loaded_program`: what is fetched from a program that was loaded
-/

namespace Chip8

namespace Instruction

/-! ## What a word keeps -/

/-- An instruction with as much of its fields as its word has room for. -/
def truncate : Instruction → Instruction
  | address op addr => address op (addr % 0x1000)
  | draw x y height => draw x y (height % 16)
  | i => i

/-- Whether the word of an instruction is that of a sprite without rows. -/
def isRowless : Instruction → Bool
  | draw _ _ height => height % 16 = 0
  | _ => false

@[simp] theorem encode_truncate (i : Instruction) : i.truncate.encode = i.encode := by
  cases i with
  | address op addr =>
    -- The word has the lowest twelve bits only, which the remainder has as well.
    have hkept : (addr % 0x1000).toNat % 4096 = addr.toNat % 4096 := by
      rw [UInt16.toNat_mod]
      exact Nat.mod_mod _ _
    simp only [truncate, encode, Word.ofAddress, hkept]
  | draw x y height =>
    have hkept : Fin.ofNat 16 (height % 16).toNat = Fin.ofNat 16 height.toNat := by
      rw [UInt8.toNat_mod]
      exact Fin.ext (Nat.mod_mod _ _)
    simp only [truncate, encode, hkept]
  | _ => rfl

/-- What is kept of an instruction fits, but for a sprite without rows. -/
theorem fits_truncate {i : Instruction} (h : i.isRowless = false) : i.truncate.Fits := by
  cases i with
  | address op addr =>
    show (addr % 0x1000).toNat < 4096
    rw [UInt16.toNat_mod]
    exact Nat.mod_lt _ (by decide)
  | draw x y height =>
    have hne : height % 16 ≠ 0 := of_decide_eq_false h
    have hpos : (height % 16).toNat ≠ 0 := fun h0 => hne (UInt8.toNat_inj.1 h0)
    have hlt : (height % 16).toNat < 16 := by
      rw [UInt8.toNat_mod]
      exact Nat.mod_lt _ (by decide)
    show 1 ≤ (height % 16).toNat ∧ (height % 16).toNat ≤ 15
    omega
  | _ => trivial

/-- An instruction that fits is kept as it is. -/
theorem truncate_of_fits {i : Instruction} (h : i.Fits) : i.truncate = i := by
  cases i with
  | address op addr =>
    have hlt : addr.toNat < 4096 := h
    have hkept : addr % 0x1000 = addr := by
      apply UInt16.toNat_inj.1
      rw [UInt16.toNat_mod]
      exact Nat.mod_eq_of_lt hlt
    rw [truncate, hkept]
  | draw x y height =>
    have hrows : 1 ≤ height.toNat ∧ height.toNat ≤ 15 := h
    have hkept : height % 16 = height := by
      apply UInt8.toNat_inj.1
      rw [UInt8.toNat_mod]
      exact Nat.mod_eq_of_lt (show height.toNat < 16 by omega)
    rw [truncate, hkept]
  | _ => rfl

theorem isRowless_of_fits {i : Instruction} (h : i.Fits) : i.isRowless = false := by
  cases i with
  | draw x y height =>
    have hrows : 1 ≤ height.toNat ∧ height.toNat ≤ 15 := h
    refine decide_eq_false fun h0 => ?_
    have hzero : height.toNat % 16 = 0 := by
      have := congrArg UInt8.toNat h0
      rwa [UInt8.toNat_mod] at this
    omega
  | _ => rfl

/-! ## What is read again -/

/-- The word of a sprite without rows is no instruction. -/
theorem decode?_of_isRowless {i : Instruction} (h : i.isRowless = true) :
    decode? i.encode = none := by
  cases i with
  | draw x y height =>
    have hrows : Fin.ofNat 16 height.toNat = 0 := by
      have := congrArg UInt8.toNat (of_decide_eq_true h)
      rw [UInt8.toNat_mod] at this
      exact Fin.ext this
    -- The word has the family of the sprites, so it is neither of the two whole words.
    have hfamily : (draw x y height).encode.family = 0xD := Word.family_ofNibbles _ _ _ _
    have hclear : (draw x y height).encode ≠ 0x00E0 := by
      intro hw
      rw [hw] at hfamily
      exact absurd hfamily (by decide)
    have hret : (draw x y height).encode ≠ 0x00EE := by
      intro hw
      rw [hw] at hfamily
      exact absurd hfamily (by decide)
    have hn : (draw x y height).encode.n = 0 := (Word.n_ofNibbles _ _ _ _).trans hrows
    rw [decode?, if_neg hclear, if_neg hret, if_pos hfamily, if_pos hn]
  | _ => exact nomatch h

/-- From the word of an instruction it is read what the word has kept, unless that is a sprite
    without rows. -/
theorem decode?_encode_eq (i : Instruction) :
    decode? i.encode = if i.isRowless then none else some i.truncate := by
  by_cases h : i.isRowless = true
  · rw [if_pos h, decode?_of_isRowless h]
  · -- Both have the same word, and the one that was cut to size can be read from it.
    rw [if_neg h, ← encode_truncate]
    exact decode?_encode (fits_truncate (Bool.eq_false_iff.2 h))

/-- Instructions that fit have words of their own. -/
theorem encode_inj {i j : Instruction} (hi : i.Fits) (hj : j.Fits) (h : i.encode = j.encode) :
    i = j := by
  have hread := decode?_encode hi
  rw [h, decode?_encode hj] at hread
  exact (Option.some.inj hread).symm

end Instruction

/-! ## What is fetched again -/

/-- What becomes of an instruction that is written as a word and fetched again. -/
def Instruction.refetched (i : Instruction) : Except Fault Instruction :=
  if i.isRowless then .error (.undecodable i.encode) else .ok i.truncate

theorem Instruction.refetched_of_fits {i : Instruction} (h : i.Fits) : i.refetched = .ok i := by
  rw [refetched, isRowless_of_fits h, truncate_of_fits h]
  rfl

theorem State.fetch_of_pair {s : State} {i : Instruction}
    (h : s.memory.pair s.pc.toNat = .ok (i.encode.high, i.encode.kk)) :
    s.fetch = i.refetched := by
  simp only [fetch, h, Word.ofBytes_high_kk, Instruction.decode?_encode_eq, Instruction.refetched]
  cases i.isRowless <;> rfl

/-- The words of a program, one behind the other. -/
def imageOf (program : List Instruction) : List UInt8 :=
  (program.map Instruction.encode).flatMap Word.toBytes

/-- What is fetched with the program counter at one word after the other from the program base
    on. -/
def State.fetchWords (s : State) (count : Nat) : List (Except Fault Instruction) :=
  (List.range count).map fun k =>
    State.fetch { s with pc := Memory.programBase + UInt16.ofNat (2 * k) }

namespace Machine

/-- Whatever state a loaded program has come to, its words are fetched for as long as memory holds
    them. -/
theorem fetchWords_of_load {memory : Memory} {program : List Instruction} {s : State}
    (h : Memory.initial.load (imageOf program) = .ok memory) (hs : s.memory = memory) :
    s.fetchWords program.length = program.map Instruction.refetched := by
  have hroom : 2 * program.length ≤ 3584 := by
    have hfit := (Memory.load_eq_ok_iff.1 h).1
    rwa [imageOf, Word.length_flatMap_toBytes, List.length_map] at hfit
  apply List.ext_getElem
  · simp [State.fetchWords]
  · intro k hk hk'
    have hlt : k < program.length := by simpa using hk'
    -- A loaded program ends with memory, so the counter does not wrap around.
    have haddress : (Memory.programBase + UInt16.ofNat (2 * k)).toNat =
        Memory.programBase.toNat + 2 * k := by
      rw [UInt16.toNat_add, UInt16.toNat_ofNat']
      show (0x200 + 2 * k % 65536) % 65536 = 0x200 + 2 * k
      omega
    have hpair := Memory.pair_of_load h (k := k) (w := program[k].encode)
      (by rw [List.getElem?_map, List.getElem?_eq_getElem hlt, Option.map_some])
    rw [← hs, ← haddress] at hpair
    simp only [State.fetchWords, List.getElem_map, List.getElem_range]
    exact State.fetch_of_pair hpair

/-- A program of at most 1792 instructions can be loaded into a new machine.  There its words are
    fetched as the instructions of the program, in order, if these fit.

    Of an instruction with an address of sixteen bits or a sprite height of eight, the word keeps
    the low twelve or four: it is fetched with these, unless they leave a sprite without rows,
    whose word is no instruction.  So two instructions that fit never have the same word. -/
theorem fetch_loaded_program (random : RandomSource) {program : List Instruction}
    (hlength : program.length ≤ 1792) :
    ∃ m : Machine, (Machine.new random).load (imageOf program) = (.ok (), m) ∧
      ((∀ i ∈ program, i.Fits) → m.state.fetchWords program.length = program.map .ok) ∧
      m.state.fetchWords program.length =
        program.map (fun i =>
          if i.isRowless then .error (.undecodable i.encode) else .ok i.truncate) ∧
      (∀ i : Instruction,
        Instruction.decode? i.encode = if i.isRowless then none else some i.truncate) ∧
      ∀ i j : Instruction, i.Fits → j.Fits → i.encode = j.encode → i = j := by
  have hroom : 2 * (program.map Instruction.encode).length ≤ Memory.programCapacity := by
    rw [List.length_map]
    show _ ≤ 3584
    omega
  obtain ⟨memory, hload⟩ := Memory.exists_load .initial hroom
  have hwords := fetchWords_of_load (s := { State.initial with memory }) hload rfl
  refine ⟨_, load_new random hload, fun hfits => ?_, hwords, Instruction.decode?_encode_eq,
    fun _ _ => Instruction.encode_inj⟩
  exact hwords.trans (List.map_congr_left fun i hi => Instruction.refetched_of_fits (hfits i hi))

/-- A call and a sprite come back as they were.  Of a jump that is too far the high bits are lost,
    and a sprite of 32 rows has none left. -/
theorem fetch_loaded_sprites :
    ∃ m : Machine,
      (Machine.new (.counter 0 1)).load
          (imageOf [.address .call 0x204, .draw 3 5 15, .address .jump 0xF206, .draw 0 1 32]) =
        (.ok (), m) ∧
      m.state.fetchWords 4 =
        [.ok (.address .call 0x204), .ok (.draw 3 5 15), .ok (.address .jump 0x206),
          .error (.undecodable 0xD010)] := by
  have hlength : [Instruction.address .call 0x204, .draw 3 5 15, .address .jump 0xF206,
      .draw 0 1 32].length ≤ 1792 := by decide
  obtain ⟨m, hload, -, hwords, -⟩ := fetch_loaded_program (.counter 0 1) hlength
  exact ⟨m, hload, hwords.trans (by decide)⟩

end Machine

end Chip8
