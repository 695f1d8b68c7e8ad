import Chip8.Machine
import Chip8.Proofs.EqualPieces
import Chip8.Proofs.InstructionCode
import Chip8.Proofs.LabelAddress
import Chip8.Proofs.StatementForm

/-!
# Assembled programs in memory

A program that was assembled fits into memory.  Once it is loaded, the word at two bytes
for each statement before it is an instruction that says what the statement says, unless
the statement gives the word as a number.

## Key results

- `exists_words_of_emit`: the bytes of a program are those of one word a statement
- `pair_of_load`: the words of a loaded program are found two bytes apart
- `says_of_wordOf`: the word of a statement is an instruction that says the same
- `exists_words_of_assemble`: a program is made of the words of its statements
- `load_of_assemble`: an assembled program says in memory what its source says
-/

namespace Chip8

/-! ## Words in memory -/

private theorem Word.length_toBytes (w : Word) : w.toBytes.length = 2 := rfl

theorem Word.getElem?_flatMap_toBytes (words : List Word) (k : Nat) :
    (words.flatMap Word.toBytes)[2 * k]? = words[k]?.map Word.high ∧
      (words.flatMap Word.toBytes)[2 * k + 1]? = words[k]?.map Word.kk := by
  have hhigh := List.getElem?_flatMap_of_length Word.length_toBytes words k Nat.zero_lt_two
  have hlow := List.getElem?_flatMap_of_length Word.length_toBytes words k Nat.one_lt_two
  rw [Option.map_eq_bind, Option.map_eq_bind]
  exact ⟨hhigh, hlow⟩

theorem Word.length_flatMap_toBytes (words : List Word) :
    (words.flatMap Word.toBytes).length = 2 * words.length :=
  List.length_flatMap_of_length Word.length_toBytes words

/-- Words can be loaded as long as there is room for them. -/
theorem Memory.exists_load (m : Memory) {words : List Word}
    (h : 2 * words.length ≤ programCapacity) :
    ∃ m', m.load (words.flatMap Word.toBytes) = .ok m' := by
  rw [load, Word.length_flatMap_toBytes, if_pos h]
  exact ⟨_, rfl⟩

/-- A new machine takes over the memory that a program was loaded into. -/
theorem Machine.load_new (random : RandomSource) {image : List UInt8} {memory : Memory}
    (h : Memory.initial.load image = .ok memory) :
    (Machine.new random).load image =
      (.ok (), { new random with state := { State.initial with memory }, loaded := true }) := by
  have hinitial : (Machine.new random).state.memory = Memory.initial := rfl
  have hfresh : (Machine.new random).loaded = false := rfl
  simp only [load, hfresh, hinitial, h, Bool.false_eq_true, if_false]
  rfl

/-- From the program base on a loaded image is found, and behind it what was there before. -/
theorem Memory.getElem_of_load {m m' : Memory} {image : List UInt8} (h : m.load image = .ok m')
    {k : Nat} (hk : 0x200 + k < 4096) :
    m'.bytes[0x200 + k] = image[k]?.getD m.bytes[0x200 + k] := by
  have hbase : programBase.toNat = 0x200 := rfl
  have hoffset : 0x200 + k - 0x200 = k := by omega
  obtain ⟨-, rfl⟩ := load_eq_ok_iff.1 h
  simp only [hbase]
  rw [Vector.getElem_overwrite]
  by_cases hlt : k < image.length
  · rw [dif_pos ⟨by omega, by omega⟩, List.getElem?_eq_getElem hlt, Option.getD_some]
    simp only [hoffset]
  · rw [dif_neg (by omega), List.getElem?_eq_none (by omega), Option.getD_none]

/-- The words of a loaded program are found two bytes apart. -/
theorem Memory.pair_of_load {m m' : Memory} {words : List Word} {k : Nat} {w : Word}
    (h : m.load (words.flatMap Word.toBytes) = .ok m') (hk : words[k]? = some w) :
    m'.pair (programBase.toNat + 2 * k) = .ok (w.high, w.kk) := by
  obtain ⟨hhigh, hlow⟩ := Word.getElem?_flatMap_toBytes words k
  have hroom := (load_eq_ok_iff.1 h).1
  have hlt : k < words.length := (List.getElem?_eq_some_iff.1 hk).1
  have hcapacity : programCapacity = 3584 := rfl
  rw [Word.length_flatMap_toBytes, hcapacity] at hroom
  have hbytes := getElem_of_load h (k := 2 * k) (by omega)
  have hnext := getElem_of_load h (k := 2 * k + 1) (by omega)
  rw [hhigh, hk, Option.map_some, Option.getD_some] at hbytes
  rw [hlow, hk, Option.map_some, Option.getD_some] at hnext
  show m'.pair (0x200 + 2 * k) = _
  rw [pair, dif_pos (by omega), hbytes]
  exact congrArg (fun low => Except.ok (_, low)) hnext

end Chip8

namespace Chip8.Assembly

open Text

/-! ## Words of a program -/

/-- Statements with a body are kept, and others are dropped. -/
theorem filter_isCode_cons (line : Nat) (s : Statement) (rest : List (Nat × Statement)) :
    ((line, s) :: rest).filter (fun p => p.2.isCode) =
      if s.isCode then (line, s) :: rest.filter (fun p => p.2.isCode)
      else rest.filter fun p => p.2.isCode :=
  List.filter_cons

/-- The bytes of a program are those of one word for each statement with a body. -/
theorem exists_words_of_emit {labels : Labels} {size : Nat} {statements : List (Nat × Statement)}
    {image : List UInt8} (hsize : size ≤ Memory.programCapacity)
    (h : emit labels size statements = .ok image) :
    ∃ words : List Word,
      List.Forall₂ (fun p w => wordOf labels p.1 p.2.body = .ok w)
          (statements.filter fun p => p.2.isCode) words ∧
        image = words.flatMap Word.toBytes ∧
        size + 2 * words.length ≤ Memory.programCapacity := by
  induction statements generalizing size image with
  | nil =>
    cases h
    exact ⟨[], .nil, rfl, hsize⟩
  | cons head rest ih =>
    obtain ⟨line, s⟩ := head
    unfold emit at h
    by_cases hcode : s.isCode = true
    · rw [if_pos hcode] at h
      -- Its own word comes first, then the words of the rest.
      obtain ⟨w, hword, h⟩ := Except.bind_eq_ok_iff.1 h
      split at h
      · rename_i hroom
        obtain ⟨bytes, hrest, hbytes⟩ := Except.bind_eq_ok_iff.1 h
        cases hbytes
        obtain ⟨words, hwords, rfl, hfits⟩ := ih hroom hrest
        refine ⟨w :: words, ?_, rfl, ?_⟩
        · rw [filter_isCode_cons, if_pos hcode]
          exact .cons hword hwords
        · rw [List.length_cons]
          omega
      · exact nomatch h
    · rw [if_neg hcode] at h
      obtain ⟨words, hwords, himage, hfits⟩ := ih hsize h
      refine ⟨words, ?_, himage, hfits⟩
      -- A statement without a body stands for no word.
      rw [filter_isCode_cons, if_neg hcode]
      exact hwords

/-! ## What a statement says -/

namespace Statement

/-- The mnemonic of a statement, in upper case. -/
def name (s : Statement) : String := String.ofList (upper (firstWord s.body))

/-- An instruction has the mnemonic of a statement, and its text has the operands of the
    statement, with each label replaced by its address and up to the second operand `V0`
    of a shift. -/
def Says (s : Statement) (address? : String → Option Nat) (i : Instruction) : Prop :=
  i.mnemonic.text = s.name ∧
    ∃ operands located : List Operand,
      Template.operandsOf (afterFirstWord s.body) = .ok operands ∧
        operands.mapM (Operand.located? address?) = some located ∧
        Template.operandsOf (afterFirstWord i.text.toList) =
          .ok (normalOperands i.mnemonic located)

end Statement

/-- The word of a statement is an instruction that says what the statement says. -/
theorem says_of_wordOf {labels : Labels} {line : Nat} {s : Statement} {w : Word}
    (hdw : s.name ≠ Mnemonic.dw.text) (h : wordOf labels line s.body = .ok w) :
    ∃ i, Instruction.decode? w = some i ∧
      s.Says (fun name => (labels.lookup name).map UInt16.toNat) i := by
  obtain ⟨t, hbody, hword⟩ := wordOf_eq_ok_iff.1 h
  obtain ⟨m, operands, hname, hoperands, hform⟩ := Template.ofBody_eq_ok_iff.1 hbody
  -- The mnemonic is the statement's name, which is not that of a raw word.
  have hm : m ≠ .dw := by
    rintro rfl
    exact hdw hname.symm
  obtain ⟨i, hfits, hencode, rfl, located, hlocated, htext⟩ :=
    Template.exists_instruction_of_resolve hm hform hword
  refine ⟨i, Instruction.decode?_eq_some_iff.2 ⟨hfits, hencode⟩, hname, operands, located,
    hoperands, hlocated, ?_⟩
  rw [Instruction.operandsOf_text, htext]

/-! ## Programs -/

/-- The statements of a source text. -/
def statementsOf (source : String) : List Statement := (Statement.ofSource source).map Prod.snd

theorem filter_isCode_statementsOf (source : String) :
    (statementsOf source).filter Statement.isCode =
      ((Statement.ofSource source).filter fun p => p.2.isCode).map Prod.snd :=
  List.filter_map

/-- A program is made of one word for each statement with a body, and its labels stand for
    their addresses. -/
theorem exists_words_of_assemble {source : String} {image : List UInt8}
    (h : assemble source = .ok image) :
    ∃ (labels : Labels) (words : List Word),
      (∀ name, (labels.lookup name).map UInt16.toNat = labelAddress? (statementsOf source) name) ∧
        List.Forall₂ (fun s w => ∃ line, wordOf labels line s.body = .ok w)
          ((statementsOf source).filter Statement.isCode) words ∧
        image = words.flatMap Word.toBytes ∧ 2 * words.length ≤ Memory.programCapacity := by
  obtain ⟨labels, hlabels, hemit⟩ := Except.bind_eq_ok_iff.1 h
  obtain ⟨words, hwords, himage, hroom⟩ := exists_words_of_emit (Nat.zero_le _) hemit
  rw [Nat.zero_add] at hroom
  have hforall : List.Forall₂ (fun s w => ∃ line, wordOf labels line s.body = .ok w)
      ((statementsOf source).filter Statement.isCode) words := by
    rw [filter_isCode_statementsOf, List.forall₂_map_left_iff]
    exact hwords.imp fun p w hword => ⟨p.1, hword⟩
  -- There are no more statements than words, so no address of a label has wrapped.
  have hcount : 2 * (statementsOf source).countP Statement.isCode ≤ Memory.programCapacity := by
    rwa [List.countP_eq_length_filter, hforall.length_eq]
  exact ⟨labels, words, lookup_eq_labelAddress? hlabels hcount, hforall, himage, hroom⟩

/-- A program that was assembled can be loaded into a new machine.  There the word with the
    number `k` is an instruction that says what the statement with the number `k` says, of
    those that have a body, unless it is a raw word. -/
theorem load_of_assemble {source : String} {image : List UInt8} (random : RandomSource)
    (h : assemble source = .ok image) :
    ∃ m : Machine, (Machine.new random).load image = (.ok (), m) ∧
      ∀ (k : Nat) (s : Statement), ((statementsOf source).filter Statement.isCode)[k]? = some s →
        s.name ≠ Mnemonic.dw.text →
          ∃ (high low : UInt8) (i : Instruction),
            m.state.memory.pair (0x200 + 2 * k) = .ok (high, low) ∧
              Instruction.decode? (Word.ofBytes high low) = some i ∧
              s.Says (labelAddress? (statementsOf source)) i := by
  obtain ⟨labels, words, haddress, hwords, rfl, hroom⟩ := exists_words_of_assemble h
  obtain ⟨memory, hload⟩ := Memory.exists_load .initial hroom
  refine ⟨_, Machine.load_new random hload, fun k s hs hdw => ?_⟩
  obtain ⟨hk, rfl⟩ := List.getElem?_eq_some_iff.1 hs
  have hlt : k < words.length := hwords.length_eq ▸ hk
  obtain ⟨line, hword⟩ := hwords.get hk hlt
  obtain ⟨i, hdecode, hsays⟩ := says_of_wordOf hdw hword
  refine ⟨words[k].high, words[k].kk, i, ?_, ?_, ?_⟩
  · exact Memory.pair_of_load hload (List.getElem?_eq_getElem hlt)
  · rw [Word.ofBytes_high_kk]
    exact hdecode
  · rw [funext haddress] at hsays
    exact hsays

/-- The jump of a loop, behind a shift that is written with both registers. -/
theorem load_of_assemble_loop :
    ∃ m : Machine,
      (Machine.new (.counter 0 1)).load [0x81, 0x06, 0x12, 0x00] = (.ok (), m) ∧
        ∃ (high low : UInt8) (i : Instruction),
          m.state.memory.pair 0x202 = .ok (high, low) ∧
            Instruction.decode? (Word.ofBytes high low) = some i ∧
            Statement.Says { label := none, body := "JP loop".toList }
              (labelAddress? (statementsOf "loop: shr v1, V0\nJP loop")) i := by
  have h : assemble "loop: shr v1, V0\nJP loop" = .ok [0x81, 0x06, 0x12, 0x00] := by
    decide +kernel
  obtain ⟨m, hload, hsays⟩ := load_of_assemble (.counter 0 1) h
  exact ⟨m, hload, hsays 1 _ (by decide +kernel) (by decide +kernel)⟩

end Chip8.Assembly
