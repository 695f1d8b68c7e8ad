import Chip8.Assembly.Listing
import Chip8.Command.Disassemble
import Chip8.Proofs.InstructionCode
import Chip8.Proofs.StatementForm

/-!
# Listings assemble to their image

A listing shows every word of an image as a statement, as an instruction where the word
is one and as a raw word elsewhere.  Assembling the statements gives the words back, one
a line, until the program is full.

## Key results

- `wordOf_statementOf`: the statement of a word is assembled to the word
- `getElem?_rowsOf`, `getElem?_wordsOf`: what stands in a row of a listing
- `assemble_statements`: the statements of words are assembled to the words
- `assemble_listing`: a listing has the rows of its image and assembles to it
-/

namespace Chip8.Assembly

open Text

/-! ## Rows of a listing -/

/-- The word with the number `n` of an image; bytes that are missing count as zero. -/
theorem getElem?_wordsOf (image : List UInt8) (n : Nat) :
    (wordsOf image)[n]? =
      if n < (image.length + 1) / 2 then
        some (Word.ofBytes (image.getD (2 * n) 0) (image.getD (2 * n + 1) 0))
      else none := by
  induction image using wordsOf.induct generalizing n with
  | case1 => simp [wordsOf]
  | case2 high =>
    cases n with
    | zero => simp [wordsOf]
    | succ n => simp [wordsOf]
  | case3 high low rest ih =>
    cases n with
    | zero => simp [wordsOf]
    | succ n =>
      have hlength : n + 1 < ((high :: low :: rest).length + 1) / 2 ↔ n < (rest.length + 1) / 2 := by
        simp only [List.length_cons]
        omega
      rw [wordsOf, List.getElem?_cons_succ, ih]
      simp only [hlength]
      rfl

/-- The row with the number `n` of a listing. -/
theorem getElem?_rowsOf (address : UInt16) (words : List Word) (n : Nat) :
    (rowsOf address words)[n]? =
      words[n]?.map fun word =>
        { address := UInt16.ofNat (address.toNat + 2 * n), word, text := statementOf word } := by
  induction words generalizing address n with
  | nil => rfl
  | cons word rest ih =>
    cases n with
    | zero => simp [rowsOf]
    | succ n =>
      -- Addresses wrap in the same way whether they move by one word or by all at once.
      have haddress : UInt16.ofNat ((address + 2).toNat + 2 * n) =
          UInt16.ofNat (address.toNat + 2 * (n + 1)) := by
        apply UInt16.toNat_inj.1
        simp only [UInt16.toNat_ofNat', UInt16.toNat_add]
        show ((address.toNat + 2) % 65536 + 2 * n) % 65536 = _
        omega
      rw [rowsOf, List.getElem?_cons_succ, List.getElem?_cons_succ, ih, haddress]

theorem map_text_rowsOf (address : UInt16) (words : List Word) :
    (rowsOf address words).map Row.text = words.map statementOf := by
  induction words generalizing address with
  | nil => rfl
  | cons word rest ih => simp only [rowsOf, List.map_cons, ih]

/-- An image with a zero byte behind it if its length is odd. -/
def padded (image : List UInt8) : List UInt8 := image ++ List.replicate (image.length % 2) 0

theorem flatMap_toBytes_wordsOf (image : List UInt8) :
    (wordsOf image).flatMap Word.toBytes = padded image := by
  induction image using wordsOf.induct with
  | case1 => rfl
  | case2 high => simp [wordsOf, Word.toBytes, padded]
  | case3 high low rest ih =>
    have hlength : (high :: low :: rest).length % 2 = rest.length % 2 := by
      simp only [List.length_cons]
      omega
    simp only [wordsOf, List.flatMap_cons, ih, Word.toBytes, Word.high_ofBytes, Word.kk_ofBytes,
      padded, hlength, List.cons_append, List.nil_append]

theorem length_padded (image : List UInt8) :
    (padded image).length = 2 * (wordsOf image).length := by
  rw [padded, List.length_append, List.length_replicate, length_wordsOf]
  omega

/-! ## Statements of words -/

/-- The statement of a word is written in the way of all statements. -/
private theorem exists_statementText (word : Word) :
    ∃ (m : Mnemonic) (operands : List String),
      statementOf word = Instruction.statementText m.text operands ∧
        (∀ operand ∈ operands, IsToken operand.toList) ∧
        ∀ labels line, wordOf labels line (Instruction.statementText m.text operands).toList =
          .ok word := by
  unfold statementOf
  cases hdecode : Instruction.decode? word with
  | none =>
    -- What is no instruction is given as a number.
    refine ⟨.dw, [Instruction.literalText 4 word.toNat], ?_, ?_, fun labels line => ?_⟩
    · rw [← String.toList_inj]
      simp [Instruction.statementText, Instruction.literalText]
    · intro operand hmem
      rw [List.mem_singleton.1 hmem]
      exact isToken_literal 4 word.toNat
    · exact wordOf_raw labels line 4 word
  | some i =>
    -- What is decoded fits, so nothing is lost when it is encoded again.
    obtain ⟨hfits, hencode⟩ := Instruction.decode?_eq_some_iff.1 hdecode
    refine ⟨i.mnemonic, i.operandTexts, rfl, i.isToken_of_mem_operandTexts, fun labels line => ?_⟩
    rw [← hencode]
    exact wordOf_text labels line hfits

/-- The statement of a word is assembled to the word. -/
theorem wordOf_statementOf (labels : Labels) (line : Nat) (word : Word) :
    wordOf labels line (statementOf word).toList = .ok word := by
  obtain ⟨m, operands, htext, -, hword⟩ := exists_statementText word
  rw [htext]
  exact hword labels line

theorem ofLine_statementOf (word : Word) :
    Statement.ofLine (statementOf word).toList =
      { label := none, body := (statementOf word).toList } := by
  obtain ⟨m, operands, htext, htokens, -⟩ := exists_statementText word
  rw [htext]
  exact ofLine_statementText m htokens

theorem not_mem_statementOf (word : Word) : '\n' ∉ (statementOf word).toList := by
  obtain ⟨m, operands, htext, htokens, -⟩ := exists_statementText word
  rw [htext]
  exact (not_mem_statementText m htokens).2.2

/-- A statement is not empty, because a mnemonic is its first word. -/
theorem statementOf_ne_nil (word : Word) : (statementOf word).toList ≠ [] := by
  obtain ⟨m, operands, htext, -, -⟩ := exists_statementText word
  intro hnil
  have hfirst := firstWord_statementText m operands
  rw [← htext, hnil] at hfirst
  exact (isToken_mnemonic m).ne_nil hfirst.symm

/-! ## Assembling them -/

/-- The statements of words, on lines that follow on `row` others. -/
private def statementsFrom (row : Nat) (words : List Word) : List (Nat × Statement) :=
  ((words.map fun word => (statementOf word).toList).zipIdx row).map fun (line, row) =>
    (row + 1, Statement.ofLine line)

private theorem statementsFrom_cons (row : Nat) (word : Word) (words : List Word) :
    statementsFrom row (word :: words) =
      (row + 1, { label := none, body := (statementOf word).toList }) ::
        statementsFrom (row + 1) words := by
  simp only [statementsFrom, List.map_cons, List.zipIdx_cons, ofLine_statementOf]

private theorem collectLabels_statementsFrom (labels : Labels) (address : UInt16) (row : Nat)
    (words : List Word) : collectLabels labels address (statementsFrom row words) = .ok labels := by
  induction words generalizing address row with
  | nil => rfl
  | cons word words ih =>
    rw [statementsFrom_cons]
    exact ih _ _

/-- The statements of words take two bytes each, and the one that has no room left stands
    behind 1792 others. -/
private theorem emit_statementsFrom (labels : Labels) (words : List Word) {row : Nat}
    (h : row ≤ 1792) :
    emit labels (2 * row) (statementsFrom row words) =
      if row + words.length ≤ 1792 then .ok (words.flatMap Word.toBytes)
      else .error ⟨1793, .programTooLarge 3586 3584⟩ := by
  have hcapacity : Memory.programCapacity = 3584 := rfl
  induction words generalizing row with
  | nil => exact (if_pos h).symm
  | cons word words ih =>
    have hcode : (Statement.mk none (statementOf word).toList).isCode = true := by
      rw [Statement.isCode, List.isEmpty_eq_false_iff.2 (statementOf_ne_nil word), Bool.not_false]
    rw [statementsFrom_cons, emit, if_pos hcode, wordOf_statementOf, hcapacity, List.length_cons]
    -- This statement has room, or it is the one with the number 1793.
    by_cases hroom : row + 1 ≤ 1792
    · have hrest := ih hroom
      rw [Nat.mul_succ] at hrest
      simp only [bind, Except.bind, if_pos (show 2 * row + 2 ≤ 3584 by omega), hrest]
      by_cases hfits : row + 1 + words.length ≤ 1792
      · rw [if_pos hfits, if_pos (by omega)]
        rfl
      · rw [if_neg hfits, if_neg (by omega)]
    · have hrow : row = 1792 := by omega
      subst hrow
      rw [if_neg (by omega : ¬1792 + (words.length + 1) ≤ 1792)]
      rfl

/-- A source text whose lines are the statements of words is assembled to the words. -/
theorem assemble_statements {source : String} {words : List Word}
    (h : lines source.toList = words.map fun word => (statementOf word).toList) :
    assemble source =
      if 2 * words.length ≤ 3584 then .ok (words.flatMap Word.toBytes)
      else .error ⟨1793, .programTooLarge 3586 3584⟩ := by
  have hstatements : Statement.ofSource source = statementsFrom 0 words := by
    rw [Statement.ofSource, h]
    rfl
  have hemit := emit_statementsFrom [] words (Nat.zero_le 1792)
  simp only [assemble, hstatements, collectLabels_statementsFrom, bind, Except.bind]
  rw [show (0 : Nat) = 2 * 0 from rfl, hemit, Nat.zero_add]
  by_cases hfits : words.length ≤ 1792
  · rw [if_pos hfits, if_pos (by omega)]
  · rw [if_neg hfits, if_neg (by omega)]

/-- Whether the rows of a listing are joined by newlines or each ended by one, the lines
    of the text are the statements of the words. -/
private theorem lines_listing (image : List UInt8) (base : UInt16) :
    lines ("\n".intercalate ((listing image base).map Row.text)).toList =
        ((wordsOf image).map fun word => (statementOf word).toList) ∧
      lines (Command.linesText ((listing image base).map Row.text)).toList =
        ((wordsOf image).map fun word => (statementOf word).toList) := by
  have hnewline : ∀ text ∈ (wordsOf image).map fun word => (statementOf word).toList,
      '\n' ∉ text := by
    intro text hmem
    obtain ⟨word, -, rfl⟩ := List.mem_map.1 hmem
    exact not_mem_statementOf word
  have hne : ∀ text ∈ (wordsOf image).map fun word => (statementOf word).toList, text ≠ [] := by
    intro text hmem
    obtain ⟨word, -, rfl⟩ := List.mem_map.1 hmem
    exact statementOf_ne_nil word
  rw [listing, map_text_rowsOf]
  constructor
  · rw [String.toList_intercalate, List.map_map]
    exact lines_intercalate hne hnewline
  -- Printed lines are each ended by a newline.
  · have hjoin : (Command.linesText ((wordsOf image).map statementOf)).toList =
        ((wordsOf image).map fun word => (statementOf word).toList).flatMap (· ++ ['\n']) := by
      simp [Command.linesText, List.flatMap_def, Function.comp_def]
    rw [hjoin]
    exact lines_flatMap hnewline

/-- The numbers in the rows of a listing. -/
private theorem map_listing (image : List UInt8) (base : UInt16) :
    ((listing image base).map fun row => (row.address.toNat, row.word.toNat)) =
      (List.range ((image.length + 1) / 2)).map fun n =>
        ((base.toNat + 2 * n) % 65536,
          256 * (image.getD (2 * n) 0).toNat + (image.getD (2 * n + 1) 0).toNat) := by
  apply List.ext_getElem?
  intro n
  rw [listing, List.getElem?_map, List.getElem?_map, getElem?_rowsOf, getElem?_wordsOf]
  by_cases hn : n < (image.length + 1) / 2
  · rw [if_pos hn, List.getElem?_range hn]
    simp only [Option.map_some, UInt16.toNat_ofNat', Word.toNat_ofBytes]
  · rw [if_neg hn, List.getElem?_eq_none (by rw [List.length_range]; omega)]
    rfl

/-- A listing has one row for two bytes, with wrapping addresses and with the words of
    the image.  Its statements, joined by newlines or printed with `--source`, assemble to
    the image, padded to whole words, as long as there is room for it; the first statement
    without room is the only error there is. -/
theorem assemble_listing (image : List UInt8) (base : UInt16) (input : String) :
    (listing image base).length = (image.length + 1) / 2 ∧
      ((listing image base).map fun row => (row.address.toNat, row.word.toNat)) =
        ((List.range ((image.length + 1) / 2)).map fun n =>
          ((base.toNat + 2 * n) % 65536,
            256 * (image.getD (2 * n) 0).toNat + (image.getD (2 * n + 1) 0).toNat)) ∧
      assemble ("\n".intercalate ((listing image base).map Row.text)) =
        (if (padded image).length ≤ 3584 then .ok (padded image)
        else .error ⟨1793, .programTooLarge 3586 3584⟩) ∧
      assemble (Command.DisassembleSettings.print { input, base, source := true } image) =
        (if (padded image).length ≤ 3584 then .ok (padded image)
        else .error ⟨1793, .programTooLarge 3586 3584⟩) := by
  obtain ⟨hjoined, hprinted⟩ := lines_listing image base
  refine ⟨?_, map_listing image base, ?_, ?_⟩
  · rw [listing, length_rowsOf, length_wordsOf]
  · rw [assemble_statements hjoined, flatMap_toBytes_wordsOf, length_padded]
  · have hprint := assemble_statements hprinted
    rw [flatMap_toBytes_wordsOf, ← length_padded] at hprint
    exact hprint

end Chip8.Assembly
