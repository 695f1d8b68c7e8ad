import Chip8.Proofs.AppendedLine

/-!
# Names that can be referred to

The first pass takes any name for a label that has the shape of one.  Where an operand is
read, keywords and registers go first, so a label that is spelled like one of these can be
defined but not referred to.  Every other label can be used in a statement behind the
program, and stands there for the address at which it was defined.

## Key results

- `of_label_of_collectLabels`: a label that is recorded is a name, and is recorded once
- `ofToken_of_isIdentifier`: a name is read as a label unless it is reserved
- `assemble_append_jump`: a jump to a label behind the program that defines it
-/

namespace Chip8.Assembly

open Text

/-! ## Labels that are recorded -/

/-- A label is recorded if it has the shape of a name and is new. -/
theorem define_eq_ok_iff {labels labels' : Labels} {address : UInt16} {line : Nat}
    {label : List Char} :
    collectLabels.define labels address line (some label) = .ok labels' ↔
      isIdentifier label = true ∧ labels.lookup (String.ofList label) = none ∧
        labels' = (String.ofList label, address) :: labels := by
  simp only [collectLabels.define]
  by_cases hname : isIdentifier label = true
  · rw [if_pos hname]
    cases labels.lookup (String.ofList label) with
    | none => simp [hname, eq_comm]
    | some known => simp
  · simp [hname]

/-- A label that is known is not defined again. -/
theorem label_ne_of_lookup {statements : List (Nat × Statement)} {labels table : Labels}
    {address : UInt16} (h : collectLabels labels address statements = .ok table) {name : String}
    (hknown : labels.lookup name ≠ none) : ∀ p ∈ statements, p.2.label ≠ some name.toList := by
  induction statements generalizing labels address with
  | nil => exact List.forall_mem_nil _
  | cons head rest ih =>
    obtain ⟨line, s⟩ := head
    obtain ⟨labels', hdefine, hrest⟩ := Except.bind_eq_ok_iff.1 h
    rw [List.forall_mem_cons]
    refine ⟨?_, ih hrest ?_⟩
    · -- A statement with this label would not have been recorded.
      intro (hlabel : s.label = some name.toList)
      rw [hlabel, define_eq_ok_iff, String.ofList_toList] at hdefine
      exact hknown hdefine.2.1
    · -- What is known stays known.
      cases hlabel : s.label with
      | none =>
        rw [hlabel] at hdefine
        cases hdefine
        exact hknown
      | some label =>
        rw [hlabel, define_eq_ok_iff] at hdefine
        obtain ⟨-, hnew, rfl⟩ := hdefine
        rw [List.lookup_cons]
        split
        · exact nofun
        · exact hknown

/-- A label that is recorded has the shape of a name, and no statement before it has the same
    label, so it is found where it stands. -/
theorem of_label_of_collectLabels {statements : List (Nat × Statement)} {labels table : Labels}
    {address : UInt16} (h : collectLabels labels address statements = .ok table) {row : Nat}
    {s : Statement} (hs : (statements.map Prod.snd)[row]? = some s) {label : List Char}
    (hlabel : s.label = some label) :
    isIdentifier label = true ∧
      codeBefore? (statements.map Prod.snd) (String.ofList label) =
        some (((statements.map Prod.snd).take row).countP Statement.isCode) := by
  induction statements generalizing labels address row with
  | nil => exact nomatch hs
  | cons head rest ih =>
    obtain ⟨line, first⟩ := head
    obtain ⟨labels', hdefine, hrest⟩ := Except.bind_eq_ok_iff.1 h
    rw [List.map_cons, codeBefore?_cons, String.toList_ofList]
    cases row with
    | zero =>
      obtain rfl : first = s := Option.some.inj hs
      rw [hlabel, define_eq_ok_iff] at hdefine
      -- The label is found at the first statement, which has none before it.
      exact ⟨hdefine.1, by rw [if_pos hlabel]; rfl⟩
    | succ row =>
      rw [List.map_cons, List.getElem?_cons_succ] at hs
      obtain ⟨hname, hcount⟩ := ih hrest hs
      refine ⟨hname, ?_⟩
      have hfirst : first.label ≠ some label := by
        intro hfirst
        -- The label would be known by now, and then it could not be defined here.
        rw [hfirst, define_eq_ok_iff] at hdefine
        obtain ⟨-, -, rfl⟩ := hdefine
        obtain ⟨p, hp, rfl⟩ := List.mem_map.1 (List.mem_of_getElem? hs)
        have hknown : List.lookup (String.ofList label) ((String.ofList label, address) :: labels) ≠
            none := by simp
        refine label_ne_of_lookup hrest hknown p hp ?_
        rw [hlabel, String.toList_ofList]
      rw [if_neg hfirst, hcount, List.take_succ_cons, List.countP_cons]
      rfl

/-! ## Names that are read as operands -/

namespace Operand

/-- Whether a name is spelled, in either case, like a keyword or like a register: a `V` with
    one hexadecimal digit or with a decimal number, unless the number is too large to be an
    index at all. -/
def isReserved (name : List Char) : Bool :=
  match upper name with
  | ['V', digit] => (digitValue? 16 digit).isSome
  | 'V' :: digits => (digits? 10 digits).any (· < UInt64.size)
  | word => ["I", "DT", "ST", "K", "F", "B"].contains (String.ofList word)

/-- A name starts with a letter or an underscore, also when it is written in upper case. -/
theorem exists_upper_of_isIdentifier {name : List Char} (h : isIdentifier name = true) :
    ∃ c cs, upper name = c :: cs ∧ (c.isAlpha || c == '_') = true := by
  cases name with
  | nil => exact nomatch h
  | cons c cs =>
    refine ⟨c.toUpper, upper cs, rfl, ?_⟩
    rw [isIdentifier, Bool.and_eq_true, Bool.or_eq_true] at h
    rcases h.1 with halpha | hunderscore
    · rw [isAlpha_toUpper, halpha, Bool.true_or]
    · rw [beq_iff_eq.1 hunderscore]
      decide

/-- A name is not marked as a number. -/
theorem numberParts?_of_isIdentifier {name : List Char} (h : isIdentifier name = true) :
    numberParts? (upper name) = none := by
  obtain ⟨c, cs, hupper, hc⟩ := exists_upper_of_isIdentifier h
  -- Neither a letter nor the underscore is a digit.
  have hdigit : c.isDigit = false := by
    rw [← Bool.not_eq_true, Char.isDigit_iff_toNat]
    rw [Bool.or_eq_true, beq_iff_eq] at hc
    rcases hc with halpha | rfl
    · have := isAlpha_iff_toNat.1 halpha
      show ¬(48 ≤ c.toNat ∧ c.toNat ≤ 57)
      omega
    · decide
  rw [hupper]
  unfold numberParts?
  split <;> rename_i heq <;> cases heq
  · -- The three marks of a number are no letters.
    exact absurd hc (by decide)
  · exact absurd hc (by decide)
  · exact absurd hc (by decide)
  · rw [hdigit]
    rfl

theorem contains_keywords_eq_false_iff {word : List Char} (h : word ≠ ['[', 'I', ']']) :
    ["I", "DT", "ST", "K", "F", "B"].contains (String.ofList word) = false ↔
      keyword? word = none := by
  have hword : ∀ w : String, String.ofList word = w ↔ word = w.toList := fun w =>
    ⟨fun heq => by rw [← heq, String.toList_ofList], fun heq => by rw [heq, String.ofList_toList]⟩
  unfold keyword?
  split
  case h_2 => exact absurd rfl h
  -- For any word that is not in the table both sides say that it is none of the six names.
  case h_8 hI _ hDT hST hK hF hB =>
    simp only [List.contains_eq_mem, decide_eq_false_iff_not, List.mem_cons, hword,
      List.not_mem_nil, or_false, not_or, iff_true]
    exact ⟨hI, hDT, hST, hK, hF, hB⟩
  -- A word in the table is a keyword and is in the list.
  all_goals exact ⟨fun hnot => absurd hnot (by decide), nofun⟩

/-- A name is reserved exactly if it is read as a keyword or as the index of a register. -/
theorem isReserved_eq_false_iff {name : List Char} (h : isIdentifier name = true) :
    isReserved name = false ↔
      keyword? (upper name) = none ∧ registerIndex? (upper name) = none := by
  obtain ⟨c, cs, hupper, hc⟩ := exists_upper_of_isIdentifier h
  rw [isReserved, hupper]
  split
  · -- A register with one digit, which is read in hexadecimal.
    rename_i digit heq
    rw [heq]
    show _ ↔ none = none ∧ digitValue? 16 digit = none
    simp
  · -- A register with more digits, or with none: its index is read in decimal.
    rename_i digits hone heq
    have hindex : registerIndex? ('V' :: digits) = (digits? 10 digits).filter (· < UInt64.size) := by
      rw [registerIndex?]
      exact hone
    rw [heq, hindex]
    show _ ↔ none = none ∧ _
    cases digits? 10 digits <;> simp
  · -- Any other name is no register, whatever else it is.
    rename_i hone hmany
    have hindex : registerIndex? (c :: cs) = none := by
      rw [registerIndex?]
      · exact hone
      · exact hmany
    -- A name does not start with a bracket.
    have hbracket : c :: cs ≠ ['[', 'I', ']'] := by
      rintro heq
      cases heq
      exact absurd hc (by decide)
    rw [contains_keywords_eq_false_iff hbracket, hindex]
    simp

/-- A name that is not reserved is read as a label. -/
theorem ofToken_eq_label {name : List Char} (h : isIdentifier name = true)
    (hfree : isReserved name = false) : ofToken name = .ok (.label (String.ofList name)) := by
  obtain ⟨hkeyword, hindex⟩ := (isReserved_eq_false_iff h).1 hfree
  simp only [ofToken, hkeyword, hindex, numberParts?_of_isIdentifier h, h, if_true]

/-- A keyword does not stand for an address. -/
theorem addressOf_of_keyword? {word : List Char} {operand : Operand}
    (h : keyword? word = some operand) (labels : Labels) :
    Template.addressOf labels operand = .error (.badOperand operand.kindText) := by
  unfold keyword? at h
  split at h <;> cases h <;> rfl

/-- A name that is reserved is read as something that does not stand for an address, or names a
    register that there is not. -/
theorem of_isReserved {name : List Char} (h : isIdentifier name = true)
    (hreserved : isReserved name = true) :
    (∃ operand, ofToken name = .ok operand ∧
      ∀ labels, Template.addressOf labels operand = .error (.badOperand operand.kindText)) ∨
    ∃ index, 16 ≤ index ∧ ofToken name = .error (.noRegister index) := by
  cases hkeyword : keyword? (upper name) with
  | some operand =>
    exact .inl ⟨operand, by simp only [ofToken, hkeyword], addressOf_of_keyword? hkeyword⟩
  | none =>
    cases hindex : registerIndex? (upper name) with
    | none =>
      -- A name that is neither a keyword nor a register is not reserved.
      rw [(isReserved_eq_false_iff h).2 ⟨hkeyword, hindex⟩] at hreserved
      cases hreserved
    | some index =>
      by_cases hlt : index < 16
      · -- There is such a register, but a register is no address.
        refine .inl ⟨.register ⟨index, hlt⟩, ?_, fun _ => rfl⟩
        simp only [ofToken, hkeyword, hindex, dif_pos hlt]
      · -- There is no such register, and reading stops at that.
        refine .inr ⟨index, Nat.le_of_not_lt hlt, ?_⟩
        simp only [ofToken, hkeyword, hindex, dif_neg hlt]

end Operand

/-! ## Jumps to a name -/

/-- The line that jumps to a name. -/
def jumpLine (name : List Char) : List Char :=
  (Instruction.statementText Mnemonic.jp.text [String.ofList name]).toList

theorem jumpLine_eq (name : List Char) : jumpLine name = 'J' :: 'P' :: ' ' :: name := by
  rw [jumpLine, toList_statementText_cons, List.map_singleton, List.intercalate_singleton,
    String.toList_ofList]
  rfl

section
variable {name : List Char} (h : isIdentifier name = true)
include h

private theorem isToken_name : ∀ operand ∈ [String.ofList name], IsToken operand.toList := by
  intro operand hoperand
  rw [List.mem_singleton.1 hoperand, String.toList_ofList]
  refine ⟨?_, isPlain_of_isIdentifier h⟩
  rintro rfl
  exact nomatch h

theorem ofLine_jumpLine :
    Statement.ofLine (jumpLine name) = { label := none, body := jumpLine name } :=
  ofLine_statementText .jp (isToken_name h)

/-- A jump is read as one to what its name is read as. -/
theorem ofBody_jumpLine :
    Template.ofBody (jumpLine name) = (Operand.ofToken name).map (Template.addressed .jump) := by
  have hword : String.ofList (upper (firstWord (jumpLine name))) = Mnemonic.jp.text := by
    rw [jumpLine, firstWord_statementText, upper_mnemonic, String.ofList_toList]
  have hoperands : Template.operandsOf (afterFirstWord (jumpLine name)) =
      (Operand.ofToken name).map ([·]) := by
    rw [jumpLine, operandsOf_statementText .jp (isToken_name h), List.mapM_cons,
      String.toList_ofList]
    cases Operand.ofToken name <;> rfl
  simp only [Template.ofBody, hword, hoperands, Mnemonic.ofText?_text]
  cases Operand.ofToken name <;> rfl

/-- A jump to a label has the word of the jump to its address. -/
theorem wordOf_jumpLine {labels : Labels} {address : UInt16}
    (hlookup : labels.lookup (String.ofList name) = some address) (hle : address.toNat ≤ 0xFFF)
    (hfree : Operand.isReserved name = false) (line : Nat) :
    wordOf labels line (jumpLine name) = .ok (UInt16.ofNat (0x1000 + address.toNat)) := by
  -- The jump is read as one to the label, and its word is that of the address.
  refine wordOf_eq_ok_iff.2 ⟨.addressed .jump (.label (String.ofList name)), ?_, ?_⟩
  · rw [ofBody_jumpLine h, Operand.ofToken_eq_label h hfree]
    rfl
  · have hencode : (Instruction.address .jump address).encode =
        UInt16.ofNat (0x1000 + address.toNat) := by
      show UInt16.ofNat (4096 * 1 + address.toNat % 4096) = _
      rw [Nat.mod_eq_of_lt (by omega)]
    simp only [Template.resolve, Template.addressOf, hlookup, fit, if_pos hle, Except.map,
      UInt16.ofNat_toNat, hencode]

/-- A jump to a name that is reserved has no word. -/
theorem wordOf_jumpLine_of_isReserved (hreserved : Operand.isReserved name = true)
    (labels : Labels) (line : Nat) :
    (∃ operand, Operand.ofToken name = .ok operand ∧
      wordOf labels line (jumpLine name) = .error ⟨line, .badOperand operand.kindText⟩) ∨
    ∃ index, 16 ≤ index ∧
      wordOf labels line (jumpLine name) = .error ⟨line, .noRegister index⟩ := by
  rcases Operand.of_isReserved h hreserved with ⟨operand, hread, haddress⟩ | ⟨index, hle, hread⟩
  · refine .inl ⟨operand, hread, ?_⟩
    rw [wordOf, ofBody_jumpLine h, hread]
    simp only [Except.map, Except.bind, Template.resolve, haddress labels]
  · refine .inr ⟨index, hle, ?_⟩
    rw [wordOf, ofBody_jumpLine h, hread]
    rfl

theorem not_mem_jumpLine : '\n' ∉ jumpLine name :=
  (not_mem_statementText .jp (isToken_name h)).2.2

end

/-- A label of a program that was assembled stands for the address at which it is defined: two
    bytes behind the program base for every statement with a body on the lines before. -/
theorem lookup_of_assemble {source : String} {image : List UInt8} (h : assemble source = .ok image)
    {row : Nat} {s : Statement} (hs : (statementsOf source)[row]? = some s) {label : List Char}
    (hlabel : s.label = some label) :
    ∃ (labels : Labels) (address : UInt16),
      collectLabels [] Memory.programBase (Statement.ofSource source) = .ok labels ∧
        isIdentifier label = true ∧ labels.lookup (String.ofList label) = some address ∧
        address.toNat = 0x200 + 2 * ((statementsOf source).take row).countP Statement.isCode := by
  obtain ⟨labels, hlabels, haddress⟩ := exists_labels_of_assemble h
  obtain ⟨hname, hcount⟩ := of_label_of_collectLabels hlabels hs hlabel
  have hlookup := haddress (String.ofList label)
  rw [statementsOf, labelAddress?, hcount, Option.map_some, Option.map_eq_some_iff] at hlookup
  obtain ⟨address, hlookup, hvalue⟩ := hlookup
  exact ⟨labels, address, hlabels, hname, hlookup, hvalue⟩

/-- Behind a program that defines a label, let there be a line that jumps to it.  Unless the
    label is reserved, this is assembled to the program and the jump to the address of the
    label.  If the label is reserved, the program alone can be assembled, but with the jump it
    cannot: the name is read as a keyword or as a register, there being one or not. -/
theorem assemble_append_jump {source : String} {image : List UInt8}
    (h : assemble source = .ok image) {row : Nat} {s : Statement}
    (hs : (statementsOf source)[row]? = some s) {label : List Char} (hlabel : s.label = some label)
    (haddress : 0x200 + 2 * ((statementsOf source).take row).countP Statement.isCode ≤ 0xFFF)
    (hroom : image.length + 2 ≤ 3584) :
    let address := 0x200 + 2 * ((statementsOf source).take row).countP Statement.isCode
    let line := source.toList.count '\n' + 2
    let result := assemble (source ++ "\nJP " ++ String.ofList label)
    (Operand.isReserved label = false →
        result = .ok (image ++ Word.toBytes (UInt16.ofNat (0x1000 + address)))) ∧
      (Operand.isReserved label = true →
        (∃ operand, Operand.ofToken label = .ok operand ∧
          result = .error ⟨line, .badOperand operand.kindText⟩) ∨
        ∃ index, 16 ≤ index ∧ result = .error ⟨line, .noRegister index⟩) := by
  intro address line result
  obtain ⟨labels, value, hlabels, hname, hlookup, hvalue⟩ := lookup_of_assemble h hs hlabel
  have hline : Statement.ofLine (jumpLine label) = { label := none, body := jumpLine label } :=
    ofLine_jumpLine hname
  -- With the line behind it, the program is continued by the word of that line, if it has one.
  have hresult : result = (wordOf labels line (jumpLine label)).map fun w => image ++ w.toBytes := by
    have htext : source ++ "\nJP " ++ String.ofList label =
        source ++ "\n" ++ String.ofList (jumpLine label) := by
      rw [← String.toList_inj, jumpLine_eq]
      simp
    have hcode : (Statement.ofLine (jumpLine label)).isCode = true := by
      rw [hline, jumpLine_eq]
      rfl
    have happend := assemble_append_line h hlabels (not_mem_jumpLine hname) hcode
      (by rw [hline]) hroom
    rw [hline] at happend
    rw [← happend, ← htext]
  refine ⟨fun hfree => ?_, fun hreserved => ?_⟩
  · rw [hresult, wordOf_jumpLine hname hlookup (hvalue ▸ haddress) hfree, hvalue]
    rfl
  · rcases wordOf_jumpLine_of_isReserved hname hreserved labels line with
      ⟨operand, hread, hword⟩ | ⟨index, hle, hword⟩
    · exact .inl ⟨operand, hread, by rw [hresult, hword]; rfl⟩
    · exact .inr ⟨index, hle, by rw [hresult, hword]; rfl⟩

/-- A label like a register whose index would be too large, at an address behind an
    instruction. -/
theorem assemble_append_jump_of_long_register :
    assemble "CLS\nV18446744073709551616: RET" = .ok [0x00, 0xE0, 0x00, 0xEE] ∧
      assemble "CLS\nV18446744073709551616: RET\nJP V18446744073709551616" =
        .ok [0x00, 0xE0, 0x00, 0xEE, 0x12, 0x02] := by
  have h : assemble "CLS\nV18446744073709551616: RET" = .ok [0x00, 0xE0, 0x00, 0xEE] := by
    decide +kernel
  have hs : (statementsOf "CLS\nV18446744073709551616: RET")[1]? =
      some { label := some "V18446744073709551616".toList, body := "RET".toList } := by
    decide +kernel
  obtain ⟨hjump, -⟩ := assemble_append_jump h hs rfl (by decide +kernel) (by decide)
  exact ⟨h, hjump (by decide +kernel)⟩

/-- A label that is spelled like a keyword can be defined, and a jump to it cannot be written. -/
theorem assemble_jump_to_keyword :
    assemble "I: CLS" = .ok [0x00, 0xE0] ∧
      labelAddress? (statementsOf "I: CLS") "I" = some 0x200 ∧
      assemble "I: CLS\nJP I" = .error ⟨2, .badOperand "Index"⟩ := by
  decide +kernel

end Chip8.Assembly
