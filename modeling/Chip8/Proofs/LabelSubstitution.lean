import Chip8.Proofs.AssemblyMeaning
import Chip8.Proofs.InlinedLine

/-!
# Labels as abbreviations

`inlineLabels` writes a source text without labels, line by line, with the address of a label
in place of each operand that names it.  If the source can be assembled, the text without
labels is assembled to the same program.

The two passes of the assembler count addresses on their own, the first one in sixteen bits.
That a label stands for the address that is counted without any bound is known only because
the second pass has found room for the whole program.

## Key results

- `assemble_of_words`: statements without labels that have words make a program
- `filter_isCode_inlineLabels`: the statements that are left when the labels are gone
- `assemble_inlineLabels`: the program that is assembled is the same
-/

namespace Chip8.Assembly

open Text

/-- A source text without its labels, and with their addresses in place of the operands that
    name them. -/
def inlineLabels (source : String) : String :=
  let address? := labelAddress? (statementsOf source)
  String.ofList (['\n'].intercalate ((source.toList.splitOn '\n').map (inlineLine address?)))

/-! ## Programs from words -/

/-- The bytes of a program are emitted when its statements have words and there is room for
    all of these. -/
theorem emit_of_words {labels : Labels} {statements : List (Nat × Statement)} {words : List Word}
    (h : List.Forall₂ (fun p w => wordOf labels p.1 p.2.body = .ok w)
      (statements.filter fun p => p.2.isCode) words) {size : Nat}
    (hroom : size + 2 * words.length ≤ Memory.programCapacity) :
    emit labels size statements = .ok (words.flatMap Word.toBytes) := by
  -- The room shrinks by two with every word, so the size is as general as the statements are.
  induction statements generalizing words size with
  | nil =>
    cases h
    rfl
  | cons head rest ih =>
    obtain ⟨line, s⟩ := head
    by_cases hcode : s.isCode = true
    · rw [filter_isCode_cons, if_pos hcode] at h
      cases h with
      | @cons _ w _ words hword hwords =>
        rw [List.length_cons] at hroom
        have hrest : emit labels (size + 2) rest = .ok (words.flatMap Word.toBytes) :=
          ih hwords (by omega)
        rw [emit, if_pos hcode, hword]
        simp only [bind, Except.bind, if_pos (show size + 2 ≤ Memory.programCapacity by omega),
          hrest, List.flatMap_cons]
    · -- A statement without a body has no word and takes no room.
      rw [filter_isCode_cons, if_neg hcode] at h
      rw [emit, if_neg hcode]
      exact ih h hroom

theorem collectLabels_eq_self {statements : List (Nat × Statement)}
    (h : ∀ p ∈ statements, p.2.label = none) (labels : Labels) (address : UInt16) :
    collectLabels labels address statements = .ok labels := by
  induction statements generalizing address with
  | nil => rfl
  | cons head rest ih =>
    obtain ⟨line, s⟩ := head
    have hnone : s.label = none := h _ List.mem_cons_self
    rw [collectLabels, hnone]
    exact ih (fun p hp => h p (List.mem_cons_of_mem _ hp)) _

/-- A source text that defines no labels is assembled when its statements have words and
    there is room for these. -/
theorem assemble_of_words {source : String} {words : List Word}
    (hlabel : ∀ s ∈ statementsOf source, s.label = none)
    (hwords : List.Forall₂ (fun s w => ∀ line, wordOf [] line s.body = .ok w)
      ((statementsOf source).filter Statement.isCode) words)
    (hroom : 2 * words.length ≤ Memory.programCapacity) :
    assemble source = .ok (words.flatMap Word.toBytes) := by
  have hlabels : collectLabels [] Memory.programBase (Statement.ofSource source) = .ok [] :=
    collectLabels_eq_self (fun p hp => hlabel p.2 (List.mem_map_of_mem hp)) _ _
  rw [filter_isCode_statementsOf, List.forall₂_map_left_iff] at hwords
  have hemit : emit [] 0 (Statement.ofSource source) = .ok (words.flatMap Word.toBytes) :=
    emit_of_words (hwords.imp fun p w hword => hword p.1) (by rwa [Nat.zero_add])
  exact Except.bind_eq_ok_iff.2 ⟨[], hlabels, hemit⟩

/-! ## Statements of a text without labels -/

theorem statementsOf_eq_map (source : String) :
    statementsOf source = (lines source.toList).map Statement.ofLine := by
  rw [statementsOf, Statement.ofSource, List.map_map]
  show (lines source.toList).zipIdx.map (Statement.ofLine ∘ Prod.fst) = _
  rw [← List.map_map, List.zipIdx_map_fst]

/-- A newline at the end opens no line, but an empty line would be an empty statement anyway. -/
theorem exists_map_ofLine_eq (source : String) :
    ∃ empty : List Statement, (∀ s ∈ empty, s = { label := none, body := [] }) ∧
      (source.toList.splitOn '\n').map Statement.ofLine = statementsOf source ++ empty := by
  rw [statementsOf_eq_map, lines]
  split
  · -- The line behind the last newline is empty and is left out of the lines.
    rename_i hlast
    conv in List.map Statement.ofLine (List.splitOn _ _) =>
      rw [← List.dropLast_append_getLast? [] hlast]
    rw [List.map_append]
    exact ⟨_, List.forall_mem_singleton.2 rfl, rfl⟩
  · -- Without a newline at the end all lines are statements.
    exact ⟨[], List.forall_mem_nil _, (List.append_nil _).symm⟩

/-- An empty statement that is filtered out may as well not be there. -/
theorem filter_statementsOf {p : Statement → Bool} (hp : p { label := none, body := [] } = false)
    (source : String) :
    (statementsOf source).filter p =
      ((source.toList.splitOn '\n').map Statement.ofLine).filter p := by
  obtain ⟨empty, hempty, hlines⟩ := exists_map_ofLine_eq source
  have hnone : empty.filter p = [] := by
    rw [List.filter_eq_nil_iff]
    intro s hs
    rw [hempty s hs, hp]
    exact Bool.false_ne_true
  rw [hlines, List.filter_append, hnone, List.append_nil]

theorem exists_line_of_mem_statementsOf {source : String} {s : Statement}
    (h : s ∈ statementsOf source) : ∃ line ∈ source.toList.splitOn '\n', Statement.ofLine line = s := by
  rw [statementsOf_eq_map, lines] at h
  obtain ⟨line, hline, rfl⟩ := List.mem_map.1 h
  split at hline
  · exact ⟨line, (List.dropLast_sublist _).mem hline, rfl⟩
  · exact ⟨line, hline, rfl⟩

theorem splitOn_inlineLabels (source : String) :
    (inlineLabels source).toList.splitOn '\n' =
      (source.toList.splitOn '\n').map (inlineLine (labelAddress? (statementsOf source))) := by
  rw [inlineLabels, String.toList_ofList]
  -- A line keeps free of newlines, so the text falls apart into the lines it was made of.
  apply List.splitOn_intercalate
  · intro line hline
    obtain ⟨old, hold, rfl⟩ := List.mem_map.1 hline
    exact not_mem_inlineLine ((mem_splitOn '\n' _).1 old hold).1
  · rw [Ne, List.map_eq_nil_iff]
    exact List.splitOn_ne_nil _ _

section
variable {source : String}
  (h : ∀ s ∈ (statementsOf source).filter Statement.isCode, ':' ∉ s.body)
include h

private theorem not_mem_body : ∀ line ∈ source.toList.splitOn '\n',
    ':' ∉ (Statement.ofLine line).body := by
  intro line hline hmem
  apply h (Statement.ofLine line) _ hmem
  rw [filter_statementsOf rfl, List.mem_filter]
  -- A body with a colon in it is not empty, so the statement is one of those in question.
  refine ⟨List.mem_map_of_mem hline, ?_⟩
  rw [Statement.isCode, List.isEmpty_eq_false_iff_exists_mem.2 ⟨_, hmem⟩]
  rfl

theorem label_eq_none_of_mem_inlineLabels :
    ∀ s ∈ statementsOf (inlineLabels source), s.label = none := by
  intro s hs
  obtain ⟨line, hline, rfl⟩ := exists_line_of_mem_statementsOf hs
  rw [splitOn_inlineLabels] at hline
  obtain ⟨old, hold, rfl⟩ := List.mem_map.1 hline
  rw [ofLine_inlineLine (not_mem_body h old hold)]
  rfl

/-- The statements that have a body are the same, up to their labels. -/
theorem filter_isCode_inlineLabels :
    (statementsOf (inlineLabels source)).filter Statement.isCode =
      ((statementsOf source).filter Statement.isCode).map
        (inlineStatement (labelAddress? (statementsOf source))) := by
  have hlines : ((source.toList.splitOn '\n').map
      (inlineLine (labelAddress? (statementsOf source)))).map Statement.ofLine =
      ((source.toList.splitOn '\n').map Statement.ofLine).map
        (inlineStatement (labelAddress? (statementsOf source))) := by
    rw [List.map_map, List.map_map]
    exact List.map_congr_left fun line hline => ofLine_inlineLine (not_mem_body h line hline)
  -- Empty statements are left out on both sides, so it does not matter where the lines end.
  rw [filter_statementsOf rfl, filter_statementsOf rfl, splitOn_inlineLabels, hlines,
    List.filter_map]
  congr 1
  apply List.filter_congr
  intro s hs
  obtain ⟨line, -, rfl⟩ := List.mem_map.1 hs
  exact isCode_inlineStatement _ (isBlank_head?_body line)

end

/-! ## The same program -/

/-- The label table of a program that was assembled holds the addresses of the labels. -/
theorem exists_labels_of_assemble {source : String} {image : List UInt8}
    (h : assemble source = .ok image) :
    ∃ labels, collectLabels [] Memory.programBase (Statement.ofSource source) = .ok labels ∧
      ∀ name, (labels.lookup name).map UInt16.toNat = labelAddress? (statementsOf source) name := by
  obtain ⟨labels, hlabels, -⟩ := Except.bind_eq_ok_iff.1 h
  obtain ⟨_, words, -, hwords, -, hroom⟩ := exists_words_of_assemble h
  refine ⟨labels, hlabels, lookup_eq_labelAddress? hlabels ?_⟩
  -- The whole program has room, so the addresses of its statements stay below 4096.
  show 2 * (statementsOf source).countP Statement.isCode ≤ _
  rwa [List.countP_eq_length_filter, hwords.length_eq]

/-- Where a statement names a label, its address is part of the word. -/
theorem exists_address_of_wordOf {labels : Labels} {address? : String → Option Nat}
    (haddress : ∀ name, (labels.lookup name).map UInt16.toNat = address? name) {line : Nat}
    {body : List Char} {op : AddressOp} {name : String} {w : Word}
    (hword : wordOf labels line body = .ok w)
    (hbody : Template.ofBody body = .ok (.addressed op (.label name))) :
    ∃ address, address? name = some address ∧ address ≤ 0xFFF ∧
      w = (Instruction.address op (UInt16.ofNat address)).encode := by
  obtain ⟨t, hbody', hword⟩ := wordOf_eq_ok_iff.1 hword
  -- The label was found, and the word is made from the address that the table has for it.
  rw [hbody] at hbody'
  cases hbody'
  obtain ⟨addr, haddr, rfl⟩ := Except.map_eq_ok_iff.1 hword
  obtain ⟨hlt, hlocated⟩ := Template.of_addressOf haddr
  obtain ⟨address, hname, hliteral⟩ := Option.map_eq_some_iff.1 hlocated
  cases hliteral
  refine ⟨addr.toNat, (haddress name).symm.trans hname, by omega, ?_⟩
  rw [UInt16.ofNat_toNat]

/-- Labels are abbreviations.  A source text that can be assembled is assembled to the same
    program when its labels are deleted and each operand that names one is replaced by `#`
    and the digits of its address, which leaves no labels to define.  The first pass has given
    each label its address, without having wrapped, and where a statement names a label the
    program has an instruction on the address, which is in reach. -/
theorem assemble_inlineLabels {source : String} {image : List UInt8}
    (h : assemble source = .ok image) :
    assemble (inlineLabels source) = .ok image ∧
      (∀ s ∈ statementsOf (inlineLabels source), s.label = none) ∧
      (∃ labels, collectLabels [] Memory.programBase (Statement.ofSource source) = .ok labels ∧
        ∀ name, (labels.lookup name).map UInt16.toNat =
          labelAddress? (statementsOf source) name) ∧
      ∀ (k : Nat) (s : Statement) (op : AddressOp) (name : String),
        ((statementsOf source).filter Statement.isCode)[k]? = some s →
          Template.ofBody s.body = .ok (.addressed op (.label name)) →
            ∃ (address : Nat) (w : Word),
              labelAddress? (statementsOf source) name = some address ∧ address ≤ 0xFFF ∧
                w = (Instruction.address op (UInt16.ofNat address)).encode ∧
                image[2 * k]? = some w.high ∧ image[2 * k + 1]? = some w.kk := by
  obtain ⟨labels, words, haddress, hwords, rfl, hroom⟩ := exists_words_of_assemble h
  have hhead : ∀ s ∈ (statementsOf source).filter Statement.isCode,
      ∀ c ∈ s.body.head?, isBlank c = false := by
    intro s hs
    obtain ⟨line, -, rfl⟩ := exists_line_of_mem_statementsOf (List.mem_of_mem_filter hs)
    exact isBlank_head?_body line
  -- What has a word can be read, and so has no colon that could be taken for a label.
  have hcolon : ∀ s ∈ (statementsOf source).filter Statement.isCode, ':' ∉ s.body := by
    intro s hs
    obtain ⟨w, line, hword⟩ := hwords.exists_of_mem hs
    obtain ⟨t, hbody, -⟩ := wordOf_eq_ok_iff.1 hword
    exact Template.not_mem_of_ofBody hbody
  refine ⟨?_, label_eq_none_of_mem_inlineLabels hcolon, exists_labels_of_assemble h, ?_⟩
  · -- Each statement keeps its word when its label is written as an address.
    apply assemble_of_words (label_eq_none_of_mem_inlineLabels hcolon) _ hroom
    rw [filter_isCode_inlineLabels hcolon, List.forall₂_map_left_iff]
    have hall := (List.forall₂_and_left _ _).2 ⟨hhead, hwords⟩
    exact hall.imp fun s w ⟨hs, line, hword⟩ => wordOf_inlineBody haddress hs hword []
  · -- The word of the statement is the one from which the two bytes in the image come.
    intro k s op name hs hbody
    obtain ⟨hk, rfl⟩ := List.getElem?_eq_some_iff.1 hs
    have hlt : k < words.length := hwords.length_eq ▸ hk
    obtain ⟨line, hword⟩ := hwords.get hk hlt
    obtain ⟨address, hname, hle, hencode⟩ := exists_address_of_wordOf haddress hword hbody
    obtain ⟨hhigh, hlow⟩ := Word.getElem?_flatMap_toBytes words k
    rw [List.getElem?_eq_getElem hlt] at hhigh hlow
    exact ⟨address, words[k], hname, hle, hencode, hhigh, hlow⟩

/-- A label that is used before it is defined, on a line of its own, and one in front of a
    statement; comments stay as they are. -/
theorem assemble_inlineLabels_of_loop :
    assemble "loop: ld i, data ; data: below\n  jp loop\n\ndata:\n  dw #1234" =
        .ok [0xA2, 0x04, 0x12, 0x00, 0x12, 0x34] ∧
      assemble " ld i, #204 ; data: below\n  jp #200\n\n\n  dw #1234" =
        .ok [0xA2, 0x04, 0x12, 0x00, 0x12, 0x34] := by
  have h : assemble "loop: ld i, data ; data: below\n  jp loop\n\ndata:\n  dw #1234" =
      .ok [0xA2, 0x04, 0x12, 0x00, 0x12, 0x34] := by decide +kernel
  have htext : inlineLabels "loop: ld i, data ; data: below\n  jp loop\n\ndata:\n  dw #1234" =
      " ld i, #204 ; data: below\n  jp #200\n\n\n  dw #1234" := by decide +kernel
  have hsame := (assemble_inlineLabels h).1
  rw [htext] at hsame
  exact ⟨h, hsame⟩

end Chip8.Assembly
