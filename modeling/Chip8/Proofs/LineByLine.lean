import Chip8.Proofs.FirstProblem

/-!
# A program without labels, line by line

Where no statement has a label, no statement depends on another: a source text is then assembled
like its lines, each of them on its own.  Lines that hold no code are passed over, and count
only for the number of the line on which a problem is reported.

## Key results

- `codeLines_intercalate`: the statements of a text are those of the lines that hold code
- `assemble_intercalate`: a text without labels goes through the second pass alone
- `assemble_of_lines`, `assemble_of_line_error`: from the lines to the text
- `assemble_lines`: what a text without labels is assembled to, and what is reported of it
-/

namespace Chip8.Assembly

open Text

/-- Whether something is left of a line when its comment is cut off. -/
def holdsCode (text : String) : Bool := !(Statement.codeOf text.toList).isEmpty

/-- The lines that hold code, with their numbers, counted from one. -/
def numberedCode (texts : List String) : List (String × Nat) :=
  (texts.zipIdx 1).filter fun p => holdsCode p.1

/-- The statements on the lines that hold code, with the numbers of these lines. -/
def codeStatements (texts : List String) : List (Nat × Statement) :=
  (numberedCode texts).map fun p => (p.2, Statement.ofLine p.1.toList)

theorem map_fst_numberedCode (texts : List String) :
    (numberedCode texts).map Prod.fst = texts.filter holdsCode := by
  have hfilter : ((texts.zipIdx 1).map Prod.fst).filter holdsCode =
      (numberedCode texts).map Prod.fst := List.filter_map
  rw [← hfilter, List.zipIdx_map_fst]

/-- A line that holds code stands behind those above it. -/
theorem exists_numberedCode_eq {texts : List String} {row : Nat} {text : String}
    (h : texts[row]? = some text) (hcode : holdsCode text = true) :
    ∃ below, numberedCode texts = numberedCode (texts.take row) ++ (text, row + 1) :: below := by
  obtain ⟨hrow, rfl⟩ := List.getElem?_eq_some_iff.1 h
  have hlength : (texts.take row).length = row := List.length_take_of_le (Nat.le_of_lt hrow)
  refine ⟨((texts.drop (row + 1)).zipIdx (row + 2)).filter fun p => holdsCode p.1, ?_⟩
  -- The line is cut out between those above it and those below, whose numbers go on behind it.
  conv_lhs => rw [numberedCode, ← List.take_append_drop row texts, List.drop_eq_getElem_cons hrow]
  rw [List.zipIdx_append, List.filter_append, hlength, List.zipIdx_cons, Nat.add_comm 1 row,
    List.filter_cons_of_pos (by exact hcode)]
  rfl

/-! ## A line on its own -/

/-- A line on its own is read without labels. -/
theorem assembleLine_eq_read (text : String) :
    assembleLine text = (read [] (Statement.ofLine text.toList).body).mapError (⟨1, ·⟩) :=
  wordOf_eq_read _ _ _

theorem read_of_assembleLine_eq_error {text : String} {e : Error}
    (h : assembleLine text = .error e) :
    read [] (Statement.ofLine text.toList).body = .error e.problem := by
  rw [assembleLine_eq_read] at h
  cases hread : read [] (Statement.ofLine text.toList).body with
  | ok w =>
    rw [hread] at h
    cases h
  | error problem =>
    rw [hread] at h
    cases h
    rfl

/-! ## Lines of a text -/

/-- The lines that hold code are found by splitting the text at every newline. -/
theorem codeLines_eq (source : String) :
    codeLines source =
      (((source.toList.splitOn '\n').map Statement.ofLine).zipIdx 1).filter fun p => p.1.isCode := by
  obtain ⟨empty, hempty, hlines⟩ := exists_map_ofLine_eq source
  -- What `lines` leaves out at the end of a text are empty lines, and these hold no code.
  have hnone : (empty.zipIdx (1 + (statementsOf source).length)).filter
      (fun p => p.1.isCode) = [] := by
    rw [List.filter_eq_nil_iff]
    intro p hp
    rw [hempty p.1 (List.fst_mem_of_mem_zipIdx hp)]
    exact Bool.false_ne_true
  rw [hlines, List.zipIdx_append, List.filter_append, hnone, List.append_nil, codeLines]

section
variable {texts : List String} (hnewline : ∀ text ∈ texts, '\n' ∉ text.toList)
include hnewline

/-- Lines that were joined are found again, but where there were none there is an empty one. -/
theorem splitOn_intercalate_newline (hne : texts ≠ []) :
    ("\n".intercalate texts).toList.splitOn '\n' = texts.map String.toList := by
  have htext : ("\n".intercalate texts).toList = ['\n'].intercalate (texts.map String.toList) :=
    String.toList_intercalate
  rw [htext]
  apply List.splitOn_intercalate
  · rw [List.forall_mem_map]
    exact hnewline
  · rwa [Ne, List.map_eq_nil_iff]

variable (hcolon : ∀ text ∈ texts, ':' ∉ text.toList.takeWhile (· ≠ ';'))
include hcolon

omit hnewline in
/-- A line without a colon is all body. -/
theorem ofLine_of_mem_lines : ∀ text ∈ texts,
    Statement.ofLine text.toList = { label := none, body := Statement.codeOf text.toList } :=
  fun text htext => ofLine_of_not_mem fun hmem => hcolon text htext (mem_of_mem_trim hmem)

theorem label_eq_none_of_mem_lines :
    ∀ s ∈ statementsOf ("\n".intercalate texts), s.label = none := by
  intro s hs
  -- Of no lines the joined text is empty and has no statement at all.
  cases texts with
  | nil => exact nomatch hs
  | cons text texts =>
    obtain ⟨line, hline, rfl⟩ := exists_line_of_mem_statementsOf hs
    rw [splitOn_intercalate_newline hnewline (List.cons_ne_nil _ _)] at hline
    obtain ⟨text, htext, rfl⟩ := List.mem_map.1 hline
    rw [ofLine_of_mem_lines hcolon text htext]

/-- The statements with a body are those of the lines that hold code. -/
theorem codeLines_intercalate :
    codeLines ("\n".intercalate texts) =
      (numberedCode texts).map fun p => (Statement.ofLine p.1.toList, p.2) := by
  by_cases hne : texts = []
  · rw [hne]
    rfl
  · rw [codeLines_eq, splitOn_intercalate_newline hnewline hne, List.map_map, List.zipIdx_map,
      List.filter_map, numberedCode]
    congr 1
    -- The two filters ask the same of a line, because a line without a colon is all body.
    apply List.filter_congr
    intro p hp
    show (Statement.ofLine p.1.toList).isCode = holdsCode p.1
    rw [ofLine_of_mem_lines hcolon p.1 (List.fst_mem_of_mem_zipIdx hp)]
    rfl

/-- Without labels only the second pass is left, and it reads every line on its own. -/
theorem assemble_intercalate :
    assemble ("\n".intercalate texts) = emit [] 0 (codeStatements texts) := by
  have hlabel := label_eq_none_of_mem_lines hnewline hcolon
  -- No line has a label, so the first pass has neither a problem nor an entry for the table.
  have htable : labelTable (statementsOf ("\n".intercalate texts)) = [] := by
    rw [labelTable, List.filterMap_eq_nil_iff]
    intro p hp
    rw [labelValue?, hlabel p.1 (List.fst_mem_of_mem_zipIdx hp), Option.map_none]
  rw [assemble_eq_emit (labelProblemAt?_of_no_labels hlabel), htable, ← emit_codeLines,
    codeLines_intercalate hnewline hcolon, List.map_map]
  rfl

/-! ## One line after another -/

omit hnewline in
theorem isCode_of_mem_codeStatements : ∀ p ∈ codeStatements texts, p.2.isCode = true := by
  rw [codeStatements, List.forall_mem_map]
  intro p hp
  obtain ⟨hmem, hholds⟩ := List.mem_filter.1 hp
  rw [ofLine_of_mem_lines hcolon p.1 (List.fst_mem_of_mem_zipIdx hmem)]
  exact hholds

omit hnewline in
/-- The words of the statements are those of the lines. -/
theorem forall₂_wordOf_iff {words : List Word} :
    List.Forall₂ (fun p w => wordOf [] p.1 p.2.body = .ok w)
        ((codeStatements texts).filter fun p => p.2.isCode) words ↔
      List.Forall₂ (fun text w => assembleLine text = .ok w) (texts.filter holdsCode) words := by
  -- With an empty table the number of a line only matters to errors.
  have hword : ∀ (p : String × Nat) (w : Word),
      wordOf [] p.2 (Statement.ofLine p.1.toList).body = .ok w ↔ assembleLine p.1 = .ok w :=
    fun _ _ => wordOf_eq_ok_iff_read.trans wordOf_eq_ok_iff_read.symm
  rw [List.filter_eq_self.2 (isCode_of_mem_codeStatements hcolon), codeStatements,
    ← map_fst_numberedCode, List.forall₂_map_left_iff, List.forall₂_map_left_iff]
  simp only [hword]

/-- Lines that can be assembled are, if there is room for their words. -/
theorem assemble_of_lines (hfew : (texts.filter holdsCode).length ≤ 1792) {words : List Word}
    (h : List.Forall₂ (fun text w => assembleLine text = .ok w) (texts.filter holdsCode) words) :
    assemble ("\n".intercalate texts) = .ok (words.flatMap Word.toBytes) := by
  have hlength := h.length_eq
  have hcapacity : Memory.programCapacity = 3584 := rfl
  -- Room for the words is room for twice as many bytes.
  rw [assemble_intercalate hnewline hcolon]
  exact emit_of_words ((forall₂_wordOf_iff hcolon).2 h) (by omega)

/-- A text that can be assembled has lines that can. -/
theorem assembleLine_of_assemble {image : List UInt8}
    (h : assemble ("\n".intercalate texts) = .ok image) :
    ∀ text ∈ texts.filter holdsCode, ∃ w, assembleLine text = .ok w := by
  rw [assemble_intercalate hnewline hcolon] at h
  -- Whatever image comes out is made of words, one for each line that holds code.
  obtain ⟨words, hwords, -⟩ := exists_words_of_emit (Nat.zero_le _) h
  exact fun text htext => ((forall₂_wordOf_iff hcolon).1 hwords).exists_of_mem htext

/-- The first line that cannot be assembled is reported, if there is room for the lines above. -/
theorem assemble_of_line_error (hfew : (texts.filter holdsCode).length ≤ 1792) {row : Nat}
    {text : String} {e : Error} (hrow : texts[row]? = some text) (hholds : holdsCode text = true)
    (h : assembleLine text = .error e)
    (habove : ∀ above ∈ (texts.take row).filter holdsCode, ∃ w, assembleLine above = .ok w) :
    assemble ("\n".intercalate texts) = .error ⟨row + 1, e.problem⟩ := by
  obtain ⟨below, hbelow⟩ := exists_numberedCode_eq hrow hholds
  have hstatements : codeStatements texts =
      codeStatements (texts.take row) ++ (row + 1, Statement.ofLine text.toList) ::
        below.map fun p => (p.2, Statement.ofLine p.1.toList) := by
    rw [codeStatements, hbelow, List.map_append, List.map_cons]
    rfl
  -- What is above the line holds less code than the whole text, so there is room for it.
  have hcount : (codeStatements (texts.take row)).length ≤ 1792 := by
    have hlength := congrArg List.length hbelow
    rw [List.length_append] at hlength
    rw [← map_fst_numberedCode, List.length_map] at hfew
    rw [codeStatements, List.length_map]
    omega
  rw [assemble_intercalate hnewline hcolon]
  -- The line is the one where the second pass stops: it cannot be read, and all before it can.
  refine emit_of_read_error (p := (row + 1, Statement.ofLine text.toList))
    (isCode_of_mem_codeStatements hcolon) ?_ ?_ (Nat.mul_le_mul_left 2 hcount)
    (read_of_assembleLine_eq_error h)
  · rw [hstatements, List.getElem?_append_right (Nat.le_refl _), Nat.sub_self]
    rfl
  · -- The second pass has come through the lines above.
    rw [hstatements, List.take_left, codeStatements, List.forall_mem_map]
    intro p hp
    obtain ⟨w, hword⟩ := habove p.1 (by
      rw [← map_fst_numberedCode]
      exact List.mem_map_of_mem hp)
    exact ⟨w, wordOf_eq_ok_iff_read.1 hword⟩

end

/-- A text whose lines are without labels, and of which at most 1792 hold code, is assembled line
    by line.  It can be assembled exactly if each line that holds code can be assembled on its
    own, and to the words of these lines in order.  Otherwise the problem of the first line that
    cannot be assembled is reported, with the number of the line. -/
theorem assemble_lines {texts : List String} (hnewline : ∀ text ∈ texts, '\n' ∉ text.toList)
    (hcolon : ∀ text ∈ texts, ':' ∉ text.toList.takeWhile (· ≠ ';'))
    (hfew : (texts.filter holdsCode).length ≤ 1792) :
    ((∃ image, assemble ("\n".intercalate texts) = .ok image) ↔
        ∀ text ∈ texts.filter holdsCode, ∃ w, assembleLine text = .ok w) ∧
      (∀ words, List.Forall₂ (fun text w => assembleLine text = .ok w) (texts.filter holdsCode)
          words →
        assemble ("\n".intercalate texts) = .ok (words.flatMap Word.toBytes)) ∧
      ∀ (row : Nat) (text : String) (e : Error), texts[row]? = some text →
        holdsCode text = true → assembleLine text = .error e →
          (∀ above ∈ (texts.take row).filter holdsCode, ∃ w, assembleLine above = .ok w) →
            assemble ("\n".intercalate texts) = .error ⟨row + 1, e.problem⟩ := by
  refine ⟨⟨?_, ?_⟩, fun _ => assemble_of_lines hnewline hcolon hfew,
    fun _ _ _ => assemble_of_line_error hnewline hcolon hfew⟩
  · rintro ⟨image, himage⟩
    exact assembleLine_of_assemble hnewline hcolon himage
  · intro hall
    -- Each line has a word, so all of them together have a list of words.
    obtain ⟨words, hwords⟩ := exists_forall₂_of_exists hall
    exact ⟨_, assemble_of_lines hnewline hcolon hfew hwords⟩

/-- A comment that has a colon, an empty line, a statement, and a line that cannot be assembled;
    and the text up to there. -/
theorem assemble_lines_of_texts :
    assemble "  ; a: b\n\n ld v1 , #2 ;: \r\nfoo" = .error ⟨4, .unknownMnemonic "FOO"⟩ ∧
      assemble "  ; a: b\n\n ld v1 , #2 ;: \r\n" = .ok [0x61, 0x02] := by
  have hword : assembleLine " ld v1 , #2 ;: \r" = .ok 0x6102 := by decide +kernel
  constructor
  · have hcode : (["  ; a: b", "", " ld v1 , #2 ;: \r"].filter holdsCode) =
        [" ld v1 , #2 ;: \r"] := by decide +kernel
    refine (@assemble_lines ["  ; a: b", "", " ld v1 , #2 ;: \r", "foo"]
      (by decide +kernel) (by decide +kernel) (by decide +kernel)).2.2 3 "foo"
        ⟨1, .unknownMnemonic "FOO"⟩ rfl (by decide +kernel) (by decide +kernel) ?_
    show ∀ above ∈ ["  ; a: b", "", " ld v1 , #2 ;: \r"].filter holdsCode, _
    rw [hcode, List.forall_mem_singleton]
    exact ⟨_, hword⟩
  · have hcode : (["  ; a: b", "", " ld v1 , #2 ;: \r", ""].filter holdsCode) =
        [" ld v1 , #2 ;: \r"] := by decide +kernel
    refine (@assemble_lines ["  ; a: b", "", " ld v1 , #2 ;: \r", ""]
      (by decide +kernel) (by decide +kernel) (by decide +kernel)).2.1 [0x6102] ?_
    rw [hcode]
    exact .cons hword .nil

end Chip8.Assembly
