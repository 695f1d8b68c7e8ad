import Chip8.Proofs.FirstProblem
import Chip8.Proofs.LineLayout
import Mathlib.Data.List.Nodup
import Mathlib.Logic.Relation

/-!
# The layout and the case of a source text

A source text that can be assembled is assembled to the same program in every layout and in upper
case.  `Relaid` are the changes of which this is said, and they may be made one after another as
often as one likes.  Upper case is the only one of them that reaches the names of labels, so the
names have to stay distinct in upper case, and all the changes keep them so.

What a program is assembled to depends on the statements that have a label or a body, its content.
Each change leaves the content as it is, up to the spelling of its words.

## Key results

- `assemble_of_content`: the content of a text determines its program, up to spelling
- `content_upper`, `content_of_respaced`, `content_of_inserted`: what a change does to the content
- `assemble_relaid`: the program of a text does not depend on its layout and its case
-/

namespace Chip8.Assembly

open Text Statement

/-! ## Content -/

/-- Whether a statement says anything at all. -/
def Statement.hasContent (s : Statement) : Bool := s.label.isSome || s.isCode

/-- The statements of a source text that have a label or a body. -/
def content (source : String) : List Statement := (statementsOf source).filter hasContent

/-- The names of the labels that a source text defines. -/
def labelNames (source : String) : List (List Char) := (statementsOf source).filterMap label

theorem content_eq (source : String) :
    content source = ((source.toList.splitOn '\n').map ofLine).filter hasContent :=
  filter_statementsOf rfl source

theorem filter_isCode_content (source : String) :
    (content source).filter isCode = (statementsOf source).filter isCode := by
  -- A statement with a body has content.
  rw [content, List.filter_filter]
  apply List.filter_congr
  intro s _
  cases hcode : s.isCode <;> simp [hasContent, hcode]

theorem filterMap_label_content (source : String) :
    (content source).filterMap label = labelNames source := by
  -- A statement with a label has content.
  rw [content, List.filterMap_filter, labelNames]
  apply List.filterMap_congr
  intro s _
  cases hlabel : s.label <;> simp [hasContent, hlabel]

/-- No label and no word is lost with a statement that says nothing. -/
theorem codeBefore?_content (source : String) (name : String) :
    codeBefore? (content source) name = codeBefore? (statementsOf source) name := by
  rw [content]
  induction statementsOf source with
  | nil => rfl
  | cons s rest ih =>
    rw [codeBefore?_cons]
    by_cases hcontent : s.hasContent = true
    · rw [List.filter_cons_of_pos hcontent, codeBefore?_cons, ih]
    · rw [List.filter_cons_of_neg hcontent, ih]
      -- Without content a statement is neither the one with the label nor counted as code.
      rw [hasContent, Bool.or_eq_true, not_or, Option.not_isSome_iff_eq_none] at hcontent
      rw [hcontent.1, if_neg nofun, if_neg hcontent.2]
      exact (Option.map_id' ..).symm

/-! ## Names of labels -/

/-- Labels that have the shape of names and are distinct are no problem. -/
theorem labelProblemAt?_of_nodup {statements : List Statement}
    (hname : ∀ name ∈ statements.filterMap label, isIdentifier name = true)
    (hnodup : (statements.filterMap label).Nodup) (row : Nat) :
    labelProblemAt? statements row = none := by
  rw [labelProblemAt?, Option.bind_eq_none_iff]
  intro s hs
  obtain ⟨hrow, rfl⟩ := List.getElem?_eq_some_iff.1 hs
  cases hlabel : statements[row].label with
  | none => rw [labelProblem?, hlabel]
  | some name =>
    have hmem : name ∈ statements.filterMap label :=
      List.mem_filterMap.2 ⟨_, List.getElem_mem hrow, hlabel⟩
    have hnew : ¬∃ t ∈ statements.take row, t.label = some name := by
      -- With the name before the row and at it, the names would not be distinct.
      rintro ⟨t, ht, htlabel⟩
      rw [← List.take_append_drop row statements, List.drop_eq_getElem_cons hrow,
        List.filterMap_append, List.filterMap_cons_some hlabel, List.nodup_append] at hnodup
      exact hnodup.2.2 name (List.mem_filterMap.2 ⟨t, ht, htlabel⟩) name List.mem_cons_self rfl
    simp only [labelProblem?, hlabel, hname name hmem, hnew]
    rfl

/-- In a text that can be assembled no label is a problem. -/
theorem labelProblemAt?_of_assemble {source : String} {image : List UInt8}
    (h : assemble source = .ok image) (row : Nat) :
    labelProblemAt? (statementsOf source) row = none := by
  -- On the row: with no problem before it, one at the row would be the answer.
  induction row using Nat.strong_induction_on with
  | _ row ih =>
    cases hproblem : labelProblemAt? (statementsOf source) row with
    | none => rfl
    | some problem =>
      rw [assemble_of_labelProblem hproblem ih] at h
      exact nomatch h

theorem isIdentifier_of_assemble {source : String} {image : List UInt8}
    (h : assemble source = .ok image) : ∀ name ∈ labelNames source, isIdentifier name = true := by
  intro name hname
  obtain ⟨s, hs, hlabel⟩ := List.mem_filterMap.1 hname
  obtain ⟨row, hrow, rfl⟩ := List.getElem_of_mem hs
  have hnone := labelProblemAt?_of_assemble h row
  rw [labelProblemAt?, List.getElem?_eq_getElem hrow, Option.bind_some] at hnone
  by_contra hinvalid
  rw [Bool.not_eq_true] at hinvalid
  simp only [labelProblem?, hlabel, hinvalid] at hnone
  cases hnone

/-! ## Content in another spelling -/

section
variable {f : List Char → List Char} {statements statements' : List Statement}
  (h : List.Forall₂ (Respells f) statements statements')
include h

theorem filterMap_label_respells :
    statements'.filterMap label = (statements.filterMap label).map f := by
  induction h with
  | nil => rfl
  | cons hs _ ih =>
    rw [List.filterMap_cons, List.filterMap_cons, hs.label, ih]
    cases label _ <;> rfl

theorem filter_isCode_respells :
    List.Forall₂ (Respells f) (statements.filter isCode) (statements'.filter isCode) := by
  refine List.rel_filter (fun s s' hs => ?_) h
  show s.isCode = true ↔ s'.isCode = true
  rw [hs.isCode]

theorem filter_hasContent_respells :
    List.Forall₂ (Respells f) (statements.filter hasContent) (statements'.filter hasContent) := by
  refine List.rel_filter (fun s s' hs => ?_) h
  show s.hasContent = true ↔ s'.hasContent = true
  rw [hasContent, hasContent, hs.label, hs.isCode, Option.isSome_map]

/-- A label stands under its new name where it stood before, if no other label gets this name. -/
theorem codeBefore?_respells {name : List Char}
    (hother : ∀ other ∈ statements.filterMap label, f other = f name → other = name) :
    codeBefore? statements' (String.ofList (f name)) =
      codeBefore? statements (String.ofList name) := by
  induction h with
  | nil => rfl
  | @cons s s' rest rest' hs _ ih =>
    have hlabel : s'.label = some (f name) ↔ s.label = some name := by
      rw [hs.label, Option.map_eq_some_iff]
      constructor
      · -- Only the label itself gets the name, so this must be the one.
        rintro ⟨other, hsome, hsame⟩
        rw [← hother other (List.mem_filterMap.2 ⟨s, List.mem_cons_self, hsome⟩) hsame, hsome]
      · exact fun hsome => ⟨name, hsome, rfl⟩
    have hrest : ∀ other ∈ rest.filterMap label, f other = f name → other = name := by
      intro other hmem
      obtain ⟨t, ht, htlabel⟩ := List.mem_filterMap.1 hmem
      exact hother other (List.mem_filterMap.2 ⟨t, List.mem_cons_of_mem _ ht, htlabel⟩)
    rw [codeBefore?_cons, codeBefore?_cons, String.toList_ofList, String.toList_ofList, ih hrest,
      hs.isCode]
    simp only [hlabel]

end

/-- What is looked up is the name of a label. -/
theorem mem_labelNames_of_lookup {source : String} {name : String} {address : UInt16}
    (h : (labelTable (statementsOf source)).lookup name = some address) :
    name.toList ∈ labelNames source := by
  rw [lookup_labelTable_eq, Option.map_eq_some_iff] at h
  obtain ⟨count, hcount, -⟩ := h
  obtain ⟨row, hrow, -⟩ := Option.map_eq_some_iff.1 hcount
  obtain ⟨hlt, hlabel, -⟩ := List.findIdx?_eq_some_iff_getElem.1 hrow
  exact List.mem_filterMap.2 ⟨_, List.getElem_mem hlt, of_decide_eq_true hlabel⟩

theorem forall₂_of_forall₂ {α β γ : Type} {R : α → β → Prop} {S : α → γ → Prop} {T : β → γ → Prop}
    (hstep : ∀ x y z, R x y → S x z → T y z) {xs : List α} {ys : List β} {zs : List γ}
    (hys : List.Forall₂ R xs ys) (hzs : List.Forall₂ S xs zs) : List.Forall₂ T ys zs := by
  induction hys generalizing zs with
  | nil =>
    cases hzs
    exact .nil
  | cons hy _ ih =>
    cases hzs with
    | cons hz hzs => exact .cons (hstep _ _ _ hy hz) (ih hzs)

section
variable {f : List Char → List Char} {source source' : String}
  (hcontent : List.Forall₂ (Respells f) (content source) (content source'))
include hcontent

theorem labelNames_of_content : labelNames source' = (labelNames source).map f := by
  rw [← filterMap_label_content, ← filterMap_label_content, filterMap_label_respells hcontent]

/-- A label keeps its address under its new name. -/
theorem lookup_of_content (hnodup : ((labelNames source).map f).Nodup) {name : String}
    {address : UInt16} (h : (labelTable (statementsOf source)).lookup name = some address) :
    (labelTable (statementsOf source')).lookup (String.ofList (f name.toList)) = some address := by
  have hmem := mem_labelNames_of_lookup h
  rw [← h, lookup_labelTable_eq, lookup_labelTable_eq, ← codeBefore?_content,
    ← codeBefore?_content, codeBefore?_respells hcontent, String.ofList_toList]
  rw [filterMap_label_content]
  -- Names that are distinct after the change are distinct before it.
  exact fun other hother hsame => List.inj_on_of_nodup_map hnodup hother hmem hsame

/-- Under their new names the labels are still names, and still different ones. -/
theorem labelProblemAt?_of_content (hf : ∀ word, upper (f word) = upper word)
    (hname : ∀ name ∈ labelNames source, isIdentifier name = true)
    (hnodup : ((labelNames source).map f).Nodup) :
    ∀ row, labelProblemAt? (statementsOf source') row = none := by
  apply labelProblemAt?_of_nodup
  · show ∀ name ∈ labelNames source', isIdentifier name = true
    rw [labelNames_of_content hcontent, List.forall_mem_map]
    intro name hmem
    rw [isIdentifier_respell hf]
    exact hname name hmem
  · show (labelNames source').Nodup
    rwa [labelNames_of_content hcontent]

/-- The second pass comes by the same statements, on other lines. -/
theorem code_of_content :
    List.Forall₂ (fun p q : Nat × Statement => Respells f p.2 q.2)
      ((Statement.ofSource source).filter fun p => p.2.isCode)
      ((Statement.ofSource source').filter fun p => p.2.isCode) := by
  have hcode : List.Forall₂ (Respells f)
      (((Statement.ofSource source).filter fun p => p.2.isCode).map Prod.snd)
      (((Statement.ofSource source').filter fun p => p.2.isCode).map Prod.snd) := by
    rw [← filter_isCode_statementsOf, ← filter_isCode_statementsOf, ← filter_isCode_content,
      ← filter_isCode_content]
    exact filter_isCode_respells hcontent
  rwa [List.forall₂_map_left_iff, List.forall₂_map_right_iff] at hcode

end

/-- The program of a text that can be assembled is that of every text with the same content, in
    whatever spelling, as long as the names of the labels are distinct in upper case. -/
theorem assemble_of_content {f : List Char → List Char} (hf : ∀ word, upper (f word) = upper word)
    {source source' : String} {image : List UInt8} (h : assemble source = .ok image)
    (hdistinct : ((labelNames source).map upper).Nodup)
    (hcontent : List.Forall₂ (Respells f) (content source) (content source')) :
    assemble source' = .ok image ∧ ((labelNames source').map upper).Nodup := by
  have hupper : (labelNames source').map upper = (labelNames source).map upper := by
    rw [labelNames_of_content hcontent, List.map_map]
    exact List.map_congr_left fun name _ => hf name
  rw [hupper]
  refine ⟨?_, hdistinct⟩
  -- Names that are distinct in upper case are distinct in any spelling between.
  have hnodup : ((labelNames source).map f).Nodup := by
    rw [← hupper, labelNames_of_content hcontent] at hdistinct
    exact hdistinct.of_map
  rw [assemble_eq_emit
    (labelProblemAt?_of_content hcontent hf (isIdentifier_of_assemble h) hnodup)]
  rw [assemble_eq_emit (labelProblemAt?_of_assemble h)] at h
  -- Each statement has the word that it had.
  obtain ⟨words, hwords, rfl, hroom⟩ := exists_words_of_emit (Nat.zero_le _) h
  refine emit_of_words ?_ hroom
  refine forall₂_of_forall₂ (fun p q w hs hword => ?_) (code_of_content hcontent) hwords
  exact wordOf_respells hf (fun _ _ => lookup_of_content hcontent hnodup) hs hword q.1

/-! ## Changes of a source text -/

/-- Source texts of which one is made from the other by a change of case or layout. -/
inductive Relaid : String → String → Prop where
  /-- The whole text is put in upper case. -/
  | upperCase (source : String) : Relaid source (String.ofList (upper source.toList))
  /-- In each line a comment or a run of blanks is changed, or nothing. -/
  | respaced {source source' : String}
      (hlines : List.Forall₂ Respaced (source.toList.splitOn '\n') (source'.toList.splitOn '\n')) :
      Relaid source source'
  /-- A line is inserted that is blank up to a comment. -/
  | inserted {source source' : String} {above below : List (List Char)} {line : List Char}
      (hblank : codeOf line = []) (hsource : source.toList.splitOn '\n' = above ++ below)
      (hsource' : source'.toList.splitOn '\n' = above ++ line :: below) : Relaid source source'
  /-- A line is removed that is blank up to a comment. -/
  | removed {source source' : String} {above below : List (List Char)} {line : List Char}
      (hblank : codeOf line = []) (hsource : source.toList.splitOn '\n' = above ++ line :: below)
      (hsource' : source'.toList.splitOn '\n' = above ++ below) : Relaid source source'

/-- A text with a carriage return in front of each newline. -/
def withReturns (source : String) : String :=
  String.ofList (source.toList.flatMap fun c => if c = '\n' then ['\r', '\n'] else [c])

/-- Carriage returns are blanks at the ends of lines. -/
theorem relaid_withReturns (source : String) : Relaid source (withReturns source) := by
  apply Relaid.respaced
  rw [withReturns, String.toList_ofList]
  have hline : ∀ {line : List Char}, '\n' ∉ line →
      line.flatMap (fun c => if c = '\n' then ['\r', '\n'] else [c]) = line := by
    intro line hnot
    induction line with
    | nil => rfl
    | cons c cs ih =>
      rw [List.mem_cons, not_or] at hnot
      rw [List.flatMap_cons, ih hnot.2, if_neg (Ne.symm hnot.1)]
      rfl
  -- On the lines of the text, each with its newline but the last.
  induction source.toList using separated_induction '\n' with
  | last line hnot =>
    rw [hline hnot, List.splitOn_eq_singleton hnot]
    exact .cons (.refl _) .nil
  | more line rest hnot ih =>
    rw [List.flatMap_append, List.flatMap_cons, hline hnot, if_pos rfl]
    -- What is behind the newline plays no role for the line before it.
    generalize List.flatMap _ rest = rest' at ih ⊢
    have hsplit : line ++ (['\r', '\n'] ++ rest') = line ++ ['\r'] ++ '\n' :: rest' := by simp
    have hreturn : '\n' ∉ line ++ ['\r'] := by simpa using hnot
    have hspaced : Respaced (line ++ [] ++ []) (line ++ ['\r'] ++ []) :=
      .loose (List.forall_mem_nil _) (List.forall_mem_singleton.2 rfl) (.inr nofun)
    rw [List.append_nil, List.append_nil, List.append_nil] at hspaced
    rw [hsplit, List.splitOn_append_cons_self_of_not_mem hnot,
      List.splitOn_append_cons_self_of_not_mem hreturn]
    exact .cons hspaced ih

/-! ## Content of a changed text -/

theorem content_upper (source : String) :
    List.Forall₂ (Respells upper) (content source)
      (content (String.ofList (upper source.toList))) := by
  rw [content_eq, content_eq, String.toList_ofList, splitOn_upper rfl, List.map_map]
  apply filter_hasContent_respells
  rw [List.forall₂_map_left_iff, List.forall₂_map_right_iff, List.forall₂_same]
  exact fun line _ => respells_upper line

theorem content_of_respaced {source source' : String}
    (hlegible : ∀ line ∈ source.toList.splitOn '\n', (ofLine line).Legible)
    (h : List.Forall₂ Respaced (source.toList.splitOn '\n') (source'.toList.splitOn '\n')) :
    List.Forall₂ (Respells id) (content source) (content source') := by
  rw [content_eq, content_eq]
  apply filter_hasContent_respells
  rw [List.forall₂_map_left_iff, List.forall₂_map_right_iff]
  have hall := (List.forall₂_and_left _ _).2 ⟨hlegible, h⟩
  exact hall.imp fun line line' ⟨hline, hspaced⟩ => respells_of_respaced hspaced hline

theorem content_of_inserted {source source' : String} {above below : List (List Char)}
    {line : List Char} (hblank : codeOf line = [])
    (h : source.toList.splitOn '\n' = above ++ below)
    (h' : source'.toList.splitOn '\n' = above ++ line :: below) :
    content source' = content source := by
  have hline : ofLine line = { label := none, body := [] } := by
    have hcolon : ':' ∉ codeOf line := by simp [hblank]
    rw [ofLine_of_not_mem hcolon, hblank]
  have hnone : ¬(ofLine line).hasContent = true := by simp [hline, hasContent, isCode]
  rw [content_eq, content_eq, h, h', List.map_append, List.map_append, List.map_cons,
    List.filter_append, List.filter_append, List.filter_cons_of_neg hnone]

/-- In a text that can be assembled every line is made of words. -/
theorem legible_of_assemble {source : String} {image : List UInt8}
    (h : assemble source = .ok image) :
    ∀ line ∈ source.toList.splitOn '\n', (ofLine line).Legible := by
  intro line hline
  have hmem : (ofLine line).hasContent = true → ofLine line ∈ statementsOf source := by
    intro hcontent
    apply List.mem_of_mem_filter (p := hasContent)
    show ofLine line ∈ content source
    rw [content_eq]
    exact List.mem_filter.2 ⟨List.mem_map_of_mem hline, hcontent⟩
  constructor
  · intro name hlabel
    have hcontent : (ofLine line).hasContent = true := by simp [hasContent, hlabel]
    exact isPlain_of_isIdentifier (isIdentifier_of_assemble h name
      (List.mem_filterMap.2 ⟨_, hmem hcontent, hlabel⟩))
  · by_cases hcode : (ofLine line).isCode = true
    · have hcontent : (ofLine line).hasContent = true := by simp [hasContent, hcode]
      obtain ⟨labels, words, -, hwords, -⟩ := exists_words_of_assemble h
      obtain ⟨w, number, hword⟩ :=
        hwords.exists_of_mem (List.mem_filter.2 ⟨hmem hcontent, hcode⟩)
      obtain ⟨t, hbody, -⟩ := wordOf_eq_ok_iff.1 hword
      exact legibleBody_of_ofBody hbody
    · have hbody : (ofLine line).body = [] := by simpa [isCode] using hcode
      rw [hbody]
      exact legibleBody_nil

/-! ## The same program -/

/-- A change of case or layout leaves the program as it is, and the names of the labels distinct
    in upper case. -/
theorem assemble_of_relaid {source source' : String} {image : List UInt8}
    (hrelaid : Relaid source source') (h : assemble source = .ok image)
    (hdistinct : ((labelNames source).map upper).Nodup) :
    assemble source' = .ok image ∧ ((labelNames source').map upper).Nodup := by
  have hid : ∀ word, upper (id word) = upper word := fun _ => rfl
  have hsame : ∀ statements, List.Forall₂ (Respells id) statements statements :=
    fun statements => List.forall₂_same.2 fun s _ => .refl s
  cases hrelaid with
  | upperCase => exact assemble_of_content upper_upper h hdistinct (content_upper source)
  | respaced hlines =>
    exact assemble_of_content hid h hdistinct (content_of_respaced (legible_of_assemble h) hlines)
  | inserted hblank hsource hsource' =>
    apply assemble_of_content hid h hdistinct
    rw [content_of_inserted hblank hsource hsource']
    exact hsame _
  | removed hblank hsource hsource' =>
    apply assemble_of_content hid h hdistinct
    rw [content_of_inserted hblank hsource' hsource]
    exact hsame _

/-- Layout and case do not matter.  A source text that can be assembled, and whose labels have
    names that stay distinct in upper case, is assembled to the same program after any changes of
    case and layout: in upper case, with other comments, with lines more or less that are blank up
    to a comment, with other blanks at the ends of lines and beside colons and commas, and with
    more or fewer blanks where there are some. -/
theorem assemble_relaid {source source' : String} {image : List UInt8}
    (h : assemble source = .ok image) (hdistinct : ((labelNames source).map upper).Nodup)
    (hrelaid : Relation.ReflTransGen Relaid source source') : assemble source' = .ok image := by
  have hkept : assemble source' = .ok image ∧ ((labelNames source').map upper).Nodup := by
    induction hrelaid with
    | refl => exact ⟨h, hdistinct⟩
    | tail _ hstep ih => exact assemble_of_relaid hstep ih.1 ih.2
  exact hkept.1

/-- A loop in upper case, with carriage returns, with a line that is only a comment, and with
    blanks in front of the colon and behind the mnemonic. -/
theorem assemble_relaid_of_loop :
    assemble "loop: ld v1, 2\njp loop" = .ok [0x61, 0x02, 0x12, 0x00] ∧
      assemble "LOOP : LD V1, 2\r\n; again:\nJP   LOOP" = .ok [0x61, 0x02, 0x12, 0x00] := by
  have h : assemble "loop: ld v1, 2\njp loop" = .ok [0x61, 0x02, 0x12, 0x00] := by decide +kernel
  have hupper : String.ofList (upper "loop: ld v1, 2\njp loop".toList) =
      "LOOP: LD V1, 2\nJP LOOP" := by decide +kernel
  have hreturns : withReturns "LOOP: LD V1, 2\nJP LOOP" = "LOOP: LD V1, 2\r\nJP LOOP" := by
    decide +kernel
  have hfirst : Relaid "loop: ld v1, 2\njp loop" "LOOP: LD V1, 2\nJP LOOP" :=
    hupper ▸ .upperCase _
  have hsecond : Relaid "LOOP: LD V1, 2\nJP LOOP" "LOOP: LD V1, 2\r\nJP LOOP" :=
    hreturns ▸ relaid_withReturns _
  have hthird : Relaid "LOOP: LD V1, 2\r\nJP LOOP" "LOOP: LD V1, 2\r\n; again:\nJP LOOP" :=
    @Relaid.inserted _ _ ["LOOP: LD V1, 2\r".toList] ["JP LOOP".toList] "; again:".toList
      (by decide +kernel) (by decide +kernel) (by decide +kernel)
  have hfourth : Relaid "LOOP: LD V1, 2\r\n; again:\nJP LOOP"
      "LOOP : LD V1, 2\r\n; again:\nJP   LOOP" := by
    have hlines : "LOOP: LD V1, 2\r\n; again:\nJP LOOP".toList.splitOn '\n' =
        ["LOOP: LD V1, 2\r".toList, "; again:".toList, "JP LOOP".toList] := by decide +kernel
    have hlines' : "LOOP : LD V1, 2\r\n; again:\nJP   LOOP".toList.splitOn '\n' =
        ["LOOP : LD V1, 2\r".toList, "; again:".toList, "JP   LOOP".toList] := by decide +kernel
    apply Relaid.respaced
    rw [hlines, hlines']
    refine .cons ?_ (.cons (.refl _) (.cons ?_ .nil))
    · show Respaced ("LOOP".toList ++ [] ++ ": LD V1, 2\r".toList)
        ("LOOP".toList ++ [' '] ++ ": LD V1, 2\r".toList)
      exact .loose (List.forall_mem_nil _) (List.forall_mem_singleton.2 rfl)
        (.inr fun c hc => .inl (Option.some.inj hc).symm)
    · show Respaced ("JP".toList ++ [' '] ++ "LOOP".toList)
        ("JP".toList ++ [' ', ' ', ' '] ++ "LOOP".toList)
      exact .stretch (List.all_eq_true.1 rfl) (List.all_eq_true.1 rfl) nofun nofun
  refine ⟨h, assemble_relaid h (by decide +kernel) ?_⟩
  exact .head hfirst (.head hsecond (.head hthird (.single hfourth)))

end Chip8.Assembly
