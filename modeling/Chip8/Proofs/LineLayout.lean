import Chip8.Proofs.InlinedLine
import Chip8.Proofs.Respelling

/-!
# The layout of a line

Comments say nothing, and neither do blanks at the ends of a line or beside a colon or a comma;
and of the blanks between two words it does not matter how many there are.  `Respaced` are the
lines of which one is made from the other by a change of this kind.

A line that can be assembled is read alike in every layout.  This does not hold of all lines: in
a label or in an operand a blank may well be one more or one less character of a malformed
word.  So what is used throughout is that the words of the line contain neither blanks nor
separators.

## Key results

- `trim_gap`, `tokensOf_gap`, `body_gap`: blanks that change in a word, between commas and in a
  body
- `respells_of_respaced`: lines that differ in their layout have the same words
-/

namespace Chip8.Assembly

open Text

/-! ## Changes of the layout -/

/-- Two parts of a line of which one is empty or borders on the other with a colon or a comma. -/
def Loose (front rest : List Char) : Prop :=
  (∀ c ∈ front.getLast?, c = ':' ∨ c = ',') ∨ ∀ c ∈ rest.head?, c = ':' ∨ c = ','

/-- Lines that differ in their comments or in a run of blanks. -/
inductive Respaced : List Char → List Char → Prop where
  /-- A comment is written, deleted or changed. -/
  | comment {code old new : List Char} (hcode : ';' ∉ code) (hold : ∀ c ∈ old.head?, c = ';')
      (hnew : ∀ c ∈ new.head?, c = ';') : Respaced (code ++ old) (code ++ new)
  /-- Blanks come and go at an end of the line or beside a colon or a comma. -/
  | loose {front gap gap' rest : List Char} (hgap : ∀ c ∈ gap, isBlank c = true)
      (hgap' : ∀ c ∈ gap', isBlank c = true) (hloose : Loose front rest) :
      Respaced (front ++ gap ++ rest) (front ++ gap' ++ rest)
  /-- Blanks become more or fewer where there are some. -/
  | stretch {front gap gap' rest : List Char} (hgap : ∀ c ∈ gap, isBlank c = true)
      (hgap' : ∀ c ∈ gap', isBlank c = true) (hne : gap ≠ []) (hne' : gap' ≠ []) :
      Respaced (front ++ gap ++ rest) (front ++ gap' ++ rest)

theorem Respaced.refl (line : List Char) : Respaced line line := by
  show Respaced ([] ++ [] ++ line) ([] ++ [] ++ line)
  exact .loose (List.forall_mem_nil _) (List.forall_mem_nil _) (.inl nofun)

theorem Loose.of_append_left {front front' rest : List Char} (h : Loose (front ++ front') rest) :
    Loose front' rest := by
  refine h.imp_left fun hlast c hc => hlast c ?_
  rw [List.getLast?_append, Option.mem_def.1 hc]
  rfl

theorem Loose.of_append_right {front rest rest' : List Char} (h : Loose front (rest ++ rest')) :
    Loose front rest := by
  refine h.imp_right fun hhead c hc => hhead c ?_
  rw [List.head?_append, Option.mem_def.1 hc]
  rfl

/-- Where neither part is empty, there is a colon or a comma at the border. -/
theorem Loose.exists_border {front rest : List Char} (h : Loose front rest) (hfront : front ≠ [])
    (hrest : rest ≠ []) : ∃ c, (c = ':' ∨ c = ',') ∧
      (front.getLast? = some c ∨ rest.head? = some c) := by
  rcases h with hlast | hhead
  · have hget := List.getLast?_eq_some_getLast hfront
    exact ⟨_, hlast _ hget, .inl hget⟩
  · have hget := List.head?_eq_some_head hrest
    exact ⟨_, hhead _ hget, .inr hget⟩

theorem mem_of_border {front rest : List Char} {c : Char}
    (h : front.getLast? = some c ∨ rest.head? = some c) (gap : List Char) :
    c ∈ front ++ gap ++ rest := by
  rcases h with hlast | hhead
  · exact List.mem_append_left _ (List.mem_append_left _ (List.mem_of_getLast? hlast))
  · exact List.mem_append_right _ (List.mem_of_head? hhead)

/-! ## Words -/

section
variable {front gap gap' rest : List Char} (hgap : ∀ c ∈ gap, isBlank c = true)
  (hgap' : ∀ c ∈ gap', isBlank c = true)
include hgap hgap'

/-- Next to a text of blanks alone, blanks are trimmed off anyway. -/
theorem trim_gap_of_blank (h : (∀ c ∈ front, isBlank c = true) ∨ ∀ c ∈ rest, isBlank c = true) :
    trim (front ++ gap ++ rest) = trim (front ++ gap' ++ rest) := by
  have happend : ∀ {xs ys : List Char}, (∀ c ∈ xs, isBlank c = true) →
      (∀ c ∈ ys, isBlank c = true) → ∀ c ∈ xs ++ ys, isBlank c = true :=
    fun hxs hys c hc => (List.mem_append.1 hc).elim (hxs c) (hys c)
  rcases h with hfront | hrest
  · -- Whatever is left of the border is blank, so only the right part is kept.
    rw [trim_blanks_append (happend hfront hgap), trim_blanks_append (happend hfront hgap')]
  · rw [List.append_assoc, List.append_assoc, trim_append_blanks _ (happend hgap hrest),
      trim_append_blanks _ (happend hgap' hrest)]

omit hgap hgap' in
/-- A character that is no blank is not in a run of blanks. -/
theorem not_mem_append_blanks {c : Char} (hfront : c ∉ front) {bs : List Char}
    (hbs : ∀ b ∈ bs, isBlank b = true) (hc : isBlank c = false) (hrest : c ∉ rest) :
    c ∉ front ++ bs ++ rest := by
  rw [List.mem_append, List.mem_append]
  rintro ((hmem | hmem) | hmem)
  · exact hfront hmem
  · rw [hbs c hmem] at hc
    exact nomatch hc
  · exact hrest hmem

/-- In a text that is a word once it is trimmed, blanks change at its ends only. -/
theorem trim_gap (h : Loose front rest ∨ gap ≠ [] ∧ gap' ≠ [])
    (hplain : ∀ c ∈ trim (front ++ gap ++ rest), isPlain c = true) :
    trim (front ++ gap ++ rest) = trim (front ++ gap' ++ rest) := by
  -- Otherwise both parts have a character of the word, and the border lies within it.
  apply trim_gap_of_blank hgap hgap'
  by_contra! hword
  simp only [ne_eq, Bool.not_eq_true] at hword
  obtain ⟨⟨c, hc, hcblank⟩, d, hd, hdblank⟩ := hword
  rcases h with hloose | ⟨hne, -⟩
  · -- The colon or the comma is part of the word.
    obtain ⟨e, he, hmem⟩ := hloose.exists_border (List.ne_nil_of_mem hc) (List.ne_nil_of_mem hd)
    have hmem := mem_of_border hmem gap
    rcases he with rfl | rfl
    · exact absurd (hplain _ (mem_trim_of_mem hmem (by decide))) (by decide)
    · exact absurd (hplain _ (mem_trim_of_mem hmem (by decide))) (by decide)
  · -- The blanks between are part of the word.
    obtain ⟨e, he⟩ := List.exists_mem_of_ne_nil gap hne
    have hblank := not_isBlank_of_isPlain (hplain e (mem_trim_of_between hc hcblank hd hdblank he))
    rw [hgap e he] at hblank
    exact nomatch hblank

/-- Between commas that separate words, blanks change at the ends of the words only. -/
theorem tokensOf_gap (h : Loose front rest ∨ gap ≠ [] ∧ gap' ≠ [])
    (hplain : ∀ token ∈ tokensOf (front ++ gap ++ rest), ∀ c ∈ token, isPlain c = true) :
    tokensOf (front ++ gap ++ rest) = tokensOf (front ++ gap' ++ rest) := by
  induction front using separated_induction ',' with
  | more piece front hpiece ih =>
    -- The blanks are behind the first comma.
    have hsplit : ∀ bs, piece ++ ',' :: front ++ bs ++ rest =
        piece ++ ',' :: (front ++ bs ++ rest) := by simp
    rw [hsplit, tokensOf_append_comma hpiece, List.forall_mem_cons] at hplain
    rw [hsplit, hsplit, tokensOf_append_comma hpiece, tokensOf_append_comma hpiece,
      ih (h.imp_left fun hloose => ?_) hplain.2]
    have hfront : piece ++ ',' :: front = piece ++ [','] ++ front := by simp
    rw [hfront] at hloose
    exact hloose.of_append_left
  -- No comma is left in front of the blanks; there may be one behind them.
  | last piece hpiece =>
    have hcomma : ∀ {bs text : List Char}, (∀ c ∈ bs, isBlank c = true) → ',' ∉ text →
        ',' ∉ piece ++ bs ++ text :=
      fun hbs htext => not_mem_append_blanks hpiece hbs rfl htext
    cases rest using separated_induction ',' with
    | last text htext =>
      rw [tokensOf_of_not_mem (hcomma hgap htext), List.forall_mem_singleton] at hplain
      rw [tokensOf_of_not_mem (hcomma hgap htext), tokensOf_of_not_mem (hcomma hgap' htext),
        trim_gap hgap hgap' h hplain]
    | more text rest htext =>
      have hsplit : ∀ bs, piece ++ bs ++ (text ++ ',' :: rest) =
          piece ++ bs ++ text ++ ',' :: rest := by simp
      rw [hsplit, tokensOf_append_comma (hcomma hgap htext), List.forall_mem_cons] at hplain
      rw [hsplit, hsplit, tokensOf_append_comma (hcomma hgap htext),
        tokensOf_append_comma (hcomma hgap' htext),
        trim_gap hgap hgap' (h.imp_left Loose.of_append_right) hplain.1]

end

/-! ## Bodies -/

/-- In a legible body the blanks behind the first word are needed. -/
theorem not_loose_of_legible {leading word gap rest : List Char}
    (hleading : ∀ c ∈ leading, isBlank c = true) (hword : ∀ c ∈ word, isBlank c = false)
    (hgap : ∀ c ∈ gap, isBlank c = true) (hne : word ≠ []) (hrest : rest ≠ [])
    (hlegible : LegibleBody (trim (leading ++ word ++ gap ++ rest))) :
    ¬Loose (leading ++ word) rest := by
  intro hloose
  obtain ⟨c, hc, hborder⟩ := hloose.exists_border (List.append_ne_nil_of_right_ne_nil _ hne) hrest
  rcases hc with rfl | rfl
  · -- A colon is in no word, and so not in a legible body.
    have hmem := mem_trim_of_mem (mem_of_border hborder gap) (by decide)
    exact absurd (hlegible.isPlain_of_mem hmem (by decide) (by decide)) (by decide)
  · -- A comma is neither the last character of the first word nor the first behind it.
    rcases hborder with hlast | hhead
    · rw [List.getLast?_append_of_ne_nil _ hne] at hlast
      obtain ⟨front, rfl⟩ := List.getLast?_eq_some_iff.1 hlast
      have hfront : ∀ c ∈ front, isBlank c = false :=
        fun c hc => hword c (List.mem_append_left _ hc)
      have hcomma : LegibleBody (trim (leading ++ front ++ ([] ++ ',' :: (gap ++ rest)))) := by
        simpa using hlegible
      exact not_legible_of_comma hleading hfront (List.forall_mem_nil _) (.inr rfl) hcomma
    · obtain ⟨later, rfl⟩ := List.head?_eq_some_iff.1 hhead
      rw [List.append_assoc] at hlegible
      exact not_legible_of_comma hleading hword hgap (.inl hne) hlegible

/-- In a legible body blanks change beside its words only. -/
theorem body_gap {front gap gap' rest : List Char} (hgap : ∀ c ∈ gap, isBlank c = true)
    (hgap' : ∀ c ∈ gap', isBlank c = true) (h : Loose front rest ∨ gap ≠ [] ∧ gap' ≠ [])
    (hlegible : LegibleBody (trim (front ++ gap ++ rest))) :
    firstWord (trim (front ++ gap ++ rest)) = firstWord (trim (front ++ gap' ++ rest)) ∧
      tokensOf (afterFirstWord (trim (front ++ gap ++ rest))) =
        tokensOf (afterFirstWord (trim (front ++ gap' ++ rest))) := by
  -- With one part blank the body is the same text.
  by_cases hblank : (∀ c ∈ front, isBlank c = true) ∨ ∀ c ∈ rest, isBlank c = true
  · rw [trim_gap_of_blank hgap hgap' hblank]
    exact ⟨rfl, rfl⟩
  · push Not at hblank
    simp only [ne_eq, Bool.not_eq_true] at hblank
    obtain ⟨⟨b, hb, hbblank⟩, d, hd, -⟩ := hblank
    -- The first word begins in front of the blanks that change.
    obtain ⟨leading, word, tail, rfl, hleading, hword, hne, htail⟩ := exists_word_of_mem hb hbblank
    by_cases hnil : tail = []
    · -- It ends there, too.
      rw [hnil, List.append_nil] at hlegible h ⊢
      obtain ⟨hgapne, hgapne'⟩ := h.resolve_left
        (not_loose_of_legible hleading hword hgap hne (List.ne_nil_of_mem hd) hlegible)
      have hhead : ∀ {bs : List Char}, (∀ c ∈ bs, isBlank c = true) → bs ≠ [] →
          ∀ c ∈ (bs ++ rest).head?, isBlank c = true := by
        intro bs hbs hne c hc
        rw [List.head?_append_of_ne_nil _ hne] at hc
        exact hbs c (List.mem_of_mem_head? hc)
      obtain ⟨hfirst, hafter⟩ := words_trim hleading hword hne (hhead hgap hgapne)
      obtain ⟨hfirst', hafter'⟩ := words_trim hleading hword hne (hhead hgap' hgapne')
      rw [List.append_assoc _ gap, List.append_assoc _ gap', hfirst, hfirst', hafter, hafter',
        ← tokensOf_trim (gap ++ rest), ← tokensOf_trim (gap' ++ rest), trim_blanks_append hgap,
        trim_blanks_append hgap']
      exact ⟨rfl, rfl⟩
    · -- The blanks are somewhere behind it.
      have hhead : ∀ bs, ∀ c ∈ (tail ++ bs ++ rest).head?, isBlank c = true := by
        intro bs c hc
        rw [List.append_assoc, List.head?_append_of_ne_nil _ hnil] at hc
        exact htail c hc
      have hsplit : ∀ bs, leading ++ word ++ tail ++ bs ++ rest =
          leading ++ word ++ (tail ++ bs ++ rest) := by simp
      have htokens := hlegible.plain
      rw [hsplit] at htokens
      rw [hsplit, hsplit]
      obtain ⟨hfirst, hafter⟩ := words_trim hleading hword hne (hhead gap)
      obtain ⟨hfirst', hafter'⟩ := words_trim hleading hword hne (hhead gap')
      rw [hafter] at htokens
      rw [hfirst, hfirst', hafter, hafter']
      exact ⟨rfl, tokensOf_gap hgap hgap' (h.imp_left Loose.of_append_left) htokens⟩

/-! ## Lines -/

namespace Statement

/-- The label and the body of a statement are made of words. -/
structure Legible (s : Statement) : Prop where
  label : ∀ label, s.label = some label → ∀ c ∈ label, isPlain c = true
  body : LegibleBody s.body

/-- Whether there is a body can be told from its first word. -/
theorem isEmpty_trim (text : List Char) :
    (trim text).isEmpty = (firstWord (trim text)).isEmpty := by
  have hhead := isBlank_head?_trim text
  cases htrim : trim text with
  | nil => rfl
  | cons c cs =>
    rw [htrim] at hhead
    rw [firstWord, List.takeWhile_cons_of_pos (by rw [hhead c rfl]; rfl)]
    rfl

end Statement

theorem ofLine_append_comment {code comment : List Char} (hcode : ';' ∉ code)
    (hcomment : ∀ c ∈ comment.head?, c = ';') :
    Statement.ofLine (code ++ comment) = Statement.ofLine code := by
  have hne : ∀ c ∈ code, decide (c ≠ ';') = true := fun c hc =>
    decide_eq_true (ne_of_mem_of_not_mem hc hcode)
  have hcut : ∀ text : List Char, (∀ c ∈ text.head?, c = ';') →
      Statement.codeOf (code ++ text) = trim code := by
    intro text htext
    rw [Statement.codeOf, (span_append hne fun c hc => by rw [htext c hc]; rfl).1]
  have hsame : Statement.codeOf (code ++ comment) = Statement.codeOf code := by
    rw [hcut comment hcomment, ← hcut [] (by simp), List.append_nil]
  rw [Statement.ofLine, hsame, Statement.ofLine]

section
variable {front gap gap' rest : List Char} (hgap : ∀ c ∈ gap, isBlank c = true)
  (hgap' : ∀ c ∈ gap', isBlank c = true) (h : Loose front rest ∨ gap ≠ [] ∧ gap' ≠ [])
include hgap hgap' h

theorem respells_gap_of_body {label : Option (List Char)}
    (hlegible : LegibleBody (trim (front ++ gap ++ rest))) :
    Statement.Respells id { label, body := trim (front ++ gap ++ rest) }
      { label, body := trim (front ++ gap' ++ rest) } := by
  obtain ⟨hword, htokens⟩ := body_gap hgap hgap' h hlegible
  refine ⟨Option.map_id_apply.symm, hword.symm, ?_, ?_⟩
  · rw [List.map_id]
    exact htokens.symm
  · rw [Statement.isCode, Statement.isCode, Statement.isEmpty_trim, Statement.isEmpty_trim, hword]

/-- Blanks change in the label of a line without a comment, or in its body. -/
theorem respells_gap_of_not_mem (hfront : ';' ∉ front) (hrest : ';' ∉ rest)
    (hlegible : (Statement.ofLine (front ++ gap ++ rest)).Legible) :
    Statement.Respells id (Statement.ofLine (front ++ gap ++ rest))
      (Statement.ofLine (front ++ gap' ++ rest)) := by
  have hcode : ∀ {bs : List Char}, (∀ c ∈ bs, isBlank c = true) →
      (front ++ bs ++ rest).takeWhile (· ≠ ';') = front ++ bs ++ rest := by
    intro bs hbs
    rw [List.takeWhile_eq_self_iff]
    intro c hc
    exact decide_eq_true (ne_of_mem_of_not_mem hc (not_mem_append_blanks hfront hbs rfl hrest))
  by_cases hcolon : ':' ∈ front
  · -- The blanks are part of the body, behind a label.
    obtain ⟨label, front, rfl, hlabel⟩ := List.eq_append_cons_of_mem hcolon
    have hloose : Loose front rest ∨ gap ≠ [] ∧ gap' ≠ [] := by
      refine h.imp_left fun hloose => ?_
      have hsplit : label ++ ':' :: front = label ++ [':'] ++ front := by simp
      rw [hsplit] at hloose
      exact hloose.of_append_left
    have hline : ∀ {bs : List Char}, (∀ c ∈ bs, isBlank c = true) →
        Statement.ofLine (label ++ ':' :: front ++ bs ++ rest) =
          { label := some (trim label), body := trim (front ++ bs ++ rest) } :=
      fun hbs => ofLine_of_colon ((hcode hbs).trans (by simp)) hlabel
    rw [hline hgap] at hlegible
    rw [hline hgap, hline hgap']
    exact respells_gap_of_body hgap hgap' hloose hlegible.body
  · by_cases hcolon' : ':' ∈ rest
    · -- The blanks are part of the label.
      obtain ⟨label, rest, rfl, hlabel⟩ := List.eq_append_cons_of_mem hcolon'
      have hline : ∀ {bs : List Char}, (∀ c ∈ bs, isBlank c = true) →
          Statement.ofLine (front ++ bs ++ (label ++ ':' :: rest)) =
            { label := some (trim (front ++ bs ++ label)), body := trim rest } :=
        fun hbs => ofLine_of_colon ((hcode hbs).trans (by simp))
          (not_mem_append_blanks hcolon hbs rfl hlabel)
      rw [hline hgap] at hlegible
      rw [hline hgap, hline hgap', trim_gap hgap hgap' (h.imp_left Loose.of_append_right)
        (hlegible.label _ rfl)]
      exact .refl _
    · -- The line is all body.
      have hline : ∀ {bs : List Char}, (∀ c ∈ bs, isBlank c = true) →
          Statement.ofLine (front ++ bs ++ rest) =
            { label := none, body := trim (front ++ bs ++ rest) } := by
        intro bs hbs
        rw [ofLine_of_not_mem, Statement.codeOf, hcode hbs]
        rw [Statement.codeOf, hcode hbs]
        exact fun hmem => not_mem_append_blanks hcolon hbs rfl hcolon' (mem_of_mem_trim hmem)
      rw [hline hgap] at hlegible
      rw [hline hgap, hline hgap']
      exact respells_gap_of_body hgap hgap' h hlegible.body

/-- Blanks change in a comment, or in front of it. -/
theorem respells_gap (hlegible : (Statement.ofLine (front ++ gap ++ rest)).Legible) :
    Statement.Respells id (Statement.ofLine (front ++ gap ++ rest))
      (Statement.ofLine (front ++ gap' ++ rest)) := by
  by_cases hcomment : ';' ∈ front
  · obtain ⟨code, comment, rfl, hcode⟩ := List.eq_append_cons_of_mem hcomment
    have hsame : ∀ bs, Statement.ofLine (code ++ ';' :: comment ++ bs ++ rest) =
        Statement.ofLine code := by
      intro bs
      rw [List.append_assoc, List.append_assoc]
      exact ofLine_append_comment hcode (by simp)
    rw [hsame, hsame]
    exact .refl _
  · have hsplit : rest.takeWhile (· ≠ ';') ++ rest.dropWhile (· ≠ ';') = rest :=
      List.takeWhile_append_dropWhile
    have hrest : ';' ∉ rest.takeWhile (· ≠ ';') := fun hmem =>
      absurd (List.mem_takeWhile_imp hmem) (by decide)
    have hsame : ∀ {bs : List Char}, (∀ c ∈ bs, isBlank c = true) →
        Statement.ofLine (front ++ bs ++ rest) =
          Statement.ofLine (front ++ bs ++ rest.takeWhile (· ≠ ';')) := by
      intro bs hbs
      conv_lhs => rw [← hsplit, ← List.append_assoc]
      refine ofLine_append_comment (not_mem_append_blanks hcomment hbs rfl hrest) fun c hc => ?_
      simpa using head?_dropWhile (· ≠ ';') rest c hc
    -- The comment in the right part goes first, on both sides.
    rw [← hsplit] at h
    rw [hsame hgap] at hlegible
    rw [hsame hgap, hsame hgap']
    exact respells_gap_of_not_mem hgap hgap' (h.imp_left Loose.of_append_right) hcomment hrest
      hlegible

end

/-- A line that is made of words has the same words in every layout. -/
theorem respells_of_respaced {line line' : List Char} (h : Respaced line line')
    (hlegible : (Statement.ofLine line).Legible) :
    Statement.Respells id (Statement.ofLine line) (Statement.ofLine line') := by
  cases h with
  | comment hcode hold hnew =>
    rw [ofLine_append_comment hcode hold, ofLine_append_comment hcode hnew]
    exact .refl _
  | loose hgap hgap' hloose => exact respells_gap hgap hgap' (.inl hloose) hlegible
  | stretch hgap hgap' hne hne' => exact respells_gap hgap hgap' (.inr ⟨hne, hne'⟩) hlegible

end Chip8.Assembly
