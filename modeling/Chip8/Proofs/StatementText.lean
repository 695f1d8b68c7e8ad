import Chip8.Assembly.Statement
import Chip8.Assembly.Template
import Chip8.Instruction.Text
import Mathlib.Data.List.TakeWhile

/-!
# Written statements are read as they were written

A written statement is its mnemonic, a blank, and its operands between commas.  Reading
cuts comments off, looks for a label, trims, and splits at blanks and commas.  As long as
no operand contains a character that means something to these passes, each of them finds
what was written.

## Key results

- `ofLine_statementText`: a written statement is a line without a label and a comment
- `firstWord_statementText`: its first word is the mnemonic
- `operandsOf_statementText`: its operands are read one by one
- `lines_intercalate`, `lines_flatMap`: written lines are the lines of the text
-/

namespace Chip8.Text

/-! ## Trimming and splitting -/

/-- A character that no pass over a statement treats in a way of its own. -/
def isPlain (c : Char) : Bool := !isBlank c && c != ',' && c != ';' && c != ':'

/-- A text of plain characters, at least one of them. -/
structure IsToken (cs : List Char) : Prop where
  ne_nil : cs ≠ []
  plain : ∀ c ∈ cs, isPlain c = true

instance (cs : List Char) : Decidable (IsToken cs) :=
  decidable_of_iff ((!cs.isEmpty && cs.all isPlain) = true) <| by
    rw [Bool.and_eq_true, Bool.not_eq_true', List.isEmpty_eq_false_iff, List.all_eq_true]
    exact ⟨fun h => ⟨h.1, h.2⟩, fun h => ⟨h.ne_nil, h.plain⟩⟩

theorem not_isBlank_of_isPlain {c : Char} (h : isPlain c = true) : isBlank c = false := by
  simp only [isPlain, Bool.and_eq_true, Bool.not_eq_true'] at h
  exact h.1.1.1

/-- A newline is a blank, so a token stays on its line. -/
theorem ne_of_isPlain {c : Char} (h : isPlain c = true) :
    c ≠ ',' ∧ c ≠ ';' ∧ c ≠ ':' ∧ c ≠ '\n' := by
  refine ⟨?_, ?_, ?_, ?_⟩ <;> (rintro rfl; exact absurd h (by decide))

/-- Trimming changes nothing where there is no blank at either end. -/
theorem trim_eq_self {cs : List Char} (hhead : ∀ c ∈ cs.head?, isBlank c = false)
    (hlast : ∀ c ∈ cs.getLast?, isBlank c = false) : trim cs = cs := by
  have hdrop : ∀ ds : List Char, (∀ c ∈ ds.head?, isBlank c = false) →
      ds.dropWhile isBlank = ds := by
    intro ds h
    cases ds with
    | nil => rfl
    | cons d ds => exact List.dropWhile_cons_of_neg (by simp [h d rfl])
  -- Both ends are the same problem, one of them in the reversed text.
  have hleft : trimLeft cs = cs := hdrop cs hhead
  rw [trim, hleft, trimRight, hdrop cs.reverse (by rwa [List.head?_reverse]), List.reverse_reverse]

theorem trim_eq_self_of_isToken {cs : List Char} (h : IsToken cs) : trim cs = cs := by
  refine trim_eq_self (fun c hc => ?_) (fun c hc => ?_)
  · exact not_isBlank_of_isPlain (h.plain c (List.mem_of_mem_head? hc))
  · exact not_isBlank_of_isPlain (h.plain c (List.mem_of_mem_getLast? hc))

/-- A leading blank is trimmed off. -/
theorem trim_blank_cons {c : Char} {cs : List Char} (h : isBlank c = true) :
    trim (c :: cs) = trim cs := by
  rw [trim, trim, trimLeft, List.dropWhile_cons_of_pos h, trimLeft]

/-- The first word ends at the first blank. -/
theorem firstWord_append_blank {word rest : List Char} (h : ∀ c ∈ word, isBlank c = false) :
    firstWord (word ++ ' ' :: rest) = word := by
  have hword : ∀ c ∈ word, (!isBlank c) = true := fun c hc => by rw [h c hc]; rfl
  rw [firstWord, List.takeWhile_append_of_pos hword, List.takeWhile_cons_of_neg (by decide),
    List.append_nil]

theorem afterFirstWord_append_blank {word rest : List Char} (h : ∀ c ∈ word, isBlank c = false) :
    afterFirstWord (word ++ ' ' :: rest) = trim rest := by
  have hword : ∀ c ∈ word, (!isBlank c) = true := fun c hc => by rw [h c hc]; rfl
  rw [afterFirstWord, List.dropWhile_append_of_pos hword, List.dropWhile_cons_of_neg (by decide),
    trim_blank_cons (by decide)]

/-- Between tokens a comma and a blank may as well be a comma alone, with the blank at the
    start of the next token. -/
private theorem intercalate_comma_blank (token : List Char) (tokens : List (List Char)) :
    [',', ' '].intercalate (token :: tokens) =
      [','].intercalate (token :: tokens.map (' ' :: ·)) := by
  induction tokens generalizing token with
  | nil => simp
  | cons next tokens ih =>
    rw [List.intercalate_cons_cons, ih, List.map_cons, List.intercalate_cons_cons,
      List.intercalate_cons_cons_left]
    simp

/-- Between tokens there are only commas and blanks. -/
theorem of_mem_intercalate {tokens : List (List Char)} {c : Char}
    (h : c ∈ [',', ' '].intercalate tokens) : (∃ token ∈ tokens, c ∈ token) ∨ c = ',' ∨ c = ' ' := by
  induction tokens with
  | nil => exact nomatch h
  | cons token tokens ih =>
    cases tokens with
    | nil =>
      rw [List.intercalate_singleton] at h
      exact .inl ⟨token, List.mem_cons_self, h⟩
    | cons next tokens =>
      rw [List.intercalate_cons_cons, List.mem_append, List.mem_append] at h
      rcases h with (h | h) | h
      · exact .inl ⟨token, List.mem_cons_self, h⟩
      · simp only [List.mem_cons, List.not_mem_nil, or_false] at h
        exact .inr h
      · rcases ih h with ⟨t, ht, hc⟩ | hc
        · exact .inl ⟨t, List.mem_cons_of_mem _ ht, hc⟩
        · exact .inr hc

/-- Tokens between commas end in the last character of a token. -/
theorem exists_getLast?_intercalate {tokens : List (List Char)} (hne : tokens ≠ [])
    (h : ∀ token ∈ tokens, IsToken token) :
    ∃ c, ([',', ' '].intercalate tokens).getLast? = some c ∧ isPlain c = true := by
  induction tokens with
  | nil => exact absurd rfl hne
  | cons token tokens ih =>
    cases tokens with
    | nil =>
      have htoken := h token List.mem_cons_self
      refine ⟨token.getLast htoken.ne_nil, ?_, htoken.plain _ (List.getLast_mem _)⟩
      rw [List.intercalate_singleton, List.getLast?_eq_some_getLast]
    | cons next tokens =>
      obtain ⟨c, hlast, hc⟩ :=
        ih (List.cons_ne_nil _ _) fun t ht => h t (List.mem_cons_of_mem _ ht)
      refine ⟨c, ?_, hc⟩
      rw [List.intercalate_cons_cons, List.getLast?_append, hlast, Option.some_or]

/-- Tokens between commas start with the first character of a token. -/
theorem exists_head?_intercalate {tokens : List (List Char)} (hne : tokens ≠ [])
    (h : ∀ token ∈ tokens, IsToken token) :
    ∃ c, ([',', ' '].intercalate tokens).head? = some c ∧ isPlain c = true := by
  cases tokens with
  | nil => exact absurd rfl hne
  | cons token tokens =>
    obtain ⟨hne, hplain⟩ := h token List.mem_cons_self
    cases token with
    | nil => exact absurd rfl hne
    | cons c cs =>
      rw [List.intercalate_cons_cons_left]
      exact ⟨c, rfl, hplain c List.mem_cons_self⟩

theorem trim_intercalate {tokens : List (List Char)} (hne : tokens ≠ [])
    (h : ∀ token ∈ tokens, IsToken token) :
    trim ([',', ' '].intercalate tokens) = [',', ' '].intercalate tokens := by
  obtain ⟨c, hhead, hc⟩ := exists_head?_intercalate hne h
  obtain ⟨d, hlast, hd⟩ := exists_getLast?_intercalate hne h
  refine trim_eq_self (fun b hb => ?_) (fun b hb => ?_)
  · rw [hhead] at hb
    cases hb
    exact not_isBlank_of_isPlain hc
  · rw [hlast] at hb
    cases hb
    exact not_isBlank_of_isPlain hd

/-- Tokens between commas are found again by splitting and trimming. -/
theorem map_trim_splitOn_intercalate {tokens : List (List Char)} (hne : tokens ≠ [])
    (h : ∀ token ∈ tokens, IsToken token) :
    (([',', ' '].intercalate tokens).splitOn ',').map trim = tokens := by
  cases tokens with
  | nil => exact absurd rfl hne
  | cons token tokens =>
    -- A comma stands in no token, so the text is split between tokens and nowhere else.
    have hcomma : ∀ piece ∈ token :: tokens.map (' ' :: ·), ',' ∉ piece := by
      intro piece hpiece hmem
      rcases List.mem_cons.1 hpiece with rfl | hpiece
      · exact (ne_of_isPlain ((h piece List.mem_cons_self).plain _ hmem)).1 rfl
      · obtain ⟨t, ht, rfl⟩ := List.mem_map.1 hpiece
        rcases List.mem_cons.1 hmem with hblank | hmem
        · exact absurd hblank (by decide)
        · exact (ne_of_isPlain ((h t (List.mem_cons_of_mem _ ht)).plain _ hmem)).1 rfl
    -- Trimming then takes the blank off again.
    have hrest : tokens.map (trim ∘ (' ' :: ·)) = tokens := by
      refine (List.map_congr_left fun t ht => ?_).trans (List.map_id _)
      show trim (' ' :: t) = t
      rw [trim_blank_cons (by decide),
        trim_eq_self_of_isToken (h t (List.mem_cons_of_mem _ ht))]
    rw [intercalate_comma_blank, List.splitOn_intercalate ',' hcomma (List.cons_ne_nil _ _),
      List.map_cons, List.map_map, hrest, trim_eq_self_of_isToken (h token List.mem_cons_self)]

/-- The lines of a text that was written line by line. -/
theorem lines_intercalate {texts : List (List Char)} (hne : ∀ text ∈ texts, text ≠ [])
    (h : ∀ text ∈ texts, '\n' ∉ text) : lines (['\n'].intercalate texts) = texts := by
  cases texts with
  | nil => rfl
  | cons text texts =>
    -- The last line is not empty, so no newline has closed it.
    have hlast : (text :: texts).getLast? ≠ some [] := by
      intro heq
      exact hne [] (List.mem_of_getLast? heq) rfl
    simp only [lines]
    rw [List.splitOn_intercalate '\n' h (List.cons_ne_nil _ _), if_neg hlast]

/-- A text that was written line by line may as well end in a newline. -/
theorem lines_flatMap {texts : List (List Char)} (h : ∀ text ∈ texts, '\n' ∉ text) :
    lines (texts.flatMap (· ++ ['\n'])) = texts := by
  -- The last newline opens a further piece, which is empty.
  have hpieces : texts.flatMap (· ++ ['\n']) = ['\n'].intercalate (texts ++ [[]]) := by
    clear h
    induction texts with
    | nil => rfl
    | cons text texts ih =>
      rw [List.flatMap_cons, ih, List.cons_append,
        List.intercalate_cons_of_ne_nil (List.append_ne_nil_of_right_ne_nil _ (List.cons_ne_nil _ _))]
  have hnewline : ∀ piece ∈ texts ++ [[]], '\n' ∉ piece := by
    intro piece hmem
    rcases List.mem_append.1 hmem with hmem | hmem
    · exact h piece hmem
    · rw [List.mem_singleton.1 hmem]
      exact List.not_mem_nil
  simp only [lines]
  rw [hpieces, List.splitOn_intercalate '\n' hnewline (List.append_ne_nil_of_right_ne_nil _
    (List.cons_ne_nil _ _)), if_pos List.getLast?_concat, List.dropLast_concat]

end Chip8.Text

namespace Chip8.Assembly

open Text Instruction

/-! ## Written statements -/

/-- A written statement has a blank after its mnemonic if it has operands. -/
theorem toList_statementText_cons (mnemonic operand : String) (operands : List String) :
    (statementText mnemonic (operand :: operands)).toList =
      mnemonic.toList ++ ' ' :: [',', ' '].intercalate ((operand :: operands).map String.toList) := by
  -- Both ways of writing put a comma and a blank in front of each further operand.
  have hfold : ∀ (text : String) (operands : List String),
      (operands.foldl (· ++ ", " ++ ·) text).toList =
        text.toList ++ operands.flatMap fun operand => ',' :: ' ' :: operand.toList := by
    intro text operands
    induction operands generalizing text with
    | nil => simp
    | cons operand operands ih => simp [ih]
  have hintercalate : ∀ (token : List Char) (operands : List String),
      [',', ' '].intercalate (token :: operands.map String.toList) =
        token ++ operands.flatMap fun operand => ',' :: ' ' :: operand.toList := by
    intro token operands
    induction operands generalizing token with
    | nil => simp
    | cons operand operands ih => simp [ih]
  rw [statementText, hfold, List.map_cons, hintercalate]
  simp

/-- The mnemonics are tokens in upper case. -/
theorem isToken_mnemonic (m : Mnemonic) : IsToken m.text.toList := by
  cases m <;> decide

theorem upper_mnemonic (m : Mnemonic) : upper m.text.toList = m.text.toList := by
  cases m <;> decide

section
variable (m : Mnemonic) {operands : List String}

/-- The operands as characters are tokens. -/
private theorem isToken_map (h : ∀ operand ∈ operands, IsToken operand.toList) :
    ∀ token ∈ operands.map String.toList, IsToken token := by
  intro token htoken
  obtain ⟨operand, hmem, rfl⟩ := List.mem_map.1 htoken
  exact h operand hmem

variable (h : ∀ operand ∈ operands, IsToken operand.toList)
include h

/-- A character of a written statement is plain, or a blank or a comma between its parts. -/
private theorem of_mem_statementText {c : Char}
    (hc : c ∈ (statementText m.text operands).toList) : isPlain c = true ∨ c = ',' ∨ c = ' ' := by
  cases operands with
  | nil => exact .inl ((isToken_mnemonic m).plain c hc)
  | cons operand operands =>
    rw [toList_statementText_cons, List.mem_append, List.mem_cons] at hc
    rcases hc with hc | hc | hc
    · exact .inl ((isToken_mnemonic m).plain c hc)
    · exact .inr (.inr hc)
    · rcases of_mem_intercalate hc with ⟨token, htoken, hc⟩ | hc
      · exact .inl ((isToken_map h token htoken).plain c hc)
      · exact .inr hc

/-- A written statement starts no comment, ends no label and ends no line. -/
theorem not_mem_statementText :
    ';' ∉ (statementText m.text operands).toList ∧
      ':' ∉ (statementText m.text operands).toList ∧
      '\n' ∉ (statementText m.text operands).toList := by
  refine ⟨?_, ?_, ?_⟩ <;>
  · intro hmem
    rcases of_mem_statementText m h hmem with hc | hc | hc
    · exact absurd hc (by decide)
    · exact absurd hc (by decide)
    · exact absurd hc (by decide)

/-- A written statement has no blank at either end. -/
theorem trim_statementText :
    trim (statementText m.text operands).toList = (statementText m.text operands).toList := by
  have hm := isToken_mnemonic m
  cases operands with
  | nil => exact trim_eq_self_of_isToken hm
  | cons operand operands =>
    rw [toList_statementText_cons]
    refine trim_eq_self (fun c hc => ?_) (fun c hc => ?_)
    -- The statement starts with the mnemonic and ends with an operand.
    · rw [List.head?_append, List.head?_eq_some_head hm.ne_nil, Option.some_or] at hc
      cases hc
      exact not_isBlank_of_isPlain (hm.plain _ (List.head_mem _))
    · have hne : (operand :: operands).map String.toList ≠ [] := List.cons_ne_nil _ _
      obtain ⟨d, hlast, hd⟩ := exists_getLast?_intercalate hne (isToken_map h)
      rw [List.getLast?_append, List.getLast?_cons, hlast] at hc
      cases hc
      exact not_isBlank_of_isPlain hd

/-- A written statement is a line without a label and without a comment. -/
theorem ofLine_statementText :
    Statement.ofLine (statementText m.text operands).toList =
      { label := none, body := (statementText m.text operands).toList } := by
  obtain ⟨hcomment, hlabel, -⟩ := not_mem_statementText m h
  have hcode : Statement.codeOf (statementText m.text operands).toList =
      (statementText m.text operands).toList := by
    rw [Statement.codeOf, List.takeWhile_eq_self_iff.2, trim_statementText m h]
    intro c hc
    exact decide_eq_true (ne_of_mem_of_not_mem hc hcomment)
  have hcolon : (statementText m.text operands).toList.dropWhile (· ≠ ':') = [] := by
    rw [List.dropWhile_eq_nil_iff]
    intro c hc
    exact decide_eq_true (ne_of_mem_of_not_mem hc hlabel)
  simp only [Statement.ofLine, hcode, hcolon]

omit h in
private theorem isBlank_mnemonic : ∀ c ∈ m.text.toList, isBlank c = false :=
  fun c hc => not_isBlank_of_isPlain ((isToken_mnemonic m).plain c hc)

omit h in
/-- The first word of a written statement is its mnemonic. -/
theorem firstWord_statementText (operands : List String) :
    firstWord (statementText m.text operands).toList = m.text.toList := by
  cases operands with
  | nil =>
    refine List.takeWhile_eq_self_iff.2 fun c hc => ?_
    rw [isBlank_mnemonic m c hc, Bool.not_false]
  | cons operand operands =>
    rw [toList_statementText_cons, firstWord_append_blank (isBlank_mnemonic m)]

/-- The operands of a written statement are read one by one. -/
theorem operandsOf_statementText :
    Template.operandsOf (afterFirstWord (statementText m.text operands).toList) =
      operands.mapM fun operand => Operand.ofToken operand.toList := by
  cases operands with
  | nil =>
    -- A lone mnemonic has nothing behind it.
    have hrest : afterFirstWord (statementText m.text []).toList = [] := by
      rw [statementText, afterFirstWord, List.dropWhile_eq_nil_iff.2, trim_nil]
      intro c hc
      rw [isBlank_mnemonic m c hc]
      rfl
    rw [hrest]
    rfl
  | cons operand operands =>
    have hne : (operand :: operands).map String.toList ≠ [] := List.cons_ne_nil _ _
    have htokens := isToken_map h
    have hrest : afterFirstWord (statementText m.text (operand :: operands)).toList =
        [',', ' '].intercalate ((operand :: operands).map String.toList) := by
      rw [toList_statementText_cons, afterFirstWord_append_blank (isBlank_mnemonic m),
        trim_intercalate hne htokens]
    -- There is something to split, because the first token is not empty.
    obtain ⟨c, hhead, -⟩ := exists_head?_intercalate hne htokens
    have hsome : ([',', ' '].intercalate ((operand :: operands).map String.toList)).isEmpty =
        false := by
      rw [List.isEmpty_eq_false_iff_exists_mem]
      exact ⟨c, List.mem_of_mem_head? hhead⟩
    have hsplit := map_trim_splitOn_intercalate hne htokens
    rw [hrest, Template.operandsOf, if_neg (by rw [hsome]; decide)]
    calc (([',', ' '].intercalate ((operand :: operands).map String.toList)).splitOn ',').mapM
          (fun token => Operand.ofToken (trim token))
        = ((([',', ' '].intercalate ((operand :: operands).map String.toList)).splitOn ',').map
            trim).mapM Operand.ofToken := by rw [List.mapM_map]; rfl
      _ = ((operand :: operands).map String.toList).mapM Operand.ofToken := by rw [hsplit]
      _ = (operand :: operands).mapM fun operand => Operand.ofToken operand.toList := by
          rw [List.mapM_map]; rfl

end

end Chip8.Assembly
