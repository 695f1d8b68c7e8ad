import Chip8.Proofs.OperandShape
import Chip8.Proofs.StatementForm
import Chip8.Proofs.TrimmedText

/-!
# The shape of a body

A body is a first word and what stands between the commas behind it.  When the body can be read,
the first word is a mnemonic and the others are operands, so none of them contains a blank, a
comma, a colon or a semicolon; whatever else the body is made of separates them.

## Key results

- `operandsOf_eq_ok_iff`: operands are read one by one from their tokens
- `legibleBody_of_ofBody`: a body that can be read is made of tokens
- `not_mem_of_ofBody`: it contains no colon
-/

namespace Chip8.Assembly

open Text

/-! ## Tokens -/

/-- What stands between the commas of a text, trimmed. -/
def tokensOf (text : List Char) : List (List Char) := (text.splitOn ',').map trim

theorem tokensOf_trim (text : List Char) : tokensOf (trim text) = tokensOf text :=
  map_trim_splitOn_trim text

theorem tokensOf_of_not_mem {text : List Char} (h : ',' ∉ text) : tokensOf text = [trim text] := by
  rw [tokensOf, List.splitOn_eq_singleton h, List.map_singleton]

theorem tokensOf_append_comma {piece : List Char} (h : ',' ∉ piece) (rest : List Char) :
    tokensOf (piece ++ ',' :: rest) = trim piece :: tokensOf rest := by
  rw [tokensOf, List.splitOn_append_cons_self_of_not_mem h, List.map_cons, tokensOf]

/-- Only of an empty text there is nothing but an empty token. -/
theorem tokensOf_trim_eq_iff {text : List Char} : tokensOf (trim text) = [[]] ↔ trim text = [] := by
  constructor
  · intro h
    rw [tokensOf_trim] at h
    -- The text is followed from comma to comma; only one without a comma has a single token.
    cases text using separated_induction ',' with
    | last piece hpiece =>
      rw [tokensOf_of_not_mem hpiece] at h
      exact (List.cons.inj h).1
    | more piece rest hpiece =>
      -- A second token would be that of a splitting without pieces, and there is none.
      rw [tokensOf_append_comma hpiece, List.cons.injEq, tokensOf, List.map_eq_nil_iff] at h
      exact absurd h.2 (List.splitOn_ne_nil _ _)
  · intro h
    rw [h]
    rfl

/-- A character that is no blank and no comma is part of a token. -/
theorem exists_token_of_mem {text : List Char} {c : Char} (h : c ∈ text) (hcomma : c ≠ ',')
    (hblank : isBlank c = false) : ∃ token ∈ tokensOf text, c ∈ token := by
  obtain ⟨piece, hpiece, hmem⟩ := (mem_splitOn ',' text).2 c h hcomma
  exact ⟨trim piece, List.mem_map_of_mem hpiece, mem_trim_of_mem hmem hblank⟩

section
variable {leading word rest : List Char} (hleading : ∀ c ∈ leading, isBlank c = true)
  (hword : ∀ c ∈ word, isBlank c = false)
include hleading hword

/-- Behind the blanks in front of a text its first word begins. -/
theorem mem_firstWord_trim : ∀ c ∈ word, c ∈ firstWord (trim (leading ++ word ++ rest)) := by
  intro c hc
  -- The word is in front, so trimming stops at it.
  have hhead : ∀ d ∈ (word ++ rest).head?, isBlank d = false := by
    intro d hd
    cases word with
    | nil => exact nomatch hc
    | cons b bs =>
      cases hd
      exact hword d List.mem_cons_self
  -- None of its characters is a blank, so the first word does not end before it does.
  have hplain : ∀ d ∈ word, (!isBlank d) = true := fun d hd => by rw [hword d hd, Bool.not_false]
  rw [List.append_assoc, trim_blanks_append hleading, firstWord_trim hhead, firstWord,
    List.takeWhile_append_of_pos hplain]
  exact List.mem_append_left _ hc

/-- A text of a word and what a blank separates from it. -/
theorem words_trim (hne : word ≠ []) (hrest : ∀ c ∈ rest.head?, isBlank c = true) :
    firstWord (trim (leading ++ word ++ rest)) = word ∧
      tokensOf (afterFirstWord (trim (leading ++ word ++ rest))) = tokensOf rest := by
  have hhead : ∀ d ∈ (word ++ rest).head?, isBlank d = false := by
    intro d hd
    rw [List.head?_append_of_ne_nil _ hne] at hd
    exact hword d (List.mem_of_mem_head? hd)
  -- The blank in front of the rest is what ends the first word.
  obtain ⟨hfirst, hdrop⟩ := firstWord_append hword hrest
  rw [List.append_assoc, trim_blanks_append hleading, firstWord_trim hhead,
    afterFirstWord_trim hhead, afterFirstWord, hfirst, hdrop, tokensOf_trim]
  exact ⟨rfl, rfl⟩

end

namespace Template

/-- There are no operands, or each token is an operand. -/
theorem operandsOf_eq_ok_iff {rest : List Char} {operands : List Operand} :
    operandsOf rest = .ok operands ↔
      rest = [] ∧ operands = [] ∨ (tokensOf rest).mapM Operand.ofToken = .ok operands := by
  cases rest with
  | nil =>
    -- A lone blank token is no operand, which is why an empty text is a case of its own.
    have hempty : (tokensOf []).mapM Operand.ofToken = .error (.badOperand "") := rfl
    rw [hempty, operandsOf]
    simp [eq_comm]
  | cons c cs =>
    rw [tokensOf, List.mapM_map, operandsOf, if_neg (by simp)]
    simp [Function.comp_def]

end Template

/-! ## Bodies that can be read -/

/-- A body that is made of a word without separators and, behind it, nothing or tokens between
    commas. -/
structure LegibleBody (body : List Char) : Prop where
  word : ∀ c ∈ firstWord body, isPlain c = true
  tokens : afterFirstWord body = [] ∨ ∀ token ∈ tokensOf (afterFirstWord body), IsToken token

theorem legibleBody_nil : LegibleBody [] := ⟨List.forall_mem_nil _, .inl rfl⟩

/-- The tokens of a legible body contain no separators. -/
theorem LegibleBody.plain {body : List Char} (h : LegibleBody body) :
    ∀ token ∈ tokensOf (afterFirstWord body), ∀ c ∈ token, isPlain c = true := by
  intro token htoken
  -- Without operands there is one token all the same, the empty one.
  rcases h.tokens with hnil | htokens
  · rw [hnil] at htoken
    rw [List.mem_singleton.1 htoken]
    exact List.forall_mem_nil _
  · exact (htokens token htoken).plain

/-- What can be read as an operand is a token. -/
theorem isToken_of_ofToken {token : List Char} {operand : Operand}
    (h : Operand.ofToken token = .ok operand) : IsToken token := by
  refine ⟨?_, Operand.isPlain_of_ofToken h⟩
  rintro rfl
  exact nomatch h

/-- What can be read as a body is legible. -/
theorem legibleBody_of_ofBody {body : List Char} {t : Template} (h : Template.ofBody body = .ok t) :
    LegibleBody body := by
  obtain ⟨m, operands, hname, hoperands, -⟩ := Template.ofBody_eq_ok_iff.1 h
  constructor
  · -- The first word is a mnemonic, whose characters are plain.
    intro c hc
    have hupper : c.toUpper ∈ m.text.toList := by
      rw [hname, String.toList_ofList]
      exact List.mem_map_of_mem hc
    rw [← isPlain_toUpper]
    exact (isToken_mnemonic m).plain _ hupper
  · -- Behind it, tokens that are read as operands are tokens.
    refine (Template.operandsOf_eq_ok_iff.1 hoperands).imp And.left fun hread token htoken => ?_
    obtain ⟨operand, htoken⟩ := Except.exists_of_mem_mapM hread htoken
    exact isToken_of_ofToken htoken

/-- Apart from commas and blanks, the characters of a legible body are plain. -/
theorem LegibleBody.isPlain_of_mem {body : List Char} (h : LegibleBody body) {c : Char}
    (hc : c ∈ body) (hcomma : c ≠ ',') (hblank : isBlank c = false) : isPlain c = true := by
  -- A character is in the first word or behind it.
  rw [← List.takeWhile_append_dropWhile (p := (!isBlank ·)) (l := body), List.mem_append] at hc
  rcases hc with hc | hc
  · exact h.word c hc
  · obtain ⟨token, htoken, hmem⟩ := exists_token_of_mem (mem_trim_of_mem hc hblank) hcomma hblank
    exact h.plain token htoken c hmem

/-- In a legible body there is no comma between the first word and the other ones. -/
theorem not_legible_of_comma {leading word bs rest : List Char}
    (hleading : ∀ c ∈ leading, isBlank c = true) (hword : ∀ c ∈ word, isBlank c = false)
    (hbs : ∀ c ∈ bs, isBlank c = true)
    (hne : word ≠ [] ∨ bs = []) : ¬LegibleBody (trim (leading ++ word ++ (bs ++ ',' :: rest))) := by
  intro hlegible
  by_cases hnil : bs = []
  · -- The comma is part of the first word.
    have hcomma : ∀ c ∈ word ++ [','], isBlank c = false := by
      intro c hc
      rcases List.mem_append.1 hc with hc | hc
      · exact hword c hc
      · rw [List.mem_singleton.1 hc]
        decide
    have hmem : ',' ∈ firstWord (trim (leading ++ (word ++ [',']) ++ rest)) :=
      mem_firstWord_trim hleading hcomma ',' (by simp)
    have htext : leading ++ (word ++ [',']) ++ rest = leading ++ word ++ (bs ++ ',' :: rest) := by
      simp [hnil]
    rw [htext] at hmem
    exact absurd (hlegible.word _ hmem) (by decide)
  · -- The comma comes behind an empty token.
    have hhead : ∀ c ∈ (bs ++ ',' :: rest).head?, isBlank c = true := by
      intro c hc
      rw [List.head?_append_of_ne_nil _ hnil] at hc
      exact hbs c (List.mem_of_mem_head? hc)
    obtain ⟨-, htokens⟩ := words_trim hleading hword (hne.resolve_right hnil) hhead
    -- In front of the comma there are only blanks, so what stands there is an empty token.
    rw [tokensOf_append_comma (fun hmem => absurd (hbs _ hmem) (by decide)), trim_eq_nil hbs]
      at htokens
    rcases hlegible.tokens with hempty | hall
    · -- A text without tokens has no comma.
      rw [hempty] at htokens
      exact List.splitOn_ne_nil _ _ (List.map_eq_nil_iff.1 (List.cons.inj htokens).2.symm)
    · -- No operand is empty.
      exact (hall [] (by rw [htokens]; exact List.mem_cons_self)).ne_nil rfl

/-- What can be read as a body contains no colon. -/
theorem Template.not_mem_of_ofBody {body : List Char} {t : Template}
    (h : ofBody body = .ok t) : ':' ∉ body := fun hmem =>
  absurd ((legibleBody_of_ofBody h).isPlain_of_mem hmem (by decide) (by decide)) (by decide)

end Chip8.Assembly
