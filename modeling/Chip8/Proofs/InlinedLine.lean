import Chip8.Proofs.BodyShape

/-!
# Lines without labels

A label is an abbreviation for an address.  `inlineLine` writes a line without it: it deletes
the label that the line defines, puts `#` and the digits of an address in the place of each
operand that names one, and changes nothing else, neither blanks nor comments.

A line of this kind is read as the line was before, with addresses for its labels.  Nothing
that is left of it can be taken for a label or for a comment, because what can be read as a
body contains no colon to begin with.

## Key results

- `exists_located_of_resolve`: a template has the same word with its address written out
- `wordOf_inlineBody`: the word of a body from which the labels are gone
- `ofLine_inlineLine`: the statement on a line from which the labels are gone
-/

namespace Chip8.Assembly

open Text

/-! ## Writing addresses out -/

section
variable (address? : String → Option Nat)

/-- The address of a label as a number, for an operand that names one; any other operand as
    it is. -/
def inlineToken (token : List Char) : List Char :=
  match Operand.ofToken token with
  | .ok (.label name) =>
    match address? name with
    | some address => (Instruction.literalText 1 address).toList
    | none => token
  | _ => token

/-- Operands between commas, with addresses in place of the labels. -/
def inlineOperands (operands : List Char) : List Char :=
  [','].intercalate ((operands.splitOn ',').map (retrim (inlineToken address?)))

/-- A body with addresses in place of the labels. -/
def inlineBody (body : List Char) : List Char :=
  firstWord body ++ retrim (inlineOperands address?) (body.dropWhile (!isBlank ·))

/-- What follows the label of a line, if it has one. -/
def afterLabel (code : List Char) : List Char :=
  match code.dropWhile (· ≠ ':') with
  | [] => code
  | _ :: rest => rest

/-- A line without its label, and with addresses in place of the labels that it names. -/
def inlineLine (line : List Char) : List Char :=
  retrim (inlineBody address?) (afterLabel (line.takeWhile (· ≠ ';'))) ++ line.dropWhile (· ≠ ';')

end

/-! ## Templates with their addresses written out -/

namespace Template

/-- When the address of a template is written out in its operands, the same word comes out,
    whatever labels there are. -/
theorem exists_located_of_resolve {m : Mnemonic} {operands : List Operand} {t : Template}
    {labels : Labels} {w : Word} (hform : ofForm? m operands = some (.ok t))
    (hword : resolve labels t = .ok w) :
    ∃ (located : List Operand) (t' : Template),
      operands.mapM (Operand.located? fun name => (labels.lookup name).map UInt16.toNat) =
          some located ∧
        ofForm? m located = some (.ok t') ∧ ∀ labels', resolve labels' t' = .ok w := by
  by_cases hdw : m = .dw
  · subst hdw
    -- A raw word is given as a number in the first place.
    simp only [ofForm?] at hform
    split at hform
    · obtain ⟨_, hfit, rfl⟩ := Except.map_eq_ok_iff.1 (Option.some.inj hform)
      exact ⟨_, _, rfl, hform, fun _ => hword⟩
    · cases hform
  · cases spells_of_ofForm? hdw hform with
    | fixed _ _ _ hlocated => exact ⟨operands, _, hlocated _, hform, fun _ => hword⟩
    | @addressed op target hmnemonic hoperands =>
      -- The operand has an address, so it can be written as the number in the first place.
      obtain ⟨addr, haddr, rfl⟩ := Except.map_eq_ok_iff.1 hword
      obtain ⟨hlt, hlocated⟩ := of_addressOf haddr
      have hfits : (Instruction.address op addr).Fits := hlt
      refine ⟨op.operandsAt (.literal addr.toNat), .addressed op (.literal addr.toNat), ?_, ?_,
        fun labels' => resolve_ofInstruction labels' hfits⟩
      · rw [hoperands]
        exact mapM_located?_operandsAt hlocated op
      · rw [← hmnemonic addr]
        exact ofForm?_operands hfits

end Template

/-! ## Reading operands with addresses written out -/

section
variable {address? : String → Option Nat}
  (hbound : ∀ name address, address? name = some address → address < UInt32.size)
include hbound

/-- A token with the address of its label written out is read as the operand with its
    address. -/
theorem ofToken_inlineToken {token : List Char} {operand located : Operand}
    (h : Operand.ofToken token = .ok operand) (hlocated : operand.located? address? = some located) :
    Operand.ofToken (inlineToken address? token) = .ok located := by
  cases operand with
  | label name =>
    obtain ⟨address, haddress, rfl⟩ := Option.map_eq_some_iff.1 hlocated
    simp only [inlineToken, h, haddress]
    exact ofToken_literal (hbound name address haddress)
  | _ =>
    cases hlocated
    simp only [inlineToken, h]

theorem mapM_ofToken_inlineToken {tokens : List (List Char)} {operands located : List Operand}
    (h : tokens.mapM Operand.ofToken = .ok operands)
    (hlocated : operands.mapM (Operand.located? address?) = some located) :
    (tokens.map (inlineToken address?)).mapM Operand.ofToken = .ok located := by
  induction tokens generalizing operands located with
  | nil =>
    cases h
    cases hlocated
    rfl
  | cons token tokens ih =>
    rw [List.mapM_cons] at h
    obtain ⟨operand, htoken, h⟩ := Except.bind_eq_ok_iff.1 h
    obtain ⟨rest, hrest, h⟩ := Except.bind_eq_ok_iff.1 h
    cases h
    rw [List.mapM_cons] at hlocated
    obtain ⟨first, hfirst, hlocated⟩ := Option.bind_eq_some_iff.1 hlocated
    obtain ⟨later, hlater, hlocated⟩ := Option.bind_eq_some_iff.1 hlocated
    cases hlocated
    rw [List.map_cons, List.mapM_cons, ofToken_inlineToken hbound htoken hfirst, ih hrest hlater]
    rfl

end

/-! ## Bodies with addresses written out -/

section
variable (address? : String → Option Nat)

/-- An address that is written out is a token, and any other token stays as it is. -/
theorem inlineToken_cases (token : List Char) :
    IsToken (inlineToken address? token) ∨ inlineToken address? token = token := by
  unfold inlineToken
  split
  · split
    · exact .inl (isToken_literal _ _)
    · exact .inr rfl
  · exact .inr rfl

theorem trim_inlineToken (piece : List Char) :
    trim (inlineToken address? (trim piece)) = inlineToken address? (trim piece) := by
  rcases inlineToken_cases address? (trim piece) with htoken | hsame
  · exact trim_eq_self_of_isToken htoken
  · rw [hsame, trim_trim]

/-- What stands in a piece after its label is exchanged stood there before, or is part of a
    number. -/
theorem of_mem_inlinePiece {piece : List Char} {c : Char}
    (h : c ∈ retrim (inlineToken address?) piece) : c ∈ piece ∨ isPlain c = true := by
  rcases of_mem_retrim h with h | h
  · exact .inl h
  · -- A token that was exchanged is a number, and any other one is that of the piece.
    rcases inlineToken_cases address? (trim piece) with htoken | hsame
    · exact .inr (htoken.plain c h)
    · rw [hsame] at h
      exact .inl (mem_of_mem_trim h)

/-- The tokens between the commas are those that there were before. -/
theorem tokensOf_inlineOperands (rest : List Char) :
    tokensOf (inlineOperands address? rest) = (tokensOf rest).map (inlineToken address?) := by
  have hcomma : ∀ piece ∈ (rest.splitOn ',').map (retrim (inlineToken address?)),
      ',' ∉ piece := by
    intro piece hpiece hmem
    obtain ⟨old, hold, rfl⟩ := List.mem_map.1 hpiece
    rcases of_mem_inlinePiece address? hmem with hmem | hplain
    · exact ((mem_splitOn ',' rest).1 old hold).1 hmem
    · exact absurd hplain (by decide)
  have hne : (rest.splitOn ',').map (retrim (inlineToken address?)) ≠ [] := by
    rw [Ne, List.map_eq_nil_iff]
    exact List.splitOn_ne_nil ',' rest
  -- No comma came in, so the text is cut where its pieces were put together.
  rw [inlineOperands, tokensOf, List.splitOn_intercalate ',' hcomma hne, tokensOf, List.map_map,
    List.map_map]
  apply List.map_congr_left
  intro piece _
  show trim (retrim (inlineToken address?) piece) = inlineToken address? (trim piece)
  rw [trim_retrim, trim_inlineToken]

/-- What follows the first word of a body stays behind it, with a blank in front. -/
theorem isBlank_head?_inlineOperands (body : List Char) :
    ∀ c ∈ (retrim (inlineOperands address?) (body.dropWhile (!isBlank ·))).head?,
      isBlank c = true := by
  intro c hc
  cases hrest : body.dropWhile (!isBlank ·) with
  | nil =>
    rw [hrest] at hc
    exact nomatch hc
  | cons b bs =>
    have hb : isBlank b = true := by
      have hstop := head?_dropWhile (!isBlank ·) body b (by rw [hrest]; rfl)
      simpa using hstop
    rw [hrest, retrim, leadingBlanks, List.takeWhile_cons_of_pos hb] at hc
    cases hc
    exact hb

/-- The first word of a body stays as it is. -/
theorem firstWord_inlineBody (body : List Char) :
    firstWord (inlineBody address? body) = firstWord body ∧
      (inlineBody address? body).dropWhile (!isBlank ·) =
        retrim (inlineOperands address?) (body.dropWhile (!isBlank ·)) :=
  firstWord_append isBlank_of_mem_firstWord (isBlank_head?_inlineOperands address? body)

/-- Nothing comes in front of the first word. -/
theorem head?_inlineBody {body : List Char} (h : ∀ c ∈ body.head?, isBlank c = false) :
    (inlineBody address? body).head? = body.head? := by
  cases body with
  | nil => rfl
  | cons c cs =>
    have hc : (!isBlank c) = true := by rw [h c rfl, Bool.not_false]
    have hfirst : firstWord (c :: cs) = c :: firstWord cs := List.takeWhile_cons_of_pos hc
    rw [inlineBody, hfirst]
    rfl

/-- What stands in a body after its labels are exchanged stood there before, separates
    operands or is part of a number. -/
theorem of_mem_inlineBody {body : List Char} {c : Char} (h : c ∈ inlineBody address? body) :
    c ∈ body ∨ c = ',' ∨ isPlain c = true := by
  have hrest : ∀ d ∈ body.dropWhile (!isBlank ·), d ∈ body :=
    fun d hd => (List.dropWhile_sublist _).mem hd
  rcases List.mem_append.1 h with h | h
  · exact .inl ((List.takeWhile_sublist _).mem h)
  · rcases of_mem_retrim h with h | h
    · exact .inl (hrest c h)
    · rcases of_mem_intercalate_singleton h with h | ⟨piece, hpiece, h⟩
      · exact .inr (.inl h)
      · obtain ⟨old, hold, rfl⟩ := List.mem_map.1 hpiece
        rcases of_mem_inlinePiece address? h with h | h
        · exact .inl (hrest c (mem_of_mem_trim (((mem_splitOn ',' _).1 old hold).2 c h)))
        · exact .inr (.inr h)

end

/-- Operands with their addresses written out are read as operands with their addresses. -/
theorem operandsOf_inlineOperands {address? : String → Option Nat}
    (hbound : ∀ name address, address? name = some address → address < UInt32.size)
    {rest : List Char} {operands located : List Operand}
    (h : Template.operandsOf rest = .ok operands)
    (hlocated : operands.mapM (Operand.located? address?) = some located) :
    Template.operandsOf (trim (inlineOperands address? rest)) = .ok located := by
  apply Template.operandsOf_eq_ok_iff.2
  rcases Template.operandsOf_eq_ok_iff.1 h with ⟨rfl, rfl⟩ | hread
  · cases hlocated
    exact .inl ⟨rfl, rfl⟩
  · rw [tokensOf_trim, tokensOf_inlineOperands]
    exact .inr (mapM_ofToken_inlineToken hbound hread hlocated)

/-- A body from which the labels are gone has the word that it had with them. -/
theorem wordOf_inlineBody {labels : Labels} {address? : String → Option Nat}
    (haddress : ∀ name, (labels.lookup name).map UInt16.toNat = address? name) {line : Nat}
    {body : List Char} {w : Word} (hhead : ∀ c ∈ body.head?, isBlank c = false)
    (h : wordOf labels line body = .ok w) (labels' : Labels) (line' : Nat) :
    wordOf labels' line' (trim (inlineBody address? body)) = .ok w := by
  obtain ⟨t, hbody, hword⟩ := wordOf_eq_ok_iff.1 h
  obtain ⟨m, operands, hname, hoperands, hform⟩ := Template.ofBody_eq_ok_iff.1 hbody
  obtain ⟨located, t', hlocated, hform', hword'⟩ :=
    Template.exists_located_of_resolve hform hword
  rw [funext haddress] at hlocated
  -- An address that was looked up has sixteen bits, so it can be read as a number.
  have hbound : ∀ name address, address? name = some address → address < UInt32.size := by
    intro name address hname
    rw [← haddress] at hname
    obtain ⟨value, -, rfl⟩ := Option.map_eq_some_iff.1 hname
    exact Nat.lt_trans value.toNat_lt (by decide)
  obtain ⟨hfirst, hrest⟩ := firstWord_inlineBody address? body
  rw [← head?_inlineBody address? hhead] at hhead
  refine wordOf_eq_ok_iff.2
    ⟨t', Template.ofBody_eq_ok_iff.2 ⟨m, located, ?_, ?_, hform'⟩, hword' labels'⟩
  · rw [firstWord_trim hhead, hfirst, hname]
  · rw [afterFirstWord_trim hhead, afterFirstWord, hrest, trim_retrim]
    exact operandsOf_inlineOperands hbound hoperands hlocated

/-! ## Lines -/

private theorem dropWhile_of_not_mem {c : Char} {cs : List Char} (h : c ∉ cs) :
    cs.dropWhile (· ≠ c) = [] := by
  apply List.dropWhile_eq_nil_iff.2
  intro d hd
  exact decide_eq_true (ne_of_mem_of_not_mem hd h)

private theorem dropWhile_append_of_not_mem {c : Char} {cs : List Char} (h : c ∉ cs)
    (ds : List Char) : (cs ++ c :: ds).dropWhile (· ≠ c) = c :: ds := by
  rw [dropWhile_append_cons (by simp), dropWhile_of_not_mem h, List.nil_append]

theorem ofLine_of_not_mem {line : List Char} (h : ':' ∉ Statement.codeOf line) :
    Statement.ofLine line = { label := none, body := Statement.codeOf line } := by
  simp only [Statement.ofLine, dropWhile_of_not_mem h]

/-- The first colon of a line, if it is not in a comment, stands between its label and its
    body. -/
theorem ofLine_of_colon {line front rest : List Char}
    (h : line.takeWhile (· ≠ ';') = front ++ ':' :: rest) (hfront : ':' ∉ front) :
    Statement.ofLine line = { label := some (trim front), body := trim rest } := by
  have hleft : ∀ c ∈ trimLeft front, decide (c ≠ ':') = true := fun c hc =>
    decide_eq_true (ne_of_mem_of_not_mem ((List.dropWhile_sublist _).mem hc) hfront)
  have hstop : ∀ c ∈ (':' :: trimRight rest).head?, decide (c ≠ ':') = false := by simp
  obtain ⟨hlabel, hbody⟩ := span_append hleft hstop
  have hcode : Statement.codeOf line = trimLeft front ++ ':' :: trimRight rest := by
    rw [Statement.codeOf, h, trim_append_cons (by decide)]
  simp only [Statement.ofLine, hcode, hlabel, hbody, trim_trimLeft, trim_trimRight]

/-- The body of a line is what follows its label, trimmed. -/
theorem body_ofLine (line : List Char) :
    (Statement.ofLine line).body = trim (afterLabel (line.takeWhile (· ≠ ';'))) := by
  by_cases hcolon : ':' ∈ line.takeWhile (· ≠ ';')
  · obtain ⟨front, rest, hcode, hfront⟩ := List.eq_append_cons_of_mem hcolon
    rw [ofLine_of_colon hcode hfront, afterLabel, hcode, dropWhile_append_of_not_mem hfront]
  · have hcode : ':' ∉ Statement.codeOf line := fun hmem => hcolon (mem_of_mem_trim hmem)
    rw [ofLine_of_not_mem hcode, afterLabel, dropWhile_of_not_mem hcolon, Statement.codeOf]

theorem isBlank_head?_body (line : List Char) :
    ∀ c ∈ (Statement.ofLine line).body.head?, isBlank c = false := by
  rw [body_ofLine]
  exact isBlank_head?_trim _

theorem mem_of_mem_afterLabel {code : List Char} {c : Char} (h : c ∈ afterLabel code) :
    c ∈ code := by
  unfold afterLabel at h
  split at h
  · exact h
  · rename_i hdrop
    apply (List.dropWhile_sublist (· ≠ ':')).mem
    rw [hdrop]
    exact List.mem_cons_of_mem _ h

/-- A line of code from which the labels are gone has no characters of a new kind. -/
theorem of_mem_inlineCode {address? : String → Option Nat} {code : List Char} {c : Char}
    (h : c ∈ retrim (inlineBody address?) (afterLabel code)) :
    c ∈ code ∨ c = ',' ∨ isPlain c = true := by
  rcases of_mem_retrim h with h | h
  · exact .inl (mem_of_mem_afterLabel h)
  · rcases of_mem_inlineBody address? h with h | h
    · exact .inl (mem_of_mem_afterLabel (mem_of_mem_trim h))
    · exact .inr h

theorem not_mem_inlineLine {address? : String → Option Nat} {line : List Char}
    (h : '\n' ∉ line) : '\n' ∉ inlineLine address? line := by
  intro hmem
  rcases List.mem_append.1 hmem with hmem | hmem
  · rcases of_mem_inlineCode hmem with hmem | hcomma | hplain
    · exact h ((List.takeWhile_sublist _).mem hmem)
    · exact absurd hcomma (by decide)
    · exact absurd hplain (by decide)
  · exact h ((List.dropWhile_sublist _).mem hmem)

/-- A statement without its label, and with addresses in place of the labels that it names. -/
def inlineStatement (address? : String → Option Nat) (s : Statement) : Statement :=
  { label := none, body := trim (inlineBody address? s.body) }

/-- A line from which the labels are gone is a statement from which they are gone. -/
theorem ofLine_inlineLine {address? : String → Option Nat} {line : List Char}
    (h : ':' ∉ (Statement.ofLine line).body) :
    Statement.ofLine (inlineLine address? line) =
      inlineStatement address? (Statement.ofLine line) := by
  -- The comment still starts where it started.
  have hcomment : ∀ c ∈ retrim (inlineBody address?) (afterLabel (line.takeWhile (· ≠ ';'))),
      decide (c ≠ ';') = true := by
    intro c hc
    -- Nothing in front of the comment is a semicolon: it was none before, or is new.
    rcases of_mem_inlineCode hc with hc | rfl | hplain
    · have hne := List.mem_takeWhile_imp hc
      exact hne
    · rfl
    · exact decide_eq_true (ne_of_isPlain hplain).2.1
  have hcode : Statement.codeOf (inlineLine address? line) =
      trim (inlineBody address? (Statement.ofLine line).body) := by
    rw [Statement.codeOf, inlineLine, (span_append hcomment (head?_dropWhile _ line)).1,
      trim_retrim, ← body_ofLine]
  have hcolon : ':' ∉ trim (inlineBody address? (Statement.ofLine line).body) := by
    intro hmem
    rcases of_mem_inlineBody address? (mem_of_mem_trim hmem) with hmem | hcomma | hplain
    · exact h hmem
    · exact absurd hcomma (by decide)
    · exact absurd hplain (by decide)
  rw [← hcode] at hcolon
  rw [ofLine_of_not_mem hcolon, hcode, inlineStatement]

theorem isCode_inlineStatement (address? : String → Option Nat) {s : Statement}
    (hhead : ∀ c ∈ s.body.head?, isBlank c = false) :
    (inlineStatement address? s).isCode = s.isCode := by
  show (!(trim (inlineBody address? s.body)).isEmpty) = !s.body.isEmpty
  have hsame := head?_inlineBody address? hhead
  cases hbody : s.body with
  | nil => rfl
  | cons c cs =>
    rw [hbody] at hsame hhead
    -- The first character is no blank, so trimming leaves it.
    have hmem : c ∈ trim (inlineBody address? (c :: cs)) :=
      mem_trim_of_mem (List.mem_of_mem_head? hsame) (hhead c rfl)
    rw [List.isEmpty_eq_false_iff_exists_mem.2 ⟨c, hmem⟩]
    rfl

end Chip8.Assembly
