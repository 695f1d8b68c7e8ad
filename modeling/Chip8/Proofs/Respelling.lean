import Chip8.Proofs.BodyShape

/-!
# Spelling

Mnemonics, keywords, registers and numbers may be written in either case, and only the names of
labels are what they are written as.  When the words of a statement are spelled in another way
without changing what they are in upper case, the statement therefore says the same, as long as
the labels that it names are found under their new names.

## Key results

- `ofToken_respell`: a word in another spelling is read as the same operand, up to its name
- `ofForm?_respell`, `resolve_respell`: templates with the new names
- `wordOf_respells`: a statement in another spelling has the same word
- `respells_upper`: a line in upper case has the words of the line in upper case
-/

namespace Chip8.Assembly

open Text

/-! ## Operands -/

/-- Whether a word has the shape of a name does not depend on its case. -/
theorem isIdentifier_upper (name : List Char) : isIdentifier (upper name) = isIdentifier name := by
  have hunderscore : ∀ c : Char, (c.toUpper == '_') = (c == '_') := by
    intro c
    rw [Bool.eq_iff_iff, beq_iff_eq, beq_iff_eq, toUpper_eq_iff rfl]
  cases name with
  | nil => rfl
  | cons c cs =>
    have hupper : upper (c :: cs) = c.toUpper :: cs.map Char.toUpper := rfl
    simp only [hupper, isIdentifier, List.all_map, Function.comp_def, hunderscore,
      Char.isAlphanum, isAlpha_toUpper, isDigit_toUpper]

namespace Operand

/-- An operand with its name in another spelling, if it names a label. -/
def respell (f : List Char → List Char) : Operand → Operand
  | label name => label (String.ofList (f name.toList))
  | operand => operand

theorem respell_eq_self (f : List Char → List Char) {operand : Operand}
    (h : ∀ name, operand ≠ label name) : operand.respell f = operand := by
  cases operand with
  | label name => exact absurd rfl (h name)
  | _ => rfl

end Operand

section
variable {f : List Char → List Char} (hf : ∀ word, upper (f word) = upper word)
include hf

theorem isIdentifier_respell (name : List Char) : isIdentifier (f name) = isIdentifier name := by
  rw [← isIdentifier_upper, hf, isIdentifier_upper]

/-- A word in another spelling is read as the same operand, up to its name. -/
theorem ofToken_respell {token : List Char} {operand : Operand}
    (h : Operand.ofToken token = .ok operand) :
    Operand.ofToken (f token) = .ok (operand.respell f) := by
  unfold Operand.ofToken at h ⊢
  rw [hf]
  -- Only a name is read from the word itself, everything else from what it is in upper case.
  cases hkeyword : Operand.keyword? (upper token) with
  | some keyword =>
    simp only [hkeyword] at h ⊢
    cases h
    rw [Operand.respell_eq_self f (Operand.keyword?_ne hkeyword).2.2]
  | none =>
    cases hindex : Operand.registerIndex? (upper token) with
    | some n =>
      simp only [hkeyword, hindex] at h ⊢
      -- A register that there is not would have been an error.
      split at h
      · rename_i hlt
        cases h
        rw [dif_pos hlt]
        rfl
      · exact nomatch h
    | none =>
      cases hparts : Operand.numberParts? (upper token) with
      | some parts =>
        simp only [hkeyword, hindex, hparts] at h ⊢
        split at h
        · cases h
          rfl
        · exact nomatch h
      | none =>
        simp only [hkeyword, hindex, hparts, isIdentifier_respell hf] at h ⊢
        split at h
        · rename_i hname
          cases h
          rw [if_pos hname, Operand.respell, String.toList_ofList]
        · exact nomatch h

end

/-! ## Templates -/

namespace Template

/-- A template with the name of its label in another spelling, if it waits for one. -/
def respell (f : List Char → List Char) : Template → Template
  | addressed op target => addressed op (target.respell f)
  | t => t

/-- The operand of an address may be any. -/
theorem ofForm?_operandsAt {m : Mnemonic} {op : AddressOp}
    (hm : ∀ addr, (Instruction.address op addr).mnemonic = m) (target : Operand) :
    ofForm? m (op.operandsAt target) = some (.ok (addressed op target)) := by
  rw [← hm 0]
  cases op <;> rfl

/-- Operands that stay as they are where no label has an address are no names. -/
theorem map_respell_eq_self (f : List Char → List Char) {operands located : List Operand}
    (h : operands.mapM (Operand.located? fun _ => none) = some located) :
    operands.map (Operand.respell f) = operands := by
  induction operands generalizing located with
  | nil => rfl
  | cons operand operands ih =>
    rw [List.mapM_cons] at h
    obtain ⟨first, hfirst, h⟩ := Option.bind_eq_some_iff.1 h
    obtain ⟨rest, hrest, -⟩ := Option.bind_eq_some_iff.1 h
    have hname : ∀ name, operand ≠ .label name := by
      rintro name rfl
      -- A name would have to have an address.
      exact nomatch hfirst
    rw [List.map_cons, ih hrest, Operand.respell_eq_self f hname]

/-- The names of labels do not matter for the choice of a template. -/
theorem ofForm?_respell (f : List Char → List Char) {m : Mnemonic} {operands : List Operand}
    {t : Template} (h : ofForm? m operands = some (.ok t)) :
    ofForm? m (operands.map (Operand.respell f)) = some (.ok (t.respell f)) := by
  by_cases hdw : m = .dw
  · subst hdw
    -- A raw word is given as a number.
    simp only [ofForm?] at h
    split at h
    · obtain ⟨_, hfit, rfl⟩ := Except.map_eq_ok_iff.1 (Option.some.inj h)
      exact h
    · cases h
  · -- An instruction names a label only where it has an address.
    cases spells_of_ofForm? hdw h with
    | fixed _ _ _ hlocated =>
      rw [map_respell_eq_self f (hlocated _)]
      exact h
    | @addressed op target hmnemonic hoperands =>
      have hmap : operands.map (Operand.respell f) = op.operandsAt (target.respell f) := by
        rw [hoperands]
        cases op <;> rfl
      rw [hmap]
      exact ofForm?_operandsAt hmnemonic _

/-- A template has the same word when its label is found under its new name. -/
theorem resolve_respell {f : List Char → List Char} {labels labels' : Labels}
    (hlookup : ∀ name address, labels.lookup name = some address →
      labels'.lookup (String.ofList (f name.toList)) = some address)
    {t : Template} {w : Word} (h : resolve labels t = .ok w) :
    resolve labels' (t.respell f) = .ok w := by
  cases t with
  | addressed op target =>
    obtain ⟨addr, haddr, rfl⟩ := Except.map_eq_ok_iff.1 h
    refine Except.map_eq_ok_iff.2 ⟨addr, ?_, rfl⟩
    -- The one operand that is looked up is the name.
    cases target with
    | label name =>
      simp only [addressOf] at haddr
      split at haddr
      · exact nomatch haddr
      · rename_i address haddress
        simp only [Operand.respell, addressOf, hlookup name address haddress]
        exact haddr
    | _ => exact haddr
  | _ => exact h

end Template

/-! ## Statements -/

namespace Statement

/-- A statement that has the words of another one, each of them spelled by `f`. -/
structure Respells (f : List Char → List Char) (s s' : Statement) : Prop where
  label : s'.label = s.label.map f
  word : firstWord s'.body = f (firstWord s.body)
  tokens : tokensOf (afterFirstWord s'.body) = (tokensOf (afterFirstWord s.body)).map f
  isCode : s'.isCode = s.isCode

theorem Respells.refl (s : Statement) : Respells id s s :=
  ⟨Option.map_id_apply.symm, rfl, (List.map_id _).symm, rfl⟩

end Statement

/-- A statement in another spelling has the same word. -/
theorem wordOf_respells {f : List Char → List Char} (hf : ∀ word, upper (f word) = upper word)
    {labels labels' : Labels}
    (hlookup : ∀ name address, labels.lookup name = some address →
      labels'.lookup (String.ofList (f name.toList)) = some address)
    {s s' : Statement} (hs : s.Respells f s') {line : Nat} {w : Word}
    (h : wordOf labels line s.body = .ok w) (line' : Nat) :
    wordOf labels' line' s'.body = .ok w := by
  obtain ⟨t, hbody, hword⟩ := wordOf_eq_ok_iff.1 h
  obtain ⟨m, operands, hname, hoperands, hform⟩ := Template.ofBody_eq_ok_iff.1 hbody
  -- The mnemonic is the same in upper case, and each operand is read as the one it respells.
  refine wordOf_eq_ok_iff.2 ⟨t.respell f, Template.ofBody_eq_ok_iff.2
    ⟨m, operands.map (Operand.respell f), ?_, ?_, Template.ofForm?_respell f hform⟩,
    Template.resolve_respell hlookup hword⟩
  · rw [hs.word, hf]
    exact hname
  · apply Template.operandsOf_eq_ok_iff.2
    rcases Template.operandsOf_eq_ok_iff.1 hoperands with ⟨hnil, rfl⟩ | hread
    · -- Where there were no operands, there are still none.
      have htokens := hs.tokens
      have hempty : f [] = [] := List.map_eq_nil_iff.1 (hf [])
      rw [hnil] at htokens
      refine .inl ⟨tokensOf_trim_eq_iff.1 (htokens.trans ?_), rfl⟩
      show [f []] = [[]]
      rw [hempty]
    · rw [hs.tokens]
      refine .inr (Except.mapM_eq_ok_iff.2 ?_)
      rw [List.forall₂_map_left_iff, List.forall₂_map_right_iff]
      exact (Except.mapM_eq_ok_iff.1 hread).imp fun token operand => ofToken_respell hf

/-! ## Upper case -/

theorem ofLine_upper (line : List Char) :
    Statement.ofLine (upper line) =
      { label := (Statement.ofLine line).label.map upper
        body := upper (Statement.ofLine line).body } := by
  have hcode : Statement.codeOf (upper line) = upper (Statement.codeOf line) := by
    rw [Statement.codeOf, takeWhile_upper (ne_toUpper rfl), trim_upper, Statement.codeOf]
  have htake : ∀ cs, (upper cs).takeWhile (· ≠ ':') = upper (cs.takeWhile (· ≠ ':')) :=
    takeWhile_upper (ne_toUpper rfl)
  have hdrop : ∀ cs, (upper cs).dropWhile (· ≠ ':') = upper (cs.dropWhile (· ≠ ':')) :=
    dropWhile_upper (ne_toUpper rfl)
  simp only [Statement.ofLine, hcode, htake, hdrop]
  -- With a colon there is a label, which is trimmed like the body.
  cases (Statement.codeOf line).dropWhile (· ≠ ':') with
  | nil => rfl
  | cons c rest =>
    show Statement.mk (some (trim (upper _))) (trim (upper rest)) = _
    rw [trim_upper, trim_upper]
    rfl

theorem tokensOf_upper (text : List Char) : tokensOf (upper text) = (tokensOf text).map upper := by
  rw [tokensOf, splitOn_upper rfl, List.map_map, tokensOf, List.map_map]
  exact List.map_congr_left fun piece _ => trim_upper piece

/-- A line in upper case has the words of the line in upper case. -/
theorem respells_upper (line : List Char) :
    Statement.Respells upper (Statement.ofLine line) (Statement.ofLine (upper line)) := by
  rw [ofLine_upper]
  refine ⟨rfl, firstWord_upper _, ?_, ?_⟩
  · rw [afterFirstWord_upper, tokensOf_upper]
  · show (!(upper (Statement.ofLine line).body).isEmpty) = !(Statement.ofLine line).body.isEmpty
    rw [upper, List.isEmpty_map]

end Chip8.Assembly
