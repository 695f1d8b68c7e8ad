import Chip8.Assembly.Operand
import Chip8.Proofs.NumeralValue

/-!
# The shape of an operand

How an operand is read can be told from the shape of its token: what starts like a number is a
number or nothing, and what has the shape of a register names one, as far as there is one.  The
reader tries keywords, registers, numbers and names in this order, and of these only registers
and keywords are spelled like names.

Two shapes are read in a way of their own.  Behind the mark of a hexadecimal number there may be
a plus sign, and a register whose index would be `2 ^ 64` or more is taken for a name.

## Key results

- `cases_of_ofToken`: the ways in which a token can be read
- `ofToken_of_numberLike`, `numberLike_of_ofToken`: numbers start like numbers
- `registerIndex?_eq_some_iff`: the indexes of registers
- `isPlain_of_ofToken`: what can be read is made of plain characters
- `ofToken_number`: which tokens are numbers
- `ofToken_register_shape`: which tokens are registers
-/

namespace Chip8.Assembly

open Text

/-! ## Names -/

/-- The characters of names are plain. -/
theorem isPlain_of_isAlphanum {c : Char} (h : (c.isAlphanum || c == '_') = true) :
    isPlain c = true := by
  have hblank : isBlank c = false := by
    rw [Char.isAlphanum, Bool.or_eq_true, Bool.or_eq_true, Char.isDigit_iff_toNat,
      isAlpha_iff_toNat] at h
    simp only [isBlank, Bool.or_eq_false_iff, Bool.and_eq_false_iff, decide_eq_false_iff_not,
      beq_eq_false_iff_ne]
    -- Letters, digits and the underscore lie apart from all blanks.
    rcases h with (halpha | hdigit) | hunderscore
    · omega
    · have : 48 ≤ c.toNat ∧ c.toNat ≤ 57 := hdigit
      omega
    · rw [beq_iff_eq.1 hunderscore]
      decide
  -- The three separators are no characters of names.
  have hne : ∀ d : Char, (d.isAlphanum || d == '_') = false → (c != d) = true := by
    intro d hd
    rw [bne_iff_ne]
    rintro rfl
    exact absurd h (by rw [hd]; decide)
  simp only [isPlain, hblank, hne ',' rfl, hne ';' rfl, hne ':' rfl]
  rfl

theorem isPlain_of_isIdentifier {name : List Char} (h : isIdentifier name = true) :
    ∀ c ∈ name, isPlain c = true := by
  cases name with
  | nil => exact absurd h Bool.false_ne_true
  | cons c cs =>
    rw [isIdentifier, Bool.and_eq_true, List.all_eq_true] at h
    rw [List.forall_mem_cons]
    refine ⟨isPlain_of_isAlphanum ?_, fun d hd => isPlain_of_isAlphanum (h.2 d hd)⟩
    rw [Char.isAlphanum, Bool.or_right_comm, h.1, Bool.true_or]

namespace Operand

/-! ## Ways to read a token -/

/-- A keyword is none of the operands that carry something. -/
theorem keyword?_ne {word : List Char} {operand : Operand} (h : keyword? word = some operand) :
    (∀ r, operand ≠ .register r) ∧ (∀ value, operand ≠ .literal value) ∧
      ∀ name, operand ≠ .label name := by
  unfold keyword? at h
  split at h <;> cases h <;> exact ⟨nofun, nofun, nofun⟩

/-- A token is read as a keyword, a register, a number or a name. -/
theorem cases_of_ofToken {token : List Char} {operand : Operand} (h : ofToken token = .ok operand) :
    keyword? (upper token) = some operand ∨
      (∃ r, operand = .register r ∧ registerIndex? (upper token) = some r.val) ∨
      (∃ radix digits value, operand = .literal value ∧
        numberParts? (upper token) = some (radix, digits) ∧
          numeral? radix UInt32.size digits = some value) ∨
      operand = .label (String.ofList token) ∧ isIdentifier token = true := by
  unfold ofToken at h
  -- The cases are tried in the order of the reader, and each of them excludes those before it.
  cases hkeyword : keyword? (upper token) with
  | some keyword =>
    simp only [hkeyword] at h
    cases h
    exact .inl rfl
  | none =>
    cases hindex : registerIndex? (upper token) with
    | some n =>
      simp only [hkeyword, hindex] at h
      split at h
      · cases h
        exact .inr (.inl ⟨_, rfl, rfl⟩)
      · exact nomatch h
    | none =>
      cases hparts : numberParts? (upper token) with
      | some parts =>
        obtain ⟨radix, digits⟩ := parts
        simp only [hkeyword, hindex, hparts] at h
        -- With a number there is a value, or the token is refused.
        split at h
        · rename_i value hvalue
          cases h
          exact .inr (.inr (.inl ⟨radix, digits, value, rfl, rfl, hvalue⟩))
        · exact nomatch h
      | none =>
        simp only [hkeyword, hindex, hparts] at h
        split at h
        · rename_i hname
          cases h
          exact .inr (.inr (.inr ⟨rfl, hname⟩))
        · exact nomatch h

/-! ## Numbers -/

/-- A token starts like a number in a radix: with the mark of a hexadecimal number, behind which
    are its digits, or else with a decimal digit, which is the first of them. -/
inductive NumberLike : List Char → Nat → List Char → Prop where
  | hash (digits : List Char) : NumberLike ('#' :: digits) 16 digits
  | dollar (digits : List Char) : NumberLike ('$' :: digits) 16 digits
  | hex {x : Char} (mark : x = 'X' ∨ x = 'x') (digits : List Char) :
      NumberLike ('0' :: x :: digits) 16 digits
  | decimal {c : Char} {cs : List Char} (digit : c.isDigit = true)
      (unmarked : ∀ x digits, x = 'X' ∨ x = 'x' → c :: cs ≠ '0' :: x :: digits) :
      NumberLike (c :: cs) 10 (c :: cs)

theorem NumberLike.radix_le {token digits : List Char} {radix : Nat}
    (h : NumberLike token radix digits) : radix ≤ 16 := by
  cases h <;> decide

theorem toUpper_eq_mark_iff {c : Char} : c.toUpper = 'X' ↔ c = 'X' ∨ c = 'x' :=
  toUpper_eq_letter_iff (by decide) rfl

/-- The digits of a number are told apart from its mark in either case. -/
theorem numberParts?_of_numberLike {token digits : List Char} {radix : Nat}
    (h : NumberLike token radix digits) :
    numberParts? (upper token) = some (radix, upper digits) := by
  cases h with
  | hash => rfl
  | dollar => rfl
  | hex mark =>
    rcases mark with rfl | rfl <;> rfl
  | @decimal c cs digit unmarked =>
    have hupper : upper (c :: cs) = c.toUpper :: upper cs := rfl
    -- Nothing but the first character is in question, and a digit is no letter that could change.
    rw [← isDigit_toUpper] at digit
    rw [hupper]
    unfold numberParts?
    split <;> rename_i heq
    · rw [(List.cons.inj heq).1] at digit
      exact absurd digit (by decide)
    · rw [(List.cons.inj heq).1] at digit
      exact absurd digit (by decide)
    · -- A zero and an `X` were a mark before.
      obtain ⟨hzero, hrest⟩ := List.cons.inj heq
      obtain ⟨x, ds, rfl, hx, -⟩ := List.map_eq_cons_iff.1 hrest
      rw [(toUpper_eq_iff rfl).1 hzero] at unmarked
      exact absurd rfl (unmarked x ds (toUpper_eq_mark_iff.1 hx))
    · obtain ⟨rfl, rfl⟩ := List.cons.inj heq
      rw [if_pos digit]
    · exact nomatch heq

/-- What is taken for a number starts like one. -/
theorem numberLike_of_numberParts? {token ds : List Char} {radix : Nat}
    (h : numberParts? (upper token) = some (radix, ds)) :
    ∃ digits, NumberLike token radix digits ∧ ds = upper digits := by
  unfold numberParts? at h
  split at h
  · rename_i heq
    -- A mark that is there in upper case was there before.
    obtain ⟨c, digits, rfl, hc, rfl⟩ := List.map_eq_cons_iff.1 heq
    cases h
    rw [(toUpper_eq_iff rfl).1 hc]
    exact ⟨digits, .hash digits, rfl⟩
  · rename_i heq
    obtain ⟨c, digits, rfl, hc, rfl⟩ := List.map_eq_cons_iff.1 heq
    cases h
    rw [(toUpper_eq_iff rfl).1 hc]
    exact ⟨digits, .dollar digits, rfl⟩
  · rename_i heq
    obtain ⟨c, rest, rfl, hc, hrest⟩ := List.map_eq_cons_iff.1 heq
    obtain ⟨x, digits, rfl, hx, rfl⟩ := List.map_eq_cons_iff.1 hrest
    cases h
    rw [(toUpper_eq_iff rfl).1 hc]
    exact ⟨digits, .hex (toUpper_eq_mark_iff.1 hx) digits, rfl⟩
  · rename_i hmark heq
    obtain ⟨c, cs, rfl, rfl, rfl⟩ := List.map_eq_cons_iff.1 heq
    split at h
    · rename_i hdigit
      cases h
      rw [isDigit_toUpper] at hdigit
      refine ⟨c :: cs, .decimal hdigit ?_, rfl⟩
      -- A decimal digit and a mark behind it would have been the mark of a hexadecimal number.
      rintro x digits hx heq
      obtain ⟨rfl, rfl⟩ := List.cons.inj heq
      refine hmark (upper digits) rfl ?_
      rw [List.map_cons, toUpper_eq_mark_iff.2 hx]
      rfl
    · exact nomatch h
  · exact nomatch h

/-- What starts like a number is neither a keyword nor a register. -/
theorem keyword?_of_numberParts? {word : List Char} (h : numberParts? word ≠ none) :
    keyword? word = none ∧ registerIndex? word = none := by
  constructor
  · -- No keyword begins like a number, nor does a register.
    unfold keyword?
    split
    case h_8 => rfl
    all_goals exact absurd rfl h
  · unfold registerIndex?
    split
    case h_3 => rfl
    all_goals exact absurd rfl h

/-- What starts like a number is read as a numeral, and quoted in upper case if it is none. -/
theorem ofToken_of_numberLike {token digits : List Char} {radix : Nat}
    (h : NumberLike token radix digits) :
    ofToken token =
      match numeral? radix UInt32.size digits with
      | some value => .ok (.literal value)
      | none => .error (.badOperand (String.ofList (upper token))) := by
  have hparts := numberParts?_of_numberLike h
  -- The reader comes to numbers, since neither of the earlier cases applies.
  obtain ⟨hkeyword, hindex⟩ := keyword?_of_numberParts? (Option.ne_none_iff_exists'.2 ⟨_, hparts⟩)
  cases hvalue : numeral? radix UInt32.size digits with
  | none => simp only [ofToken, hkeyword, hindex, hparts, numeral?_upper h.radix_le, hvalue]
  | some value => simp only [ofToken, hkeyword, hindex, hparts, numeral?_upper h.radix_le, hvalue]

/-- A token that is read as a number starts like one. -/
theorem numberLike_of_ofToken {token : List Char} {value : Nat}
    (h : ofToken token = .ok (.literal value)) :
    ∃ radix digits, NumberLike token radix digits ∧
      numeral? radix UInt32.size digits = some value := by
  rcases cases_of_ofToken h with
    hkeyword | ⟨r, hr, -⟩ | ⟨radix, ds, n, hn, hparts, hvalue⟩ | ⟨hname, -⟩
  · exact absurd rfl ((keyword?_ne hkeyword).2.1 value)
  · exact nomatch hr
  · -- The case of the digits does not matter to their value.
    cases hn
    obtain ⟨digits, hlike, rfl⟩ := numberLike_of_numberParts? hparts
    rw [numeral?_upper hlike.radix_le] at hvalue
    exact ⟨radix, digits, hlike, hvalue⟩
  · exact nomatch hname

/-- Which tokens are numbers.  A token that starts like a number is one exactly if what follows
    its mark denotes a number below `2 ^ 32`, with or without a plus sign in front; otherwise
    it is no operand, and is quoted in upper case.  No other token is a number. -/
theorem ofToken_number (token : List Char) :
    (∀ radix digits, NumberLike token radix digits →
      (∀ value, ofToken token = .ok (.literal value) ↔
        value < 2 ^ 32 ∧ (Denotes radix digits value ∨
          ∃ rest, digits = '+' :: rest ∧ Denotes radix rest value)) ∧
      ((∀ value, ofToken token ≠ .ok (.literal value)) →
        ofToken token = .error (.badOperand (String.ofList (upper token))))) ∧
    ((¬∃ radix digits, NumberLike token radix digits) →
      ∀ value, ofToken token ≠ .ok (.literal value)) := by
  refine ⟨fun radix digits hlike => ?_, fun hnone value hvalue => ?_⟩
  · -- What it takes to be a number is told apart from what becomes of it.
    have hnumeral : ∀ value, numeral? radix UInt32.size digits = some value ↔
        value < 2 ^ 32 ∧ (Denotes radix digits value ∨
          ∃ rest, digits = '+' :: rest ∧ Denotes radix rest value) :=
      fun value => numeral?_eq_some_iff hlike.radix_le
    rw [ofToken_of_numberLike hlike]
    cases hread : numeral? radix UInt32.size digits with
    | none =>
      refine ⟨fun value => ?_, fun _ => rfl⟩
      rw [← hnumeral, hread]
      exact ⟨nofun, nofun⟩
    | some n =>
      refine ⟨fun value => ?_, fun hnot => absurd rfl (hnot n)⟩
      rw [← hnumeral, hread, Except.ok.injEq, literal.injEq, Option.some.injEq]
  · obtain ⟨radix, digits, hlike, -⟩ := numberLike_of_ofToken hvalue
    exact hnone ⟨radix, digits, hlike⟩

/-- A number with a mark, one without a mark that has zeros in front, and one that goes on in
    letters; a name is no number. -/
theorem ofToken_number_of_tokens :
    ofToken "0x2a".toList = .ok (.literal 42) ∧ ofToken "007".toList = .ok (.literal 7) ∧
      ofToken "12ab".toList = .error (.badOperand "12AB") ∧
      ofToken "x12".toList ≠ .ok (.literal 12) := by
  -- Short tokens without a mark are decimal by their first two characters.
  have hdecimal : ∀ token : List Char, token.head?.any Char.isDigit = true →
      token.tail.head?.any (· ∈ ['X', 'x']) = false → NumberLike token 10 token := by
    rintro (_ | ⟨c, cs⟩) hdigit hunmarked
    · exact nomatch hdigit
    · refine .decimal hdigit fun x digits hx heq => ?_
      cases heq
      rcases hx with rfl | rfl <;> exact nomatch hunmarked
  refine ⟨?_, ?_, ?_, ?_⟩
  · have hdenotes : Denotes 16 "2a".toList 42 := (digits?_eq_some_iff (by decide)).1 rfl
    exact (((ofToken_number _).1 16 _ (.hex (.inr rfl) _)).1 42).2 ⟨by decide, .inl hdenotes⟩
  · have hdenotes : Denotes 10 "007".toList 7 := (digits?_eq_some_iff (by decide)).1 rfl
    exact (((ofToken_number _).1 10 _ (hdecimal _ rfl rfl)).1 7).2 ⟨by decide, .inl hdenotes⟩
  · obtain ⟨hliteral, herror⟩ := (ofToken_number _).1 10 _ (hdecimal "12ab".toList rfl rfl)
    refine herror fun value hvalue => ?_
    rw [hliteral, ← numeral?_eq_some_iff (by decide)] at hvalue
    exact nomatch hvalue
  · refine (ofToken_number _).2 ?_ 12
    rintro ⟨radix, digits, hlike⟩
    have hparts := numberParts?_of_numberLike hlike
    exact nomatch hparts

/-- A hexadecimal number is read with a plus sign, which is no digit, in front of its digits. -/
theorem ofToken_signed_number :
    ofToken "#+5".toList = .ok (.literal 5) ∧ NumberLike "#+5".toList 16 "+5".toList ∧
      ∀ value, ¬Denotes 16 "+5".toList value := by
  refine ⟨by decide, .hash _, fun value hvalue => ?_⟩
  have hnone : digits? 16 "+5".toList = none := by decide
  rw [← digits?_eq_some_iff (by decide), hnone] at hvalue
  exact nomatch hvalue

/-! ## Registers -/

/-- A token has the shape of a register with an index: a `V`, of either case, with one
    hexadecimal digit or with several decimal ones. -/
inductive RegisterLike : List Char → Nat → Prop where
  | digit {v c : Char} {index : Nat} (letter : v = 'V' ∨ v = 'v') (denotes : Denotes 16 [c] index) :
      RegisterLike [v, c] index
  | decimal {v : Char} {digits : List Char} {index : Nat} (letter : v = 'V' ∨ v = 'v')
      (several : 2 ≤ digits.length) (denotes : Denotes 10 digits index) :
      RegisterLike (v :: digits) index

theorem toUpper_eq_registerLetter_iff {c : Char} : c.toUpper = 'V' ↔ c = 'V' ∨ c = 'v' :=
  toUpper_eq_letter_iff (by decide) rfl

/-- The index of a register is read off any token that has the shape of one, as long as it is
    below `2 ^ 64`. -/
theorem registerIndex?_eq_some_iff {token : List Char} {index : Nat} :
    registerIndex? (upper token) = some index ↔ RegisterLike token index ∧ index < 2 ^ 64 := by
  constructor
  · intro h
    unfold registerIndex? at h
    split at h
    · rename_i heq
      obtain ⟨v, rest, rfl, hv, hrest⟩ := List.map_eq_cons_iff.1 heq
      obtain ⟨c, none, rfl, rfl, hnone⟩ := List.map_eq_cons_iff.1 hrest
      rw [List.map_eq_nil_iff.1 hnone]
      -- One digit stands for less than sixteen, far below the limit.
      have hlt := ((digitValue?_eq_some_iff (by decide)).1 h).1
      rw [← denotes_singleton_iff (by decide)] at h
      exact ⟨.digit (toUpper_eq_registerLetter_iff.1 hv) (denotes_upper.1 h), by omega⟩
    · rename_i hone heq
      obtain ⟨v, digits, rfl, hv, rfl⟩ := List.map_eq_cons_iff.1 heq
      obtain ⟨hdigits, hlt⟩ := Option.filter_eq_some_iff.1 h
      refine ⟨.decimal (toUpper_eq_registerLetter_iff.1 hv) ?_ ?_, of_decide_eq_true hlt⟩
      · -- There is a digit, and there is not only one.
        cases digits with
        | nil => cases hdigits
        | cons c rest =>
          cases rest with
          | nil => exact absurd rfl (hone c.toUpper)
          | cons d rest => exact Nat.le_add_left 2 _
      · rwa [digits?_eq_some_iff (by decide), ← upper, denotes_upper] at hdigits
    · cases h
  · rintro ⟨hlike, hlt⟩
    -- In the other direction the two shapes are the two ways in which an index is read.
    cases hlike with
    | @digit v c _ letter denotes =>
      rw [← denotes_upper, upper, List.map_singleton, denotes_singleton_iff (by decide)] at denotes
      rw [upper, List.map_cons, toUpper_eq_registerLetter_iff.2 letter]
      exact denotes
    | @decimal v digits _ letter several denotes =>
      obtain ⟨c, d, rest, rfl⟩ : ∃ c d rest, digits = c :: d :: rest := by
        cases digits with
        | nil => cases several
        | cons c rest =>
          cases rest with
          | nil => exact absurd several (by simp)
          | cons d rest => exact ⟨c, d, rest, rfl⟩
      rw [← denotes_upper, ← digits?_eq_some_iff (by decide)] at denotes
      rw [upper, List.map_cons, toUpper_eq_registerLetter_iff.2 letter]
      exact Option.filter_eq_some_iff.2 ⟨denotes, decide_eq_true hlt⟩

theorem RegisterLike.unique {token : List Char} {m n : Nat} (hm : RegisterLike token m)
    (hn : RegisterLike token n) : m = n := by
  -- The number of digits decides which shape it is, and digits denote one number only.
  cases hm with
  | digit _ hm =>
    cases hn with
    | digit _ hn => exact hm.unique (by decide) hn
    | decimal _ hseveral _ => exact absurd hseveral (by simp)
  | decimal _ hseveral hm =>
    cases hn with
    | digit => exact absurd hseveral (by simp)
    | decimal _ _ hn => exact hm.unique (by decide) hn

/-- What has the shape of a register is neither a keyword nor a number. -/
theorem RegisterLike.keyword?_eq_none {token : List Char} {index : Nat}
    (h : RegisterLike token index) :
    keyword? (upper token) = none ∧ numberParts? (upper token) = none := by
  -- Of both shapes only the letter in front matters here.
  have hletter : ∀ {v : Char} (digits : List Char), v = 'V' ∨ v = 'v' →
      keyword? (upper (v :: digits)) = none ∧ numberParts? (upper (v :: digits)) = none := by
    intro v digits hv
    rw [upper, List.map_cons, toUpper_eq_registerLetter_iff.2 hv]
    exact ⟨rfl, rfl⟩
  cases h with
  | digit letter => exact hletter _ letter
  | decimal letter => exact hletter _ letter

theorem isDigit_of_denotes {cs : List Char} {n : Nat} (h : Denotes 10 cs n) :
    ∀ c ∈ cs, c.isDigit = true := by
  have table : ∀ d : Fin 16, d.val < 10 → (hexDigit d).isDigit = true := by decide
  intro c hc
  -- A digit is one of a table of sixteen, in upper case.
  obtain ⟨d, hd, hupper⟩ := exists_digit_of_denotes (by decide) h c hc
  rw [← isDigit_toUpper, hupper]
  exact table d hd

/-- A register with several digits is spelled like a name. -/
theorem isIdentifier_of_denotes {v : Char} {digits : List Char} {n : Nat} (hv : v = 'V' ∨ v = 'v')
    (h : Denotes 10 digits n) : isIdentifier (v :: digits) = true := by
  have hall : digits.all (fun c => c.isAlphanum || c == '_') = true := by
    rw [List.all_eq_true]
    intro c hc
    rw [Char.isAlphanum, isDigit_of_denotes h c hc, Bool.or_true, Bool.true_or]
  rw [isIdentifier, hall]
  rcases hv with rfl | rfl <;> rfl

/-- A token that is read as a register has the shape of one. -/
theorem registerLike_of_ofToken {token : List Char} {r : Register}
    (h : ofToken token = .ok (.register r)) : RegisterLike token r.val := by
  -- Only the second of the ways to read a token ends with a register.
  rcases cases_of_ofToken h with hkeyword | ⟨r', hr, hindex⟩ | ⟨_, _, _, hvalue, -⟩ | ⟨hname, -⟩
  · exact absurd rfl ((keyword?_ne hkeyword).1 r)
  · cases hr
    exact (registerIndex?_eq_some_iff.1 hindex).1
  · exact nomatch hvalue
  · exact nomatch hname

/-- Which tokens are registers.  A token that has the shape of a register is the register with
    its index if there is one, which is so whenever there is only one digit.  It is refused if
    the index is sixteen or more, but from `2 ^ 64` on it is a name.  No other token is a
    register. -/
theorem ofToken_register_shape (token : List Char) :
    (∀ index, RegisterLike token index →
      (token.length = 2 → index < 16) ∧
      (∀ h : index < 16, ofToken token = .ok (.register ⟨index, h⟩)) ∧
      (16 ≤ index → index < 2 ^ 64 → ofToken token = .error (.noRegister index)) ∧
      (2 ^ 64 ≤ index → ofToken token = .ok (.label (String.ofList token)))) ∧
    ∀ r, ofToken token = .ok (.register r) → RegisterLike token r.val := by
  refine ⟨fun index hlike => ?_, fun r => registerLike_of_ofToken⟩
  obtain ⟨hkeyword, hparts⟩ := hlike.keyword?_eq_none
  refine ⟨fun hlength => ?_, fun hlt => ?_, fun hle hlt => ?_, fun hle => ?_⟩
  · -- With a second character only, the digit is hexadecimal and below sixteen.
    cases hlike with
    | digit _ denotes =>
      rw [denotes_singleton_iff (by decide), digitValue?_eq_some_iff (by decide)] at denotes
      exact denotes.1
    | decimal _ several =>
      rw [List.length_cons] at hlength
      omega
  · have hindex := registerIndex?_eq_some_iff.2 ⟨hlike, by omega⟩
    simp only [ofToken, hkeyword, hindex, hlt, dif_pos]
  · have hindex := registerIndex?_eq_some_iff.2 ⟨hlike, hlt⟩
    simp only [ofToken, hkeyword, hindex, dif_neg (Nat.not_lt.2 hle)]
  · -- The index is not read, so the token is no register and left for a name.
    have hindex : registerIndex? (upper token) = none := by
      rw [Option.eq_none_iff_forall_ne_some]
      intro n hn
      obtain ⟨hn, hlt⟩ := registerIndex?_eq_some_iff.1 hn
      rw [hn.unique hlike] at hlt
      omega
    have hname : isIdentifier token = true := by
      cases hlike with
      | digit _ denotes =>
        rw [denotes_singleton_iff (by decide), digitValue?_eq_some_iff (by decide)] at denotes
        omega
      | decimal letter _ denotes => exact isIdentifier_of_denotes letter denotes
    simp only [ofToken, hkeyword, hindex, hparts, hname, if_true]

/-- A register with one digit, one with zeros in front, and one that there is not. -/
theorem ofToken_register_shape_of_tokens :
    ofToken "vb".toList = .ok (.register 11) ∧ ofToken "V0015".toList = .ok (.register 15) ∧
      ofToken "v16".toList = .error (.noRegister 16) := by
  have hdenotes : ∀ {n : Nat} {cs : List Char}, digits? 10 cs = some n → Denotes 10 cs n :=
    (digits?_eq_some_iff (by decide)).1
  refine ⟨?_, ?_, ?_⟩
  · have hlike : RegisterLike "vb".toList 11 :=
      .digit (.inr rfl) ((denotes_singleton_iff (by decide)).2 rfl)
    exact ((ofToken_register_shape _).1 11 hlike).2.1 (by decide)
  · have hlike : RegisterLike "V0015".toList 15 := .decimal (.inl rfl) (by decide) (hdenotes rfl)
    exact ((ofToken_register_shape _).1 15 hlike).2.1 (by decide)
  · have hlike : RegisterLike "v16".toList 16 := .decimal (.inr rfl) (by decide) (hdenotes rfl)
    exact ((ofToken_register_shape _).1 16 hlike).2.2.1 (by decide) (by decide)

/-- The first index that is not refused any more, and the last one that is. -/
theorem ofToken_register_too_large :
    RegisterLike "V18446744073709551616".toList (2 ^ 64) ∧
      ofToken "V18446744073709551616".toList = .ok (.label "V18446744073709551616") ∧
      ofToken "V18446744073709551615".toList = .error (.noRegister (2 ^ 64 - 1)) := by
  refine ⟨.decimal (.inl rfl) (by decide) ?_, by decide +kernel, by decide +kernel⟩
  rw [← digits?_eq_some_iff (by decide)]
  decide +kernel

/-! ## Characters of operands -/

theorem isPlain_of_denotes {radix : Nat} (hradix : radix ≤ 16) {cs : List Char} {n : Nat}
    (h : Denotes radix cs n) : ∀ c ∈ cs, isPlain c = true := by
  have table : ∀ d : Fin 16, isPlain (hexDigit d) = true := by decide
  intro c hc
  obtain ⟨d, -, hupper⟩ := exists_digit_of_denotes hradix h c hc
  -- A plain character stays plain in the other case.
  rw [← isPlain_toUpper, hupper]
  exact table d

theorem isPlain_of_keyword? {word : List Char} {operand : Operand}
    (h : keyword? word = some operand) : ∀ c ∈ word, isPlain c = true := by
  unfold keyword? at h
  split at h
  case h_8 => exact nomatch h
  all_goals exact List.all_eq_true.1 rfl

theorem isPlain_of_registerLike {token : List Char} {index : Nat} (h : RegisterLike token index) :
    ∀ c ∈ token, isPlain c = true := by
  have hletter : ∀ {v : Char}, v = 'V' ∨ v = 'v' → isPlain v = true := by
    rintro v (rfl | rfl) <;> rfl
  cases h with
  | digit letter denotes =>
    exact List.forall_mem_cons.2 ⟨hletter letter, isPlain_of_denotes (by decide) denotes⟩
  | decimal letter _ denotes =>
    exact List.forall_mem_cons.2 ⟨hletter letter, isPlain_of_denotes (by decide) denotes⟩

/-- A number is made of its mark, digits and maybe a plus sign. -/
theorem isPlain_of_numberLike {token digits : List Char} {radix limit value : Nat}
    (h : NumberLike token radix digits) (hvalue : numeral? radix limit digits = some value) :
    ∀ c ∈ token, isPlain c = true := by
  -- The digits are plain with or without the plus sign, which is plain as well.
  have hdigits : ∀ c ∈ digits, isPlain c = true := by
    rcases (numeral?_eq_some_iff h.radix_le).1 hvalue with ⟨-, hdenotes | ⟨rest, rfl, hdenotes⟩⟩
    · exact isPlain_of_denotes h.radix_le hdenotes
    · exact List.forall_mem_cons.2 ⟨rfl, isPlain_of_denotes h.radix_le hdenotes⟩
  cases h with
  | hash => exact List.forall_mem_cons.2 ⟨rfl, hdigits⟩
  | dollar => exact List.forall_mem_cons.2 ⟨rfl, hdigits⟩
  | hex mark =>
    refine List.forall_mem_cons.2 ⟨rfl, List.forall_mem_cons.2 ⟨?_, hdigits⟩⟩
    rcases mark with rfl | rfl <;> rfl
  | decimal => exact hdigits

/-- What can be read as an operand is made of plain characters. -/
theorem isPlain_of_ofToken {token : List Char} {operand : Operand}
    (h : ofToken token = .ok operand) : ∀ c ∈ token, isPlain c = true := by
  -- Each of the ways to read a token asks for characters that are plain.
  rcases cases_of_ofToken h with hkeyword | ⟨r, -, hindex⟩ | ⟨radix, ds, value, -, hparts, hvalue⟩ |
    ⟨-, hname⟩
  · intro c hc
    rw [← isPlain_toUpper]
    exact isPlain_of_keyword? hkeyword _ (List.mem_map_of_mem hc)
  · exact isPlain_of_registerLike (registerIndex?_eq_some_iff.1 hindex).1
  · obtain ⟨digits, hlike, rfl⟩ := numberLike_of_numberParts? hparts
    rw [numeral?_upper hlike.radix_le] at hvalue
    exact isPlain_of_numberLike hlike hvalue
  · exact isPlain_of_isIdentifier hname

end Operand

end Chip8.Assembly
