import Chip8.Proofs.StatementText

/-!
# Blanks that do not matter

The passes over a line trim what they cut out of it, so blanks at either end of a part
never matter.  Here a text is taken apart into what trimming leaves of it and the blanks
around that, and trimming is followed through each way of cutting: at the first blank,
at the first occurrence of a character, and between commas.

`retrim` is the converse: it exchanges what is left of a text after trimming and keeps the
blanks around it.

## Key results

- `trim_blanks_append`, `trim_append_blanks`: blanks at either end are trimmed off
- `firstWord_trim`, `afterFirstWord_trim`: the first word of a trimmed text
- `map_trim_splitOn_trim`: trimming a text does not change its trimmed pieces
- `trim_retrim`: what is left after trimming is what was put in
-/

namespace Chip8.Text

/-! ## Blanks at the ends -/

/-- The blanks at the front of a text. -/
def leadingBlanks (cs : List Char) : List Char := cs.takeWhile isBlank

/-- The blanks at the end of a text, where these are not also at its front. -/
def trailingBlanks (cs : List Char) : List Char :=
  ((trimLeft cs).reverse.takeWhile isBlank).reverse

theorem isBlank_of_mem_leadingBlanks (cs : List Char) :
    ∀ c ∈ leadingBlanks cs, isBlank c = true :=
  fun _ hc => List.mem_takeWhile_imp hc

theorem isBlank_of_mem_trailingBlanks (cs : List Char) :
    ∀ c ∈ trailingBlanks cs, isBlank c = true :=
  fun _ hc => List.mem_takeWhile_imp (List.mem_reverse.1 hc)

theorem trim_append_trailingBlanks (cs : List Char) : trim cs ++ trailingBlanks cs = trimLeft cs := by
  rw [trim, trimRight, trailingBlanks, ← List.reverse_append, List.takeWhile_append_dropWhile,
    List.reverse_reverse]

/-- A text is what trimming leaves of it, with blanks around that. -/
theorem leadingBlanks_append_trim_append (cs : List Char) :
    leadingBlanks cs ++ (trim cs ++ trailingBlanks cs) = cs := by
  rw [trim_append_trailingBlanks]
  exact List.takeWhile_append_dropWhile

/-- Blanks in front are trimmed off. -/
theorem trim_blanks_append {bs : List Char} (h : ∀ c ∈ bs, isBlank c = true) (cs : List Char) :
    trim (bs ++ cs) = trim cs := by
  rw [trim, trim, trimLeft, List.dropWhile_append_of_pos h, trimLeft]

theorem trim_eq_nil {bs : List Char} (h : ∀ c ∈ bs, isBlank c = true) : trim bs = [] := by
  have := trim_blanks_append h []
  rwa [List.append_nil] at this

theorem trimRight_append_blanks (cs : List Char) {bs : List Char}
    (h : ∀ c ∈ bs, isBlank c = true) : trimRight (cs ++ bs) = trimRight cs := by
  have hreverse : ∀ c ∈ bs.reverse, isBlank c = true := fun c hc => h c (List.mem_reverse.1 hc)
  rw [trimRight, trimRight, List.reverse_append, List.dropWhile_append_of_pos hreverse]

/-- Blanks at the end are trimmed off. -/
theorem trim_append_blanks (cs : List Char) {bs : List Char} (h : ∀ c ∈ bs, isBlank c = true) :
    trim (cs ++ bs) = trim cs := by
  induction cs with
  | nil => exact trim_eq_nil h
  | cons c cs ih =>
    cases hc : isBlank c with
    | true => rw [List.cons_append, trim_blank_cons hc, trim_blank_cons hc, ih]
    | false =>
      -- From the first character on that is no blank only the end is trimmed.
      have hleft : ∀ ds : List Char, trimLeft (c :: ds) = c :: ds := fun ds =>
        List.dropWhile_cons_of_neg (by simp [hc])
      rw [trim, trim, List.cons_append, hleft, hleft, ← List.cons_append,
        trimRight_append_blanks _ h]

theorem leadingBlanks_append_trimLeft (cs : List Char) : leadingBlanks cs ++ trimLeft cs = cs :=
  List.takeWhile_append_dropWhile

theorem trim_trimLeft (cs : List Char) : trim (trimLeft cs) = trim cs := by
  have h := trim_blanks_append (isBlank_of_mem_leadingBlanks cs) (trimLeft cs)
  rwa [leadingBlanks_append_trimLeft, eq_comm] at h

theorem trim_trim (cs : List Char) : trim (trim cs) = trim cs := by
  have h := congrArg trim (leadingBlanks_append_trim_append cs)
  rwa [trim_blanks_append (isBlank_of_mem_leadingBlanks _),
    trim_append_blanks _ (isBlank_of_mem_trailingBlanks _)] at h

theorem mem_of_mem_trim {cs : List Char} {c : Char} (h : c ∈ trim cs) : c ∈ cs := by
  rw [← leadingBlanks_append_trim_append cs]
  exact List.mem_append_right _ (List.mem_append_left _ h)

/-- A character that is no blank is not trimmed off. -/
theorem mem_trim_of_mem {cs : List Char} {c : Char} (h : c ∈ cs) (hc : isBlank c = false) :
    c ∈ trim cs := by
  rw [← leadingBlanks_append_trim_append cs, List.mem_append, List.mem_append] at h
  rcases h with h | h | h
  · rw [isBlank_of_mem_leadingBlanks cs c h] at hc
    exact nomatch hc
  · exact h
  · rw [isBlank_of_mem_trailingBlanks cs c h] at hc
    exact nomatch hc

/-- Dropping stops at a character that is not dropped. -/
theorem head?_dropWhile (p : Char → Bool) (cs : List Char) :
    ∀ c ∈ (cs.dropWhile p).head?, p c = false := by
  intro c hc
  rw [← List.find?_not_eq_head?_dropWhile, Option.mem_def] at hc
  simpa using List.find?_some hc

/-- A trimmed text does not start with a blank. -/
theorem isBlank_head?_trim (cs : List Char) : ∀ c ∈ (trim cs).head?, isBlank c = false := by
  intro c hc
  apply head?_dropWhile isBlank cs
  show c ∈ (trimLeft cs).head?
  rw [← trim_append_trailingBlanks, List.head?_append, Option.mem_def.1 hc]
  rfl

/-! ## Cutting at a character -/

/-- A text in two parts is cut between them where a condition ends that the first part meets. -/
theorem span_append {p : Char → Bool} {front rest : List Char} (hfront : ∀ c ∈ front, p c = true)
    (hrest : ∀ c ∈ rest.head?, p c = false) :
    (front ++ rest).takeWhile p = front ∧ (front ++ rest).dropWhile p = rest := by
  rw [List.takeWhile_append_of_pos hfront, List.dropWhile_append_of_pos hfront]
  cases rest with
  | nil => exact ⟨List.append_nil _, rfl⟩
  | cons c cs =>
    have hc : ¬p c = true := by simp [hrest c rfl]
    rw [List.takeWhile_cons_of_neg hc, List.dropWhile_cons_of_neg hc, List.append_nil]
    exact ⟨rfl, rfl⟩

/-- What is dropped in front of a character at which dropping stops does not depend on what
    comes behind it. -/
theorem dropWhile_append_cons {p : Char → Bool} {c : Char} (hc : p c = false)
    (cs ds : List Char) : (cs ++ c :: ds).dropWhile p = cs.dropWhile p ++ c :: ds := by
  rw [List.dropWhile_append]
  split
  · -- Everything in front of the character is dropped, and there it stops.
    rename_i hnil
    rw [List.isEmpty_iff.1 hnil, List.nil_append]
    exact List.dropWhile_cons_of_neg (by simp [hc])
  · rfl

/-- Behind a character that is no blank the end is trimmed, and nothing in front of it. -/
theorem trimRight_append_cons {c : Char} (hc : isBlank c = false) (cs ds : List Char) :
    trimRight (cs ++ c :: ds) = cs ++ c :: trimRight ds := by
  have hreverse : (cs ++ c :: ds).reverse = ds.reverse ++ c :: cs.reverse := by simp
  rw [trimRight, hreverse, dropWhile_append_cons hc, trimRight]
  simp

/-- Around a character that is no blank each side is trimmed at its own end. -/
theorem trim_append_cons {c : Char} (hc : isBlank c = false) (cs ds : List Char) :
    trim (cs ++ c :: ds) = trimLeft cs ++ c :: trimRight ds := by
  have hleft : trimLeft (cs ++ c :: ds) = trimLeft cs ++ c :: ds := dropWhile_append_cons hc cs ds
  rw [trim, hleft, trimRight_append_cons hc]

/-- What stands between characters that are no blanks is not trimmed off. -/
theorem mem_trim_of_between {front gap rest : List Char} {c d : Char} (hc : c ∈ front)
    (hcblank : isBlank c = false) (hd : d ∈ rest) (hdblank : isBlank d = false) {e : Char}
    (he : e ∈ gap) : e ∈ trim (front ++ gap ++ rest) := by
  -- The two characters are kept, and what stands between them stays between.
  obtain ⟨before, behind, rfl⟩ := List.append_of_mem hc
  obtain ⟨between, last, rfl⟩ := List.append_of_mem hd
  have htext : before ++ c :: behind ++ gap ++ (between ++ d :: last) =
      before ++ c :: (behind ++ gap ++ between ++ d :: last) := by simp
  rw [htext, trim_append_cons hcblank, trimRight_append_cons hdblank]
  simp [he]

theorem trim_trimRight (cs : List Char) : trim (trimRight cs) = trim cs := by
  have hsplit : trimRight cs ++ (cs.reverse.takeWhile isBlank).reverse = cs := by
    rw [trimRight, ← List.reverse_append, List.takeWhile_append_dropWhile, List.reverse_reverse]
  have hblanks : ∀ c ∈ (cs.reverse.takeWhile isBlank).reverse, isBlank c = true :=
    fun c hc => List.mem_takeWhile_imp (List.mem_reverse.1 hc)
  have h := trim_append_blanks (trimRight cs) hblanks
  rw [hsplit] at h
  exact h.symm

/-! ## First words -/

theorem isBlank_of_mem_firstWord {cs : List Char} : ∀ c ∈ firstWord cs, isBlank c = false := by
  intro c hc
  simpa using List.mem_takeWhile_imp hc

/-- The first word ends in front of a blank, and the blank is left. -/
theorem firstWord_append {word rest : List Char} (hword : ∀ c ∈ word, isBlank c = false)
    (hrest : ∀ c ∈ rest.head?, isBlank c = true) :
    firstWord (word ++ rest) = word ∧ (word ++ rest).dropWhile (!isBlank ·) = rest := by
  apply span_append
  · intro c hc
    rw [hword c hc, Bool.not_false]
  · intro c hc
    rw [hrest c hc, Bool.not_true]

/-- A text that is not blank has a first word. -/
theorem exists_word_of_mem {text : List Char} {c : Char} (hc : c ∈ text)
    (hblank : isBlank c = false) :
    ∃ leading word tail, text = leading ++ word ++ tail ∧ (∀ c ∈ leading, isBlank c = true) ∧
      (∀ c ∈ word, isBlank c = false) ∧ word ≠ [] ∧ ∀ c ∈ tail.head?, isBlank c = true := by
  have hsplit := leadingBlanks_append_trimLeft text
  have hhead : ∀ d ∈ (trimLeft text).head?, isBlank d = false := head?_dropWhile isBlank text
  refine ⟨leadingBlanks text, firstWord (trimLeft text), (trimLeft text).dropWhile (!isBlank ·),
    ?_, isBlank_of_mem_leadingBlanks text, isBlank_of_mem_firstWord, ?_, ?_⟩
  · rw [List.append_assoc, firstWord, List.takeWhile_append_dropWhile, hsplit]
  · cases htrim : trimLeft text with
    | nil =>
      rw [htrim, List.append_nil] at hsplit
      rw [← hsplit] at hc
      rw [isBlank_of_mem_leadingBlanks text c hc] at hblank
      cases hblank
    | cons d ds =>
      rw [htrim] at hhead
      rw [firstWord, List.takeWhile_cons_of_pos (by rw [hhead d rfl]; rfl)]
      exact List.cons_ne_nil _ _
  · intro d hd
    simpa using head?_dropWhile (!isBlank ·) (trimLeft text) d hd

section
variable {bs : List Char} (h : ∀ c ∈ bs, isBlank c = true)
include h

private theorem takeWhile_append_blanks (cs : List Char) :
    (cs ++ bs).takeWhile (!isBlank ·) = cs.takeWhile (!isBlank ·) := by
  have hnone : bs.takeWhile (!isBlank ·) = [] := by
    -- The blanks are reached only by a word that goes up to them, and there it ends.
    cases bs with
    | nil => rfl
    | cons b bs => exact List.takeWhile_cons_of_neg (by simp [h b List.mem_cons_self])
  induction cs with
  | nil => exact hnone
  | cons c cs ih =>
    rw [List.cons_append, List.takeWhile_cons, List.takeWhile_cons, ih]

private theorem dropWhile_append_blanks (cs : List Char) :
    (cs ++ bs).dropWhile (!isBlank ·) = cs.dropWhile (!isBlank ·) ++ bs := by
  have hall : bs.dropWhile (!isBlank ·) = bs := by
    cases bs with
    | nil => rfl
    | cons b bs => exact List.dropWhile_cons_of_neg (by simp [h b List.mem_cons_self])
  induction cs with
  | nil => exact hall
  | cons c cs ih =>
    rw [List.cons_append, List.dropWhile_cons, List.dropWhile_cons, ih]
    split <;> rfl

end

section
variable {cs : List Char} (h : ∀ c ∈ cs.head?, isBlank c = false)
include h

private theorem trim_append_trailingBlanks_of_head? : trim cs ++ trailingBlanks cs = cs := by
  rw [trim_append_trailingBlanks]
  exact (span_append (List.forall_mem_nil _) h).2

/-- Of a text that does not start with a blank, trimming leaves the first word alone. -/
theorem firstWord_trim : firstWord (trim cs) = firstWord cs := by
  have hword := takeWhile_append_blanks (isBlank_of_mem_trailingBlanks cs) (trim cs)
  rw [trim_append_trailingBlanks_of_head? h] at hword
  exact hword.symm

theorem afterFirstWord_trim : afterFirstWord (trim cs) = afterFirstWord cs := by
  have hrest := dropWhile_append_blanks (isBlank_of_mem_trailingBlanks cs) (trim cs)
  rw [trim_append_trailingBlanks_of_head? h] at hrest
  rw [afterFirstWord, afterFirstWord, hrest, trim_append_blanks _ (isBlank_of_mem_trailingBlanks _)]

end

/-! ## Pieces -/

/-- A text is a piece without the separator, or such a piece in front of a separator and
    another text. -/
theorem separated_induction (sep : Char) {P : List Char → Prop}
    (last : ∀ piece, sep ∉ piece → P piece)
    (more : ∀ piece rest, sep ∉ piece → P rest → P (piece ++ sep :: rest)) (cs : List Char) :
    P cs := by
  induction hlength : cs.length using Nat.strong_induction_on generalizing cs with
  | _ n ih =>
    -- On the length: the text behind the first separator is shorter.
    by_cases hmem : sep ∈ cs
    · obtain ⟨piece, rest, rfl, hpiece⟩ := List.eq_append_cons_of_mem hmem
      have hlt : rest.length < n := by
        rw [← hlength, List.length_append, List.length_cons]
        omega
      exact more piece rest hpiece (ih rest.length hlt rest rfl)
    · exact last cs hmem

/-- No piece contains the separator, and every other character is in a piece. -/
theorem mem_splitOn (sep : Char) (cs : List Char) :
    (∀ piece ∈ cs.splitOn sep, sep ∉ piece ∧ ∀ c ∈ piece, c ∈ cs) ∧
      ∀ c ∈ cs, c ≠ sep → ∃ piece ∈ cs.splitOn sep, c ∈ piece := by
  induction cs using separated_induction sep with
  | last piece hpiece =>
    rw [List.splitOn_eq_singleton hpiece]
    refine ⟨fun q hq => ?_, fun c hc _ => ⟨piece, List.mem_singleton_self _, hc⟩⟩
    rw [List.mem_singleton.1 hq]
    exact ⟨hpiece, fun c hc => hc⟩
  | more piece rest hpiece ih =>
    rw [List.splitOn_append_cons_self_of_not_mem hpiece]
    refine ⟨fun q hq => ?_, fun c hc hne => ?_⟩
    · rcases List.mem_cons.1 hq with rfl | hq
      · exact ⟨hpiece, fun c hc => List.mem_append_left _ hc⟩
      · obtain ⟨hsep, hsub⟩ := ih.1 q hq
        exact ⟨hsep, fun c hc => List.mem_append_right _ (List.mem_cons_of_mem _ (hsub c hc))⟩
    · rcases List.mem_append.1 hc with hc | hc
      · exact ⟨piece, List.mem_cons_self, hc⟩
      · obtain ⟨q, hq, hc⟩ := ih.2 c ((List.mem_cons.1 hc).resolve_left hne) hne
        exact ⟨q, List.mem_cons_of_mem _ hq, hc⟩

/-- A character between pieces and separators is a separator or in a piece. -/
theorem of_mem_intercalate_singleton {sep c : Char} {pieces : List (List Char)}
    (h : c ∈ [sep].intercalate pieces) : c = sep ∨ ∃ piece ∈ pieces, c ∈ piece := by
  induction pieces with
  | nil => exact nomatch h
  | cons piece pieces ih =>
    cases pieces with
    | nil =>
      rw [List.intercalate_singleton] at h
      exact .inr ⟨piece, List.mem_cons_self, h⟩
    | cons next pieces =>
      rw [List.intercalate_cons_cons, List.mem_append, List.mem_append] at h
      rcases h with (h | h) | h
      · exact .inr ⟨piece, List.mem_cons_self, h⟩
      · exact .inl (List.mem_singleton.1 h)
      · rcases ih h with hsep | ⟨q, hq, hc⟩
        · exact .inl hsep
        · exact .inr ⟨q, List.mem_cons_of_mem _ hq, hc⟩

private theorem map_trim_splitOn_blanks_append {bs : List Char}
    (h : ∀ c ∈ bs, isBlank c = true) (cs : List Char) :
    ((bs ++ cs).splitOn ',').map trim = (cs.splitOn ',').map trim := by
  have hcomma : ',' ∉ bs := fun hmem => absurd (h ',' hmem) (by decide)
  have hnot : ∀ {piece : List Char}, ',' ∉ piece → ',' ∉ bs ++ piece :=
    fun hpiece hmem => (List.mem_append.1 hmem).elim hcomma hpiece
  -- The blanks belong to the first piece.
  cases cs using separated_induction ',' with
  | last piece hpiece =>
    rw [List.splitOn_eq_singleton (hnot hpiece), List.splitOn_eq_singleton hpiece, List.map_singleton,
      List.map_singleton, trim_blanks_append h]
  | more piece rest hpiece _ =>
    rw [← List.append_assoc, List.splitOn_append_cons_self_of_not_mem (hnot hpiece),
      List.splitOn_append_cons_self_of_not_mem hpiece, List.map_cons, List.map_cons,
      trim_blanks_append h]

private theorem map_trim_splitOn_append_blanks {bs : List Char}
    (h : ∀ c ∈ bs, isBlank c = true) (cs : List Char) :
    ((cs ++ bs).splitOn ',').map trim = (cs.splitOn ',').map trim := by
  have hcomma : ',' ∉ bs := fun hmem => absurd (h ',' hmem) (by decide)
  -- The blanks belong to the last piece.
  induction cs using separated_induction ',' with
  | last piece hpiece =>
    have hnot : ',' ∉ piece ++ bs := fun hmem => (List.mem_append.1 hmem).elim hpiece hcomma
    rw [List.splitOn_eq_singleton hnot, List.splitOn_eq_singleton hpiece, List.map_singleton,
      List.map_singleton, trim_append_blanks _ h]
  | more piece rest hpiece ih =>
    rw [List.append_assoc, List.cons_append, List.splitOn_append_cons_self_of_not_mem hpiece,
      List.splitOn_append_cons_self_of_not_mem hpiece, List.map_cons, List.map_cons, ih]

/-- Trimming a text does not change its pieces, once these are trimmed as well. -/
theorem map_trim_splitOn_trim (cs : List Char) :
    ((trim cs).splitOn ',').map trim = (cs.splitOn ',').map trim := by
  have hleft := map_trim_splitOn_blanks_append (isBlank_of_mem_leadingBlanks cs)
    (trim cs ++ trailingBlanks cs)
  rw [leadingBlanks_append_trim_append,
    map_trim_splitOn_append_blanks (isBlank_of_mem_trailingBlanks _)] at hleft
  exact hleft.symm

/-! ## Exchanging a trimmed text -/

/-- The text with `f` applied to what trimming leaves of it, and the blanks around that kept. -/
def retrim (f : List Char → List Char) (cs : List Char) : List Char :=
  leadingBlanks cs ++ (f (trim cs) ++ trailingBlanks cs)

theorem trim_retrim (f : List Char → List Char) (cs : List Char) :
    trim (retrim f cs) = trim (f (trim cs)) := by
  rw [retrim, trim_blanks_append (isBlank_of_mem_leadingBlanks _),
    trim_append_blanks _ (isBlank_of_mem_trailingBlanks _)]

theorem of_mem_retrim {f : List Char → List Char} {cs : List Char} {c : Char}
    (h : c ∈ retrim f cs) : c ∈ cs ∨ c ∈ f (trim cs) := by
  rw [retrim, List.mem_append, List.mem_append] at h
  rcases h with h | h | h
  · exact .inl ((List.takeWhile_sublist _).mem h)
  · exact .inr h
  · have hmem := (List.takeWhile_sublist _).mem (List.mem_reverse.1 h)
    exact .inl ((List.dropWhile_sublist _).mem (List.mem_reverse.1 hmem))

end Chip8.Text
