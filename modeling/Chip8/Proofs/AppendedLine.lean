import Chip8.Proofs.LabelSubstitution

/-!
# A line behind a program

A statement that is written on a new line behind a program which can be assembled is read on
its own, with the labels of the program.  The lines before it keep their numbers, their
addresses and their words, so its word comes behind the program, or else its problem is the
only one.

## Key results

- `collectLabels_append`, `emit_append`: the two passes over statements in two parts
- `ofSource_append_line`: the statements of a text with a line behind it
- `assemble_append_line`: what a program with a line behind it is assembled to
-/

namespace Chip8.Assembly

open Text

/-! ## The two passes -/

/-- Statements without labels behind the others record nothing. -/
theorem collectLabels_append {rest : List (Nat × Statement)} (h : ∀ p ∈ rest, p.2.label = none)
    (front : List (Nat × Statement)) (labels : Labels) (address : UInt16) :
    collectLabels labels address (front ++ rest) = collectLabels labels address front := by
  induction front generalizing labels address with
  | nil => exact collectLabels_eq_self h labels address
  | cons head front ih =>
    obtain ⟨line, s⟩ := head
    rw [List.cons_append, collectLabels, collectLabels]
    congr 1
    funext labels'
    exact ih _ _

/-- The bytes of further statements follow those of the statements before them. -/
theorem emit_append {labels : Labels} {size : Nat} {front : List (Nat × Statement)}
    {image : List UInt8} (h : emit labels size front = .ok image) (rest : List (Nat × Statement)) :
    emit labels size (front ++ rest) =
      (emit labels (size + image.length) rest).map (image ++ ·) := by
  induction front generalizing size image with
  | nil =>
    cases h
    show emit labels size rest = (emit labels size rest).map fun bytes => bytes
    cases emit labels size rest <;> rfl
  | cons head front ih =>
    obtain ⟨line, s⟩ := head
    rw [emit] at h
    rw [List.cons_append, emit]
    by_cases hcode : s.isCode = true
    · rw [if_pos hcode] at h ⊢
      obtain ⟨w, hword, h⟩ := Except.bind_eq_ok_iff.1 h
      split at h
      · rename_i hroom
        obtain ⟨bytes, hfront, himage⟩ := Except.bind_eq_ok_iff.1 h
        cases himage
        -- The rest starts behind this word and those of the other statements.
        have hsize : size + (w.toBytes ++ bytes).length = size + 2 + bytes.length := by
          rw [List.length_append, ← Nat.add_assoc]
          rfl
        rw [hword, hsize]
        simp only [bind, Except.bind, if_pos hroom, ih hfront]
        cases emit labels (size + 2 + bytes.length) rest with
        | error e => rfl
        | ok later => simp only [Except.map, List.append_assoc]
      · cases h
    · rw [if_neg hcode] at h ⊢
      exact ih h

/-! ## The statements -/

theorem length_splitOn (sep : Char) (cs : List Char) :
    (cs.splitOn sep).length = cs.count sep + 1 := by
  induction cs with
  | nil => rfl
  | cons c cs ih =>
    rw [List.splitOn_cons_eq_if_modifyHead, List.count_cons]
    split
    · rw [List.length_cons, ih]
    · rw [List.length_modifyHead, ih]

/-- A line of its own behind a text is a statement of its own.  Before it there may be an empty
    line, which is not one as long as nothing stands behind it. -/
theorem ofSource_append_line (source : String) {line : List Char} (hne : line ≠ [])
    (hline : '\n' ∉ line) :
    ∃ empty : List (Nat × Statement), (∀ p ∈ empty, p.2 = { label := none, body := [] }) ∧
      Statement.ofSource (source ++ "\n" ++ String.ofList line) =
        Statement.ofSource source ++ empty ++
          [(source.toList.count '\n' + 2, Statement.ofLine line)] := by
  have hlines : lines (source ++ "\n" ++ String.ofList line).toList =
      source.toList.splitOn '\n' ++ [line] := by
    have htext : (source ++ "\n" ++ String.ofList line).toList =
        source.toList ++ '\n' :: line := by simp
    have hlast : (source.toList.splitOn '\n' ++ [line]).getLast? ≠ some [] := by
      rw [List.getLast?_concat]
      exact fun h => hne (Option.some.inj h)
    simp only [lines]
    rw [htext, List.splitOn_append_cons_self, List.splitOn_eq_singleton hline, if_neg hlast]
  have hlength := length_splitOn '\n' source.toList
  rw [Statement.ofSource, hlines, List.zipIdx_append, List.map_append, Nat.zero_add, hlength,
    Statement.ofSource, lines]
  split
  · rename_i hempty
    -- The text ends in a newline, behind which the last of its pieces is empty.
    rw [← List.dropLast_append_getLast? [] hempty, List.zipIdx_append, List.map_append]
    refine ⟨_, ?_, by rw [List.dropLast_concat]; rfl⟩
    intro p hp
    rw [List.mem_singleton.1 hp]
    rfl
  · exact ⟨[], List.forall_mem_nil _, by rw [List.append_nil]; rfl⟩

/-! ## The program -/

/-- A program with a line behind it is assembled to the program and the word of the line, which
    is read with the labels of the program.  Where the line has no word, its problem is
    reported. -/
theorem assemble_append_line {source : String} {image : List UInt8} {labels : Labels}
    (h : assemble source = .ok image)
    (hlabels : collectLabels [] Memory.programBase (Statement.ofSource source) = .ok labels)
    {line : List Char} (hline : '\n' ∉ line) (hcode : (Statement.ofLine line).isCode = true)
    (hlabel : (Statement.ofLine line).label = none)
    (hroom : image.length + 2 ≤ Memory.programCapacity) :
    assemble (source ++ "\n" ++ String.ofList line) =
      (wordOf labels (source.toList.count '\n' + 2) (Statement.ofLine line).body).map
        fun word => image ++ word.toBytes := by
  have hne : line ≠ [] := by
    rintro rfl
    exact absurd hcode (by decide)
  obtain ⟨empty, hempty, hsource⟩ := ofSource_append_line source hne hline
  obtain ⟨labels', hcollect, hemit⟩ := Except.bind_eq_ok_iff.1 h
  rw [hlabels] at hcollect
  cases hcollect
  have hcollect : collectLabels [] Memory.programBase
      (Statement.ofSource (source ++ "\n" ++ String.ofList line)) = .ok labels := by
    rw [hsource, List.append_assoc, collectLabels_append _, hlabels]
    intro p hp
    rcases List.mem_append.1 hp with hp | hp
    · rw [hempty p hp]
    · rw [List.mem_singleton.1 hp]
      exact hlabel
  -- The empty line stands for no bytes.
  have hnone : emit labels image.length empty = .ok [] := by
    have hwords : List.Forall₂ (fun p w => wordOf labels p.1 p.2.body = .ok w)
        (empty.filter fun p => p.2.isCode) [] := by
      rw [List.filter_eq_nil_iff.2 fun p hp => by rw [hempty p hp]; decide]
      exact .nil
    exact emit_of_words hwords (Nat.le_of_add_right_le hroom)
  have hbytes : emit labels 0 (Statement.ofSource (source ++ "\n" ++ String.ofList line)) =
      (wordOf labels (source.toList.count '\n' + 2) (Statement.ofLine line).body).map
        fun word => image ++ word.toBytes := by
    rw [hsource, List.append_assoc, emit_append hemit, Nat.zero_add, emit_append hnone, emit,
      if_pos hcode]
    cases wordOf labels (source.toList.count '\n' + 2) (Statement.ofLine line).body with
    | error e => rfl
    | ok word =>
      have hfits : image.length + ([] : List UInt8).length + 2 ≤ Memory.programCapacity := hroom
      simp only [bind, Except.bind, if_pos hfits]
      rfl
  rw [← hbytes, assemble, hcollect]
  rfl

end Chip8.Assembly
