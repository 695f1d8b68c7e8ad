import Chip8.Proofs.AppendedLine
import Mathlib.Data.List.Induction

/-!
# The first problem of a program

The assembler reports one problem, and it is always the same one: the first label that is
wrong, or else the first statement that stands for no word or for one too many.  What is said
here of a source text speaks of its lines alone, with a table of labels that is read off them
and no pass over them in sight; the two passes are then followed to the line that they stop at.

## Key results

- `define_eq_error_iff`: a label is refused for a problem that can be told from the statements
  before it
- `exists_collectLabels`, `collectLabels_of_problem`: the first pass, without a problem and up to
  the first one
- `lookup_labelTable`: the table that the first pass makes, read off the statements
- `emit_of_front`: the second pass up to a statement
- `assemble_first_problem`: what is reported of a source text
-/

namespace Chip8.Assembly

open Text

/-! ## Problems with labels -/

/-- What is wrong with the label of a statement behind earlier ones: it is not a name, or one of
    them has it already. -/
def labelProblem? (earlier : List Statement) (s : Statement) : Option Problem :=
  match s.label with
  | none => none
  | some label =>
    if isIdentifier label = false then
      some (.invalidLabel (String.ofList label))
    else if ∃ t ∈ earlier, t.label = some label then
      some (.duplicateLabel (String.ofList label))
    else
      none

/-- What is wrong with the label in a row, counted from zero. -/
def labelProblemAt? (statements : List Statement) (row : Nat) : Option Problem :=
  statements[row]?.bind (labelProblem? (statements.take row))

theorem labelProblemAt?_append_of_lt {front : List Statement} {row : Nat} (h : row < front.length)
    (rest : List Statement) :
    labelProblemAt? (front ++ rest) row = labelProblemAt? front row := by
  rw [labelProblemAt?, labelProblemAt?, List.getElem?_append_left h,
    List.take_append_of_le_length (Nat.le_of_lt h)]

theorem labelProblemAt?_append_cons (front : List Statement) (s : Statement)
    (rest : List Statement) :
    labelProblemAt? (front ++ s :: rest) front.length = labelProblem? front s := by
  rw [labelProblemAt?, List.getElem?_append_right (Nat.le_refl _), Nat.sub_self,
    List.take_left]
  rfl

/-- Statements in front have no problems that are not there with others behind them. -/
theorem labelProblemAt?_front (front rest : List Statement)
    (h : ∀ row < front.length, labelProblemAt? (front ++ rest) row = none) (row : Nat) :
    labelProblemAt? front row = none := by
  by_cases hrow : row < front.length
  · rw [← labelProblemAt?_append_of_lt hrow rest]
    exact h row hrow
  · rw [labelProblemAt?, List.getElem?_eq_none (Nat.le_of_not_lt hrow), Option.bind_none]

/-- Where there are no labels, there are no problems with them. -/
theorem labelProblemAt?_of_no_labels {statements : List Statement}
    (h : ∀ s ∈ statements, s.label = none) (row : Nat) : labelProblemAt? statements row = none := by
  rw [labelProblemAt?, Option.bind_eq_none_iff]
  intro s hs
  rw [labelProblem?, h s (List.mem_of_getElem? hs)]

/-! ## The first pass -/

/-- A label is refused exactly for its problem, when the labels that are known are those of the
    earlier statements. -/
theorem define_eq_error_iff {earlier : List Statement} {labels : Labels}
    (hknown : ∀ label, (labels.lookup (String.ofList label)).isSome ↔
      ∃ t ∈ earlier, t.label = some label)
    (address : UInt16) (line : Nat) (s : Statement) (e : Error) :
    collectLabels.define labels address line s.label = .error e ↔
      ∃ problem, labelProblem? earlier s = some problem ∧ e = ⟨line, problem⟩ := by
  cases hlabel : s.label with
  | none => simp [collectLabels.define, labelProblem?, hlabel]
  | some label =>
    simp only [collectLabels.define, labelProblem?, hlabel, hknown]
    by_cases hname : isIdentifier label = true
    · by_cases hused : ∃ t ∈ earlier, t.label = some label
      · simp [hname, hused, eq_comm]
      · simp [hname, hused]
    · simp [hname, eq_comm]

/-- After a pass the labels that are known are those of its statements. -/
theorem isSome_lookup_of_collectLabels {statements : List (Nat × Statement)} {table : Labels}
    (h : collectLabels [] Memory.programBase statements = .ok table) (label : List Char) :
    (table.lookup (String.ofList label)).isSome ↔
      ∃ t ∈ statements.map Prod.snd, t.label = some label := by
  rw [lookup_of_collectLabels h, List.lookup_nil, Option.none_or, Option.isSome_map, codeBefore?,
    Option.isSome_map, List.findIdx?_isSome, List.any_eq_true, String.toList_ofList]
  simp only [decide_eq_true_eq]

/-- Once a pass has come through the statements in front, the next label is defined in the table
    that it has made. -/
theorem exists_collectLabels_append {front : List (Nat × Statement)} {labels table : Labels}
    {address : UInt16} (h : collectLabels labels address front = .ok table)
    (rest : List (Nat × Statement)) :
    ∃ behind, collectLabels labels address (front ++ rest) = collectLabels table behind rest := by
  induction front generalizing labels address with
  | nil =>
    cases h
    exact ⟨address, rfl⟩
  | cons head front ih =>
    obtain ⟨line, s⟩ := head
    obtain ⟨labels', hdefine, hfront⟩ := Except.bind_eq_ok_iff.1 h
    obtain ⟨behind, hrest⟩ := ih hfront
    refine ⟨behind, ?_⟩
    rw [List.cons_append, collectLabels, hdefine]
    exact hrest

/-- Without a problem the first pass makes a table. -/
theorem exists_collectLabels {statements : List (Nat × Statement)}
    (h : ∀ row, labelProblemAt? (statements.map Prod.snd) row = none) :
    ∃ table, collectLabels [] Memory.programBase statements = .ok table := by
  -- On the last statement: its label is defined in the table of those before it.
  induction statements using List.reverseRecOn with
  | nil => exact ⟨[], rfl⟩
  | append_singleton front last ih =>
    obtain ⟨line, s⟩ := last
    rw [List.map_append] at h
    obtain ⟨table, htable⟩ := ih (labelProblemAt?_front _ _ fun row _ => h row)
    obtain ⟨behind, hlast⟩ := exists_collectLabels_append htable [(line, s)]
    have hnone : labelProblem? (front.map Prod.snd) s = none := by
      rw [← labelProblemAt?_append_cons _ _ []]
      exact h _
    -- The last label is refused only for a problem, and it has none.
    have herror := define_eq_error_iff (isSome_lookup_of_collectLabels htable) behind line s
    rw [hlast, collectLabels]
    cases hdefine : collectLabels.define table behind line s.label with
    | ok labels => exact ⟨labels, rfl⟩
    | error e =>
      obtain ⟨problem, hproblem, -⟩ := (herror e).1 hdefine
      rw [hnone] at hproblem
      cases hproblem

/-- The first pass stops at the first problem, on its line. -/
theorem collectLabels_of_problem {front : List (Nat × Statement)}
    (hfront : ∀ row, labelProblemAt? (front.map Prod.snd) row = none) {s : Statement}
    {problem : Problem} (h : labelProblem? (front.map Prod.snd) s = some problem) (line : Nat)
    (rest : List (Nat × Statement)) :
    collectLabels [] Memory.programBase (front ++ (line, s) :: rest) = .error ⟨line, problem⟩ := by
  obtain ⟨table, htable⟩ := exists_collectLabels hfront
  obtain ⟨behind, hnext⟩ := exists_collectLabels_append htable ((line, s) :: rest)
  have hdefine : collectLabels.define table behind line s.label = .error ⟨line, problem⟩ :=
    (define_eq_error_iff (isSome_lookup_of_collectLabels htable) behind line s _).2
      ⟨problem, h, rfl⟩
  rw [hnext, collectLabels, hdefine]
  rfl

/-! ## The table of labels -/

/-- What the label in a row stands for: the address behind the words of the rows before it. -/
def labelValue? (statements : List Statement) : Statement × Nat → Option (String × UInt16)
  | (s, row) => s.label.map fun label =>
    (String.ofList label, UInt16.ofNat (0x200 + 2 * (statements.take row).countP Statement.isCode))

/-- What the labels of a program stand for. -/
def labelTable (statements : List Statement) : Labels :=
  statements.zipIdx.filterMap (labelValue? statements)

private theorem lookup_labelValues (front rest : List Statement) (name : String) :
    ((rest.zipIdx front.length).filterMap (labelValue? (front ++ rest))).lookup name =
      (codeBefore? rest name).map fun count =>
        UInt16.ofNat (0x200 + 2 * (front.countP Statement.isCode + count)) := by
  induction rest generalizing front with
  | nil => rfl
  | cons s rest ih =>
    -- Behind the first statement its own word counts as well.
    have hrest : ((rest.zipIdx (front.length + 1)).filterMap
          (labelValue? (front ++ s :: rest))).lookup name =
        ((codeBefore? rest name).map (· + if s.isCode then 1 else 0)).map fun count =>
          UInt16.ofNat (0x200 + 2 * (front.countP Statement.isCode + count)) := by
      have hlater := ih (front ++ [s])
      rw [List.length_append, List.length_singleton, List.append_assoc, List.singleton_append,
        List.countP_append, List.countP_singleton] at hlater
      rw [hlater, Option.map_map]
      refine congrArg (Option.map · _) (funext fun count => ?_)
      simp only [Function.comp, Nat.add_assoc, Nat.add_comm count]
    have hvalue : labelValue? (front ++ s :: rest) (s, front.length) = s.label.map fun label =>
        (String.ofList label, UInt16.ofNat (0x200 + 2 * front.countP Statement.isCode)) := by
      rw [labelValue?, List.take_left]
    rw [List.zipIdx_cons, List.filterMap_cons, hvalue, codeBefore?_cons]
    cases hlabel : s.label with
    | none =>
      rw [Option.map_none, if_neg nofun]
      exact hrest
    | some label =>
      simp only [Option.map_some, List.lookup_cons]
      -- The label is looked up itself, or the lookup passes over it.
      by_cases hname : name = String.ofList label
      · subst hname
        simp
      · have hne : ¬(some label = some name.toList) := by
          intro heq
          cases heq
          exact hname String.ofList_toList.symm
        rw [beq_eq_false_iff_ne.2 hname, if_neg hne]
        exact hrest

/-- What a label stands for can be told from the statements before the first one that has it. -/
theorem lookup_labelTable_eq (statements : List Statement) (name : String) :
    (labelTable statements).lookup name = (codeBefore? statements name).map fun count =>
      UInt16.ofNat (0x200 + 2 * count) := by
  have hvalues := lookup_labelValues [] statements name
  simp only [List.length_nil, List.nil_append, List.countP_nil, Nat.zero_add] at hvalues
  exact hvalues

/-- Where the first pass makes a table, it is the table of the labels. -/
theorem lookup_labelTable {statements : List (Nat × Statement)} {table : Labels}
    (h : collectLabels [] Memory.programBase statements = .ok table) (name : String) :
    table.lookup name = (labelTable (statements.map Prod.snd)).lookup name := by
  rw [lookup_of_collectLabels h, List.lookup_nil, Option.none_or, lookup_labelTable_eq]
  refine congrArg (Option.map · _) (funext fun count => ?_)
  rw [UInt16.ofNat_add]
  rfl

/-! ## Words -/

/-- The word that a body stands for, given what the labels stand for. -/
def read (labels : Labels) (body : List Char) : Except Problem Word :=
  (Template.ofBody body).bind (Template.resolve labels)

theorem wordOf_eq_read (labels : Labels) (line : Nat) (body : List Char) :
    wordOf labels line body = (read labels body).mapError (⟨line, ·⟩) := by
  unfold wordOf read
  cases (Template.ofBody body).bind (Template.resolve labels) <;> rfl

theorem wordOf_eq_ok_iff_read {labels : Labels} {line : Nat} {body : List Char} {w : Word} :
    wordOf labels line body = .ok w ↔ read labels body = .ok w := by
  rw [wordOf_eq_read]
  cases read labels body <;> simp [Except.mapError]

/-- A body is read alike with tables in which the labels stand for the same. -/
theorem read_congr {labels labels' : Labels}
    (h : ∀ name, labels.lookup name = labels'.lookup name) (body : List Char) :
    read labels body = read labels' body := by
  -- Labels are looked up for the address of an instruction and nowhere else.
  have haddress : ∀ target, Template.addressOf labels target = Template.addressOf labels' target := by
    intro target
    cases target with
    | label name => simp only [Template.addressOf, h]
    | _ => rfl
  have hresolve : Template.resolve labels = Template.resolve labels' := by
    funext t
    cases t with
    | addressed op target => simp only [Template.resolve, haddress]
    | _ => rfl
  rw [read, read, hresolve]

/-! ## The second pass -/

/-- Only statements with a body are looked at. -/
theorem emit_filter (labels : Labels) (size : Nat) (statements : List (Nat × Statement)) :
    emit labels size (statements.filter fun p => p.2.isCode) = emit labels size statements := by
  induction statements generalizing size with
  | nil => rfl
  | cons head rest ih =>
    obtain ⟨line, s⟩ := head
    by_cases hcode : s.isCode = true
    · rw [filter_isCode_cons, if_pos hcode, emit, emit, if_pos hcode, if_pos hcode]
      simp only [ih]
    · rw [filter_isCode_cons, if_neg hcode, emit, if_neg hcode]
      exact ih size

/-- The second pass does the same with tables in which the labels stand for the same. -/
theorem emit_congr {labels labels' : Labels}
    (h : ∀ name, labels.lookup name = labels'.lookup name) (size : Nat)
    (statements : List (Nat × Statement)) :
    emit labels size statements = emit labels' size statements := by
  induction statements generalizing size with
  | nil => rfl
  | cons head rest ih =>
    obtain ⟨line, s⟩ := head
    simp only [emit, wordOf_eq_read, read_congr h, ih]

theorem exists_forall₂_of_exists {α β : Type} {R : α → β → Prop} {xs : List α}
    (h : ∀ x ∈ xs, ∃ y, R x y) : ∃ ys, List.Forall₂ R xs ys := by
  induction xs with
  | nil => exact ⟨[], .nil⟩
  | cons x xs ih =>
    rw [List.forall_mem_cons] at h
    obtain ⟨y, hy⟩ := h.1
    obtain ⟨ys, hys⟩ := ih h.2
    exact ⟨y :: ys, .cons hy hys⟩

/-- Where the statements before one have words, and there is room for these, the second pass
    comes to it behind them. -/
theorem emit_of_front {labels : Labels} {code : List (Nat × Statement)}
    (hcode : ∀ p ∈ code, p.2.isCode = true) {k : Nat} {p : Nat × Statement}
    (hp : code[k]? = some p) (hroom : 2 * k ≤ Memory.programCapacity)
    (hwords : ∀ q ∈ code.take k, ∃ w, read labels q.2.body = .ok w) :
    ∃ (image : List UInt8) (rest : List (Nat × Statement)),
      emit labels 0 code = (emit labels (2 * k) (p :: rest)).map (image ++ ·) := by
  obtain ⟨hk, rfl⟩ := List.getElem?_eq_some_iff.1 hp
  obtain ⟨words, hforall⟩ := exists_forall₂_of_exists hwords
  have hlength : words.length = k := by
    rw [← hforall.length_eq, List.length_take_of_le (Nat.le_of_lt hk)]
  have hemit : emit labels 0 (code.take k) = .ok (words.flatMap Word.toBytes) := by
    refine emit_of_words ?_ (by rwa [Nat.zero_add, hlength])
    rw [List.filter_eq_self.2 fun q hq => hcode q (List.mem_of_mem_take hq)]
    exact hforall.imp fun q w h => wordOf_eq_ok_iff_read.2 h
  refine ⟨words.flatMap Word.toBytes, code.drop (k + 1), ?_⟩
  rw [← List.drop_eq_getElem_cons hk]
  -- The pass goes over the words in front as a program of their own, and then over the rest.
  conv_lhs => rw [← List.take_append_drop k code]
  rw [emit_append hemit, Nat.zero_add, Word.length_flatMap_toBytes, hlength]

section
variable {labels : Labels} {code : List (Nat × Statement)}
  (hcode : ∀ p ∈ code, p.2.isCode = true) {k : Nat} {p : Nat × Statement}
  (hp : code[k]? = some p) (hwords : ∀ q ∈ code.take k, ∃ w, read labels q.2.body = .ok w)
include hcode hp hwords

/-- The second pass stops at the first statement that cannot be read. -/
theorem emit_of_read_error (hroom : 2 * k ≤ Memory.programCapacity) {problem : Problem}
    (h : read labels p.2.body = .error problem) :
    emit labels 0 code = .error ⟨p.1, problem⟩ := by
  obtain ⟨image, rest, hemit⟩ := emit_of_front hcode hp hroom hwords
  have hword : wordOf labels p.1 p.2.body = .error ⟨p.1, problem⟩ := by
    rw [wordOf_eq_read, h]
    rfl
  rw [hemit, emit, if_pos (hcode p (List.mem_of_getElem? hp)), hword]
  rfl

/-- The second pass stops at the first statement for which there is no room. -/
theorem emit_of_overflow (hroom : 2 * k = Memory.programCapacity) {w : Word}
    (h : read labels p.2.body = .ok w) :
    emit labels 0 code =
      .error ⟨p.1, .programTooLarge (Memory.programCapacity + 2) Memory.programCapacity⟩ := by
  obtain ⟨image, rest, hemit⟩ := emit_of_front hcode hp (Nat.le_of_eq hroom) hwords
  rw [hemit, emit, if_pos (hcode p (List.mem_of_getElem? hp)), wordOf_eq_ok_iff_read.2 h, hroom]
  rfl

end

/-! ## What is reported -/

/-- The statements with a body, with the lines that they are on, counted from one. -/
def codeLines (source : String) : List (Statement × Nat) :=
  ((statementsOf source).zipIdx 1).filter fun p => p.1.isCode

/-- The word of a statement of a source text, which is read with the labels of the text. -/
def wordIn (source : String) (s : Statement) : Except Problem Word :=
  read (labelTable (statementsOf source)) s.body

/-- The lines of the statements are counted from one. -/
theorem ofSource_eq_map_swap (source : String) :
    Statement.ofSource source = ((statementsOf source).zipIdx 1).map Prod.swap := by
  rw [statementsOf_eq_map, Statement.ofSource, List.zipIdx_succ, List.zipIdx_map, List.map_map,
    List.map_map]
  rfl

/-- A source text is rejected for its first problem with a label. -/
theorem assemble_of_labelProblem {source : String} {row : Nat} {problem : Problem}
    (h : labelProblemAt? (statementsOf source) row = some problem)
    (habove : ∀ above < row, labelProblemAt? (statementsOf source) above = none) :
    assemble source = .error ⟨row + 1, problem⟩ := by
  obtain ⟨s, hs, hlabel⟩ := Option.bind_eq_some_iff.1 h
  have hnumbered : (Statement.ofSource source)[row]? = some (row + 1, s) := by
    rw [ofSource_eq_map_swap, List.getElem?_map, List.getElem?_zipIdx, hs, Nat.add_comm]
    rfl
  obtain ⟨hrow, hget⟩ := List.getElem?_eq_some_iff.1 hnumbered
  -- The pass comes through the rows above and stops at this one.
  have hcollect : collectLabels [] Memory.programBase (Statement.ofSource source) =
      .error ⟨row + 1, problem⟩ := by
    rw [← List.take_append_drop row (Statement.ofSource source), List.drop_eq_getElem_cons hrow,
      hget]
    apply collectLabels_of_problem
    · rw [List.map_take]
      refine labelProblemAt?_front _ ((statementsOf source).drop row) fun above hlt => ?_
      rw [statementsOf, List.take_append_drop]
      exact habove above (Nat.lt_of_lt_of_le hlt (List.length_take_le _ _))
    · rw [List.map_take]
      exact hlabel
  rw [assemble, hcollect]
  rfl

/-- Without a problem with a label, only the second pass is left, with the table that is read off
    the statements. -/
theorem assemble_eq_emit {source : String}
    (h : ∀ row, labelProblemAt? (statementsOf source) row = none) :
    assemble source = emit (labelTable (statementsOf source)) 0 (Statement.ofSource source) := by
  obtain ⟨table, htable⟩ := exists_collectLabels h
  have hlookup : ∀ name, table.lookup name = (labelTable (statementsOf source)).lookup name :=
    lookup_labelTable htable
  rw [← emit_congr hlookup, assemble, htable]
  rfl

/-- The second pass goes over the statements with a body. -/
theorem emit_codeLines (labels : Labels) (source : String) :
    emit labels 0 ((codeLines source).map Prod.swap) =
      emit labels 0 (Statement.ofSource source) := by
  have hfilter : (Statement.ofSource source).filter (fun p => p.2.isCode) =
      (codeLines source).map Prod.swap := by
    rw [ofSource_eq_map_swap, List.filter_map]
    rfl
  rw [← hfilter, emit_filter]

/-- The assembler reports exactly the first problem.  It is the first label that is wrong, if
    there is one.  Otherwise it is the first of the statements with a body that cannot be read
    with the table of the labels, if that is among the first 1793 of them, and the 1793rd of them
    if these can all be read.  A text without a problem becomes the words of its statements. -/
theorem assemble_first_problem (source : String) :
    (∀ row problem, labelProblemAt? (statementsOf source) row = some problem →
      (∀ above < row, labelProblemAt? (statementsOf source) above = none) →
        assemble source = .error ⟨row + 1, problem⟩) ∧
    ((∀ row, labelProblemAt? (statementsOf source) row = none) →
      (∀ k p problem, k < 1793 → (codeLines source)[k]? = some p →
        wordIn source p.1 = .error problem →
          (∀ q ∈ (codeLines source).take k, ∃ w, wordIn source q.1 = .ok w) →
            assemble source = .error ⟨p.2, problem⟩) ∧
      ((∀ q ∈ (codeLines source).take 1793, ∃ w, wordIn source q.1 = .ok w) →
        (∀ p, (codeLines source)[1792]? = some p →
          assemble source = .error ⟨p.2, .programTooLarge 3586 3584⟩) ∧
        ((codeLines source).length < 1793 →
          ∃ words, List.Forall₂ (fun p w => wordIn source p.1 = .ok w) (codeLines source) words ∧
            assemble source = .ok (words.flatMap Word.toBytes)))) := by
  refine ⟨fun row problem => assemble_of_labelProblem, fun hnone => ?_⟩
  rw [assemble_eq_emit hnone, ← emit_codeLines]
  -- The second pass has the lines in front.
  have hcode : ∀ p ∈ (codeLines source).map Prod.swap, p.2.isCode = true := by
    rw [List.forall_mem_map]
    exact fun p hp => (List.mem_filter.1 hp).2
  have hget : ∀ {k : Nat} {p : Statement × Nat}, (codeLines source)[k]? = some p →
      ((codeLines source).map Prod.swap)[k]? = some p.swap := by
    intro k p hp
    rw [List.getElem?_map, hp]
    rfl
  have hwords : ∀ {k : Nat}, (∀ q ∈ (codeLines source).take k, ∃ w, wordIn source q.1 = .ok w) →
      ∀ q ∈ ((codeLines source).map Prod.swap).take k,
        ∃ w, read (labelTable (statementsOf source)) q.2.body = .ok w := by
    intro k h
    rw [← List.map_take, List.forall_mem_map]
    exact h
  constructor
  · intro k p problem hk hp hproblem hfront
    have hroom : 2 * k ≤ Memory.programCapacity := by
      have hcapacity : Memory.programCapacity = 3584 := rfl
      omega
    exact emit_of_read_error hcode (hget hp) (hwords hfront) hroom hproblem
  · intro hall
    constructor
    · intro p hp
      -- The last of them can be read as well, but there is no room for it.
      have hlast : p ∈ (codeLines source).take 1793 := by
        refine List.mem_of_getElem? (i := 1792) ?_
        rw [List.getElem?_take_of_lt (by decide), hp]
      obtain ⟨w, hw⟩ := hall p hlast
      have hfront : ∀ q ∈ (codeLines source).take 1792, ∃ w, wordIn source q.1 = .ok w :=
        fun q hq => hall q ((List.take_sublist_take_left (by decide)).mem hq)
      exact emit_of_overflow hcode (hget hp) (hwords hfront) rfl hw
    · intro hfew
      rw [List.take_of_length_le (Nat.le_of_lt hfew)] at hall
      obtain ⟨words, hforall⟩ := exists_forall₂_of_exists hall
      refine ⟨words, hforall, emit_of_words ?_ ?_⟩
      · rw [List.filter_eq_self.2 hcode, List.forall₂_map_left_iff]
        exact hforall.imp fun p w h => wordOf_eq_ok_iff_read.2 h
      · have hlength := hforall.length_eq
        have hcapacity : Memory.programCapacity = 3584 := rfl
        omega

/-- A label that is no name behind a statement with too large a number; a label that is used
    again behind an unknown mnemonic; that number without such a label; a program without a
    problem; and one of 1793 lines. -/
theorem assemble_first_problem_of_texts :
    assemble "ld v1, #100\n\n1a: cls\n" = .error ⟨3, .invalidLabel "1a"⟩ ∧
      assemble "a: cls\n; a:\nfoo\na: ret" = .error ⟨4, .duplicateLabel "a"⟩ ∧
      assemble "; none\n\na: cls\n  ld v1, #100\nfoo" = .error ⟨4, .outOfRange 0x100 0xFF⟩ ∧
      assemble "\n a: jp a\n" = .ok [0x12, 0x00] ∧
      assemble (String.ofList ((List.replicate 1793 "cls".toList).flatMap (· ++ ['\n']))) =
        .error ⟨1793, .programTooLarge 3586 3584⟩ := by
  refine ⟨?_, ?_, ?_, ?_, ?_⟩
  · exact (assemble_first_problem _).1 2 _ (by decide +kernel) (by decide +kernel)
  · exact (assemble_first_problem _).1 3 _ (by decide +kernel) (by decide +kernel)
  · have hnone := labelProblemAt?_front
      (statementsOf "; none\n\na: cls\n  ld v1, #100\nfoo") [] (by decide +kernel)
    have hfront : (codeLines "; none\n\na: cls\n  ld v1, #100\nfoo").take 1 =
        [(⟨some "a".toList, "cls".toList⟩, 3)] := by decide +kernel
    refine ((assemble_first_problem _).2 hnone).1 1 (⟨none, "ld v1, #100".toList⟩, 4) _
      (by decide) (by decide +kernel) (by decide +kernel) ?_
    rw [hfront, List.forall_mem_singleton]
    exact ⟨0x00E0, by decide +kernel⟩
  · have hnone := labelProblemAt?_front (statementsOf "\n a: jp a\n") [] (by decide +kernel)
    have hcode : codeLines "\n a: jp a\n" = [(⟨some "a".toList, "jp a".toList⟩, 2)] := by
      decide +kernel
    have hword : wordIn "\n a: jp a\n" ⟨some "a".toList, "jp a".toList⟩ = .ok 0x1200 := by
      decide +kernel
    obtain ⟨-, hall⟩ := (assemble_first_problem "\n a: jp a\n").2 hnone
    rw [hcode] at hall
    obtain ⟨words, hwords, hassemble⟩ :=
      (hall (List.forall_mem_singleton.2 ⟨_, hword⟩)).2 (by decide)
    obtain ⟨w, rest, hw, hrest, rfl⟩ := List.forall₂_cons_left_iff.1 hwords
    cases hword.symm.trans hw
    cases hrest
    exact hassemble
  · generalize hsource :
      String.ofList ((List.replicate 1793 "cls".toList).flatMap (· ++ ['\n'])) = source
    have hstatements : statementsOf source = List.replicate 1793 ⟨none, "cls".toList⟩ := by
      rw [statementsOf_eq_map, ← hsource, String.toList_ofList, lines_flatMap, List.map_replicate]
      · rfl
      · intro text htext
        rw [List.eq_of_mem_replicate htext]
        decide
    have hsame : ∀ p ∈ (statementsOf source).zipIdx 1, p.1 = ⟨none, "cls".toList⟩ := by
      rw [hstatements]
      exact fun p hp => List.eq_of_mem_replicate (List.fst_mem_of_mem_zipIdx hp)
    have hcode : codeLines source = (statementsOf source).zipIdx 1 :=
      List.filter_eq_self.2 fun p hp => by rw [hsame p hp]; rfl
    have hnone : ∀ row, labelProblemAt? (statementsOf source) row = none := by
      rw [hstatements]
      exact labelProblemAt?_of_no_labels fun s hs => by rw [List.eq_of_mem_replicate hs]
    have hword : wordIn source ⟨none, "cls".toList⟩ = .ok 0x00E0 := by
      have hbody : Template.ofBody "cls".toList = .ok (.fixed .clear) := by decide
      rw [wordIn, read, hbody]
      rfl
    obtain ⟨-, hall⟩ := (assemble_first_problem source).2 hnone
    rw [hcode] at hall
    refine (hall fun q hq => ?_).1 (⟨none, "cls".toList⟩, 1793) ?_
    · rw [hsame q (List.mem_of_mem_take hq), hword]
      exact ⟨_, rfl⟩
    · rw [hstatements, List.getElem?_zipIdx, List.getElem?_replicate_of_lt (by decide)]
      rfl

end Chip8.Assembly
