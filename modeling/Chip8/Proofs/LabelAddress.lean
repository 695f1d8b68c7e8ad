import Chip8.Assembly.Program
import Chip8.Proofs.ExceptResult

/-!
# Addresses of labels

The first pass of the assembler counts on from the program base and remembers where it
met each label.  Where a label stands can be said without the pass: two bytes for every
statement with a body that comes before the first statement with the label.

## Key results

- `lookup_of_collectLabels`: what the first pass remembers of a label
- `lookup_eq_labelAddress?`: it is the address of the label, unless addresses wrap
-/

namespace Chip8.Assembly

/-- How many statements with a body come before the first one with a label. -/
def codeBefore? (statements : List Statement) (name : String) : Option Nat :=
  (statements.findIdx? fun s => s.label = some name.toList).map fun row =>
    (statements.take row).countP Statement.isCode

/-- The address of a label: two bytes behind the program base for each of these. -/
def labelAddress? (statements : List Statement) (name : String) : Option Nat :=
  (codeBefore? statements name).map fun count => Memory.programBase.toNat + 2 * count

theorem codeBefore?_cons (s : Statement) (rest : List Statement) (name : String) :
    codeBefore? (s :: rest) name =
      if s.label = some name.toList then some 0
      else (codeBefore? rest name).map (· + if s.isCode then 1 else 0) := by
  unfold codeBefore?
  rw [List.findIdx?_cons]
  by_cases hname : s.label = some name.toList
  · simp [hname]
  · rw [if_neg (by simpa using hname), if_neg hname, Option.map_map, Option.map_map]
    congr 1
    funext row
    simp only [Function.comp, List.take_succ_cons, List.countP_cons]

theorem codeBefore?_le {statements : List Statement} {name : String} {count : Nat}
    (h : codeBefore? statements name = some count) :
    count ≤ statements.countP Statement.isCode := by
  obtain ⟨row, -, rfl⟩ := Option.map_eq_some_iff.1 h
  exact (List.take_sublist row statements).countP_le

/-- A label that is recorded was not known before, and is known from there on. -/
private theorem lookup_of_define {labels labels' : Labels} {address : UInt16} {line : Nat}
    {label : Option (List Char)} (h : collectLabels.define labels address line label = .ok labels')
    (name : String) :
    labels'.lookup name =
      (labels.lookup name).or (if label = some name.toList then some address else none) := by
  cases label with
  | none =>
    cases h
    simp
  | some label =>
    simp only [collectLabels.define] at h
    split at h
    · split at h
      · exact nomatch h
      · rename_i hnew
        cases h
        -- The new label is looked up itself, or the lookup passes over it.
        by_cases hname : name = String.ofList label
        · subst hname
          have hnone : labels.lookup (String.ofList label) = none :=
            Option.not_isSome_iff_eq_none.1 hnew
          simp [hnone]
        · have hne : ¬(some label = some name.toList) := by
            intro hlabel
            cases hlabel
            exact hname String.ofList_toList.symm
          rw [if_neg hne, Option.or_none, List.lookup_cons, beq_eq_false_iff_ne.2 hname]
    · exact nomatch h

/-- What the first pass remembers of a label: what was known before, and otherwise an
    address behind as many words as there are statements with a body before the label. -/
theorem lookup_of_collectLabels {statements : List (Nat × Statement)} {labels table : Labels}
    {address : UInt16} (h : collectLabels labels address statements = .ok table) (name : String) :
    table.lookup name =
      (labels.lookup name).or
        ((codeBefore? (statements.map Prod.snd) name).map fun count =>
          address + UInt16.ofNat (2 * count)) := by
  induction statements generalizing labels address with
  | nil =>
    cases h
    simp [codeBefore?]
  | cons head rest ih =>
    obtain ⟨line, s⟩ := head
    -- The first statement records its label, and the rest goes on behind it.
    obtain ⟨labels', hdefine, hrest⟩ := Except.bind_eq_ok_iff.1 h
    rw [ih hrest, lookup_of_define hdefine, List.map_cons, codeBefore?_cons, Option.or_assoc]
    congr 1
    by_cases hname : s.label = some name.toList
    · simp [hname]
    · rw [if_neg hname, if_neg hname, Option.none_or, Option.map_map]
      congr 1
      funext count
      -- The statement moves the address on exactly if it is counted.
      apply UInt16.toNat_inj.1
      cases s.isCode with
      | true =>
        simp [UInt16.toNat_add]
        omega
      | false => simp [UInt16.toNat_add]

/-- As long as the words before it fit below the end of the address space, the address
    that is remembered is the address of the label. -/
theorem lookup_eq_labelAddress? {statements : List (Nat × Statement)} {table : Labels}
    (h : collectLabels [] Memory.programBase statements = .ok table)
    (hroom : 2 * (statements.map Prod.snd).countP Statement.isCode ≤ Memory.programCapacity)
    (name : String) :
    (table.lookup name).map UInt16.toNat = labelAddress? (statements.map Prod.snd) name := by
  rw [lookup_of_collectLabels h, List.lookup_nil, Option.none_or, labelAddress?, Option.map_map]
  cases hcount : codeBefore? (statements.map Prod.snd) name with
  | none => rfl
  | some count =>
    -- The words in front of the label are among all words, for which there is room.
    have hle := codeBefore?_le hcount
    have hcapacity : Memory.programCapacity = 3584 := rfl
    have hbase : Memory.programBase.toNat = 512 := rfl
    simp only [Option.map_some, Function.comp, UInt16.toNat_add, UInt16.toNat_ofNat', hbase]
    congr 1
    omega

end Chip8.Assembly
