import Chip8.Assembly.Program
import Chip8.Proofs.ExceptResult
import Chip8.Proofs.OperandText

/-!
# Forms of statements

A mnemonic takes operands of certain kinds, and `ofForm?` chooses the template by them.
The choice goes together with the operands of an instruction in both directions: an
instruction is found again by its mnemonic and its operands, and what is found for given
operands is an instruction with these operands.

## Key results

- `wordOf_text`: the text of an instruction that fits is assembled to its word
- `wordOf_raw`: so is the text of a word that is given as a number
- `spells_of_ofForm?`: a template has the mnemonic and the operands it was found by
- `exists_instruction_of_resolve`: once its label is looked up, it is an instruction
-/

namespace Chip8.Assembly

open Text

/-! ## Bodies and their words -/

theorem fit_eq_ok_iff {max value n : Nat} : fit max value = .ok n ↔ value ≤ max ∧ value = n := by
  unfold fit
  split
  · rename_i hle
    rw [Except.ok.injEq]
    exact ⟨fun h => ⟨hle, h⟩, And.right⟩
  · rename_i hlt
    exact ⟨nofun, fun h => absurd h.1 hlt⟩

/-- A body is read when its first word is a mnemonic that takes its operands. -/
theorem Template.ofBody_eq_ok_iff {body : List Char} {t : Template} :
    Template.ofBody body = .ok t ↔
      ∃ (m : Mnemonic) (operands : List Operand),
        m.text = String.ofList (upper (firstWord body)) ∧
          Template.operandsOf (afterFirstWord body) = .ok operands ∧
          Template.ofForm? m operands = some (.ok t) := by
  constructor
  · intro h
    obtain ⟨operands, hoperands, h⟩ := Except.bind_eq_ok_iff.1 h
    split at h
    · exact nomatch h
    · rename_i m hm
      split at h
      · exact nomatch h
      · rename_i form hform
        exact ⟨m, operands, Mnemonic.ofText?_eq_some_iff.1 hm, hoperands, by rw [hform, h]⟩
  · rintro ⟨m, operands, hname, hoperands, hform⟩
    refine Except.bind_eq_ok_iff.2 ⟨operands, hoperands, ?_⟩
    simp only [Mnemonic.ofText?_eq_some_iff.2 hname, hform]

/-- A statement has a word when its body is read and its address is known. -/
theorem wordOf_eq_ok_iff {labels : Labels} {line : Nat} {body : List Char} {w : Word} :
    wordOf labels line body = .ok w ↔
      ∃ t, Template.ofBody body = .ok t ∧ Template.resolve labels t = .ok w := by
  rw [← Except.bind_eq_ok_iff, wordOf]
  cases (Template.ofBody body).bind (Template.resolve labels) <;> simp

namespace Template

/-! ## From instructions to words -/

/-- The template of an instruction that is written with its address. -/
def ofInstruction : Instruction → Template
  | .address op addr => .addressed op (.literal addr.toNat)
  | i => .fixed i

private theorem byte_toNat (op : ByteOp) (x : Register) (kk : UInt8) :
    byte op x kk.toNat = .ok (.fixed (.byte op x kk)) := by
  have hlt := kk.toNat_lt
  refine Except.map_eq_ok_iff.2 ⟨kk.toNat, fit_eq_ok_iff.2 ⟨by omega, rfl⟩, ?_⟩
  rw [UInt8.ofNat_toNat]

/-- An instruction is found by its mnemonic and its operands. -/
theorem ofForm?_operands {i : Instruction} (h : i.Fits) :
    ofForm? i.mnemonic i.operands = some (.ok (ofInstruction i)) := by
  cases i with
  | clear => rfl
  | ret => rfl
  | address op addr => cases op <;> rfl
  | byte op x kk =>
    have hbyte := byte_toNat op x kk
    cases op <;> exact congrArg some hbyte
  | pair op x y =>
    -- A shift is written in a shorter way if its second register is `V0`.
    have hshift : ∀ op, ofShift? op
        (if y = 0 then [Operand.register x] else [.register x, .register y]) =
          some (.ok (.fixed (.pair op x y))) := by
      intro op
      split
      · rename_i hy
        rw [hy]
        rfl
      · rfl
    cases op with
    | shiftRight => exact hshift .shiftRight
    | shiftLeft => exact hshift .shiftLeft
    | _ => rfl
  | draw x y height =>
    have hheight : 1 ≤ height.toNat ∧ height.toNat ≤ 15 := h
    simp only [Instruction.mnemonic, Instruction.operands, ofForm?, if_pos hheight,
      UInt8.ofNat_toNat]
    rfl
  | single op x => cases op <;> rfl

theorem resolve_ofInstruction (labels : Labels) {i : Instruction} (h : i.Fits) :
    resolve labels (ofInstruction i) = .ok i.encode := by
  cases i with
  | address op addr =>
    -- The address is looked up although it is a number, and has to be in reach.
    have hlt : addr.toNat < 4096 := h
    have haddr : addressOf labels (.literal addr.toNat) = .ok addr :=
      Except.map_eq_ok_iff.2 ⟨_, fit_eq_ok_iff.2 ⟨by omega, rfl⟩, UInt16.ofNat_toNat⟩
    exact Except.map_eq_ok_iff.2 ⟨addr, haddr, rfl⟩
  | _ => rfl

end Template

/-- The text of an instruction that fits is assembled to its word. -/
theorem wordOf_text (labels : Labels) (line : Nat) {i : Instruction} (h : i.Fits) :
    wordOf labels line i.text.toList = .ok i.encode := by
  have hname : i.mnemonic.text = String.ofList (upper (firstWord i.text.toList)) := by
    rw [Instruction.text, firstWord_statementText, upper_mnemonic, String.ofList_toList]
  have hbody : Template.ofBody i.text.toList = .ok (Template.ofInstruction i) :=
    Template.ofBody_eq_ok_iff.2
      ⟨i.mnemonic, i.operands, hname, i.operandsOf_text, Template.ofForm?_operands h⟩
  exact wordOf_eq_ok_iff.2 ⟨_, hbody, Template.resolve_ofInstruction labels h⟩

/-- The text of a word that is given as a number is assembled to the word. -/
theorem wordOf_raw (labels : Labels) (line width : Nat) (w : Word) :
    wordOf labels line
      (Instruction.statementText Mnemonic.dw.text [Instruction.literalText width w.toNat]).toList =
        .ok w := by
  have hlt := w.toNat_lt
  have htoken : ∀ operand ∈ [Instruction.literalText width w.toNat], IsToken operand.toList := by
    intro operand hmem
    rw [List.mem_singleton.1 hmem]
    exact isToken_literal width w.toNat
  have hread : [Instruction.literalText width w.toNat].mapM
      (fun operand => Operand.ofToken operand.toList) = .ok [.literal w.toNat] := by
    rw [List.mapM_cons, ofToken_literal (Nat.lt_trans hlt (by decide))]
    rfl
  have hraw : (fit 0xFFFF w.toNat).map (fun value => Template.raw (UInt16.ofNat value)) =
      .ok (.raw w) :=
    Except.map_eq_ok_iff.2 ⟨_, fit_eq_ok_iff.2 ⟨by omega, rfl⟩, by rw [UInt16.ofNat_toNat]⟩
  refine wordOf_eq_ok_iff.2
    ⟨.raw w, Template.ofBody_eq_ok_iff.2 ⟨.dw, [.literal w.toNat], ?_, ?_, ?_⟩, rfl⟩
  · rw [firstWord_statementText, upper_mnemonic, String.ofList_toList]
  · rw [operandsOf_statementText _ htoken, hread]
  · exact congrArg some hraw

/-! ## From statements to instructions -/

/-- An operand with the address of the label that it names, if it names one. -/
def Operand.located? (address? : String → Option Nat) : Operand → Option Operand
  | .label name => (address? name).map .literal
  | operand => some operand

/-- Operands in their normal form: a shift drops a second operand `V0`. -/
def normalOperands (m : Mnemonic) (operands : List Operand) : List Operand :=
  if (m = .shr ∨ m = .shl) ∧ operands.tail = [.register 0] then operands.take 1 else operands

theorem normalOperands_of_ne {m : Mnemonic} (h : m ≠ .shr ∧ m ≠ .shl) (operands : List Operand) :
    normalOperands m operands = operands :=
  if_neg fun hshift => hshift.1.elim h.1 h.2

theorem normalOperands_of_tail_ne {operands : List Operand} (h : operands.tail ≠ [.register 0])
    (m : Mnemonic) : normalOperands m operands = operands :=
  if_neg fun hshift => h hshift.2

/-- A template has the mnemonic and the operands of a statement.  Unless the template
    waits for an address, none of the operands is a label. -/
inductive Spells (m : Mnemonic) (operands : List Operand) : Template → Prop where
  | fixed {i : Instruction} (fits : i.Fits) (mnemonic : i.mnemonic = m)
      (normal : i.operands = normalOperands m operands)
      (located : ∀ address?, operands.mapM (Operand.located? address?) = some operands) :
      Spells m operands (.fixed i)
  | addressed {op : AddressOp} {target : Operand}
      (mnemonic : ∀ addr, (Instruction.address op addr).mnemonic = m)
      (shape : operands = op.operandsAt target) : Spells m operands (.addressed op target)

namespace Template

/-! One lemma for each shape of a form. -/

/-- A form without operands. -/
private theorem spells_plain {i : Instruction} {operands : List Operand} {t : Template}
    (hfits : i.Fits) (hoperands : i.operands = [])
    (h : (if operands = [] then some (.ok (.fixed i)) else none) =
      (some (.ok t) : Option (Except Problem Template))) : Spells i.mnemonic operands t := by
  split at h
  · rename_i hnil
    cases h
    have htail : ([] : List Operand).tail ≠ [.register 0] := nofun
    rw [hnil]
    refine .fixed hfits rfl ?_ (fun _ => rfl)
    rw [hoperands, normalOperands_of_tail_ne htail]
  · exact nomatch h

private theorem spells_byte {op : ByteOp} {x : Register} {value : Nat} {t : Template}
    {m : Mnemonic} (hm : ∀ kk, (Instruction.byte op x kk).mnemonic = m)
    (h : byte op x value = .ok t) : Spells m [.register x, .literal value] t := by
  obtain ⟨_, hfit, rfl⟩ := Except.map_eq_ok_iff.1 h
  obtain ⟨hle, rfl⟩ := fit_eq_ok_iff.1 hfit
  -- The value fits, so the byte that is made of it has not lost anything.
  have hvalue : (UInt8.ofNat value).toNat = value := by
    rw [UInt8.toNat_ofNat', Nat.mod_eq_of_lt (by omega)]
  have htail : [Operand.register x, .literal value].tail ≠ [.register 0] := nofun
  refine .fixed trivial (hm _) ?_ (fun _ => rfl)
  rw [Instruction.operands, hvalue, normalOperands_of_tail_ne htail]

private theorem spells_pair {op : PairOp} {m : Mnemonic} {operands : List Operand} {t : Template}
    (hm : ∀ x y, (Instruction.pair op x y).mnemonic = m) (hshift : m ≠ .shr ∧ m ≠ .shl)
    (h : ofPair? op operands = some (.ok t)) : Spells m operands t := by
  unfold ofPair? at h
  split at h
  · rename_i x y
    cases h
    have hoperands : (Instruction.pair op x y).operands = [.register x, .register y] := by
      -- A pair with a mnemonic other than those of the shifts is written with both registers.
      have := hm x y
      cases op <;> simp_all [Instruction.mnemonic, Instruction.operands]
    refine .fixed trivial (hm x y) ?_ (fun _ => rfl)
    rw [hoperands, normalOperands_of_ne hshift]
  · exact nomatch h

private theorem spells_shift {op : PairOp} {m : Mnemonic} {operands : List Operand} {t : Template}
    (hop : op = .shiftRight ∧ m = .shr ∨ op = .shiftLeft ∧ m = .shl)
    (h : ofShift? op operands = some (.ok t)) : Spells m operands t := by
  have hm : m = .shr ∨ m = .shl := hop.imp And.right And.right
  have hmnemonic : ∀ x y, (Instruction.pair op x y).mnemonic = m := by
    intro x y
    rcases hop with ⟨rfl, rfl⟩ | ⟨rfl, rfl⟩ <;> rfl
  have hoperands : ∀ x y, (Instruction.pair op x y).operands =
      if y = 0 then [.register x] else [.register x, .register y] := by
    intro x y
    rcases hop with ⟨rfl, rfl⟩ | ⟨rfl, rfl⟩ <;> rfl
  unfold ofShift? at h
  split at h
  · -- One register: the second is `V0`, and is not written.
    rename_i x
    cases h
    have htail : [Operand.register x].tail ≠ [.register 0] := nofun
    refine .fixed trivial (hmnemonic _ _) ?_ (fun _ => rfl)
    rw [hoperands, if_pos rfl, normalOperands_of_tail_ne htail]
  · rename_i x y
    cases h
    refine .fixed trivial (hmnemonic _ _) ?_ (fun _ => rfl)
    rw [hoperands]
    by_cases hy : y = 0
    · rw [if_pos hy, hy, normalOperands, if_pos ⟨hm, rfl⟩]
      rfl
    · have htail : [Operand.register x, .register y].tail ≠ [.register 0] := by
        intro hzero
        cases hzero
        exact hy rfl
      rw [if_neg hy, normalOperands_of_tail_ne htail]
  · exact nomatch h

private theorem spells_single {op : SingleOp} {m : Mnemonic} {operands : List Operand}
    {t : Template} (hm : ∀ x, (Instruction.single op x).mnemonic = m)
    (hoperands : ∀ x, (Instruction.single op x).operands = [.register x])
    (h : ofSingle? op operands = some (.ok t)) : Spells m operands t := by
  unfold ofSingle? at h
  split at h
  · rename_i x
    cases h
    have htail : [Operand.register x].tail ≠ [.register 0] := nofun
    refine .fixed trivial (hm x) ?_ (fun _ => rfl)
    rw [hoperands, normalOperands_of_tail_ne htail]
  · exact nomatch h

private theorem spells_either {pairOp : PairOp} {byteOp : ByteOp} {m : Mnemonic}
    {operands : List Operand} {t : Template}
    (hpair : ∀ x y, (Instruction.pair pairOp x y).mnemonic = m)
    (hbyte : ∀ x kk, (Instruction.byte byteOp x kk).mnemonic = m)
    (hshift : m ≠ .shr ∧ m ≠ .shl)
    (h : ofEither? pairOp byteOp operands = some (.ok t)) : Spells m operands t := by
  unfold ofEither? at h
  split at h
  · exact spells_pair hpair hshift h
  · exact spells_byte (hbyte _) (Option.some.inj h)
  · exact nomatch h

private theorem spells_load {operands : List Operand} {t : Template}
    (h : ofLoad? operands = some (.ok t)) : Spells .ld operands t := by
  unfold ofLoad? at h
  split at h
  -- What none of the forms of its own takes is a copy or a byte.
  case h_10 =>
    exact spells_either (fun _ _ => rfl) (fun _ _ => rfl) (by decide) h
  case h_4 =>
    cases h
    exact .addressed (fun _ => rfl) rfl
  all_goals
    cases h
    exact .fixed trivial rfl rfl (fun _ => rfl)

/-- A template has the mnemonic and the operands that it was found by. -/
theorem spells_of_ofForm? {m : Mnemonic} {operands : List Operand} {t : Template}
    (hdw : m ≠ .dw) (h : ofForm? m operands = some (.ok t)) : Spells m operands t := by
  cases m with
  | dw => exact absurd rfl hdw
  | cls => exact spells_plain (i := .clear) trivial rfl h
  | ret => exact spells_plain (i := .ret) trivial rfl h
  | jp =>
    simp only [ofForm?] at h
    split at h
    · cases h
      exact .addressed (fun _ => rfl) rfl
    -- A jump with two operands adds `V0` and no other register.
    · split at h
      · rename_i hx
        cases h
        rw [hx]
        exact .addressed (fun _ => rfl) rfl
      · exact nomatch h
    · exact nomatch h
  | call =>
    simp only [ofForm?] at h
    split at h
    · cases h
      exact .addressed (fun _ => rfl) rfl
    · exact nomatch h
  | se => exact spells_either (fun _ _ => rfl) (fun _ _ => rfl) (by decide) h
  | sne => exact spells_either (fun _ _ => rfl) (fun _ _ => rfl) (by decide) h
  | ld => exact spells_load h
  | add =>
    simp only [ofForm?] at h
    split at h
    · cases h
      exact .fixed trivial rfl rfl (fun _ => rfl)
    · exact spells_either (fun _ _ => rfl) (fun _ _ => rfl) (by decide) h
  | or => exact spells_pair (fun _ _ => rfl) (by decide) h
  | and => exact spells_pair (fun _ _ => rfl) (by decide) h
  | xor => exact spells_pair (fun _ _ => rfl) (by decide) h
  | sub => exact spells_pair (fun _ _ => rfl) (by decide) h
  | subn => exact spells_pair (fun _ _ => rfl) (by decide) h
  | shr => exact spells_shift (.inl ⟨rfl, rfl⟩) h
  | shl => exact spells_shift (.inr ⟨rfl, rfl⟩) h
  | rnd =>
    simp only [ofForm?] at h
    split at h
    · exact spells_byte (fun _ => rfl) (Option.some.inj h)
    · exact nomatch h
  | drw =>
    simp only [ofForm?] at h
    split at h
    · rename_i x y rows
      split at h
      · rename_i hrows
        cases h
        -- A sprite of at most fifteen rows has a height that is a byte.
        have hheight : (UInt8.ofNat rows).toNat = rows := by
          rw [UInt8.toNat_ofNat', Nat.mod_eq_of_lt (by omega)]
        refine .fixed ?_ rfl ?_ (fun _ => rfl)
        · show 1 ≤ (UInt8.ofNat rows).toNat ∧ (UInt8.ofNat rows).toNat ≤ 15
          rwa [hheight]
        · rw [Instruction.operands, hheight, normalOperands_of_ne (by decide)]
      · exact nomatch h
    · exact nomatch h
  | skp => exact spells_single (fun _ => rfl) (fun _ => rfl) h
  | sknp => exact spells_single (fun _ => rfl) (fun _ => rfl) h

/-- An address that an operand stands for is in reach, and is the operand's own once its
    label is looked up. -/
theorem of_addressOf {labels : Labels} {target : Operand} {addr : UInt16}
    (h : addressOf labels target = .ok addr) :
    addr.toNat < 4096 ∧
      target.located? (fun name => (labels.lookup name).map UInt16.toNat) =
        some (.literal addr.toNat) := by
  unfold addressOf at h
  split at h
  · rename_i value
    obtain ⟨_, hfit, rfl⟩ := Except.map_eq_ok_iff.1 h
    obtain ⟨hle, rfl⟩ := fit_eq_ok_iff.1 hfit
    have hvalue : (UInt16.ofNat value).toNat = value := by
      rw [UInt16.toNat_ofNat', Nat.mod_eq_of_lt (by omega)]
    rw [hvalue]
    exact ⟨by omega, rfl⟩
  · rename_i name
    split at h
    · exact nomatch h
    · rename_i address hlookup
      obtain ⟨_, hfit, rfl⟩ := Except.map_eq_ok_iff.1 h
      obtain ⟨hle, rfl⟩ := fit_eq_ok_iff.1 hfit
      rw [UInt16.ofNat_toNat, Operand.located?, hlookup]
      exact ⟨by omega, rfl⟩
  · -- Nothing but a number and a label stands for an address.
    exact nomatch h

/-- Only the address of an instruction has to be located. -/
theorem mapM_located?_operandsAt {address? : String → Option Nat} {target located : Operand}
    (h : target.located? address? = some located) (op : AddressOp) :
    (op.operandsAt target).mapM (Operand.located? address?) = some (op.operandsAt located) := by
  have hindex : Operand.index.located? address? = some .index := rfl
  have hregister : (Operand.register 0).located? address? = some (.register 0) := rfl
  cases op <;> simp [AddressOp.operandsAt, h, hindex, hregister]

/-- The word of a statement other than a raw word is the encoding of an instruction with
    the mnemonic of the statement and its operands, up to the addresses of labels. -/
theorem exists_instruction_of_resolve {m : Mnemonic} {operands : List Operand} {t : Template}
    {labels : Labels} {w : Word} (hdw : m ≠ .dw) (hform : ofForm? m operands = some (.ok t))
    (hword : resolve labels t = .ok w) :
    ∃ i : Instruction, i.Fits ∧ i.encode = w ∧ i.mnemonic = m ∧
      ∃ located, operands.mapM (Operand.located? fun name => (labels.lookup name).map UInt16.toNat)
          = some located ∧
        i.operands = normalOperands m located := by
  cases spells_of_ofForm? hdw hform with
  | fixed hfits hmnemonic hoperands hlocated =>
    cases hword
    exact ⟨_, hfits, rfl, hmnemonic, operands, hlocated _, hoperands⟩
  | @addressed op target hmnemonic hoperands =>
    obtain ⟨addr, haddr, rfl⟩ := Except.map_eq_ok_iff.1 hword
    obtain ⟨hlt, hlocated⟩ := of_addressOf haddr
    have hshift : m ≠ .shr ∧ m ≠ .shl := by
      rw [← hmnemonic addr]
      cases op <;> exact ⟨nofun, nofun⟩
    refine ⟨.address op addr, hlt, rfl, hmnemonic addr, op.operandsAt (.literal addr.toNat),
      ?_, ?_⟩
    · rw [hoperands]
      exact mapM_located?_operandsAt hlocated op
    · rw [normalOperands_of_ne hshift]
      rfl

end Template

end Chip8.Assembly
