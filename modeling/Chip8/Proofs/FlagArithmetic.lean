import Chip8.Proofs.ExecutionEffect
import Mathlib.Logic.Function.Basic

/-!
# Results and flags

Some instructions write two registers, the one of their result and the flag.  Where the result
goes to the flag register, or an operand comes from it, it matters when each of them is read and
written: operands are read before anything is written, an addition writes the flag last, and
subtractions and shifts write the result last.  So the flag register keeps the carry of an
addition, and the result of everything else.

The values of the registers are taken as numbers here, and writes to them as updates of a function.
The order of the updates is the order of the writes.

## Key results

- `State.values_setReg`: a write updates the values at one register
- `Effect.Writes.result`, `Effect.Writes.resultThenFlag`, `Effect.Writes.flagThenResult`: the
  three orders in which instructions write
- `arithmetic_writes`: what each instruction computes, and what it writes in which order
-/

namespace Chip8

open Function

/-- The values of the registers, as numbers. -/
def State.values (s : State) (z : Register) : Nat := (s.reg z).toNat

/-- A write updates the values at one register. -/
theorem State.values_setReg (s : State) (x : Register) (value : UInt8) :
    (s.setReg x value).values = update s.values x value.toNat := by
  funext z
  by_cases hz : z = x
  · subst hz
    rw [update_self, values, State.reg_setReg_self]
  · rw [update_of_ne hz, values, State.reg_setReg, if_neg (Ne.symm hz), values]

theorem State.values_setFlag (s : State) (condition : Prop) [Decidable condition] :
    (s.setFlag (decide condition)).values =
      update s.values Register.flag (if condition then 1 else 0) := by
  rw [State.setFlag, State.values_setReg]
  by_cases h : condition <;> simp [h, flagByte]

/-- An instruction goes on behind itself and leaves the registers with certain values, and
    everything else as it was. -/
structure Effect.Writes (e : Effect) (s : State) (r : RandomSource) (values : Register → Nat) :
    Prop where
  outcome : e.outcome = .ok .advance
  state : e.state = { s with v := e.state.v }
  random : e.random = r
  values : e.state.values = values

namespace Effect.Writes

variable (s : State) (r : RandomSource) (x : Register) (value : UInt8)

theorem result :
    Writes ⟨.ok .advance, s.setReg x value, r⟩ s r (update s.values x value.toNat) where
  outcome := rfl
  state := rfl
  random := rfl
  values := s.values_setReg x value

theorem resultThenFlag (condition : Prop) [Decidable condition] :
    Writes ⟨.ok .advance, (s.setReg x value).setFlag (decide condition), r⟩ s r
      (update (update s.values x value.toNat) Register.flag (if condition then 1 else 0)) where
  outcome := rfl
  state := rfl
  random := rfl
  values := by
    -- The flag is written to the registers in which the result already stands.
    show ((s.setReg x value).setFlag _).values = _
    rw [State.values_setFlag, State.values_setReg]

theorem flagThenResult (condition : Prop) [Decidable condition] :
    Writes ⟨.ok .advance, (s.setFlag (decide condition)).setReg x value, r⟩ s r
      (update (update s.values Register.flag (if condition then 1 else 0)) x value.toNat) where
  outcome := rfl
  state := rfl
  random := rfl
  values := by
    -- The result is written over the flag, if it goes there.
    show ((s.setFlag _).setReg x value).values = _
    rw [State.values_setReg, State.values_setFlag]

end Effect.Writes

/-! ## Differences and shifts of bytes -/

private theorem toNat_byte_sub (a b : UInt8) : (a - b).toNat = (a.toNat + 256 - b.toNat) % 256 := by
  have := b.toNat_lt
  rw [UInt8.toNat_sub]
  omega

private theorem toNat_byte_double (a : UInt8) : (a + a).toNat = 2 * a.toNat % 256 := by
  rw [UInt8.toNat_add]
  omega

/-- The bit that a shift to the right loses. -/
private theorem lowBit_eq (a : UInt8) : (if a.toNat % 2 = 1 then 1 else 0) = a.toNat % 2 := by
  split <;> omega

/-- The bit that a shift to the left loses. -/
private theorem highBit_eq (a : UInt8) : (if 128 ≤ a.toNat then 1 else 0) = a.toNat / 128 := by
  have := a.toNat_lt
  split <;> omega

/-- With the values `a` and `b` that two registers have before an instruction, it writes what is
    said here, one after the other, and nothing else. -/
theorem arithmetic_writes (s : State) (r : RandomSource) (x y : Register) (kk : UInt8) :
    let a := s.values x
    let b := s.values y
    let VF := Register.flag
    (execute (.pair .add x y) s r).Writes s r
      (update (update s.values x ((a + b) % 256)) VF (if 255 < a + b then 1 else 0)) ∧
    (execute (.pair .sub x y) s r).Writes s r
      (update (update s.values VF (if b ≤ a then 1 else 0)) x ((a + 256 - b) % 256)) ∧
    (execute (.pair .subFrom x y) s r).Writes s r
      (update (update s.values VF (if a ≤ b then 1 else 0)) x ((b + 256 - a) % 256)) ∧
    (execute (.pair .shiftRight x y) s r).Writes s r
      (update (update s.values VF (a % 2)) x (a / 2)) ∧
    (execute (.pair .shiftLeft x y) s r).Writes s r
      (update (update s.values VF (a / 128)) x (2 * a % 256)) ∧
    (execute (.byte .add x kk) s r).Writes s r (update s.values x ((a + kk.toNat) % 256)) ∧
    (execute (.pair .or x y) s r).Writes s r (update s.values x (a ||| b)) ∧
    (execute (.pair .and x y) s r).Writes s r (update s.values x (a &&& b)) ∧
    (execute (.pair .xor x y) s r).Writes s r (update s.values x (a ^^^ b)) ∧
    ∃ i : UInt16, i.toNat = min (s.i.toNat + a) 65535 ∧
      execute (.single .addI x) s r = ⟨.ok .advance, { s with i }, r⟩ := by
  intro a b VF
  refine ⟨?_, ?_, ?_, ?_, ?_, ?_, ?_, ?_, ?_, ?_⟩
  · -- Only an addition sets the flag when its result is in place already.
    have h := Effect.Writes.resultThenFlag s r x (s.reg x + s.reg y) (255 < a + b)
    rwa [UInt8.toNat_add] at h
  · -- In these four the flag comes first, and a result in the flag register replaces it.
    have h := Effect.Writes.flagThenResult s r x (s.reg x - s.reg y) (s.reg y ≤ s.reg x)
    rwa [toNat_byte_sub] at h
  · have h := Effect.Writes.flagThenResult s r x (s.reg y - s.reg x) (s.reg x ≤ s.reg y)
    rwa [toNat_byte_sub] at h
  · have h := Effect.Writes.flagThenResult s r x (s.reg x / 2) ((s.reg x).toNat % 2 = 1)
    rwa [UInt8.toNat_div, lowBit_eq] at h
  · have h := Effect.Writes.flagThenResult s r x (s.reg x + s.reg x) (128 ≤ (s.reg x).toNat)
    rwa [toNat_byte_double, highBit_eq] at h
  · -- None of the others sets the flag.
    have h := Effect.Writes.result s r x (s.reg x + kk)
    rwa [UInt8.toNat_add] at h
  · have h := Effect.Writes.result s r x (s.reg x ||| s.reg y)
    rwa [UInt8.toNat_or] at h
  · have h := Effect.Writes.result s r x (s.reg x &&& s.reg y)
    rwa [UInt8.toNat_and] at h
  · have h := Effect.Writes.result s r x (s.reg x ^^^ s.reg y)
    rwa [UInt8.toNat_xor] at h
  · -- The sum is cut off before it is put into sixteen bits.
    refine ⟨_, ?_, rfl⟩
    rw [UInt16.toNat_ofNat']
    exact Nat.mod_eq_of_lt (Nat.lt_succ_of_le (Nat.min_le_right _ _))

/-- The flag register keeps the carry of an addition to it, and the result of a shift. -/
example :
    let s : State := (State.initial.setReg Register.flag 200).setReg 1 100
    let r : RandomSource := .counter 0 1
    (execute (.pair .add Register.flag 1) s r).state.values Register.flag = 1 ∧
      (execute (.pair .shiftRight Register.flag 1) s r).state.values Register.flag = 100 := by
  decide

end Chip8
