import Chip8.Instruction
import Chip8.RandomSource
import Chip8.State

/-! # Execution

What each instruction does to a state.  Execution never moves the program counter:
it says where the program goes on (`Next`), and whoever runs the program moves it.

Execution works in place.  It is handed a scratch copy of the state, and the random
source itself, and it says in what condition it leaves both, also when it stops with
a fault: whoever runs the program decides whether the scratch copy counts, but a byte
that was drawn stays drawn.  Operands are read before anything is written.  Where an
instruction writes both its result and the flag, the order matters when the result
goes to the flag register: `add` writes the flag last, the subtractions and shifts
write it first. -/

namespace Chip8

/-- Where a program goes on after an instruction. -/
inductive Next where
  /-- At the next instruction. -/
  | advance
  /-- At the instruction after the next one. -/
  | skip
  /-- At an address. -/
  | jump (addr : UInt16)
  /-- At the same instruction, once there is a key press for it. -/
  | wait
  deriving DecidableEq, Repr

namespace Next

/-- Skip if a condition holds. -/
def skipIf (condition : Bool) : Next := if condition then skip else advance

/-- The program counter that follows `pc`; none while waiting. -/
def target? (pc : UInt16) : Next → Option UInt16
  | advance => some (pc + 2)
  | skip => some (pc + 4)
  | jump addr => some addr
  | wait => none

end Next

/-- What an instruction came to, and what it leaves behind. -/
structure Effect where
  /-- Where the program goes on, or why it cannot. -/
  outcome : Except RangeFault Next
  state : State
  random : RandomSource

/-- The effect of something that draws no random byte. -/
def Effect.undrawn (r : RandomSource) (result : Except RangeFault Next × State) : Effect :=
  ⟨result.1, result.2, r⟩

/-- Go on with the answer of a part of the state.  Where there is none, stop with its
    fault and leave the state in the condition it is in. -/
def attempt {α : Type} (s : State) (answer : Except RangeFault α) (goOn : α → Next × State) :
    Except RangeFault Next × State :=
  match answer with
  | .error cause => (.error cause, s)
  | .ok a => (.ok (goOn a).1, (goOn a).2)

/-- The decimal digits of a byte: hundreds, tens and ones. -/
def decimalDigits (value : UInt8) : List UInt8 := [value / 100, value / 10 % 10, value % 10]

/-- Execute an operation on an address. -/
def AddressOp.execute (op : AddressOp) (addr : UInt16) (s : State) :
    Except RangeFault Next × State :=
  match op with
  | jump => (.ok (.jump addr), s)
  | call => attempt s (s.stack.push (s.pc + 2)) fun stack => (.jump addr, { s with stack })
  | loadI => (.ok .advance, { s with i := addr })
  | jumpV0 => (.ok (.jump ((s.reg 0).toUInt16 + addr)), s)

/-- Execute an operation on a register and a byte. -/
def ByteOp.execute (op : ByteOp) (x : Register) (kk : UInt8) (s : State) (r : RandomSource) :
    Effect :=
  match op with
  | skipEqual => ⟨.ok (.skipIf (s.reg x == kk)), s, r⟩
  | skipUnequal => ⟨.ok (.skipIf (s.reg x != kk)), s, r⟩
  | load => ⟨.ok .advance, s.setReg x kk, r⟩
  | add => ⟨.ok .advance, s.setReg x (s.reg x + kk), r⟩
  | random =>
    let (drawn, r) := r.draw
    ⟨.ok .advance, s.setReg x (drawn &&& kk), r⟩

/-- Execute an operation on two registers.  None of them can fault. -/
def PairOp.execute (op : PairOp) (x y : Register) (s : State) : Next × State :=
  let a := s.reg x
  let b := s.reg y
  match op with
  | skipEqual => (.skipIf (a == b), s)
  | skipUnequal => (.skipIf (a != b), s)
  | move => (.advance, s.setReg x b)
  | or => (.advance, s.setReg x (a ||| b))
  | and => (.advance, s.setReg x (a &&& b))
  | xor => (.advance, s.setReg x (a ^^^ b))
  | add => (.advance, (s.setReg x (a + b)).setFlag (255 < a.toNat + b.toNat))
  | sub => (.advance, (s.setFlag (b ≤ a)).setReg x (a - b))
  | shiftRight => (.advance, (s.setFlag (a.toNat % 2 = 1)).setReg x (a / 2))
  | subFrom => (.advance, (s.setFlag (a ≤ b)).setReg x (b - a))
  | shiftLeft => (.advance, (s.setFlag (128 ≤ a.toNat)).setReg x (a + a))

/-- Execute an operation on one register. -/
def SingleOp.execute (op : SingleOp) (x : Register) (s : State) :
    Except RangeFault Next × State :=
  let a := s.reg x
  match op with
  | skipPressed => (.ok (.skipIf (s.keys.isHeld a)), s)
  | skipNotPressed => (.ok (.skipIf (!s.keys.isHeld a)), s)
  | readDelay => (.ok .advance, s.setReg x s.timers.delay)
  | waitKey =>
    match s.keys.take with
    | none => (.ok .wait, s)
    | some (key, keys) => (.ok .advance, { s with keys }.setReg x key.toByte)
  | setDelay => (.ok .advance, { s with timers := { s.timers with delay := a } })
  | setSound => (.ok .advance, { s with timers := { s.timers with sound := a } })
  | addI => (.ok .advance, { s with i := UInt16.ofNat (min (s.i.toNat + a.toNat) 65535) })
  | loadFont =>
    (.ok .advance, { s with i := Memory.fontBase + Memory.glyphHeight * (a.toUInt16 % 16) })
  | bcd =>
    attempt s (s.memory.write s.i.toNat (decimalDigits a)) fun memory =>
      (.advance, { s with memory })
  | store =>
    attempt s (s.memory.write s.i.toNat (s.v.toList.take (x.val + 1))) fun memory =>
      (.advance, { s with memory })
  | read =>
    attempt s (s.memory.slice s.i.toNat (x.val + 1)) fun bytes =>
      (.advance, { s with v := s.v.overwrite 0 bytes })

/-- Draw the sprite of `height` rows at `I` with its corner at `Vx`, `Vy`, and set the
    flag if a lit pixel was turned off. -/
def executeDraw (x y : Register) (height : UInt8) (s : State) : Except RangeFault Next × State :=
  attempt s (s.memory.slice s.i.toNat height.toNat) fun sprite =>
    let (frame, hit) := s.frame.draw ((s.reg x).toNat % 64) ((s.reg y).toNat % 32) sprite
    (.advance, { s with frame }.setFlag hit)

/-- Execute an instruction. -/
def execute (i : Instruction) (s : State) (r : RandomSource) : Effect :=
  match i with
  | .clear => ⟨.ok .advance, { s with frame := .blank }, r⟩
  | .ret => .undrawn r (attempt s s.stack.pop fun (addr, stack) => (.jump addr, { s with stack }))
  | .address op addr => .undrawn r (op.execute addr s)
  | .byte op x kk => op.execute x kk s r
  | .pair op x y =>
    let (next, s) := op.execute x y s
    ⟨.ok next, s, r⟩
  | .draw x y height => .undrawn r (executeDraw x y height s)
  | .single op x => .undrawn r (op.execute x s)

end Chip8
