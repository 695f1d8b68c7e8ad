import Chip8.Assembly.Statement
import Chip8.Assembly.Template
import Chip8.Memory

/-! # Programs

Assembling a program takes two passes over its statements.  The first gives every
label the address of the next statement with a body, counted from the program base;
the second turns the bodies into words.  A problem with a label, wherever it is, is
therefore reported before any problem with a body. -/

namespace Chip8.Assembly

/-- Record the labels of statements that start at `address`, behind those in `labels`.
    A label must be an identifier and must be new. -/
def collectLabels (labels : Labels) (address : UInt16) :
    List (Nat × Statement) → Except Error Labels
  | [] => .ok labels
  | (line, s) :: rest => do
    let labels ← define labels address line s.label
    collectLabels labels (if s.isCode then address + 2 else address) rest
where
  /-- Record one label, if there is one. -/
  define (labels : Labels) (address : UInt16) (line : Nat) :
      Option (List Char) → Except Error Labels
    | none => .ok labels
    | some label =>
      let name := String.ofList label
      if isIdentifier label then
        if (labels.lookup name).isSome then
          .error ⟨line, .duplicateLabel name⟩
        else
          .ok ((name, address) :: labels)
      else
        .error ⟨line, .invalidLabel name⟩

/-- The word of a statement on a line. -/
def wordOf (labels : Labels) (line : Nat) (body : List Char) : Except Error Word :=
  match (Template.ofBody body).bind (Template.resolve labels) with
  | .ok word => .ok word
  | .error problem => .error ⟨line, problem⟩

/-- The bytes of the statements that have a body, after `size` bytes of program.  The
    statement that takes the program past its capacity is in error. -/
def emit (labels : Labels) (size : Nat) : List (Nat × Statement) → Except Error (List UInt8)
  | [] => .ok []
  | (line, s) :: rest =>
    if s.isCode then do
      let word ← wordOf labels line s.body
      if size + 2 ≤ Memory.programCapacity then
        let bytes ← emit labels (size + 2) rest
        .ok (word.toBytes ++ bytes)
      else
        .error ⟨line, .programTooLarge (size + 2) Memory.programCapacity⟩
    else
      emit labels size rest

/-- Assemble a program. -/
def assemble (source : String) : Except Error (List UInt8) := do
  let statements := Statement.ofSource source
  let labels ← collectLabels [] Memory.programBase statements
  emit labels 0 statements

/-- Assemble a single statement, with no labels to refer to.  A label in front of it is
    passed over. -/
def assembleLine (line : String) : Except Error Word :=
  wordOf [] 1 (Statement.ofLine line.toList).body

end Chip8.Assembly
