/-! # Invocations

What was given to a command: its positional arguments, the flags, and a text for each
option that takes a value.  A command says which options it knows and how many positional
arguments it takes; the arguments are then read by an `ArgumentReader`, which is the
caller's, as a `FileReader` is.  A command that is given none has been called in the wrong
way. -/

namespace Chip8.Command

/-- An option that a command knows. -/
structure OptionSpec where
  name : String
  short : Option Char := none
  /-- The text that stands for the value if none is given.  An option without one is a
      flag and takes no value. -/
  default? : Option String := none
  deriving DecidableEq, Repr

/-- The arguments of a command, sorted. -/
structure Invocation where
  positionals : List String
  /-- The flags that were given. -/
  flags : List String
  /-- The options that take a value, each with the text that was given or stands for it. -/
  values : List (String × String)
  deriving DecidableEq, Repr

/-- A way of reading arguments: what was given to a command that knows some options and
    takes a number of positional arguments, if the arguments are those of such a command. -/
abbrev ArgumentReader : Type := List OptionSpec → Nat → List String → Option Invocation

namespace Invocation

/-- Whether a flag was given. -/
def has (i : Invocation) (name : String) : Bool := i.flags.contains name

/-- The value of an option, read from its text. -/
def value? {α : Type} (i : Invocation) (name : String) (read? : List Char → Option α) : Option α :=
  (i.values.lookup name).bind fun text => read? text.toList

end Invocation

end Chip8.Command
