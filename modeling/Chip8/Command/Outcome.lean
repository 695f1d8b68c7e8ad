/-! # Outcomes of a command

A command ends with an exit code, with what it has written to the standard output,
and with a complaint if it failed.  It reads files through a `FileReader`, which is an
effect of whatever kind the caller has: a real one in the program, a look-up where
files are given as values. -/

namespace Chip8.Command

/-- A way of reading a file: the contents behind a path, if it can be read. -/
abbrev FileReader (m : Type → Type) : Type := String → m (Option (List UInt8))

/-- How a command ended. -/
structure Outcome where
  exit : Nat
  output : String := ""
  /-- What is said to the person who gave the command. -/
  complaint : String := ""
  deriving DecidableEq, Repr

namespace Outcome

/-- The arguments were not those of the command, which are these. -/
def usage (arguments : String) : Outcome := { exit := 2, complaint := "usage: " ++ arguments }

/-- The command could not do its work, for a reason. -/
def failure (reason : String) : Outcome := { exit := 1, complaint := "error: " ++ reason }

/-- A file could not be read. -/
def unreadable (path : String) : Outcome := failure ("cannot read " ++ path)

/-- The command did its work. -/
def success (output : String) : Outcome := { exit := 0, output }

end Outcome

/-- Lines of output, each ended by a newline. -/
def linesText (lines : List String) : String := String.join (lines.map (· ++ "\n"))

end Chip8.Command
