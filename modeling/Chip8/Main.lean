import Chip8.Command.ArgumentSyntax
import Chip8.Command.Assemble
import Chip8.Command.Disassemble
import Chip8.Command.Play
import Chip8.Console.Script

/-! # The program

Runs one of the commands `assemble`, `disassemble` and `play`.  The player reads a
keyboard script from the standard input. -/

open Chip8 Chip8.Command Chip8.Console

/-- The contents of a file on disk, if it can be read. -/
def readFromDisk : FileReader IO := fun path => do
  try
    let contents ← IO.FS.readBinFile path
    return some contents.toList
  catch _ => return none

/-- Write what a command has to say, and give its exit code. -/
def report (outcome : Outcome) : IO UInt32 := do
  IO.print outcome.output
  unless outcome.complaint.isEmpty do
    IO.eprintln outcome.complaint
  return UInt32.ofNat outcome.exit

/-- Write an image to disk. -/
def writeImage (image : Image) : IO Outcome := do
  try
    IO.FS.writeBinFile image.path ⟨image.bytes.toArray⟩
    return .success ""
  catch _ => return .failure ("cannot write " ++ image.path)

/-- The lines of the standard input up to its end. -/
partial def inputLines (stdin : IO.FS.Stream) (lines : Array String) : IO (List String) := do
  let line ← stdin.getLine
  if line.isEmpty then return lines.toList
  inputLines stdin (lines.push (String.ofList (line.toList.filter (· ≠ '\n'))))

def main (arguments : List String) : IO UInt32 := do
  match arguments with
  | "assemble" :: rest =>
    match ← Command.assemble readArguments? readFromDisk rest with
    | .error outcome => report outcome
    | .ok image => report (← writeImage image)
  | "disassemble" :: rest => report (← Command.disassemble readArguments? readFromDisk rest)
  | "play" :: rest =>
    let seed ← IO.rand 0 (UInt64.size - 1)
    let script ← inputLines (← IO.getStdin) #[]
    let turns := pacedTurns (period Scheduler.frameRate) (scriptEvents script)
    let random := .scrambled (UInt64.ofNat seed)
    report (← Command.play readArguments? readFromDisk random turns rest)
  | _ => report (.usage "assemble | disassemble | play")
