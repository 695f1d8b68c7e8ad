import Chip8.Text.Decimal
import Chip8.Text.Hex
import Chip8.Text.Numeral
import Chip8.Text.Blank
import Chip8.Fault
import Chip8.Window
import Chip8.Memory
import Chip8.Memory.Access
import Chip8.CallStack
import Chip8.CallSlots
import Chip8.Register
import Chip8.Frame
import Chip8.Frame.Mask
import Chip8.KeyLatch
import Chip8.KeySlots
import Chip8.Timers
import Chip8.RandomSource
import Chip8.Word
import Chip8.Instruction
import Chip8.Instruction.Code
import Chip8.Instruction.Mnemonic
import Chip8.Instruction.Text
import Chip8.State
import Chip8.RegisterDump
import Chip8.Execution
import Chip8.Deque
import Chip8.History
import Chip8.Machine
import Chip8.Operation
import Chip8.Clock.Ticker
import Chip8.Clock.Duration
import Chip8.Clock.Metronome
import Chip8.Clock.Scheduler
import Chip8.Clock.Clockwork
import Chip8.Clock.Drive
import Chip8.Assembly.Problem
import Chip8.Assembly.Operand
import Chip8.Assembly.Statement
import Chip8.Assembly.Template
import Chip8.Assembly.Program
import Chip8.Assembly.Listing
import Chip8.Console.Keyboard
import Chip8.Console.Panel
import Chip8.Console.Beeper
import Chip8.Console.SquareWave
import Chip8.Console.Script
import Chip8.Console.Session
import Chip8.Console.Course
import Chip8.Command.Invocation
import Chip8.Command.ArgumentSyntax
import Chip8.Command.Outcome
import Chip8.Command.Disassemble
import Chip8.Command.Assemble
import Chip8.Command.Play
import Chip8.Main
import Chip8.Proofs.InstructionCode
import Chip8.Proofs.EncodingTable
import Chip8.Proofs.StepAtomic
import Chip8.Proofs.StepFaults
import Chip8.Proofs.ExecutionEffect
import Chip8.Proofs.MachineInvariant
import Chip8.Proofs.SnapshotQueue
import Chip8.Proofs.RewindUndo
import Chip8.Proofs.TimerPace
import Chip8.Proofs.NumeralText
import Chip8.Proofs.StatementText
import Chip8.Proofs.LetterCase
import Chip8.Proofs.NumeralValue
import Chip8.Proofs.OperandShape
import Chip8.Proofs.OperandText
import Chip8.Proofs.ExceptResult
import Chip8.Proofs.StatementForm
import Chip8.Proofs.ListingReassembly
import Chip8.Proofs.LabelAddress
import Chip8.Proofs.AssemblyMeaning
import Chip8.Proofs.ListingAddress
import Chip8.Proofs.CallReturn
import Chip8.Proofs.Footprint
import Chip8.Proofs.FramePacing
import Chip8.Proofs.TrimmedText
import Chip8.Proofs.BodyShape
import Chip8.Proofs.InlinedLine
import Chip8.Proofs.Respelling
import Chip8.Proofs.LineLayout
import Chip8.Proofs.LabelSubstitution
import Chip8.Proofs.AppendedLine
import Chip8.Proofs.LabelReference
import Chip8.Proofs.KeyDelivery
import Chip8.Proofs.KeyStall
import Chip8.Proofs.KeypadPolling
import Chip8.Proofs.ProgramImage
import Chip8.Proofs.ProgramLoading
import Chip8.Proofs.StepRequest
import Chip8.Proofs.BeeperDevice
import Chip8.Proofs.SpriteDrawing
import Chip8.Proofs.DrawingOrder
import Chip8.Proofs.FlagArithmetic
import Chip8.Proofs.LatchLayout
import Chip8.Proofs.ElapsedTime
import Chip8.Proofs.ClockworkTime
import Chip8.Proofs.NominalRate
import Chip8.Proofs.StepRate
import Chip8.Proofs.FirstProblem
import Chip8.Proofs.LineByLine
import Chip8.Proofs.SourceLayout
import Chip8.Proofs.EqualPieces
import Chip8.Proofs.RegisterTransfer
import Chip8.Proofs.LatestWrite
import Chip8.Proofs.CallLayout
import Chip8.Proofs.FrameViews
