import Chip8.Command.Invocation

/-! # Argument syntax

The reader of arguments that the program itself uses.  An option has a long name behind
two dashes and possibly a short one behind a single dash; it is a flag, or it takes a
value.  A value stands behind the option as an argument of its own, or in the same
argument: `--name=value`, `-n=value`, `-nvalue`.  Short flags can share a dash.  All
other arguments are positional, as is everything behind a lone `--`.

A value in an argument of its own does not begin with a dash, unless it is a dash.
No option is given twice, no positional argument is empty, and their number is fixed.
Arguments that break one of these rules are no invocation. -/

namespace Chip8.Command

/-- A part of an invocation. -/
inductive Item where
  | positional (value : String)
  | flag (name : String)
  /-- An option with its value. -/
  | option (name value : String)
  deriving DecidableEq, Repr

/-- What one argument is read as. -/
inductive Reading where
  | complete (items : List Item)
  /-- The value of the option stands in the next argument. -/
  | awaitsValue (items : List Item) (name : String)
  deriving DecidableEq, Repr

namespace Reading

/-- A reading with an item in front. -/
def cons (item : Item) : Reading → Reading
  | complete items => complete (item :: items)
  | awaitsValue items name => awaitsValue (item :: items) name

/-- Read what follows the two dashes of a long option. -/
def ofLong? (specs : List OptionSpec) (body : List Char) : Option Reading :=
  let name := String.ofList (body.takeWhile (· ≠ '='))
  match specs.find? (·.name = name), body.dropWhile (· ≠ '=') with
  | none, _ => none
  | some spec, [] =>
    some (if spec.default?.isSome then awaitsValue [] name else complete [.flag name])
  | some spec, _ :: value =>
    if spec.default?.isSome then some (complete [.option name (String.ofList value)]) else none

/-- Read what follows the dash of short options. -/
def ofShorts? (specs : List OptionSpec) : List Char → Option Reading
  | [] => some (complete [])
  | c :: rest =>
    match specs.find? (·.short = some c) with
    | none => none
    | some spec =>
      if spec.default?.isSome then
        match rest with
        | [] => some (awaitsValue [] spec.name)
        | '=' :: value => some (complete [.option spec.name (String.ofList value)])
        | value => some (complete [.option spec.name (String.ofList value)])
      else
        (ofShorts? specs rest).map (cons (.flag spec.name))

/-- Read an argument other than a lone `--`. -/
def ofArgument? (specs : List OptionSpec) (argument : String) : Option Reading :=
  match argument.toList with
  | '-' :: '-' :: body => ofLong? specs body
  | '-' :: c :: rest => ofShorts? specs (c :: rest)
  | _ => some (complete [.positional argument])

end Reading

/-- Whether an argument can be the value of the option before it. -/
def standsAsValue (argument : String) : Bool :=
  match argument.toList with
  | '-' :: _ :: _ => false
  | _ => true

/-- The items of a list of arguments. -/
def items? (specs : List OptionSpec) : List String → Option (List Item)
  | [] => some []
  | argument :: rest =>
    if argument = "--" then some (rest.map .positional)
    else
      match Reading.ofArgument? specs argument with
      | none => none
      | some (.complete items) => (items? specs rest).map (items ++ ·)
      | some (.awaitsValue items name) =>
        match rest with
        | [] => none
        | value :: rest =>
          if standsAsValue value then
            (items? specs rest).map fun later => items ++ .option name value :: later
          else none

/-- Sort items.  Options that are not among them have the value that stands for theirs. -/
def Invocation.ofItems (specs : List OptionSpec) (items : List Item) : Invocation :=
  let given := items.filterMap fun
    | .option name value => some (name, value)
    | _ => none
  { positionals := items.filterMap fun
      | .positional value => some value
      | _ => none
    flags := items.filterMap fun
      | .flag name => some name
      | _ => none
    values := specs.filterMap fun spec =>
      spec.default?.map fun default => (spec.name, (given.lookup spec.name).getD default) }

/-- The name of the option that an item belongs to. -/
def Item.name? : Item → Option String
  | positional _ => none
  | flag name => some name
  | option name _ => some name

/-- Read the arguments of a command that takes `count` positional ones. -/
def readArguments? : ArgumentReader := fun specs count arguments => do
  let items ← items? specs arguments
  let invocation := Invocation.ofItems specs items
  if invocation.positionals.length = count ∧ "" ∉ invocation.positionals ∧
      (items.filterMap Item.name?).Nodup then
    some invocation
  else none

end Chip8.Command
