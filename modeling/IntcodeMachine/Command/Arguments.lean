import IntcodeMachine.Command.Usage
import IntcodeMachine.Memory
import IntcodeMachine.Storage

/-!
The arguments of the command. Long options may carry their value after an
equals sign, short ones may stand together behind one dash, and an option's
value is the rest of its argument or else the next argument, whatever that
looks like. Options and operands may be mixed until a double dash. The settings
of a run are read off the sorted arguments: values are checked in the order in
which their options first appear, then the file, then that there are no further
arguments.
-/

namespace IntcodeMachine.Command

open Text

inductive Switch where
  | verbose
  | memorySize
  | input
  | help
deriving DecidableEq

namespace Switch

def all : List Switch :=
  [.verbose, .memorySize, .input, .help]

def long : Switch → String
  | .verbose => "--verbose"
  | .memorySize => "--memory-size"
  | .input => "--input"
  | .help => "--help"

def ofLong? (name : String) : Option Switch :=
  all.find? (·.long = name)

def ofShort? : Char → Option Switch
  | 'v' => some .verbose
  | 'm' => some .memorySize
  | 'i' => some .input
  | _ => none

def takesValue : Switch → Bool
  | .memorySize | .input => true
  | .verbose | .help => false

end Switch

/-- An option as given: its switch, and the value if it takes one. -/
structure Setting where
  switch : Switch
  value : String := ""
deriving DecidableEq

/-- An option whose value is the next argument, under the name by which it was
called. -/
structure Awaiting where
  switch : Switch
  name : String
deriving DecidableEq

/-- The largest number of options that are suggested. -/
def mostSuggestions : Nat := 3

/-- The long options that a misspelt name may have meant, in order. -/
def suggestions (name : String) : List String :=
  ((alikeFirst (Switch.all.map Switch.long) name).take
    mostSuggestions).mergeSort (· ≤ ·)

/-- A long option. Only what stands before the first equals sign is its
name. -/
def longOption (argument : String) :
    Except UsageError (List Setting × Option Awaiting) :=
  let text := argument.toList
  let name := String.ofList (text.takeWhile (· ≠ '='))
  match Switch.ofLong? name, text.dropWhile (· ≠ '=') with
  | none, _ => .error (.noSuchOption name (suggestions name))
  | some switch, [] =>
      if switch.takesValue then .ok ([], some ⟨switch, name⟩)
      else .ok ([{ switch }], none)
  | some switch, _ :: value =>
      if switch.takesValue then
        .ok ([⟨switch, String.ofList value⟩], none)
      else .error (.valueUnexpected name)

/-- Short options behind one dash. The first that takes a value takes all that
is left of the argument. -/
def shortOptions : List Char →
    Except UsageError (List Setting × Option Awaiting)
  | [] => .ok ([], none)
  | c :: rest =>
      let name := String.ofList ['-', c]
      match Switch.ofShort? c with
      | none => .error (.noSuchOption name [])
      | some switch =>
          if switch.takesValue then
            match rest with
            | [] => .ok ([], some ⟨switch, name⟩)
            | value => .ok ([⟨switch, String.ofList value⟩], none)
          else do
            let (settings, awaiting) ← shortOptions rest
            return ({ switch } :: settings, awaiting)

/-- An argument of more than one character that starts with a dash holds
options; any other is an operand. -/
def options? (argument : String) :
    Option (Except UsageError (List Setting × Option Awaiting)) :=
  match argument.toList with
  | '-' :: '-' :: _ => some (longOption argument)
  | '-' :: c :: rest => some (shortOptions (c :: rest))
  | _ => none

/-- The arguments of a call, sorted out. -/
structure Given where
  settings : List Setting
  operands : List String
deriving DecidableEq

/-- Sorts out arguments, the first of which may be a value that is still
awaited. -/
def sortOut : Option Awaiting → List String → Except UsageError Given
  | none, [] => .ok ⟨[], []⟩
  | some awaiting, [] => .error (.valueMissing awaiting.name)
  | some awaiting, value :: rest => do
      let given ← sortOut none rest
      return { given with
        settings := ⟨awaiting.switch, value⟩ :: given.settings }
  | none, argument :: rest =>
      if argument = "--" then .ok ⟨[], rest⟩
      else
        match options? argument with
        | none => do
            let given ← sortOut none rest
            return { given with operands := argument :: given.operands }
        | some (.error e) => .error e
        | some (.ok (settings, awaiting)) => do
            let given ← sortOut awaiting rest
            return { given with settings := settings ++ given.settings }

def Given.ofArguments (arguments : List String) : Except UsageError Given :=
  sortOut none arguments

/-- The values that a switch was given, in order. -/
def Given.values (given : Given) (switch : Switch) : List String :=
  (given.settings.filter (·.switch = switch)).map Setting.value

structure Settings where
  verbose : Bool
  memorySize : Int
  inputs : List Int
  file : String
deriving DecidableEq

/-- What a call asks for. -/
inductive Request where
  | help
  | run (settings : Settings)
deriving DecidableEq

/-- Why a call does not come to run anything: it is not understood, or its path
is one that cannot even be looked up. -/
inductive Refusal where
  | usage (error : UsageError)
  | nullInPath
deriving DecidableEq

namespace Given

/-- The memory size: the last one given, which has to be positive. -/
def memorySize (given : Given) : Except UsageError Int :=
  match (given.values .memorySize).getLast? with
  | none => .ok Memory.defaultSize
  | some text =>
      match Numeral.readArgument? text with
      | none => .error (.invalidSize text)
      | some size => if 1 ≤ size then .ok size else .error (.sizeTooSmall size)

/-- The numbers of the scripted input, all that are given. -/
def inputs (given : Given) : Except UsageError (List Int) :=
  (given.values .input).mapM fun text =>
    match Numeral.readArgument? text with
    | none => .error (.invalidInput text)
    | some n => .ok n

/-- The option that takes a value and appears first decides which values are
checked first. -/
def inputsFirst (given : Given) : Bool :=
  (given.settings.find? (·.switch.takesValue)).any (·.switch = .input)

/-- The memory size and the inputs, checked in the order of their options. -/
def numbers (given : Given) : Except UsageError (Int × List Int) :=
  if given.inputsFirst then do
    let inputs ← given.inputs
    let size ← given.memorySize
    return (size, inputs)
  else do
    let size ← given.memorySize
    let inputs ← given.inputs
    return (size, inputs)

/-- The file to run, which has to be one. -/
def file (given : Given) (find : String → Lookup) : Except Refusal String :=
  match given.operands with
  | [] => .error (.usage .argumentMissing)
  | path :: extra =>
      match find path with
      | .missing | .notDirectory | .tooLong =>
          .error (.usage (.fileMissing path))
      | .directory => .error (.usage (.fileIsDirectory path))
      | .nullInPath => .error .nullInPath
      | .file _ =>
          if extra = [] then .ok path
          else .error (.usage (.extraArguments extra))

end Given

/-- What a call asks for, given what is found at paths. Help is given as soon
as the options themselves are well formed. -/
def Request.ofArguments (find : String → Lookup) (arguments : List String) :
    Except Refusal Request := do
  let given ← (Given.ofArguments arguments).mapError .usage
  if given.settings.any (·.switch = .help) then return .help
  let (memorySize, inputs) ← given.numbers.mapError .usage
  let file ← given.file find
  let verbose := given.settings.any (·.switch = .verbose)
  return .run { verbose, memorySize, inputs, file }

end IntcodeMachine.Command
