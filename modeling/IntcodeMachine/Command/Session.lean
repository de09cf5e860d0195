import IntcodeMachine.Command.Arguments
import IntcodeMachine.Machine.Run

/-!
A call of the command from its arguments to its exit code. The program's
numbers go to the standard output; the log and the prompts go to the standard
error, in the order in which they arise.
-/

namespace IntcodeMachine.Command

/-- What a call finds where it is made: what the file system has at a path, and
how many zeros there is room for in the memory of a machine. -/
structure Host where
  find : String → Lookup
  room : Nat

/-- The standard input of a call, and whether someone types it. -/
structure Console where
  stdin : TextStream
  terminal : Bool := false
deriving DecidableEq

/-- A console as an input device. Only a terminal is prompted. -/
def Console.input (console : Console) : Input :=
  .console console.stdin (if console.terminal then some "$ " else none)

/-- The console of a text in which any line end ends a line. -/
def Console.ofText (text : List Char) (terminal : Bool) : Console :=
  { stdin := { rest := Text.unifyLineEnds text }, terminal }

namespace Exit

def halted : Nat := 0

def faulted : Nat := 1

def refused : Nat := 2

def interrupted : Nat := 3

def failed : Nat := 100

end Exit

/-- How a call ended. -/
inductive Ending where
  | halted (steps : Nat)
  | faulted (cause : Fault)
  | interrupted
  | failed (message : String)
deriving DecidableEq

namespace Ending

def ofOutcome : Machine.Outcome → Ending
  | .ok () m => .halted m.steps
  | .error (.fault cause) _ => .faulted cause
  | .error .interrupted _ => .interrupted
  | .error stop _ => .failed stop.message

def exitCode : Ending → Nat
  | .halted _ => Exit.halted
  | .faulted _ => Exit.faulted
  | .interrupted => Exit.interrupted
  | .failed _ => Exit.failed

def record : Ending → Record
  | .halted steps =>
      ⟨.info, "Execution halted gracefully after " ++ Numeral.write steps ++
        " steps"⟩
  | .faulted cause => ⟨.error, "Execution halted on fault: " ++ cause.message⟩
  | .interrupted => ⟨.info, "Execution halted by the user"⟩
  | .failed message =>
      ⟨.info, "Execution halted on general error " ++ message⟩

end Ending

namespace Settings

/-- The lowest level that is shown. -/
def level (settings : Settings) : Level :=
  if settings.verbose then .debug else .info

/-- A record as it is shown, if it is. -/
def logLine (settings : Settings) (record : Record) : String :=
  if settings.level.rank ≤ record.level.rank then
    record.level.name ++ ":root:" ++ record.message ++ "\n"
  else ""

def logText (settings : Settings) (records : List Record) : String :=
  String.join (records.map settings.logLine)

/-- An event as it is shown. A prompt is shown as it is. -/
def eventText (settings : Settings) (event : Event) : String :=
  match event.record? with
  | some record => settings.logLine record
  | none => event.text

/-- The machine of a call: numbers given as options are a script, otherwise
the console is read. -/
def machine (settings : Settings) (room : Nat) (console : Console)
    (program : List Int) : Except Memory.AllocationError Machine :=
  Machine.allocate room program settings.memorySize
    (if settings.inputs = [] then console.input
     else .script (settings.inputs.map .number))
    (.console "")

end Settings

/-- All that is seen of a call. -/
structure Report where
  exitCode : Nat
  stdout : String := ""
  stderr : String := ""
deriving DecidableEq

def banner : Record :=
  ⟨.info, "INTCODE"⟩

/-- The report of a run that came to an end. -/
def Report.ofOutcome (settings : Settings) (before : String)
    (outcome : Machine.Outcome) : Report :=
  let m := Machine.ofOutcome outcome
  let ending := Ending.ofOutcome outcome
  { exitCode := ending.exitCode
    stdout := m.output.text
    stderr := before ++
      String.join (m.journal.toList.map settings.eventText) ++
      settings.logLine ending.record }

/-- The report of a call that never came to run its program. -/
def Report.ofFailure (settings : Settings) (before message : String) : Report :=
  let ending := Ending.failed message
  { exitCode := ending.exitCode
    stderr := before ++ settings.logLine ending.record }

/-- Loads and runs the program of a call, if it ends within the given number of
steps. -/
def runSettings (fuel : Nat) (host : Host) (console : Console)
    (settings : Settings) : Option Report :=
  let (records, loaded) := Program.load host.find (.ofString settings.file)
  let before := settings.logText (banner :: records)
  match loaded with
  | .error e => some (.ofFailure settings before e.message)
  | .ok program =>
      match settings.machine host.room console program with
      | .error e => some (.ofFailure settings before e.message)
      | .ok m =>
          (Machine.run {} fuel m).map (Report.ofOutcome settings before)

/-- What a call comes to. A call that is abandoned reports nothing. -/
inductive Reply where
  | report (report : Report)
  | abandoned (message : String)
deriving DecidableEq

/-- A whole call, if its run ends within the given number of steps. -/
def call (fuel : Nat) (host : Host) (console : Console)
    (arguments : List String) : Option Reply :=
  match Request.ofArguments host.find arguments with
  | .error .nullInPath => some (.abandoned nullInPathMessage)
  | .error (.usage e) =>
      some (.report { exitCode := Exit.refused, stderr := e.report })
  | .ok .help =>
      some (.report { exitCode := Exit.halted, stdout := helpText })
  | .ok (.run settings) =>
      (runSettings fuel host console settings).map .report

end IntcodeMachine.Command
