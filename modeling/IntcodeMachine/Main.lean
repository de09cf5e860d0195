import IntcodeMachine.Command.Session

/-!
The command itself. It looks up the file, then runs the machine one step at a
time, so that prompts, numbers and log lines appear when they arise and a line
is asked for only when the program needs one.
-/

namespace IntcodeMachine.Command

/-- What the file system has at a path. -/
def lookUp (path : String) : IO Lookup := do
  try
    return .file (← IO.FS.readBinFile path).data.toList
  catch
    | .inappropriateType _ 21 _ => return .directory
    | .invalidArgument _ 36 _ => return .tooLong
    | .inappropriateType _ _ _ => return .notDirectory
    | _ => return .missing

/-- The zeros that the command takes up in a memory at most. -/
def room : Nat := 0x40000000

/-- The next step of the machine reads a line that is not there yet. -/
def awaitsLine (m : Machine) : Bool :=
  match m.input, Machine.decode {} m with
  | .console { rest := [], .. } _, .ok i next =>
      match i.opcode.effect i.params next.memory next.base with
      | .ok (.accept _) => true
      | _ => false
  | _, _ => false

/-- The bytes of a line with its line feed, as far as there are any. -/
partial def readLineBytes (read : List UInt8) : IO (List UInt8) := do
  match (← (← IO.getStdin).read 1).data.toList with
  | [byte] =>
      if byte = '\n'.toNat.toUInt8 then return (byte :: read).reverse
      else readLineBytes (byte :: read)
  | _ => return read.reverse

/-- Asks for a line and gives it to the machine. No line closes the stream. -/
def supplyLine (terminal : Bool) (m : Machine) : IO Machine := do
  if terminal then
    IO.eprint "$ "
    (← IO.getStderr).flush
  let stream : TextStream ←
    try
      match Text.decodeUtf8 (← readLineBytes []) with
      | .ok line => pure { rest := Text.unifyLineEnds line }
      | .error e => pure { rest := [], ending := .undecodable e }
    catch e => pure { rest := [], ending := .failing (toString e) }
  return { m with input := .console stream none }

/-- Writes what the machine has reported and put out, and forgets it. -/
def flush (settings : Settings) (m : Machine) : IO Machine := do
  for event in m.journal do
    IO.eprint (settings.eventText event)
  IO.print m.output.text
  (← IO.getStdout).flush
  return { m with journal := #[], output := .console "" }

/-- Closes a run and gives its exit code. -/
def conclude (settings : Settings) (outcome : Machine.Outcome) : IO UInt32 := do
  let outcome := Machine.finish {} outcome
  let _ ← flush settings (Machine.ofOutcome outcome)
  let ending := Ending.ofOutcome outcome
  IO.eprint (settings.logLine ending.record)
  return ending.exitCode.toUInt32

partial def drive (settings : Settings) (terminal : Bool) (m : Machine) :
    IO UInt32 := do
  if m.Active then
    let m ← if awaitsLine m then supplyLine terminal m else pure m
    match Machine.step {} m with
    | .ok () next => drive settings terminal (← flush settings next)
    | stopped => conclude settings stopped
  else conclude settings (.ok () m)

/-- Loads and runs the file of a call. -/
def runFile (settings : Settings) (found : Lookup) : IO UInt32 := do
  let (records, loaded) :=
    Program.load (fun _ => found) (.ofString settings.file)
  IO.eprint (settings.logText (banner :: records))
  let failed (message : String) : IO UInt32 := do
    let report := Report.ofFailure settings "" message
    IO.eprint report.stderr
    return report.exitCode.toUInt32
  match loaded with
  | .error e => failed e.message
  | .ok program =>
      match settings.machine room { stdin := { rest := [] } } program with
      | .error e => failed e.message
      | .ok m => drive settings (← (← IO.getStdin).isTty) m

/-- A call of the command. -/
def run (arguments : List String) : IO UInt32 := do
  let found ←
    match Given.ofArguments arguments with
    | .ok { operands := path :: _, .. } => lookUp path
    | _ => pure .missing
  match Request.ofArguments (fun _ => found) arguments with
  | .error .nullInPath =>
      IO.eprintln nullInPathMessage
      return Exit.faulted.toUInt32
  | .error (.usage e) =>
      IO.eprint e.report
      return Exit.refused.toUInt32
  | .ok .help =>
      IO.print helpText
      return Exit.halted.toUInt32
  | .ok (.run settings) => runFile settings found

end IntcodeMachine.Command

def main (arguments : List String) : IO UInt32 :=
  IntcodeMachine.Command.run arguments
