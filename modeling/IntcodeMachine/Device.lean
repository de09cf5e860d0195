import IntcodeMachine.Fault
import IntcodeMachine.Text.Layout

/-!
The devices of a machine. A program's input comes from a script of numbers and
lines, or from a stream of lines with an optional prompt before each of them;
a line holds one numeral between blanks. What happens when the text of a stream
is used up belongs to the stream: it is closed, it fails for a reason of the
system, it goes on with bytes that are no text, or the user interrupts it. A
program's numbers are collected, or each is written on a line of its own.
-/

namespace IntcodeMachine

inductive StreamEnd where
  | closed
  | failing (reason : String)
  | undecodable (cause : Text.DecodeError)
  | interrupted
deriving DecidableEq

def StreamEnd.stop : StreamEnd → Stop
  | .closed => .fault .inputClosed
  | .failing reason => .fault (.inputFailed reason)
  | .undecodable cause => .undecodable cause
  | .interrupted => .interrupted

/-- The text that reads still give, line by line, and what a read meets after
it. A line within which the stream breaks off is not part of that text. -/
structure TextStream where
  rest : List Char
  ending : StreamEnd := .closed
deriving DecidableEq

/-- The next line with its line feed. A last line without one still counts. -/
def TextStream.readLine (s : TextStream) : Except Stop (List Char) × TextStream :=
  match s.rest with
  | [] => (.error s.ending.stop, s)
  | text =>
      let (line, rest) := Text.splitLine text
      (.ok line, { s with rest })

/-- The number on a line. -/
def Numeral.ofLine (line : List Char) : Except Fault Int :=
  match read? (Text.trim line) with
  | some n => .ok n
  | none => .error (.inputMalformed (String.ofList (Text.trim line)))

theorem Numeral.exists_malformed_of_ofLine {line : List Char} {f : Fault}
    (h : ofLine line = .error f) : ∃ text, f = .inputMalformed text := by
  unfold ofLine at h
  split at h
  · cases h
  · cases h
    exact ⟨_, rfl⟩

/-- One entry of a script. A line is read when its turn comes. -/
inductive Entry where
  | number (n : Int)
  | line (text : String)
deriving DecidableEq

def Entry.value : Entry → Except Fault Int
  | .number n => .ok n
  | .line text => Numeral.ofLine text.toList

inductive Input where
  | unattached
  | script (queue : List Entry)
  | console (stream : TextStream) (prompt : Option String)
deriving DecidableEq

namespace Input

/-- What is shown before each read. -/
def promptText : Input → Option String
  | .console _ prompt => prompt
  | .unattached | .script _ => none

/-- The entries that are left. -/
def entries : Input → List Entry
  | .script queue => queue
  | .unattached | .console .. => []

/-- Adds an entry to the end of a script. -/
def push (entry : Entry) : Input → Input
  | .script queue => .script (queue ++ [entry])
  | input => input

/-- Reads one number. An entry or a line that holds none is used up. -/
def read : Input → Except Stop Int × Input
  | .unattached => (.error .unattached, .unattached)
  | .script [] => (.error (.fault .inputExhausted), .script [])
  | .script (entry :: queue) =>
      (entry.value.mapError .fault, .script queue)
  | .console stream prompt =>
      let (line, stream) := stream.readLine
      (line >>= fun text => (Numeral.ofLine text).mapError .fault,
        .console stream prompt)

end Input

inductive Output where
  | unattached
  | collected (values : Array Int)
  | console (text : String)
deriving DecidableEq

namespace Output

/-- Takes one number. A number that cannot be written leaves the text as it
is. -/
def write (r : Reporting) (value : Int) : Output → Except Stop Output
  | .unattached => .error .unattached
  | .collected values => .ok (.collected (values.push value))
  | .console text =>
      if r.Writes value then
        .ok (.console (text ++ Numeral.write value ++ "\n"))
      else .error .tooManyDigits

/-- The numbers collected so far. -/
def values : Output → Array Int
  | .collected values => values
  | .unattached | .console _ => #[]

/-- The text written so far. -/
def text : Output → String
  | .console text => text
  | .unattached | .collected _ => ""

end Output

end IntcodeMachine
