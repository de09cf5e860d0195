import IntcodeMachine.Instruction

/-!
What a machine reports while it runs, in the order in which it happens: one
event for each instruction, for each input that was stored and each move of
the relative base, a closing event, and the prompts of a console. All but the
prompts are records of a log: a record has a level and a message, and a listener
hears the records from its own level on.
-/

namespace IntcodeMachine

inductive Status where
  | running
  | halted
  | faulted
deriving DecidableEq

def Status.text : Status → String
  | .running => "running"
  | .halted => "halted"
  | .faulted => "faulted"

inductive Event where
  | executing (number : Nat) (instruction : Instruction)
  | stored (address value : Int)
  | rebased (base : Int)
  | halted (steps : Nat)
  | ranOff (steps : Nat)
  | registers (ip base : Int) (status : Status) (steps : Nat)
  | prompted (text : String)
deriving DecidableEq

namespace Event

/-- The line of an instruction: its number, address, opcode and modes in
columns, then its parameters. -/
def instructionLine (number : Nat) (i : Instruction) : String :=
  Numeral.writeAligned 3 number ++ ": " ++
    Numeral.writePadded 4 i.position ++ "  " ++
    Numeral.writePadded 2 i.opcode.code ++ " " ++
    Numeral.writePadded 3 i.modes ++ " " ++ i.text

def text : Event → String
  | .executing number i => instructionLine number i
  | .stored address value =>
      "\t[" ++ Numeral.write address ++ "] = " ++ Numeral.write value
  | .rebased base => "\trbase = " ++ Numeral.write base
  | .halted steps => "Halted after " ++ Numeral.write steps ++ " steps"
  | .ranOff steps =>
      "Ran off the end of memory after " ++ Numeral.write steps ++ " steps"
  | .registers ip base status steps =>
      "IP:" ++ Numeral.write ip ++ " RB:" ++ Numeral.write base ++
        " STATE:" ++ status.text ++ " STEPS:" ++ Numeral.write steps
  | .prompted text => text

/-- The numbers whose numerals stand in the text. -/
def numbers : Event → List Int
  | .executing number i => number :: i.position :: i.modes :: i.numbers
  | .stored address value => [address, value]
  | .rebased base => [base]
  | .halted steps | .ranOff steps => [(steps : Int)]
  | .registers ip base _ steps => [ip, base, steps]
  | .prompted _ => []

/-- The operations whose names stand in the text, by their numbers. -/
def codes : Event → List Int
  | .executing _ i => [i.opcode.code]
  | _ => []

/-- What a console shows of an event that is a prompt. -/
def promptText? : Event → Option String
  | .prompted text => some text
  | _ => none

/-- The line that an event adds to a trace. A prompt is no line of it. -/
def traceLine? : Event → Option String
  | .prompted _ => none
  | event => some event.text

end Event

inductive Level where
  | debug
  | info
  | error
deriving DecidableEq

namespace Level

def name : Level → String
  | .debug => "DEBUG"
  | .info => "INFO"
  | .error => "ERROR"

def rank : Level → Nat
  | .debug => 0
  | .info => 1
  | .error => 2

end Level

structure Record where
  level : Level
  message : String
deriving DecidableEq

/-- The record of an event. A prompt is none. -/
def Event.record? (event : Event) : Option Record :=
  event.traceLine?.map (⟨.debug, ·⟩)

end IntcodeMachine
