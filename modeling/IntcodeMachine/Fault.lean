import IntcodeMachine.Instruction
import IntcodeMachine.Text.Utf8

/-!
Why an action of the machine gives no result. Faults are the ways in which a
program can go wrong, and only they are its own; the other reasons are the end
it asked for, a numeral that cannot be written, a number that a table has no
entry for, an input that is no text, the user, and a device that is not there.
A reason keeps its cause; the wording is in one place.

How far numbers can be reported is a matter of the one who reports. A fault
whose message holds a numeral that cannot be written is not reported as that
fault: the numeral itself stops the action. Without a limit every fault is
reported as it is, and without a trace no event has to be written.
-/

namespace IntcodeMachine

inductive Fault where
  | invalidOpcode (code position : Int)
  | invalidMode (digit : Int)
  | immediateDestination (param : Parameter)
  | outOfBounds (address : Int)
  | missingParameter (index : Nat)
  | inputClosed
  | inputFailed (reason : String)
  | inputExhausted
  | inputMalformed (text : String)
deriving DecidableEq

namespace Fault

def message : Fault → String
  | .invalidOpcode code position =>
      "Invalid opcode: " ++ Numeral.write code ++ " at position " ++
        Numeral.write position
  | .invalidMode digit => "Invalid parameter mode: " ++ Numeral.write digit
  | .immediateDestination param =>
      "Destination parameter should never be immediate: " ++ param.text
  | .outOfBounds address =>
      "Memory index out of range: " ++ Numeral.write address
  | .missingParameter _ => "list index out of range"
  | .inputClosed => "Input stream closed"
  | .inputFailed reason => "Input stream failed: " ++ reason
  | .inputExhausted => "Scripted input exhausted"
  | .inputMalformed text =>
      "Cannot parse input as an integer: " ++ Text.quoted text

/-- The numbers whose numerals stand in the message. -/
def numbers : Fault → List Int
  | .invalidOpcode code position => [code, position]
  | .invalidMode digit => [digit]
  | .immediateDestination param => [param.value]
  | .outOfBounds address => [address]
  | .missingParameter _ | .inputClosed | .inputFailed _ | .inputExhausted
  | .inputMalformed _ => []

end Fault

inductive Stop where
  | halt
  | fault (cause : Fault)
  | tooManyDigits
  | noEntry (number : Int)
  | undecodable (cause : Text.DecodeError)
  | interrupted
  | unattached
deriving DecidableEq

def Stop.message : Stop → String
  | .fault cause => cause.message
  | .tooManyDigits => Numeral.limitExceeded ++ Numeral.limitAdvice
  | .noEntry number => Numeral.write number
  | .undecodable cause => cause.message
  | .halt | .interrupted | .unattached => ""

/-- How an action reports: the longest numeral it can write, if there is a
limit, and whether it keeps a trace. -/
structure Reporting where
  longest : Option Nat := some Numeral.digitLimit
  traced : Bool := true
deriving DecidableEq

namespace Reporting

/-- The number can be written. -/
def Writes (r : Reporting) (n : Int) : Prop :=
  ∀ limit ∈ r.longest, Numeral.Fits limit n

instance (r : Reporting) (n : Int) : Decidable (r.Writes n) :=
  inferInstanceAs (Decidable (∀ limit ∈ r.longest, Numeral.Fits limit n))

/-- What a fault turns into when it is reported. -/
def stopOf (r : Reporting) (f : Fault) : Stop :=
  if ∀ n ∈ f.numbers, r.Writes n then .fault f else .tooManyDigits

/-- Without a limit every number can be written. -/
theorem writes_of_unlimited {r : Reporting} (h : r.longest = none) (n : Int) :
    r.Writes n := by
  intro limit hlimit
  rw [h] at hlimit
  cases hlimit

/-- A fault is reported as itself exactly when its numbers can be written. -/
theorem stopOf_eq_fault_iff {r : Reporting} {f g : Fault} :
    r.stopOf f = .fault g ↔ f = g ∧ ∀ n ∈ f.numbers, r.Writes n := by
  unfold stopOf
  split
  · next h =>
      constructor
      · intro heq
        cases heq
        exact ⟨rfl, h⟩
      · rintro ⟨rfl, _⟩
        rfl
  · next h =>
      constructor
      · intro heq
        cases heq
      · intro heq
        exact absurd heq.2 h

end Reporting

end IntcodeMachine
