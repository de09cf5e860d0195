import IntcodeMachine.Proofs.Decoding
import IntcodeMachine.Machine.Run

/-!
The meaning of one step as a table of rules, apart from the functions that
execute it. A rule says under which conditions a machine with scripted devices
has an outcome, and what that outcome is: the machine that is left, the events
that were reported, and the fault if there is one. Numbers have no limit here;
a rule names the fault and the events whatever their length.

The order in which an operation looks at its parameters shows in the premises:
a rule for a fault holds only if all that comes before it went well.
-/

namespace IntcodeMachine

namespace Parameter

/-- The address that a parameter names. An immediate parameter names none. -/
inductive Names (base : Int) : Parameter → Int → Prop where
  | position (v : Int) : Names base (.position v) v
  | relative (v : Int) : Names base (.relative v) (base + v)

/-- The value that a parameter stands for: its own word, or the word in the
cell that it names. -/
inductive StandsFor (memory : Memory) (base : Int) :
    Parameter → Int → Prop where
  | word (v : Int) : StandsFor memory base (.immediate v) v
  | cell {p : Parameter} {address v : Int} : p.Names base address →
      memory.get? address = some v → StandsFor memory base p v

/-- The parameter names an address without a cell. -/
def Misses (memory : Memory) (base : Int) (p : Parameter) (address : Int) :
    Prop :=
  p.Names base address ∧ ¬ memory.InBounds address

end Parameter

namespace Opcode

/-- The operations that store a result of two operands. -/
inductive Combines : Opcode → (Int → Int → Int) → Prop where
  | add : Combines .add fun a b => a + b
  | multiply : Combines .multiply fun a b => a * b
  | lessThan : Combines .lessThan fun a b => if a < b then 1 else 0
  | equals : Combines .equals fun a b => if a = b then 1 else 0

/-- The operations that jump if an operand passes a test. -/
inductive Tests : Opcode → (Int → Prop) → Prop where
  | jumpIfTrue : Tests .jumpIfTrue (· ≠ 0)
  | jumpIfFalse : Tests .jumpIfFalse (· = 0)

end Opcode

/-- Why an operation cannot be carried out. Nothing has changed then, and no
device was asked. -/
inductive Refuses (memory : Memory) (base : Int) :
    Opcode → List Parameter → Fault → Prop where
  | resultImmediate {op : Opcode} {f : Int → Int → Int} {p q : Parameter}
      {v : Int} : op.Combines f →
      Refuses memory base op [p, q, .immediate v]
        (.immediateDestination (.immediate v))
  | firstOperand {op : Opcode} {f : Int → Int → Int}
      {p q target : Parameter} {d address : Int} : op.Combines f →
      target.Names base d → p.Misses memory base address →
      Refuses memory base op [p, q, target] (.outOfBounds address)
  | secondOperand {op : Opcode} {f : Int → Int → Int}
      {p q target : Parameter} {d a address : Int} : op.Combines f →
      target.Names base d → p.StandsFor memory base a →
      q.Misses memory base address →
      Refuses memory base op [p, q, target] (.outOfBounds address)
  | resultCell {op : Opcode} {f : Int → Int → Int} {p q target : Parameter}
      {d a b : Int} : op.Combines f → p.StandsFor memory base a →
      q.StandsFor memory base b → target.Misses memory base d →
      Refuses memory base op [p, q, target] (.outOfBounds d)
  | inputImmediate {v : Int} :
      Refuses memory base .input [.immediate v]
        (.immediateDestination (.immediate v))
  | inputCell {target : Parameter} {d : Int} :
      target.Misses memory base d →
      Refuses memory base .input [target] (.outOfBounds d)
  | outputOperand {p : Parameter} {address : Int} :
      p.Misses memory base address →
      Refuses memory base .output [p] (.outOfBounds address)
  | testedOperand {op : Opcode} {test : Int → Prop} {p q : Parameter}
      {address : Int} : op.Tests test → p.Misses memory base address →
      Refuses memory base op [p, q] (.outOfBounds address)
  | jumpTarget {op : Opcode} {test : Int → Prop} {p q : Parameter}
      {a address : Int} : op.Tests test → p.StandsFor memory base a →
      test a → q.Misses memory base address →
      Refuses memory base op [p, q] (.outOfBounds address)
  | baseOperand {p : Parameter} {address : Int} :
      p.Misses memory base address →
      Refuses memory base .adjustBase [p] (.outOfBounds address)

namespace Machine

instance : DecidableEq Outcome
  | .ok _ m, .ok _ next => decidable_of_iff (m = next) (by simp)
  | .error stop m, .error other next =>
      decidable_of_iff (stop = other ∧ m = next) (by simp)
  | .ok _ _, .error _ _ => .isFalse (by simp)
  | .error _ _, .ok _ _ => .isFalse (by simp)

/-- The machine with one more event in its journal. -/
def noted (m : Machine) (event : Event) : Machine :=
  { m with journal := m.journal.push event }

/-- The machine that has moved past an instruction and counted it. -/
def counted (m : Machine) (i : Instruction) : Machine :=
  { m with ip := m.ip + 1 + i.opcode.arity, steps := m.steps + 1 }

/-- The event of an instruction that comes next. -/
def line (m : Machine) (i : Instruction) : Event :=
  .executing (m.steps + 1) i

/-- The machine that is about to execute an instruction: it has counted it and
noted its line. -/
def listed (m : Machine) (i : Instruction) : Machine :=
  (m.counted i).noted (m.line i)

/-- The devices are a script and a collection. -/
def Scripted (m : Machine) : Prop :=
  (∃ queue, m.input = .script queue) ∧ ∃ values, m.output = .collected values

/-- The outcomes of an operation on its parameters. -/
inductive Execution (m : Machine) :
    Opcode → List Parameter → Outcome → Prop where
  | refused {op : Opcode} {params : List Parameter} {f : Fault} :
      Refuses m.memory m.base op params f →
      Execution m op params (.error (.fault f) m)
  | stored {op : Opcode} {f : Int → Int → Int} {p q target : Parameter}
      {d a b : Int} : op.Combines f → target.Names m.base d →
      p.StandsFor m.memory m.base a → q.StandsFor m.memory m.base b →
      m.memory.InBounds d →
      Execution m op [p, q, target]
        (.ok () { m with memory := m.memory.set d (f a b) })
  | accepted {target : Parameter} {d v : Int} {entry : Entry}
      {queue : List Entry} : target.Names m.base d → m.memory.InBounds d →
      m.input = .script (entry :: queue) → entry.value = .ok v →
      Execution m .input [target]
        (.ok () (noted { m with
          memory := m.memory.set d v, input := .script queue }
          (.stored d v)))
  | malformed {target : Parameter} {d : Int} {line : String}
      {queue : List Entry} : target.Names m.base d → m.memory.InBounds d →
      m.input = .script (.line line :: queue) →
      Numeral.read? (Text.trim line.toList) = none →
      Execution m .input [target]
        (.error
          (.fault (.inputMalformed (String.ofList (Text.trim line.toList))))
          { m with input := .script queue })
  | exhausted {target : Parameter} {d : Int} : target.Names m.base d →
      m.memory.InBounds d → m.input = .script [] →
      Execution m .input [target] (.error (.fault .inputExhausted) m)
  | sent {p : Parameter} {v : Int} {values : Array Int} :
      p.StandsFor m.memory m.base v → m.output = .collected values →
      Execution m .output [p]
        (.ok () { m with output := .collected (values.push v) })
  | jumped {op : Opcode} {test : Int → Prop} {p q : Parameter}
      {a target : Int} : op.Tests test → p.StandsFor m.memory m.base a →
      test a → q.StandsFor m.memory m.base target →
      Execution m op [p, q] (.ok () { m with ip := target })
  | passed {op : Opcode} {test : Int → Prop} {p q : Parameter} {a : Int} :
      op.Tests test → p.StandsFor m.memory m.base a → ¬ test a →
      Execution m op [p, q] (.ok () m)
  | rebased {p : Parameter} {v : Int} : p.StandsFor m.memory m.base v →
      Execution m .adjustBase [p]
        (.ok () (noted { m with base := m.base + v } (.rebased (m.base + v))))
  | halted : Execution m .halt [] (.error .halt m)

/-- The outcomes of a step. An instruction is counted and reported before it is
executed, with its parameters as the memory held them before. -/
inductive Transition (m : Machine) : Outcome → Prop where
  | undecodable {f : Fault} {next : Machine} : m.Undecodable f next →
      Transition m (.error (.fault f) next)
  | executed {i : Instruction} {outcome : Outcome} : Encodes m.memory i →
      i.position = m.ip →
      Execution (m.listed i) i.opcode i.params outcome →
      Transition m outcome

/-- The numbers in the events that a later machine has noted. -/
def numbersSince (m next : Machine) : List Int :=
  (next.journal.toList.drop m.journal.size).flatMap Event.numbers

/-- The numbers whose numerals stand in the texts of an outcome: in the events
since the given machine, and in the fault. -/
def reported (m : Machine) : Outcome → List Int
  | .error (.fault f) next => m.numbersSince next ++ f.numbers
  | .ok _ next | .error _ next => m.numbersSince next

end Machine

end IntcodeMachine
