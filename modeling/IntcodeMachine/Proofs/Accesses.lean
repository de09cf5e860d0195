import IntcodeMachine.Proofs.Turns

/-!
The cells that a run reads and stores into, in the order in which it does. A
step reads the word at the pointer and the words of its parameters, up to the
first that is lacking or has no mode. Once its line is written, it reads the
cells of its operands, in the order of its operation and up to the first that
is missing; the target of a jump is read only if the jump is taken. Last it
stores, if it comes to that. Only cells are accessed: an address without a cell
is never read.
-/

namespace IntcodeMachine

inductive Access where
  | read (address : Int)
  | store (address : Int)
deriving DecidableEq

namespace Memory

/-- The cells from which parameters are read. The word of a parameter is read
before its digit is looked at. -/
def parameterCells (memory : Memory) : Nat → Int → Int → List Int
  | 0, _, _ => []
  | count + 1, address, modes =>
      match memory.get? address with
      | none => []
      | some _ =>
          address ::
            match Mode.ofDigit? (modes % modeBase) with
            | none => []
            | some _ =>
                memory.parameterCells count (address + 1) (modes / modeBase)

/-- The cells from which an instruction is decoded. -/
def instructionCells (memory : Memory) (address : Int) : List Int :=
  match memory.get? address with
  | none => []
  | some word =>
      address ::
        match Opcode.ofCode? (opcodeOf word) with
        | none => []
        | some op =>
            memory.parameterCells op.arity (address + 1) (modesOf word)

end Memory

/-- The cell from which the value of a parameter is read. The value of an
immediate parameter is read from none. -/
def Parameter.cell? (memory : Memory) (base : Int) (p : Parameter) :
    Option Int :=
  (p.named? base).filter (memory.InBounds ·)

namespace Effect

variable (memory : Memory) (base : Int) (params : List Parameter)

def operandCells (index : Nat) : List Int :=
  (params[index]? >>= Parameter.cell? memory base).toList

/-- An operation that combines its operands names its destination first, and
reads the second operand after the first. -/
def combineCells : List Int :=
  match addressAt base params 2 with
  | .error _ => []
  | .ok _ =>
      operandCells memory base params 0 ++
        match operandAt memory base params 0 with
        | .error _ => []
        | .ok _ => operandCells memory base params 1

/-- A jump reads its target only if it is taken. -/
def jumpCells (test : Int → Bool) : List Int :=
  operandCells memory base params 0 ++
    match operandAt memory base params 0 with
    | .error _ => []
    | .ok v => if test v then operandCells memory base params 1 else []

end Effect

/-- The cells that an operation reads. -/
def Opcode.cells (op : Opcode) (params : List Parameter) (memory : Memory)
    (base : Int) : List Int :=
  match op with
  | .add | .multiply | .lessThan | .equals =>
      Effect.combineCells memory base params
  | .input | .halt => []
  | .output | .adjustBase => Effect.operandCells memory base params 0
  | .jumpIfTrue => Effect.jumpCells memory base params (· ≠ 0)
  | .jumpIfFalse => Effect.jumpCells memory base params (· = 0)

namespace Machine

variable (m : Machine)

/-- The cell that an effect stores into. An input stores only what its device
gives. -/
def target? : Effect → Option Int
  | .store address _ => some address
  | .accept address => m.input.read.1.toOption.map fun _ => address
  | .send _ | .jump _ | .proceed | .rebase _ | .halt => none

/-- What an operation does to the cells. -/
def executionAccesses (op : Opcode) (params : List Parameter) : List Access :=
  (op.cells params m.memory m.base).map .read ++
    match op.effect params m.memory m.base with
    | .error _ => []
    | .ok effect => (m.target? effect).toList.map .store

/-- What the next step does to the cells. An instruction whose line cannot be
written is not executed. -/
def stepAccesses : List Access :=
  (m.memory.instructionCells m.ip).map .read ++
    match decode {} m with
    | .error .. => []
    | .ok i _ =>
        if ∀ n ∈ (m.line i).numbers, Numeral.Fits Numeral.digitLimit n then
          m.executionAccesses i.opcode i.params
        else []

/-- What a run does to the cells, as far as the given number of steps goes. -/
def accesses : Nat → Machine → List Access
  | 0, _ => []
  | fuel + 1, m =>
      if m.Active then
        m.stepAccesses ++
          match step {} m with
          | .ok () next => accesses fuel next
          | .error .. => []
      else []

end Machine

end IntcodeMachine
