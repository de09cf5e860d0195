import IntcodeMachine.Machine.Basic

/-!
What an operation does to a machine. First its effect is computed from the
memory and the relative base; all faults but those of the devices arise here,
before anything has changed. Then the effect is applied.
-/

namespace IntcodeMachine

namespace Parameter

/-- The address that a parameter names. -/
def address (base : Int) : Parameter → Except Fault Int
  | .position v => .ok v
  | .relative v => .ok (base + v)
  | p => .error (.immediateDestination p)

/-- The value that a parameter stands for. -/
def operand (memory : Memory) (base : Int) : Parameter → Except Fault Int
  | .immediate v => .ok v
  | p => p.address base >>= memory.read

end Parameter

inductive Effect where
  | store (address value : Int)
  | accept (address : Int)
  | send (value : Int)
  | jump (target : Int)
  | proceed
  | rebase (offset : Int)
  | halt
deriving DecidableEq

namespace Effect

variable (memory : Memory) (base : Int) (params : List Parameter)

def parameter (index : Nat) : Except Fault Parameter :=
  match params[index]? with
  | some p => .ok p
  | none => .error (.missingParameter index)

def addressAt (index : Nat) : Except Fault Int :=
  parameter params index >>= Parameter.address base

def operandAt (index : Nat) : Except Fault Int :=
  parameter params index >>= Parameter.operand memory base

/-- Combines the first two operands and stores the result at the third
parameter. The destination is resolved before any operand is read, and its
bounds are checked last. -/
def combine (f : Int → Int → Int) : Except Fault Effect := do
  let destination ← addressAt base params 2
  let a ← operandAt memory base params 0
  let b ← operandAt memory base params 1
  memory.check destination
  return .store destination (f a b)

/-- Jumps to the second operand if the first passes the test. The target of a
jump that is not taken is not read. -/
def jumpWhen (test : Int → Bool) : Except Fault Effect := do
  if test (← operandAt memory base params 0) then
    return .jump (← operandAt memory base params 1)
  else return .proceed

def acceptAt : Except Fault Effect := do
  let destination ← addressAt base params 0
  memory.check destination
  return .accept destination

end Effect

/-- The number of a truth value. -/
def truth (p : Bool) : Int :=
  if p then 1 else 0

/-- The effect of an operation on its parameters. -/
def Opcode.effect (op : Opcode) (params : List Parameter) (memory : Memory)
    (base : Int) : Except Fault Effect :=
  match op with
  | .add => Effect.combine memory base params (· + ·)
  | .multiply => Effect.combine memory base params (· * ·)
  | .lessThan => Effect.combine memory base params fun a b => truth (a < b)
  | .equals => Effect.combine memory base params fun a b => truth (a = b)
  | .input => Effect.acceptAt memory base params
  | .output => .send <$> Effect.operandAt memory base params 0
  | .jumpIfTrue => Effect.jumpWhen memory base params (· ≠ 0)
  | .jumpIfFalse => Effect.jumpWhen memory base params (· = 0)
  | .adjustBase => .rebase <$> Effect.operandAt memory base params 0
  | .halt => .ok .halt

/-- What becomes of parameters, given a memory and a relative base. -/
abbrev Handler := List Parameter → Memory → Int → Except Fault Effect

namespace Opcode

/-- What an operation does, by its number. -/
def handlers : List (Int × Handler) :=
  [(code .add, effect .add), (code .multiply, effect .multiply),
   (code .input, effect .input), (code .output, effect .output),
   (code .jumpIfTrue, effect .jumpIfTrue),
   (code .jumpIfFalse, effect .jumpIfFalse),
   (code .lessThan, effect .lessThan), (code .equals, effect .equals),
   (code .adjustBase, effect .adjustBase), (code .halt, effect .halt)]

theorem lookup_handlers (op : Opcode) :
    handlers.lookup op.code = some op.effect := by
  cases op <;> rfl

/-- The tables have the same keys: a number that stands for an operation has an
entry in each of them, and any other number in none. -/
theorem keys_agree (n : Int) :
    match ofCode? n with
    | some op =>
        arities.lookup n = some op.arity ∧
          mnemonics.lookup n = some op.mnemonic ∧
          handlers.lookup n = some op.effect
    | none =>
        arities.lookup n = none ∧ mnemonics.lookup n = none ∧
          handlers.lookup n = none := by
  cases hcode : ofCode? n with
  | some op =>
      rw [ofCode?_eq_some_iff.mp hcode]
      exact ⟨op.lookup_arities, op.lookup_mnemonics, op.lookup_handlers⟩
  | none =>
      have hother (op : Opcode) : n ≠ op.code := by
        intro heq
        rw [heq, ofCode?_code] at hcode
        cases hcode
      simp [List.lookup_eq_none_iff, arities, mnemonics, handlers, hother]

end Opcode

namespace Machine

variable (r : Reporting)

def apply : Effect → Action Unit
  | .store address value =>
      modify fun m => { m with memory := m.memory.set address value }
  | .accept address => do
      let value ← readInput
      modify fun m => { m with memory := m.memory.set address value }
      emit r (.stored address value)
  | .send value => writeOutput r value
  | .jump target => modify fun m => { m with ip := target }
  | .proceed => pure ()
  | .rebase offset => do
      modify fun m => { m with base := m.base + offset }
      emit r (.rebased (← get).base)
  | .halt => throw .halt

/-- Executes the operation of a number on the given parameters. -/
def perform (code : Int) (params : List Parameter) : Action Unit := do
  let handler ← entry Opcode.handlers code
  let m ← get
  let effect ← attempt r (handler params m.memory m.base)
  apply r effect

/-- Executes an operation on the given parameters. -/
def execute (op : Opcode) (params : List Parameter) : Action Unit :=
  perform r op.code params

/-- An operation without an effect changes nothing. -/
theorem execute_apply (op : Opcode) (params : List Parameter) (m : Machine) :
    execute r op params m =
      match op.effect params m.memory m.base with
      | .error f => .error (r.stopOf f) m
      | .ok effect => apply r effect m := by
  have hentry := entry_of_lookup m op.lookup_handlers
  simp only [execute, perform, Action.bind_apply, hentry, Action.get_apply]
  cases op.effect params m.memory m.base <;> rfl

end Machine

end IntcodeMachine
