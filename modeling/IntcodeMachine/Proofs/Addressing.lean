import IntcodeMachine.Machine.Effect

/-!
Relative addressing is a way of writing addresses and nothing else. A relative
parameter names the address that a position names when the relative base is
added to it. So an operation does the same, faults included, if each of its
relative parameters gives way to that position, and the base plays no part in
it any more. The base is the one before the operation: an operation that moves
the base has read its operand by then.
-/

namespace IntcodeMachine

namespace Parameter

/-- The parameter with the relative base worked in: a relative word gives way
to the position that it names. -/
def absolute (base : Int) : Parameter → Parameter
  | .relative v => .position (base + v)
  | p => p

variable (memory : Memory) (base other : Int) (p : Parameter)

/-- A parameter that names no address keeps its fault, which holds the
parameter: it is not relative, and so it is left as it is. -/
theorem address_absolute :
    (p.absolute base).address other = p.address base := by
  cases p <;> rfl

theorem operand_absolute :
    (p.absolute base).operand memory other = p.operand memory base := by
  cases p <;> rfl

end Parameter

namespace Effect

variable (memory : Memory) (base other : Int) (params : List Parameter)

theorem parameter_map (change : Parameter → Parameter) (index : Nat) :
    parameter (params.map change) index =
      change <$> parameter params index := by
  unfold parameter
  rw [List.getElem?_map]
  cases params[index]? <;> rfl

theorem addressAt_absolute (index : Nat) :
    addressAt other (params.map (Parameter.absolute base)) index =
      addressAt base params index := by
  unfold addressAt
  rw [parameter_map]
  cases parameter params index with
  | error f => rfl
  | ok p => exact p.address_absolute base other

theorem operandAt_absolute (index : Nat) :
    operandAt memory other (params.map (Parameter.absolute base)) index =
      operandAt memory base params index := by
  unfold operandAt
  rw [parameter_map]
  cases parameter params index with
  | error f => rfl
  | ok p => exact p.operand_absolute memory base other

theorem combine_absolute (f : Int → Int → Int) :
    combine memory other (params.map (Parameter.absolute base)) f =
      combine memory base params f := by
  simp only [combine, addressAt_absolute, operandAt_absolute]

theorem jumpWhen_absolute (test : Int → Bool) :
    jumpWhen memory other (params.map (Parameter.absolute base)) test =
      jumpWhen memory base params test := by
  simp only [jumpWhen, operandAt_absolute]

theorem acceptAt_absolute :
    acceptAt memory other (params.map (Parameter.absolute base)) =
      acceptAt memory base params := by
  simp only [acceptAt, addressAt_absolute]

end Effect

/-- The effect of an operation depends on the addresses that its parameters
name, not on how they name them. -/
theorem Opcode.effect_absolute (op : Opcode) (params : List Parameter)
    (memory : Memory) (base other : Int) :
    op.effect (params.map (Parameter.absolute base)) memory other =
      op.effect params memory base := by
  cases op with
  | add | multiply | lessThan | equals =>
      exact Effect.combine_absolute memory base other params _
  | jumpIfTrue | jumpIfFalse =>
      exact Effect.jumpWhen_absolute memory base other params _
  | input => exact Effect.acceptAt_absolute memory base other params
  | output =>
      exact congrArg (Effect.send <$> ·)
        (Effect.operandAt_absolute memory base other params 0)
  | adjustBase =>
      exact congrArg (Effect.rebase <$> ·)
        (Effect.operandAt_absolute memory base other params 0)
  | halt => rfl

/-- An operation on relative parameters does what it does on the positions that
they stand for. It gives the same result or stops for the same reason, and it
leaves the same machine: memory, registers, devices and journal. What it does
on the positions no longer depends on the base. -/
theorem Machine.execute_absolute (r : Reporting) (op : Opcode)
    (params : List Parameter) (m : Machine) :
    execute r op (params.map (Parameter.absolute m.base)) m =
        execute r op params m ∧
      ∀ other, op.effect (params.map (Parameter.absolute m.base)) m.memory
        other = op.effect params m.memory m.base := by
  have heffect := op.effect_absolute params m.memory m.base
  refine ⟨?_, heffect⟩
  rw [execute_apply, execute_apply, heffect]

end IntcodeMachine
