import IntcodeMachine.Machine.Basic

/-!
Decoding: the word at the instruction pointer names an operation and the modes
of its parameters, and the words after it are the parameters. The pointer moves
past the first word as soon as it is read, and past the parameters only when
all of them are good.
-/

namespace IntcodeMachine

/-- The parameters at an address, one for each of the lowest mode digits. A
parameter's word is read before its digit is looked at. -/
def Memory.parameters (memory : Memory) :
    Nat → Int → Int → Except Fault (List Parameter)
  | 0, _, _ => .ok []
  | count + 1, address, modes => do
      let word ← memory.read address
      match Mode.ofDigit? (modes % modeBase) with
      | none => .error (.invalidMode (modes % modeBase))
      | some mode =>
          let rest ← memory.parameters count (address + 1) (modes / modeBase)
          return mode.tag word :: rest

namespace Machine

variable (r : Reporting)

/-- Reads parameters at the instruction pointer and moves it past them. A
negative count reads none and moves the pointer back. -/
def takeParameters (modes count : Int) : Action (List Parameter) := do
  let m ← get
  let params ← attempt r (m.memory.parameters count.toNat m.ip modes)
  modify fun m => { m with ip := m.ip + count }
  return params

/-- Decodes the instruction at the instruction pointer. -/
def decode : Action Instruction := do
  let position := (← get).ip
  let word ← attempt r ((← get).memory.read position)
  modify fun m => { m with ip := m.ip + 1 }
  match Opcode.ofCode? (opcodeOf word) with
  | none => fail r (.invalidOpcode (opcodeOf word) position)
  | some opcode =>
      let modes := modesOf word
      let params ← takeParameters r modes opcode.arity
      return { opcode, params, position, modes }

variable (m : Machine)

theorem takeParameters_apply (modes count : Int) :
    takeParameters r modes count m =
      match m.memory.parameters count.toNat m.ip modes with
      | .ok params => .ok params { m with ip := m.ip + count }
      | .error f => .error (r.stopOf f) m := by
  simp only [takeParameters, Action.bind_apply, Action.get_apply]
  cases m.memory.parameters count.toNat m.ip modes <;> rfl

/-- Decoding in closed form: a word that cannot be read leaves the pointer,
any other failure leaves it behind the first word. -/
theorem decode_apply :
    decode r m =
      match m.memory.read m.ip with
      | .error f => .error (r.stopOf f) m
      | .ok word =>
          match Opcode.ofCode? (opcodeOf word) with
          | none =>
              .error (r.stopOf (.invalidOpcode (opcodeOf word) m.ip))
                { m with ip := m.ip + 1 }
          | some op =>
              match m.memory.parameters op.arity (m.ip + 1) (modesOf word) with
              | .error f => .error (r.stopOf f) { m with ip := m.ip + 1 }
              | .ok params =>
                  .ok ⟨op, params, m.ip, modesOf word⟩
                    { m with ip := m.ip + 1 + op.arity } := by
  simp only [decode, Action.bind_apply, Action.get_apply]
  cases m.memory.read m.ip with
  | error f => rfl
  | ok word =>
      simp only [attempt_ok, Action.modify_apply]
      cases Opcode.ofCode? (opcodeOf word) with
      | none => rfl
      | some op =>
          simp only [Action.bind_apply, takeParameters_apply,
            Int.toNat_natCast]
          cases m.memory.parameters op.arity (m.ip + 1) (modesOf word) <;> rfl

end Machine

end IntcodeMachine
