import IntcodeMachine.Proofs.Outcomes
import IntcodeMachine.Proofs.Reach

/-!
The turns of a run: one for each instruction that it decodes, with the machine
that was about to execute it. What an operation takes from the script is read
off its parameters and that machine. Only an input whose destination is a cell
comes to ask the device, and it takes the entry at the head of the script. The
faults that an operation itself can raise are few, and those of a device are not
among them.
-/

namespace IntcodeMachine

namespace Parameter

variable {memory : Memory} {base v address : Int} {p : Parameter}

/-- The address that a parameter names, if it names one. -/
def named? (base : Int) : Parameter → Option Int
  | .position v => some v
  | .relative v => some (base + v)
  | .immediate _ | .untagged _ => none

/-- The value that a parameter stands for, if it stands for one. -/
def meant? (memory : Memory) (base : Int) : Parameter → Option Int
  | .immediate v => some v
  | p => p.named? base >>= memory.get?

theorem named?_eq_some_iff : p.named? base = some address ↔
    p.Names base address := by
  constructor
  · intro h
    cases p <;> cases h
    · exact .position _
    · exact .relative _
  · intro h
    cases h <;> rfl

theorem meant?_of_standsFor (h : p.StandsFor memory base v) :
    p.meant? memory base = some v := by
  cases h with
  | word => rfl
  | cell hnames hcell => cases hnames <;> exact hcell

theorem address_eq_ok_iff : p.address base = .ok address ↔
    p.named? base = some address := by
  cases p <;> simp [Parameter.address, named?]

end Parameter

namespace Effect

variable {memory : Memory} {base : Int} {params : List Parameter}
  {effect : Effect}

theorem exists_store_of_combine {f : Int → Int → Int}
    (h : combine memory base params f = .ok effect) :
    ∃ d v, effect = .store d v := by
  simp only [combine, bind, Except.bind] at h
  repeat' split at h
  all_goals cases h
  exact ⟨_, _, rfl⟩

theorem jump_or_proceed_of_jumpWhen {test : Int → Bool}
    (h : jumpWhen memory base params test = .ok effect) :
    (∃ target, effect = .jump target) ∨ effect = .proceed := by
  simp only [jumpWhen, bind, Except.bind] at h
  repeat' split at h
  all_goals cases h
  · exact Or.inl ⟨_, rfl⟩
  · exact Or.inr rfl

theorem exists_accept_of_acceptAt
    (h : acceptAt memory base params = .ok effect) :
    ∃ d, effect = .accept d := by
  simp only [acceptAt, bind, Except.bind] at h
  repeat' split at h
  all_goals cases h
  exact ⟨_, rfl⟩

theorem exists_operand_of_map {make : Int → Effect} {index : Nat}
    (h : make <$> operandAt memory base params index = .ok effect) :
    ∃ v, effect = make v := by
  cases hvalue : operandAt memory base params index <;> rw [hvalue] at h <;>
    cases h
  exact ⟨_, rfl⟩

/-- An input is accepted exactly at a cell that its first parameter names. -/
theorem acceptAt_eq_ok_iff {d : Int} :
    acceptAt memory base params = .ok (.accept d) ↔
      ∃ p ∈ params.head?, p.named? base = some d ∧ memory.InBounds d := by
  simp only [← Parameter.address_eq_ok_iff]
  cases params with
  | nil => simp [acceptAt, addressAt, parameter, bind, Except.bind]
  | cons p rest =>
      have haddress : addressAt base (p :: rest) 0 = p.address base := rfl
      simp only [acceptAt, haddress, bind, Except.bind, List.head?_cons,
        Option.mem_some_iff, exists_eq_left']
      cases p.address base with
      | error f => simp
      | ok address =>
          by_cases hin : memory.InBounds address
          · simp only [Memory.check_of_inBounds hin, pure, Except.pure]
            constructor
            · intro h
              cases h
              exact ⟨rfl, hin⟩
            · rintro ⟨h, _⟩
              cases h
              rfl
          · simp only [Memory.check_of_not_inBounds hin]
            constructor
            · intro h
              cases h
            · rintro ⟨h, hd⟩
              cases h
              exact absurd hd hin

end Effect

namespace Opcode

variable {memory : Memory} {base : Int} {params : List Parameter}
  {op : Opcode} {effect : Effect}

/-- The effects that are those of an operation. -/
inductive Causes : Opcode → Effect → Prop where
  | store {op : Opcode} {f : Int → Int → Int} (d v : Int) :
      op.Combines f → Causes op (.store d v)
  | accept (d : Int) : Causes .input (.accept d)
  | send (v : Int) : Causes .output (.send v)
  | jump {op : Opcode} {test : Int → Prop} (target : Int) :
      op.Tests test → Causes op (.jump target)
  | proceed {op : Opcode} {test : Int → Prop} :
      op.Tests test → Causes op .proceed
  | rebase (offset : Int) : Causes .adjustBase (.rebase offset)
  | halt : Causes .halt .halt

theorem Combines.causes {f g : Int → Int → Int} (h : op.Combines f)
    (heffect : Effect.combine memory base params g = .ok effect) :
    op.Causes effect := by
  obtain ⟨d, v, rfl⟩ := Effect.exists_store_of_combine heffect
  exact .store d v h

theorem Tests.causes {p : Int → Prop} {test : Int → Bool} (h : op.Tests p)
    (heffect : Effect.jumpWhen memory base params test = .ok effect) :
    op.Causes effect := by
  rcases Effect.jump_or_proceed_of_jumpWhen heffect with ⟨target, rfl⟩ | rfl
  · exact .jump target h
  · exact .proceed h

/-- The operation tells the kind of its effect. -/
theorem causes_of_effect (h : op.effect params memory base = .ok effect) :
    op.Causes effect := by
  cases op with
  | add => exact Combines.add.causes h
  | multiply => exact Combines.multiply.causes h
  | lessThan => exact Combines.lessThan.causes h
  | equals => exact Combines.equals.causes h
  | jumpIfTrue => exact Tests.jumpIfTrue.causes h
  | jumpIfFalse => exact Tests.jumpIfFalse.causes h
  | input =>
      obtain ⟨d, rfl⟩ := Effect.exists_accept_of_acceptAt h
      exact .accept d
  | output =>
      obtain ⟨v, rfl⟩ := Effect.exists_operand_of_map h
      exact .send v
  | adjustBase =>
      obtain ⟨v, rfl⟩ := Effect.exists_operand_of_map h
      exact .rebase v
  | halt =>
      cases h
      exact .halt

end Opcode

section Raises

/-! An operation raises its own faults before it has an effect. -/

variable {memory : Memory} {base : Int} {params : List Parameter}
  {count index : Nat} {effect : Effect} {f : Fault}

/-- The faults that an operation can raise which looks at the given number of
parameters. A parameter is missing only if there are too few. -/
inductive Raises (count : Nat) (params : List Parameter) : Fault → Prop where
  | destination (p : Parameter) : Raises count params (.immediateDestination p)
  | address (a : Int) : Raises count params (.outOfBounds a)
  | parameter {index : Nat} : params.length ≤ index → index < count →
      Raises count params (.missingParameter index)

/-- A script that is used up is no fault of an operation. -/
theorem Raises.ne_inputExhausted (h : Raises count params f) :
    f ≠ .inputExhausted := by
  rintro rfl
  cases h

/-- With as many parameters as it looks at an operation misses none. -/
theorem Raises.ne_missingParameter (h : Raises params.length params f)
    (index : Nat) : f ≠ .missingParameter index := by
  rintro rfl
  cases h with
  | parameter hle hlt => omega

theorem raises_of_check {address : Int}
    (h : memory.check address = .error f) : Raises count params f := by
  unfold Memory.check at h
  split at h
  · cases h
  · cases h
    exact .address address

theorem Parameter.raises_of_address {p : Parameter}
    (h : p.address base = .error f) : Raises count params f := by
  cases p <;> cases h
  · exact .destination _
  · exact .destination _

theorem Parameter.raises_of_operand {p : Parameter}
    (h : p.operand memory base = .error f) : Raises count params f := by
  have hcell (hread : p.address base >>= memory.read = .error f) :
      Raises count params f := by
    rcases of_bind_eq_error hread with haddress | ⟨address, _, hmiss⟩
    · exact p.raises_of_address haddress
    · obtain ⟨_, rfl⟩ := Memory.read_eq_error_iff.mp hmiss
      exact .address address
  cases p with
  | immediate => cases h
  | position | relative | untagged => exact hcell h

namespace Effect

theorem raises_of_parameter (hindex : index < count)
    (h : parameter params index = .error f) : Raises count params f := by
  unfold parameter at h
  split at h
  · cases h
  · next hnone =>
      cases h
      exact .parameter (List.getElem?_eq_none_iff.mp hnone) hindex

theorem raises_of_addressAt (hindex : index < count)
    (h : addressAt base params index = .error f) : Raises count params f := by
  rcases of_bind_eq_error h with hnone | ⟨p, _, haddress⟩
  · exact raises_of_parameter hindex hnone
  · exact p.raises_of_address haddress

theorem raises_of_operandAt (hindex : index < count)
    (h : operandAt memory base params index = .error f) :
    Raises count params f := by
  rcases of_bind_eq_error h with hnone | ⟨p, _, hoperand⟩
  · exact raises_of_parameter hindex hnone
  · exact p.raises_of_operand hoperand

theorem raises_of_combine {g : Int → Int → Int}
    (h : combine memory base params g = .error f) : Raises 3 params f := by
  rcases of_bind_eq_error h with hd | ⟨d, _, h⟩
  · exact raises_of_addressAt (by decide) hd
  rcases of_bind_eq_error h with ha | ⟨a, _, h⟩
  · exact raises_of_operandAt (by decide) ha
  rcases of_bind_eq_error h with hb | ⟨b, _, h⟩
  · exact raises_of_operandAt (by decide) hb
  rcases of_bind_eq_error h with hcell | ⟨_, _, h⟩
  · exact raises_of_check hcell
  · cases h

theorem raises_of_jumpWhen {test : Int → Bool}
    (h : jumpWhen memory base params test = .error f) : Raises 2 params f := by
  rcases of_bind_eq_error h with ha | ⟨a, _, h⟩
  · exact raises_of_operandAt (by decide) ha
  split at h
  · rcases of_bind_eq_error h with htarget | ⟨target, _, h⟩
    · exact raises_of_operandAt (by decide) htarget
    · cases h
  · cases h

theorem raises_of_acceptAt (h : acceptAt memory base params = .error f) :
    Raises 1 params f := by
  rcases of_bind_eq_error h with hd | ⟨d, _, h⟩
  · exact raises_of_addressAt (by decide) hd
  rcases of_bind_eq_error h with hcell | ⟨_, _, h⟩
  · exact raises_of_check hcell
  · cases h

end Effect

/-- An operation raises these faults and no others, on whatever parameters. -/
theorem Opcode.raises_of_effect {op : Opcode}
    (h : op.effect params memory base = .error f) :
    Raises op.arity params f := by
  cases op with
  | add | multiply | lessThan | equals => exact Effect.raises_of_combine h
  | jumpIfTrue | jumpIfFalse => exact Effect.raises_of_jumpWhen h
  | input => exact Effect.raises_of_acceptAt h
  | output | adjustBase =>
      exact Effect.raises_of_operandAt (by decide) (of_map_eq_error h)
  | halt => cases h

end Raises

namespace Machine

variable {m next : Machine} {op : Opcode} {params : List Parameter}

/-- The operation comes to ask the input device: it is an input, and its first
parameter names a cell. -/
def Asks (m : Machine) (op : Opcode) (params : List Parameter) : Prop :=
  op = .input ∧ ∃ p ∈ params.head?, ∃ d ∈ p.named? m.base, m.memory.InBounds d

instance (m : Machine) (op : Opcode) (params : List Parameter) :
    Decidable (m.Asks op params) :=
  inferInstanceAs (Decidable (_ ∧ _))

/-- The entry that an operation takes off the script, if it takes one. -/
def taken? (m : Machine) (op : Opcode) (params : List Parameter) :
    Option Entry :=
  if m.Asks op params then m.input.entries.head? else none

/-- Exactly the operations that ask the device have the effect of accepting a
number. -/
theorem asks_iff : m.Asks op params ↔
    ∃ d, op.effect params m.memory m.base = .ok (.accept d) := by
  cases op with
  | input =>
      simp only [Asks, Opcode.effect, Effect.acceptAt_eq_ok_iff, true_and,
        Option.mem_def]
      constructor
      · rintro ⟨p, hp, d, hd, hin⟩
        exact ⟨d, p, hp, hd, hin⟩
      · rintro ⟨d, p, hp, hd, hin⟩
        exact ⟨p, hp, d, hd, hin⟩
  | add | multiply | lessThan | equals | jumpIfTrue | jumpIfFalse | output
  | adjustBase | halt =>
      simp only [Asks, reduceCtorEq, false_and, false_iff]
      rintro ⟨d, hd⟩
      cases Opcode.causes_of_effect hd

theorem asks_iff_of_effect {effect : Effect}
    (h : op.effect params m.memory m.base = .ok effect) :
    m.Asks op params ↔ ∃ d, effect = .accept d := by
  rw [asks_iff, h]
  simp

end Machine

/-- The turn of an instruction: the machine that decodes and executes it, and
whether it completes. -/
structure Turn where
  before : Machine
  instruction : Instruction
  completed : Bool

namespace Turn

variable (t : Turn)

/-- The line of the instruction can be written, so that it comes to be
executed. -/
def Listed : Prop :=
  ∀ n ∈ (t.before.line t.instruction).numbers,
    Numeral.Fits Numeral.digitLimit n

instance : Decidable t.Listed :=
  inferInstanceAs (Decidable (∀ n ∈ _, _))

/-- The instruction has asked the input device. -/
def Asked : Prop :=
  t.Listed ∧ t.before.Asks t.instruction.opcode t.instruction.params

instance : Decidable t.Asked :=
  inferInstanceAs (Decidable (_ ∧ _))

/-- The entry that the instruction takes off the script once it comes to be
executed. -/
def taken? : Option Entry :=
  t.before.taken? t.instruction.opcode t.instruction.params

/-- The entry that the instruction has taken off the script. -/
def consumed? : Option Entry :=
  if t.Listed then t.taken? else none

end Turn

namespace Machine

variable {m next : Machine}

/-- An action has given a result. -/
def succeeds : Outcome → Bool
  | .ok .. => true
  | .error .. => false

/-- The turn of the next step, if it decodes an instruction. -/
def turn? (m : Machine) : Option Turn :=
  match decode {} m with
  | .ok i _ => some ⟨m, i, succeeds (step {} m)⟩
  | .error .. => none

/-- The turns of a run, as far as the given number of steps goes. -/
def turns : Nat → Machine → List Turn
  | 0, _ => []
  | fuel + 1, m =>
      if m.Active then
        m.turn?.toList ++
          match step {} m with
          | .ok () next => turns fuel next
          | .error .. => []
      else []

theorem turn?_of_encodes {i : Instruction} (hencodes : Encodes m.memory i)
    (hposition : i.position = m.ip) :
    m.turn? = some ⟨m, i, succeeds (step {} m)⟩ := by
  rw [turn?, decode_eq_ok_iff.mpr ⟨hencodes, hposition, rfl⟩]

theorem turn?_of_undecodable {f : Fault} (h : m.Undecodable f next) :
    m.turn? = none := by
  rw [turn?, decode_eq_error_iff.mpr ⟨f, h, rfl⟩]

/-- The next step consumes what its instruction takes, if the line of the
instruction can be written. -/
theorem consumed_of_encodes {i : Instruction} (hencodes : Encodes m.memory i)
    (hposition : i.position = m.ip) :
    m.turn?.toList.filterMap Turn.consumed? =
      if ∀ n ∈ (m.line i).numbers, Numeral.Fits Numeral.digitLimit n then
        (m.taken? i.opcode i.params).toList
      else [] := by
  have hconsumed : (⟨m, i, succeeds (step {} m)⟩ : Turn).consumed? =
      if ∀ n ∈ (m.line i).numbers, Numeral.Fits Numeral.digitLimit n then
        m.taken? i.opcode i.params
      else none := rfl
  rw [turn?_of_encodes hencodes hposition, Option.toList_some,
    List.filterMap_cons, hconsumed]
  by_cases hline : ∀ n ∈ (m.line i).numbers, Numeral.Fits Numeral.digitLimit n
  · rw [if_pos hline, if_pos hline]
    cases m.taken? i.opcode i.params <;> rfl
  · rw [if_neg hline, if_neg hline]
    rfl

theorem turns_of_inactive {fuel : Nat} (h : ¬ m.Active) :
    m.turns fuel = [] := by
  cases fuel with
  | zero => rfl
  | succ fuel => rw [turns, if_neg h]

theorem turns_of_ok {fuel : Nat} (hactive : m.Active)
    (hstep : step {} m = .ok () next) :
    m.turns (fuel + 1) = m.turn?.toList ++ next.turns fuel := by
  rw [turns, if_pos hactive, hstep]

theorem turns_of_error {fuel : Nat} {stop : Stop} (hactive : m.Active)
    (hstep : step {} m = .error stop next) :
    m.turns (fuel + 1) = m.turn?.toList := by
  rw [turns, if_pos hactive, hstep, List.append_nil]

/-- A relation between a machine, turns that it takes and the outcome that they
lead to. It holds of a machine that rests, of every step with its turn, and of
turns that follow one another if it holds of each part. -/
structure TurnByTurn (R : Machine → List Turn → Outcome → Prop) : Prop where
  rest : ∀ {m}, m.Scripted → R m [] (.ok () m)
  step : ∀ {m}, m.Scripted → R m m.turn?.toList (Machine.step {} m)
  trans : ∀ {m next turns later o}, R m turns (.ok () next) →
    R next later o → R m (turns ++ later) o

/-- What holds turn by turn holds of the turns of a run. -/
theorem TurnByTurn.loop {R : Machine → List Turn → Outcome → Prop}
    (h : TurnByTurn R) {fuel : Nat} {o : Outcome} (hscripted : m.Scripted)
    (hloop : Machine.loop {} fuel m = some o) : R m (m.turns fuel) o := by
  induction fuel generalizing m with
  | zero => cases hloop
  | succ fuel ih =>
      by_cases hactive : m.Active
      · have hfirst := h.step hscripted
        rw [Machine.loop, if_pos hactive] at hloop
        cases hstep : Machine.step {} m with
        | ok _ next =>
            rw [hstep] at hloop hfirst
            have hnext := hscripted.of_step_eq_ok rfl hstep
            rw [turns_of_ok hactive hstep]
            exact h.trans hfirst (ih hnext hloop)
        | error stop next =>
            rw [hstep] at hloop hfirst
            cases hloop
            rw [turns_of_error hactive hstep]
            exact hfirst
      · rw [Machine.loop, if_neg hactive] at hloop
        cases hloop
        rw [turns_of_inactive hactive]
        exact h.rest hscripted

/-- Every turn of a run is that of the next step of a machine which the run
reaches. -/
theorem turn?_of_mem_turns {fuel : Nat} {t : Turn} (h : t ∈ m.turns fuel) :
    t.before.turn? = some t ∧ ∃ n, Steps {} n m t.before := by
  induction fuel generalizing m with
  | zero => cases h
  | succ fuel ih =>
      by_cases hactive : m.Active
      · have hfirst (ht : t ∈ m.turn?.toList) :
            t.before.turn? = some t ∧ ∃ n, Steps {} n m t.before := by
          have hturn : m.turn? = some t := by simpa using ht
          have hbefore : t.before = m := by
            unfold turn? at hturn
            split at hturn <;> cases hturn
            rfl
          rw [hbefore]
          exact ⟨hturn, 0, .refl m⟩
        cases hstep : step {} m with
        | ok _ next =>
            rw [turns_of_ok hactive hstep] at h
            rcases List.mem_append.mp h with ht | ht
            · exact hfirst ht
            · obtain ⟨hturn, n, hsteps⟩ := ih ht
              exact ⟨hturn, n + 1, .cons hactive hstep hsteps⟩
        | error stop next =>
            rw [turns_of_error hactive hstep] at h
            exact hfirst h
      · rw [turns_of_inactive hactive] at h
        cases h

end Machine

end IntcodeMachine
