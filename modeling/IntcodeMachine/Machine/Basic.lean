import IntcodeMachine.Device
import IntcodeMachine.Machine.Event
import IntcodeMachine.Memory

/-!
The machine: memory, the instruction pointer and the relative base, its
status, the number of executed instructions, the two devices, and the journal
of what it reported. An action changes the machine and gives a result or a
reason to stop; what it changed before it stopped stays.
-/

namespace IntcodeMachine

structure Machine where
  memory : Memory
  ip : Int := 0
  base : Int := 0
  status : Status := .running
  steps : Nat := 0
  input : Input
  output : Output
  journal : Array Event := #[]
deriving DecidableEq

abbrev Action := EStateM Stop Machine

namespace Action

variable {α β : Type} (m : Machine)

/-- The second action starts from what the first left behind, if it gave a
result. -/
@[simp] theorem bind_apply (x : Action α) (f : α → Action β) :
    (x >>= f) m =
      match x m with
      | .ok a next => f a next
      | .error stop next => .error stop next := by
  cases h : x m <;> simp only [bind, EStateM.bind, h]

@[simp] theorem map_apply (f : α → β) (x : Action α) :
    (f <$> x) m =
      match x m with
      | .ok a next => .ok (f a) next
      | .error stop next => .error stop next := by
  cases h : x m <;> simp only [Functor.map, EStateM.map, h]

@[simp] theorem pure_apply (a : α) : (pure a : Action α) m = .ok a m := rfl

@[simp] theorem get_apply : (get : Action Machine) m = .ok m m := rfl

@[simp] theorem modify_apply (f : Machine → Machine) :
    (modify f : Action Unit) m = .ok () (f m) := rfl

@[simp] theorem throw_apply (stop : Stop) :
    (throw stop : Action α) m = .error stop m := rfl

end Action

namespace Machine

/-- A fresh machine with a program in its memory. -/
def ofProgram (program : List Int) (size : Int) (input : Input)
    (output : Output) : Machine :=
  { memory := .ofProgram program size, input, output }

/-- A fresh machine, if its memory can be had. -/
def allocate (room : Nat) (program : List Int) (size : Int) (input : Input)
    (output : Output) : Except Memory.AllocationError Machine := do
  let memory ← Memory.allocate room program size
  return { memory, input, output }

variable (r : Reporting)

/-- Stops with a fault, as far as it can be reported. -/
def fail {α : Type} (f : Fault) : Action α :=
  throw (r.stopOf f)

/-- Goes on with a value that was computed from the machine, or stops. -/
def attempt {α : Type} : Except Fault α → Action α
  | .ok a => pure a
  | .error f => fail r f

/-- The entry of a table for a number. -/
def entry {α : Type} (table : List (Int × α)) (n : Int) : Action α :=
  match table.lookup n with
  | some a => pure a
  | none => throw (.noEntry n)

/-- Looks up the names that stand in the text of an event. -/
def lookUpNames (event : Event) : Action Unit :=
  event.codes.forM fun n => (fun _ => ()) <$> entry Opcode.mnemonics n

/-- Adds an event to the trace. An event whose text cannot be written stops the
action; without a trace no text is needed. -/
def emit (event : Event) : Action Unit := do
  if r.traced then
    if ∀ n ∈ event.numbers, r.Writes n then
      lookUpNames event
      modify fun m => { m with journal := m.journal.push event }
    else throw .tooManyDigits

/-- Adds an event to the trace that tells of the machine as it is. -/
def tell (event : Machine → Event) : Action Unit := do
  emit r (event (← get))

/-- Adds the registers to the trace. -/
def dump : Action Unit :=
  tell r fun m => .registers m.ip m.base m.status m.steps

/-- The machine after the prompt of its input device, if that shows one. -/
def prompt (m : Machine) : Machine :=
  match m.input.promptText with
  | some text => { m with journal := m.journal.push (.prompted text) }
  | none => m

/-- Takes one number from the input device, after its prompt. -/
def readInput : Action Int := do
  modify prompt
  let (result, input) := (← get).input.read
  modify fun m => { m with input }
  match result with
  | .ok value => return value
  | .error stop => throw stop

/-- Hands one number to the output device. -/
def writeOutput (value : Int) : Action Unit := do
  match (← get).output.write r value with
  | .ok output => modify fun m => { m with output }
  | .error stop => throw stop

/-- A fresh machine of a program can be had exactly if its memory can. -/
theorem allocate_eq_ok_iff {room : Nat} {program : List Int} {size : Int}
    {input : Input} {output : Output} {m : Machine} :
    allocate room program size input output = .ok m ↔
      size ≤ program.length + Memory.largestRequest ∧
        size ≤ program.length + room ∧
        m = ofProgram program size input output := by
  simp only [allocate, bind, Except.bind]
  cases hfound : Memory.allocate room program size with
  | error e =>
      constructor
      · intro h
        cases h
      · rintro ⟨haddress, hroom, _⟩
        have hmemory := Memory.allocate_eq_ok_iff.mpr ⟨haddress, hroom, rfl⟩
        rw [hfound] at hmemory
        cases hmemory
  | ok memory =>
      obtain ⟨haddress, hroom, rfl⟩ := Memory.allocate_eq_ok_iff.mp hfound
      constructor
      · intro h
        cases h
        exact ⟨haddress, hroom, rfl⟩
      · rintro ⟨_, _, rfl⟩
        rfl

variable (m : Machine)

@[simp] theorem attempt_ok {α : Type} (a : α) :
    attempt r (.ok a) m = .ok a m := rfl

theorem entry_of_lookup {α : Type} {table : List (Int × α)} {n : Int} {a : α}
    (h : table.lookup n = some a) : entry table n m = .ok a m := by
  simp [entry, h]

/-- Every operation has a name. -/
@[simp] theorem lookUpNames_apply (event : Event) :
    lookUpNames event m = .ok () m := by
  cases event with
  | executing number i =>
      have hname := entry_of_lookup m i.opcode.lookup_mnemonics
      simp [lookUpNames, Event.codes, hname]
  | stored | rebased | halted | ranOff | registers | prompted => rfl

theorem emit_apply (event : Event) :
    emit r event m =
      if r.traced then
        if ∀ n ∈ event.numbers, r.Writes n then
          .ok () { m with journal := m.journal.push event }
        else .error .tooManyDigits m
      else .ok () m := by
  unfold emit
  split
  · split
    · simp
    · rfl
  · rfl

@[simp] theorem prompt_input : m.prompt.input = m.input := by
  unfold prompt
  split <;> rfl

@[simp] theorem prompt_memory : m.prompt.memory = m.memory := by
  unfold prompt
  split <;> rfl

@[simp] theorem prompt_output : m.prompt.output = m.output := by
  unfold prompt
  split <;> rfl

/-- A read leaves all but the input device and the prompt as it was. -/
theorem readInput_apply :
    readInput m =
      match m.prompt.input.read with
      | (.ok value, input) => .ok value { m.prompt with input }
      | (.error stop, input) => .error stop { m.prompt with input } := by
  simp only [readInput, Action.bind_apply, Action.modify_apply,
    Action.get_apply]
  cases m.prompt.input.read with
  | mk result input => cases result <;> rfl

theorem writeOutput_apply (value : Int) :
    writeOutput r value m =
      match m.output.write r value with
      | .ok output => .ok () { m with output }
      | .error stop => .error stop m := by
  simp only [writeOutput, Action.bind_apply, Action.get_apply]
  cases m.output.write r value <;> rfl

end Machine

end IntcodeMachine
