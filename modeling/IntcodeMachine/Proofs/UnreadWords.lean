import Mathlib.Data.Set.Insert
import IntcodeMachine.Proofs.Accesses
import IntcodeMachine.Proofs.LockStep

/-!
Words that are never read do not matter. Two memories may differ in some cells;
as long as a run reads none of these before it has itself stored there, it runs
alike on both. What carries the argument is the set of the cells that may still
differ: a step that reads none of them has the same outcome on both memories,
and the cell that it stores into is no longer one of them.
-/

namespace IntcodeMachine

namespace Memory

variable {unread : Set Int} {memory other : Memory} {address : Int}

/-- The second memory has the size of the first and its words, but for the
cells at some addresses. -/
structure AgreesOff (unread : Set Int) (memory other : Memory) : Prop where
  capacity : other.capacity = memory.capacity
  cells : ∀ address ∉ unread, other.get? address = memory.get? address

namespace AgreesOff

theorem inBounds_iff (h : AgreesOff unread memory other) :
    other.InBounds address ↔ memory.InBounds address := by
  rw [InBounds, InBounds, h.capacity]

/-- Where there is no cell, there is none in both. -/
theorem get?_eq (h : AgreesOff unread memory other)
    (hunread : memory.InBounds address → address ∉ unread) :
    other.get? address = memory.get? address := by
  by_cases hin : memory.InBounds address
  · exact h.cells address (hunread hin)
  · rw [get?_eq_none_iff.mpr hin,
      get?_eq_none_iff.mpr (h.inBounds_iff.not.mpr hin)]

theorem read_eq (h : AgreesOff unread memory other)
    (hunread : memory.InBounds address → address ∉ unread) :
    other.read address = memory.read address := by
  rw [read, read, h.get?_eq hunread]

theorem check_eq (h : AgreesOff unread memory other) (address : Int) :
    other.check address = memory.check address := by
  simp only [check, h.inBounds_iff]

/-- A cell that is stored into holds the same word in both. -/
theorem set (h : AgreesOff unread memory other) (address value : Int) :
    AgreesOff {a ∈ unread | a ≠ address} (memory.set address value)
      (other.set address value) where
  capacity := by rw [capacity_set, capacity_set, h.capacity]
  cells a ha := by
    rw [get?_set, get?_set]
    simp only [h.inBounds_iff]
    split
    · rfl
    · next hother =>
        apply h.get?_eq
        intro hin hmem
        have heq : a = address := by
          by_contra hne
          exact ha ⟨hmem, hne⟩
        rw [heq] at hin
        exact hother ⟨heq, hin⟩

theorem parameters_eq (h : AgreesOff unread memory other) {count : Nat}
    {modes : Int}
    (hunread : ∀ a ∈ memory.parameterCells count address modes, a ∉ unread) :
    other.parameters count address modes =
      memory.parameters count address modes := by
  induction count generalizing address modes with
  | zero => rfl
  | succ count ih =>
      rw [parameters_succ, parameters_succ]
      rw [parameterCells] at hunread
      cases hword : memory.get? address with
      | none =>
          have hnone : other.get? address = none := by
            rw [← hword]
            apply h.get?_eq
            intro hin
            exact absurd hin (get?_eq_none_iff.mp hword)
          rw [hnone]
      | some word =>
          simp only [hword] at hunread
          have hfirst := hunread address (List.mem_cons_self ..)
          rw [h.cells address hfirst, hword]
          cases hmode : Mode.ofDigit? (modes % modeBase) with
          | none => rfl
          | some mode =>
              simp only [hmode] at hunread
              simp only
              rw [ih fun a ha => hunread a (List.mem_cons_of_mem _ ha)]

end AgreesOff

end Memory

section Effects

variable {unread : Set Int} {memory other : Memory} {base : Int}
  {params : List Parameter}

theorem Parameter.operand_eq (h : memory.AgreesOff unread other)
    {p : Parameter} (hunread : ∀ a ∈ p.cell? memory base, a ∉ unread) :
    p.operand other base = p.operand memory base := by
  have hread (address : Int) (hnamed : p.named? base = some address) :
      other.read address = memory.read address := by
    apply h.read_eq
    intro hin
    exact hunread address (by simp [Parameter.cell?, hnamed, hin])
  cases p with
  | position v => exact hread v rfl
  | relative v => exact hread (base + v) rfl
  | immediate v => rfl
  | untagged v => rfl

namespace Effect

theorem operandAt_eq (h : memory.AgreesOff unread other) {index : Nat}
    (hunread : ∀ a ∈ operandCells memory base params index, a ∉ unread) :
    operandAt other base params index = operandAt memory base params index := by
  unfold operandAt parameter
  cases hp : params[index]? with
  | none => rfl
  | some p =>
      apply Parameter.operand_eq h
      intro a ha
      apply hunread
      simpa [operandCells, hp] using ha

theorem combine_eq (h : memory.AgreesOff unread other) (f : Int → Int → Int)
    (hunread : ∀ a ∈ combineCells memory base params, a ∉ unread) :
    combine other base params f = combine memory base params f := by
  unfold combineCells at hunread
  unfold combine
  cases hdestination : addressAt base params 2 with
  | error fault => rfl
  | ok d =>
      simp only [hdestination, List.mem_append] at hunread
      have hfirst := operandAt_eq h fun a ha => hunread a (Or.inl ha)
      simp only [bind, Except.bind, hfirst]
      cases hvalue : operandAt memory base params 0 with
      | error fault => rfl
      | ok a =>
          simp only [hvalue] at hunread
          have hsecond := operandAt_eq h fun a ha => hunread a (Or.inr ha)
          simp only [hsecond, h.check_eq]

theorem jumpWhen_eq (h : memory.AgreesOff unread other) (test : Int → Bool)
    (hunread : ∀ a ∈ jumpCells memory base params test, a ∉ unread) :
    jumpWhen other base params test = jumpWhen memory base params test := by
  unfold jumpCells at hunread
  simp only [List.mem_append] at hunread
  have hfirst := operandAt_eq h fun a ha => hunread a (Or.inl ha)
  unfold jumpWhen
  simp only [bind, Except.bind, hfirst]
  cases hvalue : operandAt memory base params 0 with
  | error fault => rfl
  | ok v =>
      simp only [hvalue] at hunread
      by_cases htest : test v = true
      · simp only [if_pos htest] at hunread ⊢
        rw [operandAt_eq h fun a ha => hunread a (Or.inr ha)]
      · simp only [if_neg htest]

end Effect

/-- An operation has the same effect on memories that differ only in cells that
it does not read. -/
theorem Opcode.effect_eq (h : memory.AgreesOff unread other) {op : Opcode}
    (hunread : ∀ a ∈ op.cells params memory base, a ∉ unread) :
    op.effect params other base = op.effect params memory base := by
  cases op with
  | add | multiply | lessThan | equals => exact Effect.combine_eq h _ hunread
  | jumpIfTrue | jumpIfFalse => exact Effect.jumpWhen_eq h _ hunread
  | output | adjustBase =>
      simp only [effect]
      rw [Effect.operandAt_eq h hunread]
  | input => simp only [effect, Effect.acceptAt, h.check_eq]
  | halt => rfl

end Effects

/-- Of some addresses, those that are not stored to. -/
def unstored (unread : Set Int) (accesses : List Access) : Set Int :=
  {a ∈ unread | .store a ∉ accesses}

/-- Each of some addresses is read only after it has been stored to. -/
def StoredFirst (unread : Set Int) (accesses : List Access) : Prop :=
  ∀ before address after, accesses = before ++ .read address :: after →
    address ∈ unread → .store address ∈ before

section Order

variable {unread : Set Int} {accesses later : List Access} {cells : List Int}

theorem unstored_nil : unstored unread [] = unread := by
  ext a
  simp [unstored]

theorem unstored_append : unstored unread (accesses ++ later) =
    unstored (unstored unread accesses) later := by
  ext a
  simp [unstored, and_assoc]

theorem unstored_store {address : Int} :
    unstored unread [.store address] = {a ∈ unread | a ≠ address} := by
  ext a
  simp [unstored]

theorem unstored_reads : unstored unread (cells.map .read) = unread := by
  ext a
  simp [unstored]

theorem storedFirst_nil : StoredFirst unread [] := by
  intro before address after h
  simp at h

theorem storedFirst_cons_iff {access : Access} :
    StoredFirst unread (access :: accesses) ↔
      (∀ a, access = .read a → a ∉ unread) ∧
        StoredFirst (unstored unread [access]) accesses := by
  constructor
  · intro h
    constructor
    · rintro a rfl hmem
      cases h [] a accesses rfl hmem
    · intro before a after haccesses ha
      have hstored := h (access :: before) a after (by rw [haccesses]; rfl) ha.1
      exact (List.mem_cons.mp hstored).resolve_left (by simpa using ha.2)
  · rintro ⟨hfirst, hrest⟩ before a after heq ha
    cases before with
    | nil =>
        cases heq
        exact absurd ha (hfirst a rfl)
    | cons first before =>
        cases heq
        by_cases hstore : .store a = access
        · exact List.mem_cons.mpr (Or.inl hstore)
        · exact List.mem_cons_of_mem _
            (hrest before a after rfl ⟨ha, by simpa using hstore⟩)

theorem storedFirst_append_iff : StoredFirst unread (accesses ++ later) ↔
    StoredFirst unread accesses ∧
      StoredFirst (unstored unread accesses) later := by
  induction accesses generalizing unread with
  | nil => simp [storedFirst_nil, unstored]
  | cons access accesses ih =>
      rw [List.cons_append, storedFirst_cons_iff, storedFirst_cons_iff, ih,
        ← unstored_append, List.singleton_append, and_assoc]

theorem storedFirst_reads_iff :
    StoredFirst unread (cells.map .read) ↔ ∀ a ∈ cells, a ∉ unread := by
  induction cells with
  | nil => simp [storedFirst_nil]
  | cons cell cells ih =>
      have hsame : unstored unread [.read cell] = unread :=
        (unstored_reads : unstored unread ([cell].map .read) = unread)
      rw [List.map_cons, storedFirst_cons_iff, hsame, ih]
      simp

end Order

namespace Machine

variable {r : Reporting} {unread : Set Int} {m : Machine} {other : Memory}
  {op : Opcode} {params : List Parameter} {fuel : Nat} {o o' : Outcome}

/-- The machine with another memory. -/
def onMemory (other : Memory) (m : Machine) : Machine :=
  { m with memory := other }

theorem keepsReports_onMemory (other : Memory) :
    KeepsReports (onMemory other) where
  ip _ := rfl
  base _ := rfl
  status _ := rfl
  steps _ := rfl
  noted _ _ := rfl
  ended _ _ := rfl

/-- The second outcome is the first but for the words at some addresses. -/
def AlikeOff (unread : Set Int) (o o' : Outcome) : Prop :=
  ∃ other, o' = mapResult (onMemory other) o ∧
    (ofOutcome o).memory.AgreesOff unread other

theorem decode_onMemory (h : m.memory.AgreesOff unread other)
    (hunread : ∀ a ∈ m.memory.instructionCells m.ip, a ∉ unread) :
    decode r (m.onMemory other) = mapResult (onMemory other) (decode r m) := by
  rw [decode_apply, decode_apply]
  simp only [onMemory]
  unfold Memory.instructionCells at hunread
  cases hword : m.memory.get? m.ip with
  | none =>
      have hout : ¬ m.memory.InBounds m.ip := Memory.get?_eq_none_iff.mp hword
      rw [h.read_eq fun hin => absurd hin hout,
        Memory.read_eq_error_iff.mpr ⟨hout, rfl⟩]
      rfl
  | some word =>
      simp only [hword] at hunread
      have hfirst := hunread m.ip (List.mem_cons_self ..)
      rw [h.read_eq fun _ => hfirst, Memory.read_eq_ok_iff.mpr hword]
      cases hop : Opcode.ofCode? (opcodeOf word) with
      | none => simp only [hop, mapResult_error, onMemory]
      | some op =>
          simp only [hop] at hunread ⊢
          rw [h.parameters_eq fun a ha =>
            hunread a (List.mem_cons_of_mem _ ha)]
          cases m.memory.parameters op.arity (m.ip + 1) (modesOf word) <;> rfl

theorem emit_onMemory (h : m.memory.AgreesOff unread other) (event : Event) :
    AlikeOff unread (emit r event m) (emit r event (m.onMemory other)) := by
  refine ⟨other, (keepsReports_onMemory other).emit event, ?_⟩
  rw [emit_apply]
  split
  · split
    · exact h
    · exact h
  · exact h

theorem prompt_onMemory :
    (m.onMemory other).prompt = m.prompt.onMemory other := by
  unfold prompt
  simp only [onMemory]
  split <;> rfl

theorem readInput_onMemory : readInput (m.onMemory other) =
    mapResult (onMemory other) (readInput m) := by
  have hread : (m.prompt.onMemory other).input.read = m.prompt.input.read := rfl
  rw [readInput_apply, readInput_apply, prompt_onMemory, hread]
  cases m.prompt.input.read with
  | mk result input => cases result <;> rfl

/-- Applying an effect leaves the memories different where they were, but for
the cell that it stores into. -/
theorem apply_onMemory (h : m.memory.AgreesOff unread other)
    (effect : Effect) :
    AlikeOff (unstored unread ((m.target? effect).toList.map .store))
      (apply r effect m) (apply r effect (m.onMemory other)) := by
  cases effect with
  | store address value =>
      refine ⟨other.set address value, rfl, ?_⟩
      exact unstored_store ▸ h.set address value
  | accept address =>
      have hprompted : m.prompt.memory.AgreesOff unread other := by
        rw [prompt_memory]
        exact h
      rw [apply_accept, apply_accept, readInput_onMemory, readInput_apply,
        prompt_input, target?]
      cases m.input.read with
      | mk result input =>
          cases result with
          | ok value =>
              simp only [mapResult_ok]
              have hstored := hprompted.set address value
              rw [← unstored_store] at hstored
              exact emit_onMemory (m := { m.prompt with
                memory := m.prompt.memory.set address value, input }) hstored _
          | error stop => exact ⟨other, rfl, unstored_nil ▸ hprompted⟩
  | send value =>
      have hwrite : (m.onMemory other).output.write r value =
          m.output.write r value := rfl
      rw [show (m.target? (.send value)).toList = [] from rfl, List.map_nil,
        unstored_nil]
      simp only [apply, writeOutput_apply, hwrite]
      cases m.output.write r value with
      | ok output => exact ⟨other, rfl, h⟩
      | error stop => exact ⟨other, rfl, h⟩
  | jump | proceed | halt => exact ⟨other, rfl, unstored_nil ▸ h⟩
  | rebase offset =>
      rw [show (m.target? (.rebase offset)).toList = [] from rfl, List.map_nil,
        unstored_nil]
      simp only [apply, Action.bind_apply, Action.modify_apply,
        Action.get_apply]
      have hmoved : ({ m with base := m.base + offset } :
          Machine).memory.AgreesOff unread other := h
      exact emit_onMemory hmoved _

/-- An operation that reads no cell that may differ has the same outcome on
both memories. -/
theorem execute_onMemory (h : m.memory.AgreesOff unread other)
    (hfirst : StoredFirst unread (m.executionAccesses op params)) :
    AlikeOff (unstored unread (m.executionAccesses op params))
      (execute r op params m) (execute r op params (m.onMemory other)) := by
  rw [executionAccesses, storedFirst_append_iff, storedFirst_reads_iff]
    at hfirst
  rw [executionAccesses, unstored_append, unstored_reads, execute_apply,
    execute_apply]
  have heffect : op.effect params (m.onMemory other).memory
      (m.onMemory other).base = op.effect params m.memory m.base :=
    Opcode.effect_eq h hfirst.1
  rw [heffect]
  cases op.effect params m.memory m.base with
  | error f =>
      rw [unstored_nil]
      exact ⟨other, rfl, h⟩
  | ok effect => exact apply_onMemory h effect

/-- A step that reads no cell that may differ has the same outcome on both
memories, and the cell that it stores into no longer differs. -/
theorem step_onMemory (h : m.memory.AgreesOff unread other)
    (hfirst : StoredFirst unread m.stepAccesses) :
    AlikeOff (unstored unread m.stepAccesses) (step {} m)
      (step {} (m.onMemory other)) := by
  rw [stepAccesses, storedFirst_append_iff, storedFirst_reads_iff,
    unstored_reads] at hfirst
  obtain ⟨hunread, hrest⟩ := hfirst
  have hdecode' := decode_onMemory (r := {}) h hunread
  rw [stepAccesses, unstored_append, unstored_reads]
  cases hdecode : decode {} m with
  | error stop next =>
      rw [hdecode] at hdecode'
      obtain ⟨f, hundecodable, rfl⟩ := decode_eq_error_iff.mp hdecode
      obtain rfl := hundecodable.next_eq
      rw [step_apply, step_apply, hdecode, hdecode', unstored_nil]
      exact ⟨other, rfl, h⟩
  | ok i next =>
      simp only [hdecode] at hrest
      rw [hdecode] at hdecode'
      obtain ⟨hencodes, hposition, _⟩ := decode_eq_ok_iff.mp hdecode
      obtain ⟨hencodes', hposition', _⟩ := decode_eq_ok_iff.mp hdecode'
      have hline : (m.onMemory other).line i = m.line i := rfl
      rw [step_of_encodes rfl hencodes hposition,
        step_of_encodes rfl hencodes' hposition', hline]
      simp only [writes_default]
      split at hrest
      · next hwrites =>
          rw [if_pos hwrites, if_pos hwrites]
          simp only [if_pos hwrites]
          have hlisted : (m.listed i).memory.AgreesOff unread other := h
          exact execute_onMemory hlisted hrest
      · next hwrites =>
          rw [if_neg hwrites, if_neg hwrites]
          simp only [if_neg hwrites, unstored_nil]
          exact ⟨other, rfl, h⟩

theorem loop_onMemory (h : m.memory.AgreesOff unread other)
    (hfirst : StoredFirst unread (m.accesses fuel))
    (hloop : loop {} fuel m = some o) :
    ∃ o', loop {} fuel (m.onMemory other) = some o' ∧
      AlikeOff (unstored unread (m.accesses fuel)) o o' := by
  induction fuel generalizing unread m other with
  | zero => cases hloop
  | succ fuel ih =>
      by_cases hactive : m.Active
      · have hactive' : (m.onMemory other).Active :=
          ⟨hactive.1, h.capacity ▸ hactive.2⟩
        rw [accesses, if_pos hactive, storedFirst_append_iff] at hfirst
        rw [loop, if_pos hactive] at hloop
        rw [accesses, if_pos hactive, unstored_append, loop, if_pos hactive']
        obtain ⟨left, hstep', hagrees⟩ := step_onMemory h hfirst.1
        rw [hstep']
        cases hstep : step {} m with
        | ok _ next =>
            rw [hstep] at hloop hagrees
            simp only [hstep] at hfirst
            exact ih hagrees hfirst.2 hloop
        | error stop next =>
            rw [hstep] at hloop hagrees
            cases hloop
            rw [unstored_nil]
            exact ⟨_, rfl, left, rfl, hagrees⟩
      · have hinactive : ¬ (m.onMemory other).Active := fun hactive' =>
          hactive ⟨hactive'.1, h.capacity ▸ hactive'.2⟩
        rw [loop, if_neg hactive] at hloop
        cases hloop
        rw [accesses, if_neg hactive, unstored_nil, loop, if_neg hinactive]
        exact ⟨_, rfl, other, rfl, h⟩

/-- Words that are never read do not matter. Let two memories of one size
differ at some addresses only, and let a run on the first read none of these
before it has stored there itself. Then the run on the second comes to the same
result, and it leaves the same machine but for its memory. That differs at most
where the memories differed and nothing was stored. -/
theorem run_ignores_unread_words (m : Machine) (other : Memory)
    (unread : Set Int) (hcapacity : other.capacity = m.memory.capacity)
    (hcells : ∀ address ∉ unread,
      other.get? address = m.memory.get? address)
    (hrun : run {} fuel m = some o)
    (hfirst : StoredFirst unread (m.accesses fuel)) :
    ∃ memory,
      run {} fuel (m.onMemory other) =
        some (mapResult (onMemory memory) o) ∧
      memory.capacity = (ofOutcome o).memory.capacity ∧
      ∀ address, address ∉ unread ∨ .store address ∈ m.accesses fuel →
        memory.get? address = (ofOutcome o).memory.get? address := by
  obtain ⟨before, hloop, rfl⟩ := Option.map_eq_some_iff.mp hrun
  obtain ⟨before', hloop', memory, rfl, hagrees⟩ :=
    loop_onMemory ⟨hcapacity, hcells⟩ hfirst hloop
  obtain ⟨status, journal, _, hframe⟩ := finish_frame {} before
  refine ⟨memory, ?_, ?_, ?_⟩
  · rw [run, hloop', Option.map_some, (keepsReports_onMemory memory).finish]
  · rw [hframe]
    exact hagrees.capacity
  · intro address haddress
    rw [hframe]
    apply hagrees.cells
    rintro ⟨hmem, hstored⟩
    exact haddress.elim (absurd hmem) hstored

/-- A program stores a sum over one of the words that differ and then puts it
out; the other it never reads. -/
theorem run_ignores_unread_words_overwritten :
    let m := Machine.ofProgram [1101, 5, 6, 7, 4, 7, 99, 1, 2] 9 (.script [])
      (.collected #[])
    let other : Memory := ⟨#[1101, 5, 6, 7, 4, 7, 99, 40, 50]⟩
    StoredFirst {7, 8} (m.accesses 3) ∧
      ∃ final memory, run {} 3 m = some (.ok () final) ∧
        final.output = .collected #[11] ∧
        run {} 3 (m.onMemory other) = some (.ok () (final.onMemory memory)) ∧
        memory.get? 7 = some 11 := by
  intro m other
  let final : Machine := { m with
    memory := ⟨#[1101, 5, 6, 7, 4, 7, 99, 11, 2]⟩
    ip := 7
    status := .halted
    steps := 3
    output := .collected #[11]
    journal := #[
      .executing 1 ⟨.add, [.immediate 5, .immediate 6, .position 7], 0, 11⟩,
      .executing 2 ⟨.output, [.position 7], 4, 0⟩,
      .executing 3 ⟨.halt, [], 6, 0⟩,
      .halted 3] }
  have hrun : run {} 3 m = some (.ok () final) := by decide +kernel
  have haccesses : m.accesses 3 =
      [.read 0, .read 1, .read 2, .read 3, .store 7, .read 4, .read 5,
        .read 7, .read 6] := by decide +kernel
  have hfirst : StoredFirst {7, 8} (m.accesses 3) := by
    rw [haccesses]
    simp [storedFirst_cons_iff, storedFirst_nil, unstored]
  have hcells : ∀ address ∉ ({7, 8} : Set Int),
      other.get? address = m.memory.get? address := by
    intro address haddress
    have hother : other = (m.memory.set 7 40).set 8 50 := by decide +kernel
    rw [hother, Memory.get?_set, if_neg, Memory.get?_set, if_neg]
    · rintro ⟨rfl, _⟩
      exact haddress (Or.inl rfl)
    · rintro ⟨rfl, _⟩
      exact haddress (Or.inr rfl)
  obtain ⟨memory, hsame, _, hmemory⟩ :=
    run_ignores_unread_words m other {7, 8} (by decide +kernel) hcells hrun
      hfirst
  refine ⟨hfirst, final, memory, hrun, rfl, hsame, ?_⟩
  rw [hmemory 7 (Or.inr (by simp [haccesses]))]
  decide +kernel

end Machine

end IntcodeMachine
