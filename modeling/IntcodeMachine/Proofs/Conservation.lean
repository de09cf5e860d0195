import IntcodeMachine.Proofs.Turns

/-!
What every action conserves. The memory keeps its size, the output and the
count only grow, and the script loses exactly the entries that the action takes
off it, from its head. This holds of an operation on whatever parameters, of a
step and of a whole run, whether it comes to an end or stops midway. The count
grows by the turns.
-/

namespace IntcodeMachine.Machine

variable {r : Reporting} {m next last : Machine}
  {pushed consumed morePushed moreConsumed : List Entry}

/-- What becomes of a machine while the first entries are put on its script and
the others are taken off. -/
structure Advances (m : Machine) (pushed consumed : List Entry)
    (next : Machine) : Prop where
  scripted : next.Scripted
  capacity : next.memory.capacity = m.memory.capacity
  steps : m.steps ≤ next.steps
  output : m.output.values.toList <+: next.output.values.toList
  script : m.input.entries ++ pushed = consumed ++ next.input.entries

/-- What becomes of a machine that does not end a run: it keeps the status, and
nothing is put on its script. -/
structure Continues (m : Machine) (consumed : List Entry) (next : Machine) :
    Prop extends Advances m [] consumed next where
  status : next.status = m.status

theorem Advances.refl (hscripted : m.Scripted) : Advances m [] [] m :=
  ⟨hscripted, rfl, Nat.le_refl _, List.prefix_rfl, List.append_nil _⟩

theorem Advances.trans (h : Advances m pushed consumed next)
    (hlast : Advances next morePushed moreConsumed last) :
    Advances m (pushed ++ morePushed) (consumed ++ moreConsumed) last where
  scripted := hlast.scripted
  capacity := hlast.capacity.trans h.capacity
  steps := Nat.le_trans h.steps hlast.steps
  output := h.output.trans hlast.output
  script := by
    rw [← List.append_assoc, h.script, List.append_assoc, hlast.script,
      List.append_assoc]

theorem Continues.trans (h : Continues m consumed next)
    (hlast : Continues next moreConsumed last) :
    Continues m (consumed ++ moreConsumed) last where
  toAdvances := h.toAdvances.trans hlast.toAdvances
  status := hlast.status.trans h.status

/-- The registers, the count and the journal are no concern of the devices. -/
theorem Continues.of_registers (hscripted : m.Scripted) (ip base : Int)
    {steps : Nat} (hle : m.steps ≤ steps) (journal : Array Event) :
    Continues m [] { m with ip, base, steps, journal } where
  scripted := hscripted
  capacity := rfl
  steps := hle
  output := List.prefix_rfl
  script := List.append_nil _
  status := rfl

theorem Continues.refl (hscripted : m.Scripted) : Continues m [] m :=
  .of_registers hscripted m.ip m.base (Nat.le_refl _) m.journal

theorem emit_frame (event : Event) :
    ∃ journal, ofOutcome (emit r event m) = { m with journal } := by
  rw [emit_apply]
  split
  · split
    · exact ⟨_, rfl⟩
    · exact ⟨m.journal, rfl⟩
  · exact ⟨m.journal, rfl⟩

theorem Continues.emit (h : Continues m consumed next) (event : Event) :
    Continues m consumed (ofOutcome (Machine.emit r event next)) := by
  obtain ⟨journal, hframe⟩ := emit_frame (r := r) (m := next) event
  rw [hframe]
  exact ⟨⟨h.scripted, h.capacity, h.steps, h.output, h.script⟩, h.status⟩

/-- The entries that applying an effect takes off the script. -/
def consumedBy (m : Machine) : Effect → List Entry
  | .accept _ => m.input.entries.head?.toList
  | _ => []

theorem continues_apply_accept (hscripted : m.Scripted) (d : Int) :
    Continues m (m.consumedBy (.accept d))
      (ofOutcome (apply r (.accept d) m)) := by
  obtain ⟨⟨queue, hinput⟩, houtput⟩ := hscripted
  rw [apply_accept, consumedBy, hinput]
  cases queue with
  | nil =>
      rw [readInput_of_exhausted hinput]
      exact .refl ⟨⟨_, hinput⟩, houtput⟩
  | cons entry queue =>
      have hscript : m.input.entries ++ [] = [entry] ++ queue := by
        rw [hinput, List.append_nil]
        rfl
      have htaken (memory : Memory)
          (hcapacity : memory.capacity = m.memory.capacity) :
          Continues m [entry] { m with memory, input := .script queue } :=
        ⟨⟨⟨⟨_, rfl⟩, houtput⟩, hcapacity, Nat.le_refl _, List.prefix_rfl,
          hscript⟩, rfl⟩
      rw [readInput_of_script hinput]
      cases entry.value with
      | ok v => exact (htaken _ (Memory.capacity_set ..)).emit _
      | error f => exact htaken m.memory rfl

theorem continues_apply (hscripted : m.Scripted) (effect : Effect) :
    Continues m (m.consumedBy effect) (ofOutcome (apply r effect m)) := by
  cases effect with
  | accept d => exact continues_apply_accept hscripted d
  | store d v =>
      exact ⟨⟨hscripted, Memory.capacity_set .., Nat.le_refl _,
        List.prefix_rfl, List.append_nil _⟩, rfl⟩
  | send v =>
      obtain ⟨hinput, values, houtput⟩ := hscripted
      simp only [apply, writeOutput_apply, houtput, Output.write]
      refine ⟨⟨⟨hinput, _, rfl⟩, rfl, Nat.le_refl _, ?_,
        List.append_nil _⟩, rfl⟩
      rw [houtput]
      simp [ofOutcome, Output.values]
  | rebase offset =>
      simp only [apply, Action.bind_apply, Action.modify_apply,
        Action.get_apply]
      exact Continues.emit
        (.of_registers hscripted m.ip _ (Nat.le_refl _) m.journal) _
  | jump target =>
      exact .of_registers hscripted target m.base (Nat.le_refl _) m.journal
  | proceed | halt => exact .refl hscripted

theorem toList_taken?_of_effect {op : Opcode} {params : List Parameter}
    {effect : Effect}
    (h : op.effect params m.memory m.base = .ok effect) :
    (m.taken? op params).toList = m.consumedBy effect := by
  unfold taken? consumedBy
  cases effect with
  | accept d => rw [if_pos ((asks_iff_of_effect h).mpr ⟨d, rfl⟩)]
  | store | send | jump | proceed | rebase | halt =>
      rw [if_neg (by simp [asks_iff_of_effect h])]
      rfl

/-- An operation with whatever parameters takes at most the entry at the head
of the script. -/
theorem continues_execute (hscripted : m.Scripted) (op : Opcode)
    (params : List Parameter) :
    Continues m (m.taken? op params).toList
      (ofOutcome (execute r op params m)) := by
  rw [execute_apply]
  cases heffect : op.effect params m.memory m.base with
  | ok effect =>
      rw [toList_taken?_of_effect heffect]
      exact continues_apply hscripted effect
  | error f =>
      have hnone : m.taken? op params = none := by
        rw [taken?, if_neg]
        simp [asks_iff, heffect]
      rw [hnone]
      exact .refl hscripted

/-- A step takes what its instruction takes, if it comes to execute one. -/
theorem continues_step (hscripted : m.Scripted) :
    Continues m (m.turn?.toList.filterMap Turn.consumed?)
      (ofOutcome (step {} m)) := by
  rcases encodes_or_undecodable m with
    ⟨i, hencodes, hposition⟩ | ⟨f, next, hundecodable⟩
  · have hcounted : Continues m [] (m.counted i) :=
      .of_registers hscripted _ m.base (Nat.le_succ _) m.journal
    have hlisted : Continues m [] (m.listed i) :=
      .of_registers hscripted _ m.base (Nat.le_succ _) _
    rw [consumed_of_encodes hencodes hposition,
      step_of_encodes rfl hencodes hposition]
    simp only [writes_default]
    split
    · exact hlisted.trans
        (continues_execute hlisted.scripted i.opcode i.params)
    · exact hcounted
  · rw [turn?_of_undecodable hundecodable, step_of_undecodable hundecodable,
      hundecodable.next_eq]
    exact .of_registers hscripted _ m.base (Nat.le_refl _) m.journal

theorem turnByTurn_continues :
    TurnByTurn fun m turns o =>
      Continues m (turns.filterMap Turn.consumed?) (ofOutcome o) where
  rest hscripted := .refl hscripted
  step hscripted := continues_step hscripted
  trans hfirst hlater := by
    rw [List.filterMap_append]
    exact hfirst.trans hlater

theorem continues_loop {fuel : Nat} {o : Outcome} (hscripted : m.Scripted)
    (h : loop {} fuel m = some o) :
    Continues m ((m.turns fuel).filterMap Turn.consumed?) (ofOutcome o) :=
  turnByTurn_continues.loop hscripted h

/-- A run takes what its instructions take, turn by turn. -/
theorem advances_run {fuel : Nat} {o : Outcome} (hscripted : m.Scripted)
    (h : run {} fuel m = some o) :
    Advances m [] ((m.turns fuel).filterMap Turn.consumed?)
      (ofOutcome o) := by
  obtain ⟨before, hloop, rfl⟩ := Option.map_eq_some_iff.mp h
  obtain ⟨status, journal, _, hframe⟩ := finish_frame {} before
  have hloop := continues_loop hscripted hloop
  rw [hframe]
  exact ⟨hloop.scripted, hloop.capacity, hloop.steps, hloop.output,
    hloop.script⟩

/-- A step counts its instruction if it decodes one, whatever becomes of it. -/
theorem steps_of_step (hscripted : m.Scripted) :
    (ofOutcome (step {} m)).steps = m.steps + m.turn?.toList.length := by
  rcases encodes_or_undecodable m with
    ⟨i, hencodes, hposition⟩ | ⟨f, next, hundecodable⟩
  · have hcounted : (ofOutcome (step {} m)).steps = m.steps + 1 := by
      rw [step_of_encodes rfl hencodes hposition]
      split
      · obtain ⟨o, hexecution⟩ := hscripted.exists_execution hencodes
        rw [execute_of_execution rfl hexecution]
        split
        · exact hexecution.steps_eq
        · cases o <;> exact hexecution.steps_eq
      · rfl
    rw [hcounted, turn?_of_encodes hencodes hposition]
    rfl
  · rw [step_of_undecodable hundecodable, turn?_of_undecodable hundecodable,
      hundecodable.next_eq]
    rfl

theorem turnByTurn_steps :
    TurnByTurn fun m turns o =>
      (ofOutcome o).steps = m.steps + turns.length where
  rest _ := rfl
  step hscripted := steps_of_step hscripted
  trans hfirst hlater := by
    rw [hlater, List.length_append, ← Nat.add_assoc]
    exact congrArg (· + _) hfirst

/-- A run counts the instructions that it decodes. -/
theorem steps_of_run {fuel : Nat} {o : Outcome} (hscripted : m.Scripted)
    (h : run {} fuel m = some o) :
    (ofOutcome o).steps = m.steps + (m.turns fuel).length := by
  obtain ⟨before, hloop, rfl⟩ := Option.map_eq_some_iff.mp h
  obtain ⟨status, journal, _, hframe⟩ := finish_frame {} before
  rw [hframe]
  exact turnByTurn_steps.loop hscripted hloop

end IntcodeMachine.Machine
