import IntcodeMachine.Proofs.Conservation
import IntcodeMachine.Proofs.LockStep

/-!
A run is causal in its input. Entries that a run has not come to make no
difference to it: a machine with more entries at the end of its script takes
the same steps, and what it leaves of the script is followed by the new
entries. Only a read past the end of the script tells the two apart. Up to that
read they agree, and what has been put out by then stays at the head of all
later output.
-/

namespace IntcodeMachine

/-- The device with more entries at the end of its script. -/
def Input.extended (more : List Entry) : Input → Input
  | .script queue => .script (queue ++ more)
  | input => input

namespace Machine

variable {r : Reporting} {m next last : Machine} {more : List Entry} {n : Nat}
  {o : Outcome}

/-- The machine with more to read at the end of its script. -/
def fed (more : List Entry) (m : Machine) : Machine :=
  { m with input := m.input.extended more }

/-- The next step reads past the end of the script. -/
def Exhausts (m : Machine) : Prop :=
  ∃ next, step {} m = .error (.fault .inputExhausted) next

theorem keepsReports_fed (more : List Entry) : KeepsReports (fed more) where
  ip _ := rfl
  base _ := rfl
  status _ := rfl
  steps _ := rfl
  noted _ _ := rfl
  ended _ _ := rfl

/-- Decoding does not look at the script. -/
theorem Undecodable.fed {f : Fault} (h : m.Undecodable f next)
    (more : List Entry) : (m.fed more).Undecodable f (next.fed more) := by
  cases h with
  | word hout => exact .word hout
  | opcode hword hall => exact .opcode hword hall
  | parameter hmodes hword hindex hearlier hlacks =>
      exact .parameter hmodes hword hindex hearlier hlacks

/-- A read takes the same entry, if there is one. -/
theorem readInput_fed {entry : Entry} {queue : List Entry}
    (hinput : m.input = .script (entry :: queue)) :
    readInput (m.fed more) = mapResult (fed more) (readInput m) := by
  have hfed : (m.fed more).input = .script (entry :: (queue ++ more)) := by
    simp [fed, hinput, Input.extended]
  rw [readInput_of_script hfed, readInput_of_script hinput]
  cases entry.value <;> rfl

theorem apply_fed {effect : Effect} (hscripted : m.Scripted)
    (hread : ∀ next, apply r effect m ≠
      .error (.fault .inputExhausted) next) :
    apply r effect (m.fed more) = mapResult (fed more) (apply r effect m) := by
  cases effect with
  | store | jump | proceed | halt => rfl
  | send value =>
      simp only [apply, writeOutput_apply, fed]
      cases m.output.write r value <;> rfl
  | rebase offset =>
      simp only [apply, Action.bind_apply, Action.modify_apply,
        Action.get_apply]
      exact (keepsReports_fed more).emit (m := { m with base := _ }) _
  | accept address =>
      obtain ⟨⟨queue, hinput⟩, _⟩ := hscripted
      cases queue with
      | nil =>
          refine absurd ?_ (hread m)
          rw [apply_accept, readInput_of_exhausted hinput]
      | cons entry queue =>
          rw [apply_accept, apply_accept, readInput_fed hinput]
          cases readInput m with
          | ok value next =>
              exact (keepsReports_fed more).emit
                (m := { next with memory := _ }) _
          | error stop next => rfl

theorem execute_fed {op : Opcode} {params : List Parameter}
    (hscripted : m.Scripted)
    (hread : ∀ next, execute r op params m ≠
      .error (.fault .inputExhausted) next) :
    execute r op params (m.fed more) =
      mapResult (fed more) (execute r op params m) := by
  have hsame : op.effect params (m.fed more).memory (m.fed more).base =
      op.effect params m.memory m.base := rfl
  rw [execute_apply, execute_apply, hsame]
  rw [execute_apply] at hread
  cases heffect : op.effect params m.memory m.base with
  | error f => rfl
  | ok effect =>
      rw [heffect] at hread
      exact apply_fed hscripted hread

/-- A step that does not read past the end of the script is the same with more
entries. -/
theorem step_fed (hscripted : m.Scripted) (hread : ¬ m.Exhausts) :
    step {} (m.fed more) = mapResult (fed more) (step {} m) := by
  rcases encodes_or_undecodable m with
    ⟨i, hencodes, hposition⟩ | ⟨f, next, hundecodable⟩
  · have hstep := step_of_encodes (r := {}) rfl hencodes hposition
    have hfed : step {} (m.fed more) =
        if ∀ n ∈ (m.line i).numbers, ({} : Reporting).Writes n then
          execute {} i.opcode i.params ((m.listed i).fed more)
        else .error .tooManyDigits ((m.counted i).fed more) :=
      step_of_encodes rfl hencodes hposition
    by_cases hline : ∀ n ∈ (m.line i).numbers, ({} : Reporting).Writes n
    · rw [if_pos hline] at hstep hfed
      rw [hstep, hfed]
      have hlisted : (m.listed i).Scripted := hscripted
      apply execute_fed hlisted
      intro next hnext
      exact hread ⟨next, hstep.trans hnext⟩
    · rw [if_neg hline] at hstep hfed
      rw [hstep, hfed]
      rfl
  · rw [step_of_undecodable hundecodable,
      step_of_undecodable (hundecodable.fed more)]
    rfl

/-- The run from a machine comes to a step that reads past the end of the
script. -/
def ReadsPastEnd (m : Machine) : Prop :=
  ∃ n last, Steps {} n m last ∧ last.Active ∧ last.Exhausts

theorem inStep_fed (hscripted : m.Scripted)
    (hread : m.Active → ¬ m.Exhausts) (more : List Entry) :
    InStep {} {} (fed more) m where
  active := Iff.rfl
  step hactive := step_fed hscripted (hread hactive)

/-- The run of a machine that never reads past the end of its script is the
same with more entries. -/
theorem run_fed (hready : Ready m) (hread : ¬ ReadsPastEnd m)
    (more : List Entry) (fuel : Nat) :
    run {} fuel (m.fed more) =
      (run {} fuel m).map (mapResult (fed more)) := by
  apply run_map (keepsReports_fed more)
  intro k reached hsteps
  apply inStep_fed (hready.steps hsteps).scripted
  intro hactive hexhausts
  exact hread ⟨k, reached, hsteps, hactive, hexhausts⟩

/-- Completed steps never read past the end of the script. -/
theorem Steps.fed (h : Steps {} n m last) (hscripted : m.Scripted)
    (more : List Entry) : Steps {} n (m.fed more) (last.fed more) := by
  apply h.map
  intro k reached next hsteps hstep
  apply inStep_fed (hsteps.scripted rfl hscripted)
  rintro _ ⟨_, hexhausts⟩
  rw [hstep] at hexhausts
  cases hexhausts

/-- What has been put out at any point of a run stays at the head of the output
at its end. -/
theorem output_isPrefix_of_run {reached : Machine} {fuel : Nat}
    (hscripted : m.Scripted) (hsteps : Steps {} n m reached)
    (hrun : run {} fuel m = some o) :
    reached.output.values.toList <+: (ofOutcome o).output.values.toList := by
  obtain ⟨before, hloop, rfl⟩ := Option.map_eq_some_iff.mp hrun
  have hrest : run {} fuel reached = some (finish {} before) := by
    rw [run, loop_of_reached hloop hsteps]
    rfl
  exact (advances_run (hsteps.scripted rfl hscripted) hrest).output

/-- A loop that reads past the end of the script stops there. -/
theorem ReadsPastEnd.loop {fuel : Nat} (h : ReadsPastEnd m)
    (hloop : Machine.loop {} fuel m = some o) :
    ∃ n last next, Steps {} n m last ∧
      step {} last = .error (.fault .inputExhausted) next ∧
      o = .error (.fault .inputExhausted) next := by
  obtain ⟨n, last, hsteps, hactive, next, hstep⟩ := h
  have hstops : Machine.loop {} fuel m =
      some (.error (.fault .inputExhausted) next) :=
    loop_eq_some_iff.mpr ⟨n, lt_of_loop_of_steps hsteps hloop, last, hsteps,
      .stopped hactive hstep⟩
  exact ⟨n, last, next, hsteps, hstep,
    Option.some.inj (hloop.symm.trans hstops)⟩

theorem readsPastEnd_of_loop {fuel : Nat}
    (hloop : loop {} fuel m = some (.error (.fault .inputExhausted) next)) :
    ReadsPastEnd m := by
  obtain ⟨n, _, last, hsteps, hstops⟩ := loop_eq_some_iff.mp hloop
  cases hstops with
  | stopped hactive hstep => exact ⟨n, last, hsteps, hactive, next, hstep⟩

/-- A run that reads past the end of its script ends there, with the memory,
the base and the output that it had before. -/
theorem ReadsPastEnd.run {fuel : Nat} (h : ReadsPastEnd m)
    (hready : Ready m) (hrun : Machine.run {} fuel m = some o) :
    ∃ n last, Steps {} n m last ∧ last.Exhausts ∧
      (ofOutcome o).memory = last.memory ∧ (ofOutcome o).base = last.base ∧
      (ofOutcome o).output = last.output := by
  obtain ⟨before, hloop, rfl⟩ := Option.map_eq_some_iff.mp hrun
  obtain ⟨n, last, next, hsteps, hstep, rfl⟩ := h.loop hloop
  obtain ⟨htransition, _⟩ := transition_of_step rfl
    (hready.steps hsteps).scripted hstep (by simp)
  have hkeeps : Keeps last next := htransition.keeps
  obtain ⟨status, journal, _, hframe⟩ :=
    finish_frame {} (.error (.fault .inputExhausted) next)
  rw [hframe]
  exact ⟨n, last, hsteps, ⟨next, hstep⟩, hkeeps.memory, hkeeps.base,
    hkeeps.output⟩

/-- Runs are causal in their input. A run that never reads past the end of its
script is the same with more entries, which are then left at the end. A run
that does so has taken the steps that it takes with more entries too, so that
its output is the head of theirs. -/
theorem run_causal (program : List Int) (size : Int) (xs ys : List Entry) :
    let m := Machine.ofProgram program size (.script xs) (.collected #[])
    let longer := Machine.ofProgram program size (.script (xs ++ ys))
      (.collected #[])
    ∀ fuel o, run {} fuel m = some o →
      (¬ m.ReadsPastEnd →
        run {} fuel longer = some (mapResult (fed ys) o)) ∧
      (m.ReadsPastEnd → ∃ n last reached,
        Steps {} n m last ∧ last.Exhausts ∧ Steps {} n longer reached ∧
        reached.memory = (ofOutcome o).memory ∧
        reached.base = (ofOutcome o).base ∧
        reached.output = (ofOutcome o).output ∧
        ∀ fuel' o', run {} fuel' longer = some o' →
          (ofOutcome o).output.values.toList <+:
            (ofOutcome o').output.values.toList) := by
  intro m longer fuel o hrun
  have hready : Ready m := ⟨rfl, ⟨_, rfl⟩, ⟨_, rfl⟩⟩
  have hlonger : longer.Scripted := ⟨⟨_, rfl⟩, ⟨_, rfl⟩⟩
  constructor
  · intro hread
    have hfed := run_fed hready hread ys fuel
    rw [hrun] at hfed
    exact hfed
  · intro hread
    obtain ⟨n, last, hsteps, hexhausts, hmemory, hbase, houtput⟩ :=
      hread.run hready hrun
    have hreached : Steps {} n longer (last.fed ys) :=
      hsteps.fed hready.scripted ys
    refine ⟨n, last, last.fed ys, hsteps, hexhausts, hreached, hmemory.symm,
      hbase.symm, houtput.symm, ?_⟩
    intro fuel' o' hrun'
    have hprefix := output_isPrefix_of_run hlonger hreached hrun'
    rw [houtput]
    exact hprefix

/-- A program repeats what it reads up to the first zero. What comes after the
zero is left; without a zero, one more entry is read when all others are
repeated. -/
theorem run_causal_echo :
    let start (entries : List Entry) : Machine :=
      Machine.ofProgram [3, 8, 4, 8, 1005, 8, 0, 99] 9 (.script entries)
        (.collected #[])
    (¬ (start [.number 0]).ReadsPastEnd ∧
      ∃ final, run {} 4 (start [.number 0]) = some (.ok () final) ∧
        final.input = .script [] ∧
        run {} 4 (start [.number 0, .line "7"]) =
          some (.ok () (final.fed [.line "7"]))) ∧
    (start [.number 5]).ReadsPastEnd ∧
      ∃ final n reached,
        run {} 4 (start [.number 5]) =
          some (.error (.fault .inputExhausted) final) ∧
        Steps {} n (start [.number 5, .line "0"]) reached ∧
        reached.memory = final.memory ∧ reached.base = final.base ∧
        reached.output = final.output ∧ final.output = .collected #[5] ∧
        ∀ fuel o, run {} fuel (start [.number 5, .line "0"]) = some o →
          [5] <+: (ofOutcome o).output.values.toList := by
  intro start
  let read (v : Int) : Array Event := #[
    .executing 1 ⟨.input, [.position 8], 0, 0⟩,
    .stored 8 v,
    .executing 2 ⟨.output, [.position 8], 2, 0⟩,
    .executing 3 ⟨.jumpIfTrue, [.position 8, .immediate 0], 4, 10⟩]
  let halting : Machine :=
    { memory := ⟨#[3, 8, 4, 8, 1005, 8, 0, 99, 0]⟩
      ip := 8
      steps := 4
      input := .script []
      output := .collected #[0]
      journal := (read 0).push (.executing 4 ⟨.halt, [], 7, 0⟩) }
  let waiting : Machine :=
    { memory := ⟨#[3, 8, 4, 8, 1005, 8, 0, 99, 5]⟩
      ip := 2
      steps := 4
      input := .script []
      output := .collected #[5]
      journal := (read 5).push (.executing 4 ⟨.input, [.position 8], 0, 0⟩) }
  have hhalts : loop {} 4 (start [.number 0]) =
      some (.error .halt halting) := by
    decide +kernel
  have hwaits : loop {} 4 (start [.number 5]) =
      some (.error (.fault .inputExhausted) waiting) := by
    decide +kernel
  have hread : ¬ (start [.number 0]).ReadsPastEnd := by
    intro hread
    obtain ⟨_, _, _, _, _, hstop⟩ := hread.loop hhalts
    cases hstop
  have hpast : (start [.number 5]).ReadsPastEnd := readsPastEnd_of_loop hwaits
  have hhalted : run {} 4 (start [.number 0]) =
      some (.ok () (noted { halting with status := .halted } (.halted 4))) := by
    decide +kernel
  have hfailed : run {} 4 (start [.number 5]) =
      some (.error (.fault .inputExhausted)
        (noted { waiting with status := .faulted }
          (.registers 2 0 .faulted 4))) := by
    decide +kernel
  have hsame := (run_causal _ 9 [.number 0] [.line "7"] 4 _ hhalted).1 hread
  obtain ⟨n, last, reached, _, _, hsteps, hmemory, hbase, houtput, hlater⟩ :=
    (run_causal _ 9 [.number 5] [.line "0"] 4 _ hfailed).2 hpast
  exact ⟨⟨hread, _, hhalted, rfl, hsame⟩, hpast, _, n, reached, hfailed, hsteps,
    hmemory, hbase, houtput, rfl, hlater⟩

end Machine

end IntcodeMachine
