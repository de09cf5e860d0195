import IntcodeMachine.Proofs.DigitLimit
import IntcodeMachine.Proofs.LockStep

/-!
What a trace costs. Without a trace no line has to be written, and only the
message of a fault can hold a number beyond the limit. A step with a trace is
the same step, with its events in the journal, as long as all its lines can be
written. So a traced run and the run without a trace end alike, unless the
traced one comes to a line that it cannot write: that line stops it, whatever
the other goes on to do.
-/

namespace IntcodeMachine

/-- The fault of an entry holds no number. -/
theorem Entry.numbers_of_value_error {entry : Entry} {f : Fault}
    (h : entry.value = .error f) : f.numbers = [] := by
  cases entry with
  | number => cases h
  | line text =>
      obtain ⟨_, rfl⟩ := Numeral.exists_malformed_of_ofLine h
      rfl

theorem Reporting.stopOf_of_numbers_eq_nil (r : Reporting) {f : Fault}
    (h : f.numbers = []) : r.stopOf f = .fault f := by
  apply stopOf_eq_fault_iff.mpr
  simp [h]

theorem Reporting.stopOf_of_unlimited {r : Reporting} (h : r.longest = none)
    (f : Fault) : r.stopOf f = .fault f :=
  stopOf_eq_fault_iff.mpr ⟨rfl, fun v _ => writes_of_unlimited h v⟩

namespace Machine

variable {m next last : Machine} {n fuel : Nat} {o : Outcome}

/-- The reporting of a machine that keeps no trace. -/
abbrev untraced : Reporting := { traced := false }

/-- The machine without its journal. -/
def silenced (m : Machine) : Machine :=
  { m with journal := #[] }

/-- The outcome with its fault as it is reported under the limit. -/
def asReported : Outcome → Outcome
  | .error (.fault f) next => .error (({} : Reporting).stopOf f) next
  | o => o

theorem emit_untraced (event : Event) : emit untraced event m = .ok () m := by
  rw [emit_apply]
  rfl

/-- Without a trace an effect is that of a machine that can write all lines,
but for the events. -/
theorem apply_silenced (hscripted : m.Scripted) (effect : Effect) :
    apply untraced effect m.silenced =
      mapResult silenced (asReported (apply unlimited effect m)) := by
  obtain ⟨⟨queue, hinput⟩, values, houtput⟩ := hscripted
  have hsilenced : m.silenced.input = m.input := rfl
  cases effect with
  | store | jump | proceed | halt => rfl
  | send value =>
      simp only [apply, writeOutput_apply, silenced, houtput, Output.write]
      rfl
  | rebase offset =>
      simp only [apply, Action.bind_apply, Action.modify_apply,
        Action.get_apply, emit_untraced, emit_unlimited]
      rfl
  | accept address =>
      rw [apply_accept, apply_accept]
      cases queue with
      | nil =>
          rw [readInput_of_exhausted hinput,
            readInput_of_exhausted (hsilenced.trans hinput)]
          simp only [asReported, mapResult_error,
            Reporting.stopOf_of_numbers_eq_nil _
              (rfl : Fault.inputExhausted.numbers = [])]
      | cons entry queue =>
          rw [readInput_of_script hinput,
            readInput_of_script (hsilenced.trans hinput)]
          cases hvalue : entry.value with
          | ok v =>
              simp only [emit_untraced, emit_unlimited]
              rfl
          | error f =>
              simp only [asReported, mapResult_error,
                Reporting.stopOf_of_numbers_eq_nil _
                  (Entry.numbers_of_value_error hvalue)]
              rfl

theorem execute_silenced (hscripted : m.Scripted) (op : Opcode)
    (params : List Parameter) :
    execute untraced op params m.silenced =
      mapResult silenced (asReported (execute unlimited op params m)) := by
  have heffect : op.effect params m.silenced.memory m.silenced.base =
      op.effect params m.memory m.base := rfl
  rw [execute_apply, execute_apply, heffect]
  cases op.effect params m.memory m.base with
  | error f =>
      simp only [Reporting.stopOf_of_unlimited, asReported]
      rfl
  | ok effect => exact apply_silenced hscripted effect

theorem Undecodable.silenced {f : Fault} (h : m.Undecodable f next) :
    m.silenced.Undecodable f next.silenced := by
  cases h with
  | word hout => exact .word hout
  | opcode hword hall => exact .opcode hword hall
  | parameter hmodes hword hindex hearlier hlacks =>
      exact .parameter hmodes hword hindex hearlier hlacks

/-- Without a trace a step is that of a machine that can write all lines, but
for the events. -/
theorem step_silenced (hscripted : m.Scripted) :
    step untraced m.silenced =
      mapResult silenced (asReported (step unlimited m)) := by
  rcases encodes_or_undecodable m with
    ⟨i, hencodes, hposition⟩ | ⟨f, next, hundecodable⟩
  · have hideal : step unlimited m =
        execute unlimited i.opcode i.params (m.listed i) := by
      rw [step_of_encodes rfl hencodes hposition, if_pos]
      intro v _
      exact Reporting.writes_of_unlimited rfl v
    have hlisted : (m.listed i).Scripted := hscripted
    have hdecode : decode untraced m.silenced =
        .ok i { m.silenced with ip := m.ip + 1 + i.opcode.arity } :=
      decode_eq_ok_iff.mpr ⟨hencodes, hposition, rfl⟩
    rw [hideal, ← execute_silenced hlisted, step_apply, hdecode]
    simp only [emit_untraced]
    rfl
  · rw [step_of_undecodable hundecodable,
      step_of_undecodable hundecodable.silenced,
      Reporting.stopOf_of_unlimited (r := unlimited) rfl]
    rfl

/-- The next step notes an event whose line cannot be written. -/
def LosesEvent (m : Machine) : Prop :=
  ∃ text ∈ m.eventTexts (ofOutcome (step unlimited m)), ¬ text.Fits

/-- The texts of an outcome are the lines of its events and the message of its
fault. -/
theorem mem_texts_iff {text : StepText} :
    text ∈ m.texts o ↔ text ∈ m.eventTexts (ofOutcome o) ∨
      ∃ f next, o = .error (.fault f) next ∧ text = .message f := by
  cases o with
  | ok _ next => simp [texts, ofOutcome]
  | error stop next => cases stop <;> simp [texts, ofOutcome]

theorem LosesEvent.step (h : m.LosesEvent) (hscripted : m.Scripted) :
    ∃ left, Machine.step {} m = .error .tooManyDigits left := by
  obtain ⟨text, htext, hlost⟩ := h
  exact (step_tooManyDigits_iff hscripted).mpr
    ⟨text, mem_texts_iff.mpr (Or.inl htext), hlost⟩

theorem asReported_of_fits (hfits : ∀ text ∈ m.texts o, text.Fits) :
    asReported o = o := by
  cases o with
  | ok _ next => rfl
  | error stop next =>
      cases stop with
      | fault f =>
          have hmessage : (StepText.message f).Fits :=
            hfits _ (mem_texts_iff.mpr (Or.inr ⟨f, next, rfl, rfl⟩))
          have hstop : ({} : Reporting).stopOf f = .fault f :=
            Reporting.stopOf_eq_fault_iff.mpr
              ⟨rfl, fun v hv => writes_default.mpr (hmessage v hv)⟩
          rw [asReported, hstop]
      | halt | tooManyDigits | noEntry | undecodable | interrupted
      | unattached => rfl

theorem asReported_of_lost {f : Fault}
    (hlost : ¬ (StepText.message f).Fits) :
    asReported (.error (.fault f) next) = .error .tooManyDigits next := by
  rw [asReported, Reporting.stopOf, if_neg]
  intro hwrites
  exact hlost fun v hv => writes_default.mp (hwrites v hv)

/-- A step whose lines can all be written is cut short by the message of its
fault at most. -/
theorem step_of_not_losesEvent (hscripted : m.Scripted)
    (hlines : ¬ m.LosesEvent) : step {} m = asReported (step unlimited m) := by
  rcases step_cases hscripted with
    ⟨hnone, hsame⟩ | ⟨text, left, hfirst, hstep, hleft⟩
  · rw [hsame, asReported_of_fits (firstLost?_eq_none_iff.mp hnone)]
  · have hlost : ¬ text.Fits := by simpa using List.find?_some hfirst
    rcases mem_texts_iff.mp (List.mem_of_find?_eq_some hfirst) with
      hevent | ⟨f, next, hideal, rfl⟩
    · exact absurd ⟨text, hevent, hlost⟩ hlines
    · rw [hideal] at hleft
      cases hleft with
      | message heq =>
          cases heq
          rw [hstep, hideal, asReported_of_lost hlost]

theorem inStep_silenced (hscripted : m.Scripted)
    (hlines : m.Active → ¬ m.LosesEvent) :
    InStep {} untraced silenced m where
  active := Iff.rfl
  step hactive := by
    rw [step_silenced hscripted,
      step_of_not_losesEvent hscripted (hlines hactive)]

/-- Completed steps are the same without a trace. -/
theorem Steps.silenced (h : Steps {} n m last) (hscripted : m.Scripted) :
    Steps untraced n m.silenced last.silenced := by
  apply h.map
  intro k reached next hsteps hstep
  have hreached : reached.Scripted := hsteps.scripted rfl hscripted
  apply inStep_silenced hreached
  intro _ hevent
  obtain ⟨left, hleft⟩ := hevent.step hreached
  rw [hstep] at hleft
  cases hleft

/-- The run from a machine comes to a line that cannot be written: that of an
event of a step, or that of the registers after a fault. -/
inductive LosesLine (m : Machine) : Prop where
  | event {n : Nat} {last : Machine} : Steps {} n m last → last.Active →
      last.LosesEvent → LosesLine m
  | registers {n : Nat} {last next : Machine} {f : Fault} :
      Steps {} n m last → last.Active →
      step {} last = .error (.fault f) next →
      ¬ (∀ v ∈ [next.ip, next.base, (next.steps : Int)],
        Numeral.Fits Numeral.digitLimit v) → LosesLine m

theorem close_silenced (status : Status) (event : Machine → Event)
    (hfits : ∀ v ∈ (event { m with status }).numbers,
      Numeral.Fits Numeral.digitLimit v) :
    close status (tell untraced event) m.silenced =
      mapResult silenced (close status (tell {} event) m) := by
  rw [close_apply, close_apply, emit_untraced, emit_of_fits hfits]
  rfl

/-- The end of a run is the same without a trace if no line is lost. The line
that tells the number of steps never is: the line of the last step held it. -/
theorem finish_silenced (hready : Ready m)
    (hfits : Numeral.Fits Numeral.digitLimit m.steps)
    (hlines : ¬ m.LosesLine) (hsteps : Steps {} n m last)
    (hstops : StopsAt {} last o) :
    finish untraced (mapResult silenced o) =
      mapResult silenced (finish {} o) := by
  have hlast : Ready last := hready.steps hsteps
  cases hstops with
  | inactive =>
      have hrunning : last.silenced.status = .running := hlast.running
      rw [mapResult_ok, finish, finish, if_pos hlast.running, if_pos hrunning]
      apply close_silenced
      simpa [Event.numbers] using fits_steps_of_steps hready hfits hsteps
  | @stopped stop next hactive hstep =>
      cases stop with
      | halt =>
          rw [mapResult_error, finish, finish]
          apply close_silenced
          have hcount : Numeral.Fits Numeral.digitLimit next.steps :=
            fits_steps_of_step hlast.scripted hstep (by simp) (by simp)
          simpa [Event.numbers] using hcount
      | fault f =>
          have hregisters : ∀ v ∈ [next.ip, next.base, (next.steps : Int)],
              Numeral.Fits Numeral.digitLimit v := by
            by_contra hlost
            exact hlines (.registers hsteps hactive hstep hlost)
          have hdump : close .faulted (dump untraced) next.silenced =
              mapResult silenced (close .faulted (dump {}) next) :=
            close_silenced .faulted _ hregisters
          simp only [mapResult_error, finish, Action.bind_apply, hdump]
          cases close .faulted (dump {}) next <;> rfl
      | tooManyDigits | noEntry | undecodable | interrupted | unattached => rfl

/-- A run that can write all its lines is the run without a trace, but for the
journal. -/
theorem run_silenced (hready : Ready m)
    (hfits : Numeral.Fits Numeral.digitLimit m.steps)
    (hlines : ¬ m.LosesLine) (fuel : Nat) :
    run untraced fuel m.silenced =
      (run {} fuel m).map (mapResult silenced) := by
  have hloop : loop untraced fuel m.silenced =
      (loop {} fuel m).map (mapResult silenced) := by
    apply loop_map
    intro k reached hsteps
    apply inStep_silenced (hready.steps hsteps).scripted
    intro hactive hevent
    exact hlines (.event hsteps hactive hevent)
  rw [run, run, hloop]
  cases hends : loop {} fuel m with
  | none => rfl
  | some o =>
      obtain ⟨n, _, last, hsteps, hstops⟩ := loop_eq_some_iff.mp hends
      exact congrArg some (finish_silenced hready hfits hlines hsteps hstops)

/-- A line that cannot be written stops the run, if the run without a trace
comes so far. What is left is what the last step left. -/
theorem LosesLine.run (h : m.LosesLine) (hready : Ready m)
    (hrun : Machine.run untraced fuel m.silenced = some o) :
    ∃ n last stop next status, Steps {} n m last ∧
      Steps untraced n m.silenced last.silenced ∧
      Machine.step {} last = .error stop next ∧
      Machine.run {} fuel m =
        some (.error .tooManyDigits { next with status }) := by
  obtain ⟨before, hloop, rfl⟩ := Option.map_eq_some_iff.mp hrun
  cases h with
  | @event n last hsteps hactive hevent =>
      have huntraced := hsteps.silenced hready.scripted
      obtain ⟨left, hleft⟩ := hevent.step (hready.steps hsteps).scripted
      refine ⟨n, last, _, left, left.status, hsteps, huntraced, hleft, ?_⟩
      rw [run_of_steps hsteps (.stopped hactive hleft)
        (lt_of_loop_of_steps huntraced hloop)]
      rfl
  | @registers n last next f hsteps hactive hstep hlost =>
      have huntraced := hsteps.silenced hready.scripted
      refine ⟨n, last, _, next, .faulted, hsteps, huntraced, hstep, ?_⟩
      rw [run_of_steps hsteps (.stopped hactive hstep)
        (lt_of_loop_of_steps huntraced hloop), finish_fault, if_neg hlost]

/-- A trace changes nothing but the journal as long as all its lines can be
written: the run is the run without a trace. A line that cannot be written
stops the run after steps that both have taken, and leaves what the last step
left. -/
theorem run_untraced (program : List Int) (size : Int)
    (entries : List Entry) :
    let m := Machine.ofProgram program size (.script entries) (.collected #[])
    ∀ fuel o, run untraced fuel m = some o →
      (¬ m.LosesLine →
        ∃ o', run {} fuel m = some o' ∧ mapResult silenced o' = o) ∧
      (m.LosesLine → ∃ n last stop next status, Steps {} n m last ∧
        Steps untraced n m last.silenced ∧ step {} last = .error stop next ∧
        run {} fuel m =
          some (.error .tooManyDigits { next with status })) := by
  intro m fuel o hrun
  have hready : Ready m := ⟨rfl, ⟨_, rfl⟩, ⟨_, rfl⟩⟩
  have hzero : Numeral.Fits Numeral.digitLimit 0 := by decide +kernel
  constructor
  · intro hlines
    have hsame := run_silenced hready hzero hlines fuel
    exact Option.map_eq_some_iff.mp (hsame.symm.trans hrun)
  · intro hlines
    exact hlines.run hready hrun

/-- A program that moves the base by five can write all its lines, and one that
moves it beyond the limit loses a line. -/
theorem run_untraced_moved_base :
    let start (offset : Int) : Machine :=
      Machine.ofProgram [9, 3, 99, offset] 4 (.script []) (.collected #[])
    let quiet (offset : Int) : Machine := { start offset with
      ip := 3, base := offset, status := .halted, steps := 2 }
    (run untraced 2 (start 5) = some (.ok () (quiet 5)) ∧
      ¬ (start 5).LosesLine ∧
      ∃ o, run {} 2 (start 5) = some o ∧
        mapResult silenced o = .ok () (quiet 5)) ∧
    run untraced 2 (start (Nat.pow 10 4300)) =
        some (.ok () (quiet (Nat.pow 10 4300))) ∧
      (start (Nat.pow 10 4300)).LosesLine ∧
      ∃ final, run {} 2 (start (Nat.pow 10 4300)) =
        some (.error .tooManyDigits final) := by
  intro start quiet
  have hquiet : run untraced 2 (start 5) = some (.ok () (quiet 5)) := by
    decide +kernel
  have hbeyond : run untraced 2 (start (Nat.pow 10 4300)) =
      some (.ok () (quiet (Nat.pow 10 4300))) := by
    decide +kernel
  have htold : run {} 2 (start 5) = some (.ok () { quiet 5 with
      journal := #[.executing 1 ⟨.adjustBase, [.position 3], 0, 0⟩,
        .rebased 5, .executing 2 ⟨.halt, [], 2, 0⟩, .halted 2] }) := by
    decide +kernel
  have hlost : run {} 2 (start (Nat.pow 10 4300)) =
      some (.error .tooManyDigits { start (Nat.pow 10 4300) with
        ip := 2, base := Nat.pow 10 4300, steps := 1,
        journal := #[.executing 1 ⟨.adjustBase, [.position 3], 0, 0⟩] }) := by
    decide +kernel
  have hsmall := run_untraced [9, 3, 99, 5] 4 [] 2 _ hquiet
  have hlarge := run_untraced [9, 3, 99, Nat.pow 10 4300] 4 [] 2 _ hbeyond
  have hlines : ¬ (start 5).LosesLine := by
    intro hline
    obtain ⟨_, _, _, _, _, _, _, _, hstopped⟩ := hsmall.2 hline
    cases htold.symm.trans hstopped
  have hline : (start (Nat.pow 10 4300)).LosesLine := by
    by_contra hlines
    obtain ⟨o, hrun, hsame⟩ := hlarge.1 hlines
    cases hlost.symm.trans hrun
    cases hsame
  obtain ⟨_, _, _, _, _, _, _, _, hstopped⟩ := hlarge.2 hline
  exact ⟨⟨hquiet, hlines, hsmall.1 hlines⟩, hbeyond, hline, _, hstopped⟩

/-- The line of a base beyond the limit stops a run that halts without it. -/
theorem trace_stops_run :
    let m := Machine.ofProgram
      [1002, 7, 10, 7, 9, 7, 99, Nat.pow 10 4299] 8 (.script [])
      (.collected #[])
    let moved : Machine := { m with
      memory := ⟨#[1002, 7, 10, 7, 9, 7, 99, Nat.pow 10 4300]⟩
      base := Nat.pow 10 4300 }
    run untraced 3 m =
        some (.ok () { moved with ip := 7, status := .halted, steps := 3 }) ∧
      run {} 3 m = some (.error .tooManyDigits { moved with
        ip := 6
        steps := 2
        journal := #[
          .executing 1 ⟨.multiply,
            [.position 7, .immediate 10, .position 7], 0, 10⟩,
          .executing 2 ⟨.adjustBase, [.position 7], 4, 0⟩] }) := by
  decide +kernel

end Machine

end IntcodeMachine
