import IntcodeMachine.Proofs.Accounting
import IntcodeMachine.Proofs.Consoles

/-!
Runs on whatever devices. A machine whose output is a console writes there what
its completed outputs send, each on a line of its own and in their order,
wherever its input comes from and however its run ends. A number that cannot be
written is not sent, since the instruction that would do so stops. A fault of a
run is never that a parameter is missing: decoded instructions have all of
them, and an input device has nothing to do with parameters.
-/

namespace IntcodeMachine

theorem Input.read_ne_missingParameter (input : Input) (index : Nat) :
    input.read.1 ≠ .error (.fault (.missingParameter index)) := by
  intro h
  have hline (line : List Char) :
      (Numeral.ofLine line).mapError Stop.fault ≠
        .error (.fault (.missingParameter index)) := by
    intro h
    cases hvalue : Numeral.ofLine line with
    | ok v =>
        rw [hvalue] at h
        cases h
    | error f =>
        obtain ⟨text, rfl⟩ := Numeral.exists_malformed_of_ofLine hvalue
        rw [hvalue] at h
        cases h
  cases input with
  | unattached => cases h
  | script queue =>
      match queue with
      | [] => cases h
      | .number n :: queue => cases h
      | .line text :: queue => exact hline text.toList h
  | console stream prompt =>
      obtain ⟨rest, ending⟩ := stream
      cases rest with
      | nil => cases ending <;> cases h
      | cons c rest => exact hline _ h

theorem Output.write_ne_fault (r : Reporting) (output : Output) (v : Int)
    (f : Fault) : output.write r v ≠ .error (.fault f) := by
  cases output with
  | unattached | collected => simp [Output.write]
  | console text =>
      simp only [Output.write]
      split <;> simp

namespace Machine

variable {r : Reporting} {m : Machine} {op : Opcode} {params : List Parameter}
  {effect : Effect} {text : String} {o : Outcome}

section Printing

/-! Only an output writes. -/

/-- The values that a run sends to its output device, in order, as far as the
given number of steps goes. -/
def sent (fuel : Nat) (m : Machine) : List Int :=
  (m.turns fuel).filterMap (Turn.operand? .output)

theorem emit_output (event : Event) :
    (ofOutcome (emit r event m)).output = m.output := by
  obtain ⟨journal, hframe⟩ := emit_frame (r := r) (m := m) event
  rw [hframe]

theorem apply_output (h : ∀ v, effect ≠ .send v) :
    (ofOutcome (apply r effect m)).output = m.output := by
  cases effect with
  | send v => exact absurd rfl (h v)
  | accept d =>
      rw [apply_accept, readInput_apply, prompt_input]
      cases m.input.read with
      | mk result input =>
          cases result with
          | ok v => exact (emit_output _).trans m.prompt_output
          | error stop => exact m.prompt_output
  | rebase offset => exact emit_output _
  | store | jump | proceed | halt => rfl

theorem execute_output (hop : op ≠ .output) :
    (ofOutcome (execute r op params m)).output = m.output := by
  rw [execute_apply]
  cases heffect : op.effect params m.memory m.base with
  | error f => rfl
  | ok effect =>
      apply apply_output
      rintro v rfl
      cases Opcode.causes_of_effect heffect
      exact hop rfl

/-- A console writes a number if it can be written. -/
theorem apply_send (houtput : m.output = .console text) (v : Int) :
    apply {} (.send v) m =
      if Numeral.Fits Numeral.digitLimit v then
        .ok () { m with output := .console (text ++ Output.lines [v]) }
      else .error .tooManyDigits m := by
  have hlines : text ++ Output.lines [v] = text ++ Numeral.write v ++ "\n" := by
    simp [Output.lines, String.append_assoc]
  simp only [apply, writeOutput_apply, houtput, Output.write, writes_default,
    hlines]
  by_cases hfits : Numeral.Fits Numeral.digitLimit v
  · simp only [if_pos hfits]
  · simp only [if_neg hfits]

/-- An output of a decoded instruction sends the value of its operand, or it
stops and leaves the machine as it is. -/
theorem execute_output_cases {i : Instruction} (hencodes : Encodes m.memory i)
    (hop : i.opcode = .output) (houtput : m.output = .console text) :
    (∃ p v, i.params = [p] ∧ p.StandsFor m.memory m.base v ∧
      execute {} i.opcode i.params m =
        .ok () { m with output := .console (text ++ Output.lines [v]) }) ∨
    ∃ stop, execute {} i.opcode i.params m = .error stop m := by
  have hlength : i.params.length = 1 := by
    rw [hencodes.length, hop]
    rfl
  obtain ⟨p, hparams⟩ := List.length_eq_one_iff.mp hlength
  have htagged : p.Tagged := hencodes.tagged (by simp [hparams])
  rw [execute_apply, hop, hparams]
  rcases htagged.standsFor_or_misses m.memory m.base with
    ⟨v, hv⟩ | ⟨address, hmiss⟩
  · rw [Opcode.effect_output_of_standsFor hv]
    simp only [apply_send houtput]
    split
    · exact Or.inl ⟨p, v, rfl, hv, rfl⟩
    · exact Or.inr ⟨_, rfl⟩
  · rw [Opcode.effect_of_refuses (.outputOperand hmiss)]
    exact Or.inr ⟨_, rfl⟩

theorem filterMap_turn? {i : Instruction} (hencodes : Encodes m.memory i)
    (hposition : i.position = m.ip) :
    m.turn?.toList.filterMap (Turn.operand? .output) =
      (Turn.operand? .output ⟨m, i, succeeds (step {} m)⟩).toList := by
  rw [turn?_of_encodes hencodes hposition, Option.toList_some,
    List.filterMap_cons]
  cases Turn.operand? .output ⟨m, i, succeeds (step {} m)⟩ <;> rfl

theorem operand?_of_failed {i : Instruction} :
    Turn.operand? op ⟨m, i, false⟩ = none :=
  if_neg fun h => Bool.false_ne_true h.1

/-- A step adds to the text what its instruction sends. -/
theorem step_output (houtput : m.output = .console text) :
    (ofOutcome (step {} m)).output = .console
      (text ++ Output.lines
        (m.turn?.toList.filterMap (Turn.operand? .output))) := by
  rcases encodes_or_undecodable m with
    ⟨i, hencodes, hposition⟩ | ⟨f, next, hundecodable⟩
  · rw [filterMap_turn? hencodes hposition,
      step_of_encodes rfl hencodes hposition]
    by_cases hline : ∀ n ∈ (m.line i).numbers, ({} : Reporting).Writes n
    · rw [if_pos hline]
      by_cases hop : i.opcode = .output
      · have hlisted : Encodes (m.listed i).memory i := hencodes
        rcases execute_output_cases hlisted hop houtput with
          ⟨p, v, hparams, hp, hsent⟩ | ⟨stop, hstopped⟩
        · have hvalue := operand?_of_completed (t := ⟨m, i, true⟩) rfl hop
            hparams hp
          rw [hsent, succeeds, hvalue]
          rfl
        · rw [hstopped, succeeds, operand?_of_failed, Option.toList_none,
            Output.append_lines_nil]
          exact houtput
      · rw [operand?_of_ne hop, Option.toList_none, Output.append_lines_nil,
          execute_output hop]
        exact houtput
    · rw [if_neg hline, succeeds, operand?_of_failed, Option.toList_none,
        Output.append_lines_nil]
      exact houtput
  · rw [turn?_of_undecodable hundecodable, step_of_undecodable hundecodable,
      Option.toList_none, List.filterMap_nil, Output.append_lines_nil,
      ofOutcome, hundecodable.next_eq]
    exact houtput

theorem loop_output {fuel : Nat} (houtput : m.output = .console text)
    (h : loop {} fuel m = some o) :
    (ofOutcome o).output = .console (text ++ Output.lines (m.sent fuel)) := by
  induction fuel generalizing m text with
  | zero => cases h
  | succ fuel ih =>
      by_cases hactive : m.Active
      · rw [loop, if_pos hactive] at h
        have hfirst := step_output houtput
        cases hstep : step {} m with
        | ok _ next =>
            rw [hstep] at h hfirst
            have hrest := ih hfirst h
            rw [hrest, sent, sent, turns_of_ok hactive hstep,
              List.filterMap_append, Output.lines_append, String.append_assoc]
            rfl
        | error stop next =>
            rw [hstep] at h hfirst
            cases h
            rw [sent, turns_of_error hactive hstep]
            exact hfirst
      · rw [loop, if_neg hactive] at h
        cases h
        rw [sent, turns_of_inactive hactive, List.filterMap_nil,
          Output.append_lines_nil]
        exact houtput

/-- However a run ends, the text is what it has sent. -/
theorem run_output {fuel : Nat} (houtput : m.output = .console text)
    (h : run {} fuel m = some o) :
    (ofOutcome o).output = .console (text ++ Output.lines (m.sent fuel)) := by
  obtain ⟨before, hloop, rfl⟩ := Option.map_eq_some_iff.mp h
  obtain ⟨status, journal, _, hframe⟩ := finish_frame {} before
  rw [hframe]
  exact loop_output houtput hloop

end Printing

section Parameters

/-! No device is about parameters, and decoded instructions have all theirs. -/

theorem apply_ne_missingParameter (effect : Effect) (index : Nat)
    (next : Machine) :
    apply {} effect m ≠ .error (.fault (.missingParameter index)) next := by
  intro h
  cases effect with
  | accept d =>
      rw [apply_accept, readInput_apply, prompt_input] at h
      have hread := Input.read_ne_missingParameter m.input index
      cases hresult : m.input.read with
      | mk result input =>
          rw [hresult] at h hread
          cases result with
          | ok v =>
              simp only [emit_noted] at h
              split at h <;> cases h
          | error stop =>
              cases h
              exact hread rfl
  | send v =>
      rw [apply, writeOutput_apply] at h
      split at h
      · cases h
      · next hwrite =>
          cases h
          exact Output.write_ne_fault {} m.output v _ hwrite
  | rebase offset =>
      simp only [apply, Action.bind_apply, Action.modify_apply,
        Action.get_apply, emit_noted] at h
      split at h <;> cases h
  | store | jump | proceed | halt => cases h

theorem step_ne_missingParameter (index : Nat) (next : Machine) :
    step {} m ≠ .error (.fault (.missingParameter index)) next := by
  intro h
  rcases encodes_or_undecodable m with
    ⟨i, hencodes, hposition⟩ | ⟨f, last, hundecodable⟩
  · rw [step_of_encodes rfl hencodes hposition] at h
    split at h
    · rw [execute_apply] at h
      split at h
      · next f hf =>
          have hstop := (EStateM.Result.error.inj h).1
          obtain ⟨rfl, _⟩ := Reporting.stopOf_eq_fault_iff.mp hstop
          have hraises := Opcode.raises_of_effect hf
          rw [← hencodes.length] at hraises
          exact hraises.ne_missingParameter index rfl
      · exact apply_ne_missingParameter _ index next h
    · cases h
  · rw [step_of_undecodable hundecodable] at h
    have hstop := (EStateM.Result.error.inj h).1
    obtain ⟨hfault, _⟩ := Reporting.stopOf_eq_fault_iff.mp hstop
    exact hundecodable.ne_missingParameter index hfault

/-- No run ends because a parameter is missing. -/
theorem run_ne_missingParameter {fuel : Nat} {f : Fault} {final : Machine}
    (h : run {} fuel m = some (.error (.fault f) final)) (index : Nat) :
    f ≠ .missingParameter index := by
  rintro rfl
  obtain ⟨before, hloop, hfinish⟩ := Option.map_eq_some_iff.mp h
  obtain ⟨next, rfl⟩ := fault_of_finish hfinish
  obtain ⟨n, _, last, _, hstops⟩ := loop_eq_some_iff.mp hloop
  cases hstops with
  | stopped _ hstep => exact step_ne_missingParameter index next hstep

end Parameters

end Machine

end IntcodeMachine
