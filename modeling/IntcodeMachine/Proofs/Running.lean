import IntcodeMachine.Proofs.Atomicity

/-!
How a run ends. A run is a row of completed steps and one last thing: the
pointer is past the end of the memory, or a step stops. Every end of a run is
one of a few, and each says what the status is. A step keeps the status and the
kind of the devices, so that a whole run keeps them up to its last step.
-/

namespace IntcodeMachine.Machine

variable {r : Reporting} {m next last : Machine} {n : Nat}

/-- The given number of completed steps, all of them taken by a run. -/
inductive Steps (r : Reporting) : Nat → Machine → Machine → Prop where
  | refl (m : Machine) : Steps r 0 m m
  | cons {n : Nat} {m next last : Machine} : m.Active →
      step r m = .ok () next → Steps r n next last → Steps r (n + 1) m last

/-- The steps of a run stop at a machine: it is not active, or its next step
has no result. -/
inductive StopsAt (r : Reporting) (last : Machine) : Outcome → Prop where
  | inactive : ¬ last.Active → StopsAt r last (.ok () last)
  | stopped {stop : Stop} {next : Machine} : last.Active →
      step r last = .error stop next → StopsAt r last (.error stop next)

theorem loop_of_steps (h : Steps r n m last) (fuel : Nat) :
    loop r (n + fuel) m = loop r fuel last := by
  induction h with
  | refl => rw [Nat.zero_add]
  | @cons n m next last hactive hstep _ ih =>
      rw [show n + 1 + fuel = n + fuel + 1 by omega, loop, if_pos hactive,
        hstep]
      exact ih

theorem loop_of_stopsAt {o : Outcome} (h : StopsAt r last o) (fuel : Nat) :
    loop r (fuel + 1) last = some o := by
  cases h with
  | inactive hinactive => rw [loop, if_neg hinactive]
  | stopped hactive hstep => rw [loop, if_pos hactive, hstep]

/-- The loop has an outcome exactly when a row of steps leads to where it
stops. -/
theorem loop_eq_some_iff {fuel : Nat} {o : Outcome} :
    loop r fuel m = some o ↔
      ∃ n < fuel, ∃ last, Steps r n m last ∧ StopsAt r last o := by
  constructor
  · intro h
    induction fuel generalizing m with
    | zero => cases h
    | succ fuel ih =>
        by_cases hactive : m.Active
        · rw [loop, if_pos hactive] at h
          cases hstep : step r m with
          | ok _ next =>
              rw [hstep] at h
              obtain ⟨n, hn, last, hsteps, hstops⟩ := ih h
              exact ⟨n + 1, by omega, last, .cons hactive hstep hsteps, hstops⟩
          | error stop next =>
              rw [hstep] at h
              cases h
              exact ⟨0, by omega, m, .refl m, .stopped hactive hstep⟩
        · rw [loop, if_neg hactive] at h
          cases h
          exact ⟨0, by omega, m, .refl m, .inactive hactive⟩
  · rintro ⟨n, hn, last, hsteps, hstops⟩
    obtain ⟨fuel, rfl⟩ : ∃ more, fuel = n + (more + 1) :=
      ⟨fuel - n - 1, by omega⟩
    rw [loop_of_steps hsteps, loop_of_stopsAt hstops]

/-- What holds before every step of a run. -/
structure Ready (m : Machine) : Prop where
  running : m.status = .running
  scripted : m.Scripted

theorem Execution.status_eq {op : Opcode} {params : List Parameter}
    {o : Outcome} (h : Execution m op params o) :
    (ofOutcome o).status = m.status := by
  cases h <;> rfl

theorem Execution.steps_eq {op : Opcode} {params : List Parameter}
    {o : Outcome} (h : Execution m op params o) :
    (ofOutcome o).steps = m.steps := by
  cases h <;> rfl

theorem Execution.scripted {op : Opcode} {params : List Parameter}
    {o : Outcome} (h : Execution m op params o) (hscripted : m.Scripted) :
    (ofOutcome o).Scripted := by
  cases h with
  | accepted | malformed => exact ⟨⟨_, rfl⟩, hscripted.2⟩
  | sent => exact ⟨hscripted.1, ⟨_, rfl⟩⟩
  | refused | stored | exhausted | jumped | passed | rebased | halted =>
      exact hscripted

theorem Execution.ready {op : Opcode} {params : List Parameter} {o : Outcome}
    (h : Execution m op params o) (hready : Ready m) : Ready (ofOutcome o) :=
  ⟨h.status_eq.trans hready.running, h.scripted hready.scripted⟩

theorem Ready.listed (h : Ready m) (i : Instruction) : Ready (m.listed i) :=
  ⟨h.running, h.scripted⟩

theorem Transition.ready {o : Outcome} (h : Transition m o)
    (hready : Ready m) : Ready (ofOutcome o) := by
  cases h with
  | undecodable hundecodable =>
      simp only [ofOutcome]
      rw [hundecodable.next_eq]
      exact ⟨hready.running, hready.scripted⟩
  | executed _ _ hexecution => exact hexecution.ready (hready.listed _)

theorem LimitedStep.ready {o : Outcome} (h : LimitedStep r m o)
    (hready : Ready m) : Ready (ofOutcome o) := by
  cases h with
  | told htransition _ => exact htransition.ready hready
  | message htransition _ _ => exact htransition.ready hready
  | line => exact ⟨hready.running, hready.scripted⟩
  | followUp _ _ _ hexecution _ =>
      have hdone := hexecution.ready (hready.listed _)
      exact ⟨hdone.running, hdone.scripted⟩

/-- A step keeps a machine ready, whether it completes or not. -/
theorem Ready.step (h : Ready m) {o : Outcome}
    (hstep : Machine.step {} m = o) : Ready (ofOutcome o) := by
  rw [← hstep]
  exact (limitedStep rfl h.scripted).ready h

/-- Every machine that a run reaches is ready. -/
theorem Ready.steps (h : Ready m) (hsteps : Steps {} n m last) :
    Ready last := by
  induction hsteps with
  | refl => exact h
  | cons _ hstep _ ih => exact ih (h.step hstep)

theorem Transition.steps_mem_reported {o : Outcome} (h : Transition m o)
    (hdecoded : ∀ f next, o ≠ .error (.fault f) next) :
    ((ofOutcome o).steps : Int) ∈ m.reported o := by
  cases h with
  | undecodable => exact absurd rfl (hdecoded _ _)
  | executed _ _ hexecution =>
      rw [reported_of_execution hexecution, hexecution.steps_eq]
      exact List.mem_append_left _ (List.mem_cons_self ..)

/-- The count of a step that was listed could be written. -/
theorem fits_steps_of_step (hscripted : m.Scripted) {o : Outcome}
    (hstep : step {} m = o)
    (hwritten : ∀ next, o ≠ .error .tooManyDigits next)
    (hdecoded : ∀ f next, o ≠ .error (.fault f) next) :
    Numeral.Fits Numeral.digitLimit (ofOutcome o).steps := by
  obtain ⟨htransition, hwrites⟩ :=
    transition_of_step rfl hscripted hstep hwritten
  exact writes_default.mp
    (hwrites _ (htransition.steps_mem_reported hdecoded))

theorem fits_steps_of_steps (hready : Ready m)
    (hfits : Numeral.Fits Numeral.digitLimit m.steps)
    (hsteps : Steps {} n m last) :
    Numeral.Fits Numeral.digitLimit last.steps := by
  induction hsteps with
  | refl => exact hfits
  | cons _ hstep _ ih =>
      apply ih (hready.step hstep)
      exact fits_steps_of_step hready.scripted hstep (by simp) (by simp)

/-- The ends of a run. -/
inductive Ending (m : Machine) : Outcome → Prop where
  | ranOff {n : Nat} {last : Machine} : Steps {} n m last →
      last.memory.capacity ≤ last.ip →
      Ending m (.ok () (noted { last with status := .halted }
        (.ranOff last.steps)))
  | untoldRanOff {n : Nat} {last : Machine} : Steps {} n m last →
      last.memory.capacity ≤ last.ip →
      ¬ Numeral.Fits Numeral.digitLimit last.steps →
      Ending m (.error .tooManyDigits { last with status := .halted })
  | halted {n : Nat} {last next : Machine} : Steps {} n m last →
      step {} last = .error .halt next →
      Ending m (.ok () (noted { next with status := .halted }
        (.halted next.steps)))
  | faulted {n : Nat} {last next : Machine} {f : Fault} : Steps {} n m last →
      step {} last = .error (.fault f) next →
      Ending m (.error (.fault f) (noted { next with status := .faulted }
        (.registers next.ip next.base .faulted next.steps)))
  | undumped {n : Nat} {last next : Machine} {f : Fault} : Steps {} n m last →
      step {} last = .error (.fault f) next →
      ¬ (∀ v ∈ [next.ip, next.base, (next.steps : Int)],
        Numeral.Fits Numeral.digitLimit v) →
      Ending m (.error .tooManyDigits { next with status := .faulted })
  | unwritten {n : Nat} {last next : Machine} : Steps {} n m last →
      step {} last = .error .tooManyDigits next →
      Ending m (.error .tooManyDigits next)

theorem close_apply (status : Status) (event : Machine → Event) :
    close status (tell r event) m =
      emit r (event { m with status }) { m with status } := rfl

theorem finish_inactive (hrunning : last.status = .running) :
    finish {} (.ok () last) =
      if Numeral.Fits Numeral.digitLimit last.steps then
        .ok () (noted { last with status := .halted } (.ranOff last.steps))
      else .error .tooManyDigits { last with status := .halted } := by
  rw [finish, if_pos hrunning, close_apply, emit_noted rfl]
  simp only [Event.numbers, List.mem_singleton, forall_eq, writes_default]

theorem ending_of_inactive (hready : Ready m) (hsteps : Steps {} n m last)
    (hinactive : ¬ last.Active) : Ending m (finish {} (.ok () last)) := by
  have hrunning := (hready.steps hsteps).running
  have hend : last.memory.capacity ≤ last.ip := by
    have h : ¬ last.ip < last.memory.capacity := fun hlt =>
      hinactive ⟨hrunning, hlt⟩
    omega
  rw [finish_inactive hrunning]
  split
  · exact .ranOff hsteps hend
  · next hfits => exact .untoldRanOff hsteps hend hfits

theorem finish_fault (f : Fault) :
    finish {} (.error (.fault f) m) =
      if ∀ v ∈ [m.ip, m.base, (m.steps : Int)],
          Numeral.Fits Numeral.digitLimit v then
        .error (.fault f) (noted { m with status := .faulted }
          (.registers m.ip m.base .faulted m.steps))
      else .error .tooManyDigits { m with status := .faulted } := by
  simp only [finish, dump, Action.bind_apply, close_apply, Action.throw_apply,
    emit_noted, Event.numbers, writes_default]
  by_cases hdump : ∀ v ∈ [m.ip, m.base, (m.steps : Int)],
      Numeral.Fits Numeral.digitLimit v
  · rw [if_pos hdump, if_pos hdump]
  · rw [if_neg hdump, if_neg hdump]

theorem Execution.stop_cases {op : Opcode} {params : List Parameter}
    {stop : Stop} (h : Execution m op params (.error stop next)) :
    stop = .halt ∨ ∃ f, stop = .fault f := by
  cases h with
  | refused | malformed | exhausted => exact Or.inr ⟨_, rfl⟩
  | halted => exact Or.inl rfl

theorem Transition.stop_cases {stop : Stop}
    (h : Transition m (.error stop next)) :
    stop = .halt ∨ ∃ f, stop = .fault f := by
  cases h with
  | undecodable => exact Or.inr ⟨_, rfl⟩
  | executed _ _ hexecution => exact hexecution.stop_cases

theorem ending_of_stopped {stop : Stop} (hready : Ready m)
    (hsteps : Steps {} n m last) (hstep : step {} last = .error stop next) :
    Ending m (finish {} (.error stop next)) := by
  have hscripted := (hready.steps hsteps).scripted
  by_cases hdigits : stop = .tooManyDigits
  · subst hdigits
    exact .unwritten hsteps hstep
  · obtain ⟨htransition, _⟩ := transition_of_step rfl hscripted hstep
      (by simpa using hdigits)
    rcases htransition.stop_cases with rfl | ⟨f, rfl⟩
    · have hfits : Numeral.Fits Numeral.digitLimit next.steps :=
        fits_steps_of_step hscripted hstep (by simp) (by simp)
      rw [finish, close_apply, emit_noted rfl,
        if_pos (by simpa [Event.numbers, writes_default] using hfits)]
      exact .halted hsteps hstep
    · rw [finish_fault]
      split
      · exact .faulted hsteps hstep
      · next hdump => exact .undumped hsteps hstep hdump

/-- Every run that has an outcome comes to one of the ends. -/
theorem ending_of_run (hready : Ready m) {fuel : Nat} {o : Outcome}
    (h : run {} fuel m = some o) : Ending m o := by
  obtain ⟨before, hloop, rfl⟩ := Option.map_eq_some_iff.mp h
  obtain ⟨n, _, last, hsteps, hstops⟩ := loop_eq_some_iff.mp hloop
  cases hstops with
  | inactive hinactive => exact ending_of_inactive hready hsteps hinactive
  | stopped _ hstep => exact ending_of_stopped hready hsteps hstep

theorem run_of_steps {o : Outcome} (hsteps : Steps r n m last)
    (hstops : StopsAt r last o) {fuel : Nat} (hfuel : n < fuel) :
    run r fuel m = some (finish r o) :=
  Option.map_eq_some_iff.mpr
    ⟨o, loop_eq_some_iff.mpr ⟨n, hfuel, last, hsteps, hstops⟩, rfl⟩

/-- A run that reaches the end of the memory halts there. -/
theorem run_of_end (hready : Ready m)
    (hfits : Numeral.Fits Numeral.digitLimit m.steps)
    (hsteps : Steps {} n m last) (hend : last.memory.capacity ≤ last.ip)
    {fuel : Nat} (hfuel : n < fuel) :
    run {} fuel m = some (.ok () (noted { last with status := .halted }
      (.ranOff last.steps))) := by
  have hinactive : ¬ last.Active := by
    intro hactive
    have hlt := hactive.2
    omega
  rw [run_of_steps hsteps (.inactive hinactive) hfuel,
    finish_inactive (hready.steps hsteps).running,
    if_pos (fits_steps_of_steps hready hfits hsteps)]

/-- A run that gets before the start of the memory ends there, with a fault
that names the address or with a numeral that is too long. -/
theorem run_of_negative (hready : Ready m) (hsteps : Steps {} n m last)
    (hnegative : last.ip < 0) :
    ∃ stop final, (stop = .fault (.outOfBounds last.ip) ∨
        stop = .tooManyDigits) ∧
      ∀ fuel > n, run {} fuel m = some (.error stop final) := by
  have hactive : last.Active := ⟨(hready.steps hsteps).running, by omega⟩
  have hout : ¬ last.memory.InBounds last.ip := by
    intro hin
    have hle := hin.1
    omega
  have hstep : step {} last =
      .error (({} : Reporting).stopOf (.outOfBounds last.ip)) last :=
    step_of_undecodable (.word hout)
  rw [Reporting.stopOf] at hstep
  split at hstep
  · have hrun (fuel : Nat) (hfuel : fuel > n) :=
      run_of_steps hsteps (.stopped hactive hstep) hfuel
    rw [finish_fault] at hrun
    split at hrun
    · exact ⟨_, _, Or.inl rfl, hrun⟩
    · exact ⟨_, _, Or.inr rfl, hrun⟩
  · refine ⟨.tooManyDigits, last, Or.inr rfl, ?_⟩
    intro fuel hfuel
    rw [run_of_steps hsteps (.stopped hactive hstep) hfuel]
    rfl

theorem Execution.eq_of_halt {op : Opcode} {params : List Parameter}
    (h : Execution m op params (.error .halt next)) :
    op = .halt ∧ next = m := by
  cases h
  exact ⟨rfl, rfl⟩

theorem halt_of_step (hscripted : m.Scripted)
    (hstep : step {} m = .error .halt next) :
    ∃ i, Encodes m.memory i ∧ i.position = m.ip ∧ i.opcode = .halt ∧
      next = m.listed i := by
  obtain ⟨htransition, _⟩ :=
    transition_of_step rfl hscripted hstep (by simp)
  cases htransition with
  | @executed i _ hencodes hposition hexecution =>
      obtain ⟨hopcode, hnext⟩ := hexecution.eq_of_halt
      exact ⟨i, hencodes, hposition, hopcode, hnext⟩

theorem Execution.ne_missingParameter {op : Opcode}
    {params : List Parameter} {f : Fault}
    (h : Execution m op params (.error (.fault f) next)) (index : Nat) :
    f ≠ .missingParameter index := by
  rintro rfl
  cases h with
  | refused hrefuses => cases hrefuses

theorem Undecodable.ne_missingParameter {f : Fault}
    (h : m.Undecodable f next) (index : Nat) : f ≠ .missingParameter index := by
  rintro rfl
  cases h with
  | parameter _ _ _ _ hlacks => cases hlacks

/-- Decoded instructions have all their parameters. -/
theorem Transition.ne_missingParameter {f : Fault}
    (h : Transition m (.error (.fault f) next)) (index : Nat) :
    f ≠ .missingParameter index := by
  cases h with
  | undecodable hundecodable => exact hundecodable.ne_missingParameter index
  | executed _ _ hexecution => exact hexecution.ne_missingParameter index

/-- The last step of the run halts at the given instruction. -/
def HaltedBy (m final : Machine) (i : Instruction) : Prop :=
  ∃ n last next, Steps {} n m last ∧ Encodes last.memory i ∧
    i.position = last.ip ∧ i.opcode = .halt ∧
    step {} last = .error .halt next ∧
    final = noted { next with status := .halted } (.halted next.steps)

/-- The last step of the run is a fault whose registers cannot be written. -/
def DumpLost (m final : Machine) : Prop :=
  ∃ n last next f, Steps {} n m last ∧ step {} last = .error (.fault f) next ∧
    final = { next with status := .faulted } ∧
    ¬ ∀ v ∈ [final.ip, final.base, (final.steps : Int)],
      Numeral.Fits Numeral.digitLimit v

theorem opcodeOf_word_of_halt {memory : Memory} {i : Instruction}
    (hencodes : Encodes memory i) (hopcode : i.opcode = .halt) :
    opcodeOf i.word = 99 := by
  have hcode := i.opcode.ofCode?_opcodeOf_code_add hencodes.modes
  rw [hopcode] at hcode
  rw [Instruction.word, hopcode]
  exact Opcode.ofCode?_eq_some_iff.mp hcode

/-- The memory still holds the halt that ended a run, right before the
pointer. -/
theorem HaltedBy.holds {final : Machine} {i : Instruction}
    (hready : Ready m) (h : HaltedBy m final i) :
    i.position = final.ip - 1 ∧
      final.memory.get? (final.ip - 1) = some i.word ∧
      opcodeOf i.word = 99 := by
  obtain ⟨n, last, next, hsteps, hencodes, hposition, hopcode, hstep, rfl⟩ := h
  obtain ⟨j, hj, hjposition, _, rfl⟩ :=
    halt_of_step (hready.steps hsteps).scripted hstep
  have hsame : j = i := hj.unique hencodes (hjposition.trans hposition.symm)
  subst hsame
  have hip : j.position = last.ip + 1 + j.opcode.arity - 1 := by
    have hnone : Opcode.halt.arity = 0 := rfl
    rw [hposition, hopcode, hnone]
    omega
  refine ⟨hip, ?_, opcodeOf_word_of_halt hencodes hopcode⟩
  change last.memory.get? (last.ip + 1 + j.opcode.arity - 1) = some j.word
  rw [← hip]
  exact hencodes.word

/-- A run returns past the end of the memory or after a halt. -/
theorem halted_of_run (hready : Ready m) {fuel : Nat} {final : Machine}
    (h : run {} fuel m = some (.ok () final)) :
    final.status = .halted ∧
      (final.memory.capacity ≤ final.ip ∨ ∃ i, HaltedBy m final i) := by
  generalize ho : EStateM.Result.ok () final = o at h
  cases ending_of_run hready h with
  | ranOff _ hend =>
      cases ho
      exact ⟨rfl, Or.inl hend⟩
  | halted hsteps hstep =>
      cases ho
      obtain ⟨i, hencodes, hposition, hopcode, _⟩ :=
        halt_of_step (hready.steps hsteps).scripted hstep
      refine ⟨rfl, Or.inr ⟨i, ?_⟩⟩
      exact ⟨_, _, _, hsteps, hencodes, hposition, hopcode, hstep, rfl⟩
  | untoldRanOff | faulted | undumped | unwritten => cases ho

/-- A run does not return for a fault or for a numeral that is too long. -/
theorem stopped_of_run (hready : Ready m)
    (hfits : Numeral.Fits Numeral.digitLimit m.steps) {fuel : Nat}
    {stop : Stop} {final : Machine}
    (h : run {} fuel m = some (.error stop final)) :
    (∃ f, stop = .fault f ∧ (∀ index, f ≠ .missingParameter index) ∧
      final.status = .faulted) ∨
    (stop = .tooManyDigits ∧
      ((final.status = .running ∧ ∃ n last, Steps {} n m last ∧
        step {} last = .error .tooManyDigits final) ∨
      (final.status = .faulted ∧ DumpLost m final))) := by
  generalize ho : EStateM.Result.error stop final = o at h
  cases ending_of_run hready h with
  | ranOff | halted => cases ho
  | untoldRanOff hsteps _ hlost =>
      exact absurd (fits_steps_of_steps hready hfits hsteps) hlost
  | faulted hsteps hstep =>
      cases ho
      left
      obtain ⟨htransition, _⟩ := transition_of_step rfl
        (hready.steps hsteps).scripted hstep (by simp)
      exact ⟨_, rfl, htransition.ne_missingParameter, rfl⟩
  | undumped hsteps hstep hdump =>
      cases ho
      exact Or.inr ⟨rfl, Or.inr ⟨rfl, _, _, _, _, hsteps, hstep, rfl, hdump⟩⟩
  | unwritten hsteps hstep =>
      cases ho
      have hlast := (hready.steps hsteps).step hstep
      exact Or.inr ⟨rfl, Or.inl ⟨hlast.running, _, _, hsteps, hstep⟩⟩

/-- How a run of a running machine with scripted devices comes out. It returns
halted, past the end of the memory or after a halt that is still in the memory;
a fault leaves it faulted; and nothing else can stop it but a numeral that is
too long. Past the end of the memory there is no fault, and before its start
there is nothing else. -/
theorem run_outcome (hrunning : m.status = .running)
    (hscripted : m.Scripted)
    (hfits : Numeral.Fits Numeral.digitLimit m.steps) :
    (∀ fuel final, run {} fuel m = some (.ok () final) →
      final.status = .halted ∧
        (final.memory.capacity ≤ final.ip ∨
          ∃ i word, HaltedBy m final i ∧ i.position = final.ip - 1 ∧
            final.memory.get? (final.ip - 1) = some word ∧
            opcodeOf word = 99)) ∧
    (∀ fuel stop final, run {} fuel m = some (.error stop final) →
      (∃ f, stop = .fault f ∧ (∀ index, f ≠ .missingParameter index) ∧
        final.status = .faulted) ∨
      (stop = .tooManyDigits ∧
        ((final.status = .running ∧ ∃ n last, Steps {} n m last ∧
          step {} last = .error .tooManyDigits final) ∨
        (final.status = .faulted ∧ DumpLost m final)))) ∧
    (∀ n last, Steps {} n m last → last.memory.capacity ≤ last.ip →
      ∃ final, final.status = .halted ∧
        ∀ fuel > n, run {} fuel m = some (.ok () final)) ∧
    (∀ n last, Steps {} n m last → last.ip < 0 →
      ∃ stop final, (stop = .fault (.outOfBounds last.ip) ∨
          stop = .tooManyDigits) ∧
        ∀ fuel > n, run {} fuel m = some (.error stop final)) := by
  have hready : Ready m := ⟨hrunning, hscripted⟩
  refine ⟨?_, ?_, ?_, ?_⟩
  · intro fuel final hrun
    obtain ⟨hstatus, hend⟩ := halted_of_run hready hrun
    refine ⟨hstatus, ?_⟩
    rcases hend with hend | ⟨i, hhalted⟩
    · exact Or.inl hend
    · exact Or.inr ⟨i, i.word, hhalted, hhalted.holds hready⟩
  · intro fuel stop final hrun
    exact stopped_of_run hready hfits hrun
  · intro n last hsteps hend
    exact ⟨_, rfl, fun fuel hfuel =>
      run_of_end hready hfits hsteps hend hfuel⟩
  · intro n last hsteps hnegative
    exact run_of_negative hready hsteps hnegative

/-- A program may halt at a word that it has written itself. -/
theorem run_outcome_written_halt :
    let m := Machine.ofProgram [1101, 98, 1, 4, 0] 6 (.script [])
      (.collected #[])
    let final : Machine :=
      { memory := ⟨#[1101, 98, 1, 4, 99, 0]⟩
        ip := 5
        status := .halted
        steps := 2
        input := .script []
        output := .collected #[]
        journal := #[
          .executing 1
            ⟨.add, [.immediate 98, .immediate 1, .position 4], 0, 11⟩,
          .executing 2 ⟨.halt, [], 4, 0⟩,
          .halted 2] }
    m.status = .running ∧ m.Scripted ∧
      Numeral.Fits Numeral.digitLimit m.steps ∧
      run {} 2 m = some (.ok () final) ∧ final.status = .halted ∧
      ∃ i word, HaltedBy m final i ∧ i.position = final.ip - 1 ∧
        final.memory.get? (final.ip - 1) = some word ∧
        opcodeOf word = 99 := by
  intro m final
  have hscripted : m.Scripted := ⟨⟨_, rfl⟩, ⟨_, rfl⟩⟩
  have hfits : Numeral.Fits Numeral.digitLimit m.steps := by decide +kernel
  have hrun : run {} 2 m = some (.ok () final) := by decide +kernel
  obtain ⟨hstatus, hend⟩ := (run_outcome rfl hscripted hfits).1 2 final hrun
  exact ⟨rfl, hscripted, hfits, hrun, hstatus,
    hend.resolve_left (by decide +kernel)⟩

end IntcodeMachine.Machine
