import IntcodeMachine.Proofs.Reach

/-!
Steps that are called one by one and a run come to the same. A run that is
started after some single steps goes on as the run from the start does, so that
the one has an outcome exactly when the other has, it is the same outcome, and
the events of the steps followed by those of the later run are the events of
the run from the start. The steps have to be such that a run takes them too:
each starts below the end of the memory.
-/

namespace IntcodeMachine.Machine

variable {r : Reporting} {m next last : Machine} {n fuel more : Nat}
  {o other : Outcome}

theorem stepMany_succ (hstep : step r m = .ok () next) :
    stepMany r (n + 1) m = stepMany r n next := by
  rw [stepMany, Action.bind_apply, hstep]

theorem step_of_stepMany (h : stepMany r (n + 1) m = .ok () last) :
    ∃ next, step r m = .ok () next ∧ stepMany r n next = .ok () last := by
  rw [stepMany, Action.bind_apply] at h
  cases hstep : step r m with
  | ok _ next =>
      rw [hstep] at h
      exact ⟨next, rfl, h⟩
  | error stop next =>
      rw [hstep] at h
      cases h

/-- Single steps that all start below the end of the memory are steps of a
run. -/
theorem Ready.steps_of_stepMany (hready : Ready m)
    (hmany : stepMany {} n m = .ok () last)
    (hbelow : ∀ k < n, ∀ reached, stepMany {} k m = .ok () reached →
      reached.ip < reached.memory.capacity) : Steps {} n m last := by
  induction n generalizing m with
  | zero =>
      cases hmany
      exact .refl _
  | succ n ih =>
      obtain ⟨next, hstep, hrest⟩ := step_of_stepMany hmany
      have hactive : m.Active :=
        ⟨hready.running, hbelow 0 (Nat.succ_pos n) m rfl⟩
      refine .cons hactive hstep (ih (hready.step hstep) hrest ?_)
      intro k hk reached hreached
      refine hbelow (k + 1) (by omega) reached ?_
      rw [stepMany_succ hstep]
      exact hreached

theorem run_of_reached (h : run r fuel m = some o)
    (hsteps : Steps r n m last) : run r fuel last = some o := by
  obtain ⟨before, hloop, rfl⟩ := Option.map_eq_some_iff.mp h
  exact Option.map_eq_some_iff.mpr ⟨before, loop_of_reached hloop hsteps, rfl⟩

theorem run_of_later_run (hsteps : Steps r n m last)
    (h : run r fuel last = some o) : run r (n + fuel) m = some o := by
  rw [run, loop_of_steps hsteps]
  exact h

/-- The events that a later machine has noted. -/
def eventsSince (m next : Machine) : List Event :=
  next.journal.toList.drop m.journal.size

theorem eventsSince_of_append {events : List Event}
    (h : m.journal.toList ++ events = next.journal.toList) :
    m.eventsSince next = events := by
  rw [eventsSince, ← h, ← Array.length_toList, List.drop_left]

theorem eventsSince_trans (hnext : m.journal.toList <+: next.journal.toList)
    (hlast : next.journal.toList <+: last.journal.toList) :
    m.eventsSince last = m.eventsSince next ++ next.eventsSince last := by
  obtain ⟨events, hevents⟩ := hnext
  obtain ⟨later, hlater⟩ := hlast
  have hall : m.journal.toList ++ (events ++ later) =
      last.journal.toList := by
    rw [← hlater, ← hevents, List.append_assoc]
  rw [eventsSince_of_append hall, eventsSince_of_append hevents,
    eventsSince_of_append hlater]

/-- Single steps and a run after them come to the same as the run from the
start: the one has an outcome exactly when the other has, the outcomes are
equal with all that is left of the machine, and the events of the steps,
followed by those of the later run, are the events of the run from the
start. -/
theorem run_after_single_steps (hrunning : m.status = .running)
    (hscripted : m.Scripted) (hmany : stepMany {} n m = .ok () last)
    (hbelow : ∀ k < n, ∀ reached, stepMany {} k m = .ok () reached →
      reached.ip < reached.memory.capacity) :
    ((∃ fuel o, run {} fuel m = some o) ↔
      ∃ fuel o, run {} fuel last = some o) ∧
    ∀ fuel o fuel' o', run {} fuel m = some o →
      run {} fuel' last = some o' →
      o' = o ∧ m.eventsSince (ofOutcome o) =
        m.eventsSince last ++ last.eventsSince (ofOutcome o') := by
  have hready : Ready m := ⟨hrunning, hscripted⟩
  have hsteps : Steps {} n m last := hready.steps_of_stepMany hmany hbelow
  constructor
  · constructor
    · rintro ⟨fuel, o, hrun⟩
      exact ⟨fuel, o, run_of_reached hrun hsteps⟩
    · rintro ⟨fuel, o, hrun⟩
      exact ⟨n + fuel, o, run_of_later_run hsteps hrun⟩
  · intro fuel o fuel' o' hrun hlater
    have hsame : o' = o := run_unique hrun (run_of_later_run hsteps hlater)
    have hlast : last.Scripted := (hready.steps hsteps).scripted
    refine ⟨hsame, ?_⟩
    rw [← hsame]
    exact eventsSince_trans ((persists_journal rfl).steps rfl hscripted hsteps)
      ((persists_journal rfl).run rfl hlast hlater)

/-- A program that reads a number and halts, run after its first step. -/
theorem run_after_single_steps_input :
    let m := Machine.ofProgram [3, 3, 99] 4 (.script [.number 7])
      (.collected #[])
    ∃ last o, stepMany {} 1 m = .ok () last ∧ run {} 2 m = some o ∧
      run {} 1 last = some o ∧ last.eventsSince (ofOutcome o) =
        [.executing 2 ⟨.halt, [], 2, 0⟩, .halted 2] ∧
      m.eventsSince (ofOutcome o) =
        m.eventsSince last ++ last.eventsSince (ofOutcome o) := by
  intro m
  let last : Machine := { m with
    memory := ⟨#[3, 3, 99, 7]⟩
    ip := 2
    steps := 1
    input := .script []
    journal := #[.executing 1 ⟨.input, [.position 3], 0, 0⟩, .stored 3 7] }
  let final : Machine := { last with
    ip := 3
    status := .halted
    steps := 2
    journal := last.journal ++
      #[.executing 2 ⟨.halt, [], 2, 0⟩, .halted 2] }
  have hmany : stepMany {} 1 m = .ok () last := by decide +kernel
  have hrun : run {} 2 m = some (.ok () final) := by decide +kernel
  have hlater : run {} 1 last = some (.ok () final) := by decide +kernel
  have hbelow : ∀ k < 1, ∀ reached, stepMany {} k m = .ok () reached →
      reached.ip < reached.memory.capacity := by
    intro k hk reached hreached
    obtain rfl : k = 0 := by omega
    cases hreached
    decide +kernel
  obtain ⟨_, hevents⟩ := (run_after_single_steps rfl ⟨⟨_, rfl⟩, ⟨_, rfl⟩⟩ hmany
    hbelow).2 2 _ 1 _ hrun hlater
  exact ⟨last, .ok () final, hmany, hrun, hlater, by decide +kernel, hevents⟩

end IntcodeMachine.Machine
