import IntcodeMachine.Proofs.Running

/-!
What a run reaches and where it leads. The loop goes on from every machine that
it reaches as it does from the start, and the end of a run changes the status
and the journal only. So a relation that every single step keeps up, and the
end of a run too, holds between the start of a run and all that it reaches.
-/

namespace IntcodeMachine.Machine

variable {r : Reporting} {m next last reached : Machine} {n fuel : Nat}
  {o : Outcome} {stop : Stop} {f : Fault}

/-- The loop goes on from every machine that it reaches as from the start. -/
theorem loop_of_reached (h : loop r fuel m = some o)
    (hsteps : Steps r n m reached) : loop r fuel reached = some o := by
  rw [← loop_of_steps hsteps]
  exact loop_of_le r h (by omega)

/-- A loop that has an outcome takes fewer steps than it may take. -/
theorem lt_of_loop_of_steps (hsteps : Steps r n m reached)
    (h : loop r fuel m = some o) : n < fuel := by
  induction hsteps generalizing fuel with
  | refl m =>
      cases fuel with
      | zero => cases h
      | succ fuel => omega
  | @cons n m next last hactive hstep _ ih =>
      cases fuel with
      | zero => cases h
      | succ fuel =>
          rw [loop, if_pos hactive, hstep] at h
          have hlt : n < fuel := ih h
          omega

/-- A loop that stops at an error takes a step from every machine that it
reaches, and that step completes or is the one that stops. -/
theorem step_of_loop_error (h : loop r fuel m = some (.error stop next))
    (hsteps : Steps r n m reached) :
    reached.Active ∧ ((∃ after, step r reached = .ok () after) ∨
      step r reached = .error stop next) := by
  have hloop := loop_of_reached h hsteps
  cases fuel with
  | zero => cases h
  | succ fuel =>
      by_cases hactive : reached.Active
      · rw [loop, if_pos hactive] at hloop
        refine ⟨hactive, ?_⟩
        cases hstep : step r reached with
        | ok _ after => exact Or.inl ⟨after, rfl⟩
        | error other last =>
            rw [hstep] at hloop
            exact Or.inr (Option.some.inj hloop)
      · rw [loop, if_neg hactive] at hloop
        cases hloop

/-- A run has one outcome, however many steps it may take. -/
theorem run_unique {more : Nat} {other : Outcome} (h : run r fuel m = some o)
    (hother : run r more m = some other) : other = o := by
  have hmax := run_of_le r h (Nat.le_max_left fuel more)
  rw [run_of_le r hother (Nat.le_max_right fuel more)] at hmax
  exact Option.some.inj hmax

theorem close_frame (status : Status) (event : Machine → Event) :
    ∃ journal, m.journal.toList <+: journal.toList ∧
      ofOutcome (close status (tell r event) m) =
        { m with status, journal } := by
  rw [close_apply, emit_apply]
  split
  · split
    · exact ⟨_, by simp, rfl⟩
    · exact ⟨m.journal, List.prefix_rfl, rfl⟩
  · exact ⟨m.journal, List.prefix_rfl, rfl⟩

/-- The end of a run changes nothing but the status and the end of the
journal. -/
theorem finish_frame (r : Reporting) (o : Outcome) :
    ∃ status journal, (ofOutcome o).journal.toList <+: journal.toList ∧
      ofOutcome (finish r o) = { ofOutcome o with status, journal } := by
  cases o with
  | ok _ last =>
      simp only [finish]
      split
      · exact ⟨.halted, close_frame ..⟩
      · exact ⟨last.status, last.journal, List.prefix_rfl, rfl⟩
  | error stop last =>
      cases stop with
      | halt => exact ⟨.halted, close_frame ..⟩
      | fault f =>
          refine ⟨.faulted, ?_⟩
          have hclose := close_frame (r := r) (m := last) .faulted
            fun m => .registers m.ip m.base m.status m.steps
          rw [← dump] at hclose
          simp only [finish, Action.bind_apply]
          cases hdump : close .faulted (dump r) last with
          | ok _ next =>
              rw [hdump] at hclose
              exact hclose
          | error stop next =>
              rw [hdump] at hclose
              exact hclose
      | tooManyDigits | noEntry | undecodable | interrupted | unattached =>
          exact ⟨last.status, last.journal, List.prefix_rfl, rfl⟩

theorem close_cases (r : Reporting) (status : Status)
    (event : Machine → Event) (m : Machine) :
    (∃ next, close status (tell r event) m = .ok () next) ∨
      ∃ next, close status (tell r event) m =
        .error .tooManyDigits next := by
  rw [close_apply, emit_apply]
  split
  · split
    · exact Or.inl ⟨_, rfl⟩
    · exact Or.inr ⟨_, rfl⟩
  · exact Or.inl ⟨_, rfl⟩

/-- A run passes on only the fault that stopped it. -/
theorem fault_of_finish {final : Machine}
    (h : finish r o = .error (.fault f) final) :
    ∃ next, o = .error (.fault f) next := by
  cases o with
  | ok _ last =>
      simp only [finish] at h
      split at h
      · rcases close_cases r .halted (fun m => .ranOff m.steps) last with
          ⟨_, hclose⟩ | ⟨_, hclose⟩
        · rw [hclose] at h
          cases h
        · rw [hclose] at h
          cases h
      · cases h
  | error stop last =>
      cases stop with
      | halt =>
          simp only [finish] at h
          rcases close_cases r .halted (fun m => .halted m.steps) last with
            ⟨_, hclose⟩ | ⟨_, hclose⟩
          · rw [hclose] at h
            cases h
          · rw [hclose] at h
            cases h
      | fault g =>
          simp only [finish, dump, Action.bind_apply] at h
          rcases close_cases r .faulted
              (fun m => .registers m.ip m.base m.status m.steps) last with
            ⟨_, hclose⟩ | ⟨_, hclose⟩
          · rw [hclose] at h
            cases h
            exact ⟨last, rfl⟩
          · rw [hclose] at h
            cases h
      | tooManyDigits | noEntry | undecodable | interrupted | unattached => cases h

/-- A step leaves what the rules say but for the journal, or it has only counted
its instruction. -/
theorem step_frame (htraced : r.traced = true) (hscripted : m.Scripted) :
    (∃ ideal journal, Transition m ideal ∧
      ofOutcome (step r m) = { ofOutcome ideal with journal }) ∨
    ∃ i, ofOutcome (step r m) = m.counted i := by
  have hlimited := limitedStep htraced hscripted
  generalize step r m = o at hlimited
  cases hlimited with
  | told htransition _ => exact Or.inl ⟨o, _, htransition, rfl⟩
  | message htransition _ _ => exact Or.inl ⟨_, _, htransition, rfl⟩
  | line => exact Or.inr ⟨_, rfl⟩
  | followUp hencodes hposition _ hexecution _ =>
      exact Or.inl ⟨_, _, .executed hencodes hposition hexecution, rfl⟩

/-- The journal only grows at its end. -/
theorem Transition.journal_isPrefix (h : Transition m o) :
    m.journal.toList <+: (ofOutcome o).journal.toList := by
  cases h with
  | undecodable hundecodable =>
      obtain rfl := hundecodable.next_eq
      exact List.prefix_rfl
  | @executed i _ _ _ hexecution =>
      obtain ⟨events, hevents⟩ := hexecution.journal_eq_append
      rw [hevents]
      refine ⟨m.line i :: events, ?_⟩
      simp [listed, noted, counted]

theorem LimitedStep.journal_isPrefix (h : LimitedStep r m o) :
    m.journal.toList <+: (ofOutcome o).journal.toList := by
  cases h with
  | told htransition _ => exact htransition.journal_isPrefix
  | message htransition _ _ => exact htransition.journal_isPrefix
  | line => exact List.prefix_rfl
  | @followUp i next _ _ _ hexecution _ =>
      obtain ⟨events, hevents⟩ := hexecution.journal_eq_append
      have hlist : next.journal.toList =
          m.journal.toList ++ m.line i :: events := by
        rw [show next.journal.toList = _ from hevents]
        simp [listed, noted, counted]
      simp only [ofOutcome, untold, Array.toList_pop, hlist]
      rw [List.dropLast_append_of_ne_nil (by simp)]
      exact List.prefix_append ..

theorem Transition.scripted (h : Transition m o) (hscripted : m.Scripted) :
    (ofOutcome o).Scripted := by
  cases h with
  | undecodable hundecodable =>
      simp only [ofOutcome]
      rw [hundecodable.next_eq]
      exact hscripted
  | @executed i _ _ _ hexecution =>
      have hlisted : (m.listed i).Scripted := hscripted
      exact hexecution.scripted hlisted

theorem Scripted.step (htraced : r.traced = true) (hscripted : m.Scripted) :
    (ofOutcome (Machine.step r m)).Scripted := by
  rcases step_frame htraced hscripted with
    ⟨ideal, journal, htransition, hframe⟩ | ⟨i, hframe⟩
  · rw [hframe]
    exact htransition.scripted hscripted
  · rw [hframe]
    exact hscripted

theorem Scripted.of_step_eq_ok (htraced : r.traced = true)
    (hscripted : m.Scripted) (hstep : Machine.step r m = .ok () next) :
    next.Scripted := by
  have hkept := hscripted.step htraced
  rwa [hstep] at hkept

theorem Steps.scripted (htraced : r.traced = true) (h : Steps r n m last)
    (hscripted : m.Scripted) : last.Scripted := by
  induction h with
  | refl => exact hscripted
  | cons _ hstep _ ih => exact ih (hscripted.of_step_eq_ok htraced hstep)

/-- A relation that every step keeps up, and the end of a run too. -/
structure Persists (r : Reporting) (R : Machine → Machine → Prop) :
    Prop where
  refl : ∀ m, R m m
  trans : ∀ {a b c}, R a b → R b c → R a c
  step : ∀ {m}, m.Scripted → R m (ofOutcome (step r m))
  finish : ∀ o, R (ofOutcome o) (ofOutcome (finish r o))

namespace Persists

variable {R : Machine → Machine → Prop}

theorem steps (h : Persists r R) (htraced : r.traced = true)
    (hscripted : m.Scripted) (hsteps : Steps r n m last) : R m last := by
  induction hsteps with
  | refl m => exact h.refl m
  | @cons n m next last _ hstep _ ih =>
      have hfirst := h.step hscripted
      rw [hstep] at hfirst
      exact h.trans hfirst (ih (hscripted.of_step_eq_ok htraced hstep))

/-- What persists holds between the start and the end of a run. -/
theorem run (h : Persists r R) (htraced : r.traced = true)
    (hscripted : m.Scripted) (hrun : run r fuel m = some o) :
    R m (ofOutcome o) := by
  obtain ⟨before, hloop, rfl⟩ := Option.map_eq_some_iff.mp hrun
  obtain ⟨n, _, last, hsteps, hstops⟩ := loop_eq_some_iff.mp hloop
  have hlast := h.steps htraced hscripted hsteps
  refine h.trans (h.trans hlast ?_) (h.finish before)
  cases hstops with
  | inactive => exact h.refl last
  | stopped _ hstep =>
      rw [← hstep]
      exact h.step (hsteps.scripted htraced hscripted)

end Persists

/-- The journal only grows at its end. -/
theorem persists_journal (htraced : r.traced = true) :
    Persists r fun m next => m.journal.toList <+: next.journal.toList where
  refl _ := List.prefix_rfl
  trans hab hbc := hab.trans hbc
  step hscripted := (limitedStep htraced hscripted).journal_isPrefix
  finish o := by
    obtain ⟨status, journal, hjournal, hframe⟩ := finish_frame r o
    rw [hframe]
    exact hjournal

end IntcodeMachine.Machine
