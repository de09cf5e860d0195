import IntcodeMachine.Proofs.Reach

/-!
Runs in lock step. A change of machines is in step with a machine if it
commutes with the machine's next step. If it is in step with every machine that
a run reaches, it commutes with the whole run: the changed machine takes the
changed steps and stops where the run stops. What the change is about is left
to those who make it.
-/

namespace IntcodeMachine.Machine

variable {r s : Reporting} {change : Machine → Machine}
  {m next last reached : Machine} {n : Nat} {o : Outcome}

/-- Changes the machine that an action left behind. -/
def mapResult {α : Type} (change : Machine → Machine) :
    EStateM.Result Stop Machine α → EStateM.Result Stop Machine α
  | .ok a m => .ok a (change m)
  | .error stop m => .error stop (change m)

@[simp] theorem mapResult_ok {α : Type} (a : α) :
    mapResult change (.ok a m) = .ok a (change m) := rfl

@[simp] theorem mapResult_error {α : Type} (stop : Stop) :
    mapResult change (.error stop m : EStateM.Result Stop Machine α) =
      .error stop (change m) := rfl

/-- The changed machine is active when the machine is, and its next step is the
changed step. -/
structure InStep (r s : Reporting) (change : Machine → Machine)
    (m : Machine) : Prop where
  active : (change m).Active ↔ m.Active
  step : m.Active → step s (change m) = mapResult change (step r m)

/-- A change that is in step with every step that completes commutes with a row
of them. -/
theorem Steps.map (hsteps : Steps r n m last)
    (hinStep : ∀ k reached next, Steps r k m reached →
      Machine.step r reached = .ok () next → InStep r s change reached) :
    Steps s n (change m) (change last) := by
  induction hsteps with
  | refl m => exact .refl _
  | @cons n m next last hactive hstep _ ih =>
      have hfirst : InStep r s change m := hinStep 0 m next (.refl m) hstep
      refine .cons (hfirst.active.mpr hactive) ?_ (ih ?_)
      · rw [hfirst.step hactive, hstep, mapResult_ok]
      · intro k reached after hreached
        exact hinStep (k + 1) reached after (.cons hactive hstep hreached)

/-- A change that is in step with all that the loop reaches commutes with the
loop. -/
theorem loop_map (hinStep : ∀ k reached, Steps r k m reached →
      InStep r s change reached) (fuel : Nat) :
    loop s fuel (change m) = (loop r fuel m).map (mapResult change) := by
  induction fuel generalizing m with
  | zero => rfl
  | succ fuel ih =>
      have hfirst : InStep r s change m := hinStep 0 m (.refl m)
      by_cases hactive : m.Active
      · rw [loop, loop, if_pos hactive, if_pos (hfirst.active.mpr hactive),
          hfirst.step hactive]
        cases hstep : step r m with
        | ok _ next =>
            apply ih
            intro k reached hreached
            exact hinStep (k + 1) reached (.cons hactive hstep hreached)
        | error stop next => rfl
      · have hinactive : ¬ (change m).Active := fun h =>
          hactive (hfirst.active.mp h)
        rw [loop, loop, if_neg hactive, if_neg hinactive]
        rfl

/-- The change leaves all that a report shows, and it makes no difference
whether a report is made before the change or after it. -/
structure KeepsReports (change : Machine → Machine) : Prop where
  ip : ∀ m, (change m).ip = m.ip
  base : ∀ m, (change m).base = m.base
  status : ∀ m, (change m).status = m.status
  steps : ∀ m, (change m).steps = m.steps
  noted : ∀ m event, change (m.noted event) = (change m).noted event
  ended : ∀ m status, change { m with status } = { change m with status }

theorem KeepsReports.emit (h : KeepsReports change) (event : Event) :
    emit r event (change m) = mapResult change (emit r event m) := by
  have hnoted := h.noted m event
  simp only [Machine.noted] at hnoted
  rw [emit_apply, emit_apply]
  split
  · split
    · rw [mapResult_ok, hnoted]
    · rfl
  · rfl

theorem KeepsReports.close (h : KeepsReports change) (status : Status)
    {event : Machine → Event}
    (hevent : event (change { m with status }) = event { m with status }) :
    close status (tell r event) (change m) =
      mapResult change (close status (tell r event) m) := by
  rw [close_apply, close_apply, ← h.ended, hevent]
  exact h.emit _

/-- A change that no report shows commutes with the end of a run. -/
theorem KeepsReports.finish (h : KeepsReports change) (o : Outcome) :
    finish r (mapResult change o) = mapResult change (finish r o) := by
  cases o with
  | ok _ last =>
      simp only [mapResult_ok, Machine.finish, h.status]
      split
      · apply h.close
        rw [h.steps]
      · rfl
  | error stop last =>
      cases stop with
      | halt =>
          simp only [mapResult_error, Machine.finish]
          apply h.close
          rw [h.steps]
      | fault f =>
          have hdump : Machine.close .faulted (dump r) (change last) =
              mapResult change (Machine.close .faulted (dump r) last) :=
            h.close .faulted (by rw [h.ip, h.base, h.status, h.steps])
          simp only [mapResult_error, Machine.finish, Action.bind_apply, hdump]
          cases Machine.close .faulted (dump r) last <;> rfl
      | tooManyDigits | noEntry | undecodable | interrupted | unattached => rfl

/-- A change that no report shows and that is in step with all that a run
reaches commutes with the run. -/
theorem run_map (hreports : KeepsReports change)
    (hinStep : ∀ k reached, Steps r k m reached →
      InStep r r change reached) (fuel : Nat) :
    run r fuel (change m) = (run r fuel m).map (mapResult change) := by
  rw [run, run, loop_map hinStep, Option.map_map, Option.map_map]
  congr 1
  funext o
  exact hreports.finish o

end IntcodeMachine.Machine
