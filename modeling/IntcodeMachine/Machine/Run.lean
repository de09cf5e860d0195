import IntcodeMachine.Machine.Decode
import IntcodeMachine.Machine.Effect

/-!
Stepping and running. A step decodes one instruction, counts it, reports it and
executes it. A run steps until the program halts, faults or leaves the memory
at its end; leaving the memory is a normal end.
-/

namespace IntcodeMachine.Machine

variable (r : Reporting)

/-- One instruction. The status plays no part in it and does not change. -/
def step : Action Unit := do
  let i ← decode r
  modify fun m => { m with steps := m.steps + 1 }
  emit r (.executing (← get).steps i)
  execute r i.opcode i.params

/-- The given number of steps, up to the first that stops. -/
def stepMany : Nat → Action Unit
  | 0 => pure ()
  | n + 1 => do
      step r
      stepMany n

/-- A run goes on while the status is running and the instruction pointer is
below the end of the memory. -/
def Active (m : Machine) : Prop :=
  m.status = .running ∧ m.ip < m.memory.capacity

instance (m : Machine) : Decidable m.Active :=
  inferInstanceAs (Decidable (_ ∧ _))

/-- What an action left behind. -/
abbrev Outcome := EStateM.Result Stop Machine Unit

/-- The machine that an action left behind. -/
def ofOutcome : Outcome → Machine
  | .ok _ m | .error _ m => m

/-- Steps while the machine is active. Without a result the number of steps was
too small. -/
def loop : Nat → Machine → Option Outcome
  | 0, _ => none
  | fuel + 1, m =>
      if m.Active then
        match step r m with
        | .ok () next => loop fuel next
        | stopped => some stopped
      else some (.ok () m)

/-- Ends with the given status and reports it. -/
def close (status : Status) (report : Action Unit) : Action Unit := do
  modify fun m => { m with status }
  report

/-- Takes note of how the steps ended. A halt and the end of the memory are
normal; a fault is noted, reported with the registers, and passed on. -/
def finish : Outcome → Outcome
  | .ok () m =>
      if m.status = .running then
        close .halted (tell r fun m => .ranOff m.steps) m
      else .ok () m
  | .error .halt m => close .halted (tell r fun m => .halted m.steps) m
  | .error (.fault f) m =>
      (do
        close .faulted (dump r)
        throw (.fault f) : Action Unit) m
  | .error stop m => .error stop m

/-- Runs the machine, if it ends within the given number of steps. -/
def run (fuel : Nat) (m : Machine) : Option Outcome :=
  (loop r fuel m).map (finish r)

theorem step_apply (m : Machine) :
    step r m =
      match decode r m with
      | .error stop next => .error stop next
      | .ok i next =>
          match emit r (.executing (next.steps + 1) i)
            { next with steps := next.steps + 1 } with
          | .error stop last => .error stop last
          | .ok () last => execute r i.opcode i.params last := by
  simp only [step, Action.bind_apply, Action.get_apply, Action.modify_apply]
  cases decode r m with
  | error stop next => rfl
  | ok i next =>
      simp only
      cases emit r (.executing (next.steps + 1) i)
        { next with steps := next.steps + 1 } <;> rfl

/-- More steps than needed do not change an outcome. -/
theorem loop_of_le {fuel more : Nat} {m : Machine} {outcome : Outcome}
    (h : loop r fuel m = some outcome) (hle : fuel ≤ more) :
    loop r more m = some outcome := by
  induction fuel generalizing more m with
  | zero => cases h
  | succ fuel ih =>
      obtain ⟨more, rfl⟩ : ∃ n, more = n + 1 := ⟨more - 1, by omega⟩
      simp only [loop] at h ⊢
      split at h
      · next hactive =>
          rw [if_pos hactive]
          cases hstep : step r m with
          | ok _ next =>
              rw [hstep] at h
              exact ih h (by omega)
          | error stop next =>
              rw [hstep] at h
              exact h
      · next hactive =>
          rw [if_neg hactive]
          exact h

theorem run_of_le {fuel more : Nat} {m : Machine} {outcome : Outcome}
    (h : run r fuel m = some outcome) (hle : fuel ≤ more) :
    run r more m = some outcome := by
  obtain ⟨last, hlast, rfl⟩ := Option.map_eq_some_iff.mp h
  exact Option.map_eq_some_iff.mpr ⟨last, loop_of_le r hlast hle, rfl⟩

end IntcodeMachine.Machine
