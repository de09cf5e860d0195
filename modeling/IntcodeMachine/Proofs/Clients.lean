import IntcodeMachine.Proofs.Conservation

/-!
A machine in the hands of a client. The client may make any calls in any order:
run the machine, step it, decode without executing, execute without decoding,
or put more on the script, and it may go on after a call that failed. Whatever
it does, the memory keeps its size, the output and the count only grow, the
status changes in a run only, and what was put on the script is taken off it in
order, each entry once.
-/

namespace IntcodeMachine.Machine

variable {m : Machine} {consumed : List Entry}

/-- A run of a machine that is not running ends at once and does nothing. -/
theorem run_of_not_running (hstatus : m.status ≠ .running) (fuel : Nat) :
    run {} (fuel + 1) m = some (.ok () m) := by
  have hinactive : ¬ m.Active := fun hactive => hstatus hactive.1
  rw [run, loop, if_neg hinactive, Option.map_some, finish, if_neg hstatus]

/-- What a client can ask of a machine. -/
inductive Call where
  | run
  | step
  | decode
  | takeParameters (modes count : Int)
  | operand (p : Parameter)
  | address (p : Parameter)
  | execute (op : Opcode) (params : List Parameter)
  | push (entry : Entry)

/-- An outcome without the value that it gives. -/
def settled {α : Type} : EStateM.Result Stop Machine α → Outcome
  | .ok _ m => .ok () m
  | .error stop m => .error stop m

namespace Call

/-- What a call comes to, if it ends within the given number of steps. -/
def outcome? (fuel : Nat) (m : Machine) : Call → Option Outcome
  | run => Machine.run {} fuel m
  | step => some (Machine.step {} m)
  | decode => some (settled (Machine.decode {} m))
  | takeParameters modes count =>
      some (settled (Machine.takeParameters {} modes count m))
  | operand p => some (settled (attempt {} (p.operand m.memory m.base) m))
  | address p => some (settled (attempt {} (p.address m.base) m))
  | execute op params => some (Machine.execute {} op params m)
  | push entry => some (.ok () { m with input := m.input.push entry })

/-- The entries that a call takes off the script, in order. -/
def taken (fuel : Nat) (m : Machine) : Call → List Entry
  | run => (m.turns fuel).filterMap Turn.consumed?
  | step => m.turn?.toList.filterMap Turn.consumed?
  | execute op params => (m.taken? op params).toList
  | decode | takeParameters .. | operand _ | address _ | push _ => []

/-- The entry that a call puts on the script. -/
def pushed? : Call → Option Entry
  | push entry => some entry
  | _ => none

end Call

/-- A client has made the given calls, one after the other and whether they
failed or not, and they have taken the given entries off the script. -/
inductive History (start : Machine) :
    List Call → List Entry → Machine → Prop where
  | start : History start [] [] start
  | call {calls : List Call} {consumed : List Entry} {m : Machine}
      {call : Call} {fuel : Nat} {o : Outcome} :
      History start calls consumed m → call.outcome? fuel m = some o →
      History start (calls ++ [call]) (consumed ++ call.taken fuel m)
        (ofOutcome o)

theorem decode_frame (r : Reporting) (m : Machine) :
    ∃ ip, ofOutcome (settled (decode r m)) = { m with ip } := by
  cases hdecode : decode r m with
  | ok i next =>
      obtain ⟨_, _, rfl⟩ := decode_eq_ok_iff.mp hdecode
      exact ⟨_, rfl⟩
  | error stop next =>
      obtain ⟨f, hundecodable, _⟩ := decode_eq_error_iff.mp hdecode
      exact ⟨_, hundecodable.next_eq⟩

theorem takeParameters_frame (r : Reporting) (m : Machine)
    (modes count : Int) :
    ∃ ip, ofOutcome (settled (takeParameters r modes count m)) =
      { m with ip } := by
  rw [takeParameters_apply]
  cases m.memory.parameters count.toNat m.ip modes with
  | ok params => exact ⟨_, rfl⟩
  | error f => exact ⟨m.ip, rfl⟩

theorem attempt_frame {α : Type} (r : Reporting) (m : Machine)
    (result : Except Fault α) :
    ofOutcome (settled (attempt r result m)) = m := by
  cases result <;> rfl

namespace Call

variable {call : Call} {fuel : Nat} {o : Outcome}

/-- Any call but a run and a push goes on with the machine as it finds it. -/
theorem continues (hscripted : m.Scripted) (hrun : call ≠ .run)
    (hpush : call.pushed? = none) (h : call.outcome? fuel m = some o) :
    Continues m (call.taken fuel m) (ofOutcome o) := by
  cases call with
  | run => exact absurd rfl hrun
  | push entry => cases hpush
  | step =>
      cases h
      exact continues_step hscripted
  | execute op params =>
      cases h
      exact continues_execute hscripted op params
  | decode =>
      cases h
      obtain ⟨ip, hframe⟩ := decode_frame {} m
      rw [hframe]
      exact .of_registers hscripted ip m.base (Nat.le_refl _) m.journal
  | takeParameters modes count =>
      cases h
      obtain ⟨ip, hframe⟩ := takeParameters_frame {} m modes count
      rw [hframe]
      exact .of_registers hscripted ip m.base (Nat.le_refl _) m.journal
  | operand p | address p =>
      cases h
      rw [attempt_frame]
      exact .refl hscripted

/-- What a push puts on a script comes after all that is there. -/
theorem advances_push (hscripted : m.Scripted) (entry : Entry) :
    Advances m [entry] [] { m with input := m.input.push entry } := by
  obtain ⟨⟨queue, hinput⟩, houtput⟩ := hscripted
  refine ⟨⟨⟨queue ++ [entry], ?_⟩, houtput⟩, rfl, Nat.le_refl _,
    List.prefix_rfl, ?_⟩
  · rw [hinput]
    rfl
  · rw [hinput]
    rfl

theorem advances (hscripted : m.Scripted)
    (h : call.outcome? fuel m = some o) :
    Advances m call.pushed?.toList (call.taken fuel m) (ofOutcome o) := by
  cases call with
  | run => exact advances_run hscripted h
  | push entry =>
      cases h
      exact advances_push hscripted entry
  | step | decode | takeParameters | operand | address | execute =>
      exact (continues hscripted (by simp) rfl h).toAdvances

/-- The status changes in a run only, and it does not change back. -/
theorem status_cases (hscripted : m.Scripted)
    (h : call.outcome? fuel m = some o) :
    (ofOutcome o).status = m.status ∨
      (call = .run ∧ m.status = .running ∧
        ((ofOutcome o).status = .halted ∨
          (ofOutcome o).status = .faulted)) := by
  cases call with
  | run =>
      by_cases hrunning : m.status = .running
      · cases hstatus : (ofOutcome o).status with
        | running => exact Or.inl hrunning.symm
        | halted => exact Or.inr ⟨rfl, hrunning, Or.inl rfl⟩
        | faulted => exact Or.inr ⟨rfl, hrunning, Or.inr rfl⟩
      · have hmore : Machine.run {} (fuel + 1) m = some o :=
          run_of_le {} h (Nat.le_succ fuel)
        rw [run_of_not_running hrunning] at hmore
        cases hmore
        exact Or.inl rfl
  | push entry =>
      cases h
      exact Or.inl rfl
  | step | decode | takeParameters | operand | address | execute =>
      exact Or.inl (continues hscripted (by simp) rfl h).status

end Call

/-- Whatever a client does adds up over all its calls. -/
theorem History.advances {start : Machine} {calls : List Call}
    (h : History start calls consumed m) (hscripted : start.Scripted) :
    Advances start (calls.filterMap Call.pushed?) consumed m := by
  induction h with
  | start => exact .refl hscripted
  | @call calls consumed m call fuel o _ hcall ih =>
      have hpushed : (calls ++ [call]).filterMap Call.pushed? =
          calls.filterMap Call.pushed? ++ call.pushed?.toList := by
        rw [List.filterMap_append, List.filterMap_cons]
        cases call.pushed? <;> rfl
      rw [hpushed]
      exact ih.trans (call.advances ih.scripted hcall)

/-- What holds of a machine after any calls of a client, and what one more call
does to it. The memory has its size; the entries of the script and all that
were put on it are those that were taken off, followed by those that are left;
and a run of a machine that is not running ends and does nothing. The output
and the count only grow, and the status changes in a run only, from running to
another. -/
theorem history_invariants (program : List Int) (size : Int)
    (queue : List Entry) :
    let start :=
      Machine.ofProgram program size (.script queue) (.collected #[])
    ∀ calls consumed m, History start calls consumed m →
      (m.memory.capacity : Int) = max size program.length ∧
      (∃ rest, m.input = .script rest ∧
        queue ++ calls.filterMap Call.pushed? = consumed ++ rest) ∧
      (m.status ≠ .running → ∀ fuel,
        Call.outcome? (fuel + 1) m .run = some (.ok () m)) ∧
      ∀ (call : Call) fuel o, call.outcome? fuel m = some o →
        m.output.values.toList <+: (ofOutcome o).output.values.toList ∧
        m.steps ≤ (ofOutcome o).steps ∧
        ((ofOutcome o).status = m.status ∨
          (call = .run ∧ m.status = .running ∧
            ((ofOutcome o).status = .halted ∨
              (ofOutcome o).status = .faulted))) := by
  intro start calls consumed m hhistory
  have hstart : start.Scripted := ⟨⟨_, rfl⟩, ⟨_, rfl⟩⟩
  have hadvances := hhistory.advances hstart
  obtain ⟨⟨rest, hrest⟩, _⟩ := hadvances.scripted
  have hroom : start.memory.capacity = max size.toNat program.length :=
    Memory.capacity_ofProgram ..
  refine ⟨?_, ⟨rest, hrest, ?_⟩, run_of_not_running, ?_⟩
  · rw [hadvances.capacity, hroom]
    omega
  · have hscript := hadvances.script
    rw [hrest] at hscript
    exact hscript
  · intro call fuel o hcall
    have hnext := call.advances hadvances.scripted hcall
    exact ⟨hnext.output, hnext.steps,
      call.status_cases hadvances.scripted hcall⟩

/-- A refused input takes nothing; the number that is put on the script
meanwhile is read after the one that was there. -/
theorem history_invariants_refused_input :
    let start := Machine.ofProgram [3, 5, 99] 6 (.script [.number 7])
      (.collected #[])
    let calls : List Call :=
      [.execute .input [.immediate 5], .push (.line "8"), .run]
    ∃ m, History start calls [.number 7] m ∧ m.status = .halted ∧
      (m.memory.capacity : Int) = max 6 3 ∧
      (∃ rest, m.input = .script rest ∧
        [.number 7] ++ [.line "8"] = [.number 7] ++ rest) ∧
      ∀ fuel, Call.outcome? (fuel + 1) m .run = some (.ok () m) := by
  intro start calls
  let pushed : Machine :=
    { start with input := .script [.number 7, .line "8"] }
  let last : Machine := { start with
    memory := ⟨#[3, 5, 99, 0, 0, 7]⟩
    ip := 3
    status := .halted
    steps := 2
    input := .script [.line "8"]
    journal := #[.executing 1 ⟨.input, [.position 5], 0, 0⟩, .stored 5 7,
      .executing 2 ⟨.halt, [], 2, 0⟩, .halted 2] }
  have hrefused : Call.outcome? 2 start (.execute .input [.immediate 5]) =
      some (.error (.fault (.immediateDestination (.immediate 5))) start) := by
    decide +kernel
  have hpushed : Call.outcome? 2 start (.push (.line "8")) =
      some (.ok () pushed) := by
    decide +kernel
  have hrun : Call.outcome? 2 pushed .run = some (.ok () last) := by
    decide +kernel
  have htaken : Call.taken 2 pushed .run = [.number 7] := by decide +kernel
  have hhistory : History start calls [.number 7] last := by
    rw [← htaken]
    exact .call (.call (.call .start hrefused) hpushed) hrun
  obtain ⟨hcapacity, hscript, hrerun, _⟩ :=
    history_invariants [3, 5, 99] 6 [.number 7] calls _ last hhistory
  exact ⟨last, hhistory, rfl, hcapacity, hscript, hrerun (by decide)⟩

end IntcodeMachine.Machine
