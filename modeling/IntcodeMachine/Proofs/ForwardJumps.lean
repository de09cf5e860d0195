import IntcodeMachine.Proofs.Conservation

/-!
Runs whose jumps all lead forward. An instruction that does not jump moves the
pointer past itself, and a jump that leads forward moves it past its own address
too. So the room between the pointer and the end of the memory shrinks with
every step, whatever the program has written into its own code, and a run ends
before it has decoded more instructions than the memory has cells. A longer run
has taken a jump back.
-/

namespace IntcodeMachine

/-- The operation jumps on the given value of its first parameter. -/
def Opcode.jumpsOn : Opcode → Int → Bool
  | .jumpIfTrue, a => a ≠ 0
  | .jumpIfFalse, a => a = 0
  | _, _ => false

theorem Opcode.Tests.jumpsOn_iff {op : Opcode} {test : Int → Prop}
    (h : op.Tests test) (a : Int) : op.jumpsOn a = true ↔ test a := by
  cases h <;> simp [jumpsOn]

namespace Turn

variable {t : Turn} {op : Opcode} {test : Int → Prop} {p q : Parameter}
  {a target : Int}

/-- Where a jump leads that has been taken: the value of its second parameter.
A jump that is not taken leads nowhere, and neither does one that could not be
completed. -/
def target? (t : Turn) : Option Int :=
  match t.instruction.params with
  | [p, q] => do
      let a ← p.meant? t.before.memory t.before.base
      if t.completed ∧ t.instruction.opcode.jumpsOn a then
        q.meant? t.before.memory t.before.base
      else none
  | _ => none

/-- If the instruction has jumped, it has jumped past its own address. -/
def Forward (t : Turn) : Prop :=
  ∀ target ∈ t.target?, t.instruction.position < target

instance (t : Turn) : Decidable t.Forward :=
  inferInstanceAs (Decidable (∀ target ∈ t.target?, _))

theorem target?_of_length (h : t.instruction.params.length ≠ 2) :
    t.target? = none := by
  unfold target?
  split
  · next heq => simp [heq] at h
  · rfl

theorem target?_of_jumped (hop : t.instruction.opcode.Tests test)
    (hparams : t.instruction.params = [p, q]) (hcompleted : t.completed = true)
    (hp : p.StandsFor t.before.memory t.before.base a) (htest : test a)
    (hq : q.StandsFor t.before.memory t.before.base target) :
    t.target? = some target := by
  simp [target?, hparams, Parameter.meant?_of_standsFor hp,
    Parameter.meant?_of_standsFor hq, hcompleted, hop.jumpsOn_iff, htest]

theorem target?_of_passed (hop : t.instruction.opcode.Tests test)
    (hparams : t.instruction.params = [p, q])
    (hp : p.StandsFor t.before.memory t.before.base a) (htest : ¬ test a) :
    t.target? = none := by
  simp [target?, hparams, Parameter.meant?_of_standsFor hp, hop.jumpsOn_iff,
    htest]

end Turn

namespace Machine

variable {m next : Machine} {fuel : Nat} {o : Outcome}

/-- A completed instruction leaves the pointer at its target, if it has jumped,
and behind its parameters otherwise. -/
theorem Execution.ip_eq {i : Instruction} {op : Opcode}
    {params : List Parameter} (hop : i.opcode = op) (hparams : i.params = params)
    (h : Execution (m.listed i) op params (.ok () next)) :
    next.ip = (⟨m, i, true⟩ : Turn).target?.getD
      (m.ip + 1 + i.opcode.arity) := by
  cases h with
  | stored | accepted | sent | rebased =>
      rw [Turn.target?_of_length (by simp [hparams])]
      rfl
  | jumped htests hp htest hq =>
      rw [← hop] at htests
      rw [Turn.target?_of_jumped (t := ⟨m, i, true⟩) htests hparams rfl hp
        htest hq]
      rfl
  | passed htests hp htest =>
      rw [← hop] at htests
      rw [Turn.target?_of_passed (t := ⟨m, i, true⟩) htests hparams hp htest]
      rfl

/-- Where a completed step leaves the pointer. -/
theorem ip_eq_of_step (hscripted : m.Scripted)
    (hstep : step {} m = .ok () next) :
    ∃ t, m.turn? = some t ∧ t.instruction.position = m.ip ∧
      next.ip = t.target?.getD (m.ip + 1 + t.instruction.opcode.arity) := by
  obtain ⟨htransition, _⟩ := transition_of_step rfl hscripted hstep (by simp)
  cases htransition with
  | @executed i _ hencodes hposition hexecution =>
      refine ⟨⟨m, i, true⟩, ?_, hposition, hexecution.ip_eq rfl rfl⟩
      rw [turn?_of_encodes hencodes hposition, hstep]
      rfl

theorem ip_lt_of_step (hscripted : m.Scripted)
    (hforward : ∀ t ∈ m.turn?, t.Forward)
    (hstep : step {} m = .ok () next) : m.ip < next.ip := by
  obtain ⟨t, hturn, hposition, hip⟩ := ip_eq_of_step hscripted hstep
  cases htarget : t.target? with
  | none =>
      rw [htarget, Option.getD_none] at hip
      omega
  | some target =>
      rw [htarget, Option.getD_some] at hip
      have hpast := hforward t hturn target htarget
      omega

/-- The number of cells from the pointer to the end of the memory. -/
def room (m : Machine) : Nat :=
  (m.memory.capacity - m.ip).toNat

theorem room_pos_of_active (h : m.Active) : 0 < m.room := by
  have hlt := h.2
  unfold room
  omega

/-- A step that does not jump back leaves less room. -/
theorem room_lt_of_step (hscripted : m.Scripted) (hactive : m.Active)
    (hforward : ∀ t ∈ m.turn?, t.Forward)
    (hstep : step {} m = .ok () next) : next.room < m.room := by
  have hip := ip_lt_of_step hscripted hforward hstep
  have hcapacity := (continues_step hscripted).capacity
  rw [hstep, ofOutcome] at hcapacity
  have hlt := hactive.2
  unfold room
  omega

theorem forward_of_turns (hactive : m.Active)
    (hstep : step {} m = .ok () next)
    (hforward : ∀ t ∈ m.turns (fuel + 1), t.Forward) :
    (∀ t ∈ m.turn?, t.Forward) ∧ ∀ t ∈ next.turns fuel, t.Forward := by
  rw [turns_of_ok hactive hstep, List.forall_mem_append] at hforward
  refine ⟨fun t ht => hforward.1 t ?_, hforward.2⟩
  simpa using ht

/-- A run that does not jump back decodes no more instructions than there is
room for. -/
theorem length_turns_le (hscripted : m.Scripted)
    (hforward : ∀ t ∈ m.turns fuel, t.Forward) :
    (m.turns fuel).length ≤ m.room := by
  induction fuel generalizing m with
  | zero => exact Nat.zero_le _
  | succ fuel ih =>
      by_cases hactive : m.Active
      · have hone : m.turn?.toList.length ≤ 1 := by
          cases m.turn? <;> simp
        have hpos := room_pos_of_active hactive
        cases hstep : step {} m with
        | ok _ next =>
            obtain ⟨hfirst, hrest⟩ := forward_of_turns hactive hstep hforward
            have hroom := room_lt_of_step hscripted hactive hfirst hstep
            have hle := ih (hscripted.of_step_eq_ok rfl hstep) hrest
            rw [turns_of_ok hactive hstep, List.length_append]
            omega
        | error stop next =>
            rw [turns_of_error hactive hstep]
            omega
      · rw [turns_of_inactive hactive]
        exact Nat.zero_le _

/-- Steps that do not jump back come to an end. -/
theorem exists_loop_of_forward (hscripted : m.Scripted)
    (hforward : ∀ t ∈ m.turns fuel, t.Forward) (hfuel : m.room < fuel) :
    ∃ o, loop {} fuel m = some o := by
  induction fuel generalizing m with
  | zero => omega
  | succ fuel ih =>
      by_cases hactive : m.Active
      · rw [loop, if_pos hactive]
        cases hstep : step {} m with
        | ok _ next =>
            obtain ⟨hfirst, hrest⟩ := forward_of_turns hactive hstep hforward
            have hroom := room_lt_of_step hscripted hactive hfirst hstep
            exact ih (hscripted.of_step_eq_ok rfl hstep) hrest (by omega)
        | error stop next => exact ⟨_, rfl⟩
      · rw [loop, if_neg hactive]
        exact ⟨_, rfl⟩

/-- After a run has ended, more steps than it takes bring no more turns. -/
theorem turns_isPrefix_of_loop (h : loop {} fuel m = some o) (more : Nat) :
    m.turns more <+: m.turns fuel := by
  induction fuel generalizing m more with
  | zero => cases h
  | succ fuel ih =>
      cases more with
      | zero => exact List.nil_prefix
      | succ more =>
          by_cases hactive : m.Active
          · rw [loop, if_pos hactive] at h
            cases hstep : step {} m with
            | ok _ next =>
                rw [hstep] at h
                rw [turns_of_ok hactive hstep, turns_of_ok hactive hstep,
                  List.prefix_append_right_inj]
                exact ih h more
            | error stop next =>
                simp only [turns_of_error hactive hstep, List.prefix_rfl]
          · rw [turns_of_inactive hactive]
            exact List.nil_prefix

/-- A run from the start of a memory ends within as many steps as the memory
has cells if no jump that it takes leads to its own address or back. A run that
decodes more instructions than the memory has cells takes such a jump. -/
theorem run_of_forward_jumps (program : List Int) (size : Int)
    (queue : List Entry) :
    let m := Machine.ofProgram program size (.script queue) (.collected #[])
    ((∀ fuel, ∀ t ∈ m.turns fuel, t.Forward) →
      ∃ o, (∀ fuel > m.memory.capacity, run {} fuel m = some o) ∧
        (ofOutcome o).steps ≤ m.memory.capacity) ∧
    ∀ fuel, m.memory.capacity < (m.turns fuel).length →
      ∃ t ∈ m.turns fuel, ∃ target ∈ t.target?,
        target ≤ t.instruction.position := by
  intro m
  have hscripted : m.Scripted := ⟨⟨_, rfl⟩, ⟨_, rfl⟩⟩
  have hroom : m.room = m.memory.capacity := by
    have hip : m.ip = 0 := rfl
    rw [room, hip]
    omega
  constructor
  · intro hforward
    obtain ⟨before, hloop⟩ := exists_loop_of_forward hscripted
      (hforward (m.memory.capacity + 1)) (by omega)
    have hrun : run {} (m.memory.capacity + 1) m = some (finish {} before) :=
      Option.map_eq_some_iff.mpr ⟨before, hloop, rfl⟩
    refine ⟨_, fun fuel hfuel => run_of_le {} hrun hfuel, ?_⟩
    have hsteps : m.steps = 0 := rfl
    have hle := length_turns_le hscripted (hforward (m.memory.capacity + 1))
    rw [steps_of_run hscripted hrun]
    omega
  · intro fuel hlong
    by_contra hnone
    have hforward : ∀ t ∈ m.turns fuel, t.Forward := by
      intro t ht target htarget
      by_contra hback
      exact hnone ⟨t, ht, target, htarget, by omega⟩
    have hle := length_turns_le hscripted hforward
    omega

/-- A program may write a jump that leads forward over its own next word. One
that jumps to its own address decodes more instructions than it has cells. -/
theorem run_of_forward_jumps_written_jump :
    let m := Machine.ofProgram [1101, 1000, 106, 4, 99, 0, 9, 99, 99, 99] 10
      (.script []) (.collected #[])
    let idle := Machine.ofProgram [1106, 0, 0] 3 (.script []) (.collected #[])
    (∀ fuel, ∀ t ∈ m.turns fuel, t.Forward) ∧
      (m.turns 3).filterMap Turn.target? = [9] ∧
      (∃ o, (∀ fuel > 10, run {} fuel m = some o) ∧
        (ofOutcome o).steps ≤ 10) ∧
      3 < (idle.turns 4).length ∧
      ∃ t ∈ idle.turns 4, ∃ target ∈ t.target?,
        target ≤ t.instruction.position := by
  intro m idle
  have hends : (loop {} 3 m).isSome = true := by decide +kernel
  obtain ⟨o, hloop⟩ := Option.isSome_iff_exists.mp hends
  have hfirst : ∀ t ∈ m.turns 3, t.Forward := by decide +kernel
  have hforward : ∀ fuel, ∀ t ∈ m.turns fuel, t.Forward := by
    intro fuel t ht
    exact hfirst t ((turns_isPrefix_of_loop hloop fuel).subset ht)
  have hlong : 3 < (idle.turns 4).length := by decide +kernel
  have hcapacity : m.memory.capacity = 10 := by decide +kernel
  obtain ⟨o, hrun, hsteps⟩ := (run_of_forward_jumps _ 10 []).1 hforward
  rw [hcapacity] at hrun hsteps
  exact ⟨hforward, by decide +kernel, ⟨o, hrun, hsteps⟩, hlong,
    (run_of_forward_jumps [1106, 0, 0] 3 []).2 4 hlong⟩

end Machine

end IntcodeMachine
