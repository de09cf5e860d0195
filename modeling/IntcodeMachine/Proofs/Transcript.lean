import IntcodeMachine.Proofs.Accounting

/-!
The trace of a run as a transcript of its turns. Each turn has one line, with
its number in the run. A completed input and a completed move of the base have
a second line right after it, and one closing line tells how the run has ended.
There is nothing else in the trace: an instruction that cannot be decoded has no
turn, and an instruction that stops midway has its first line only.
-/

namespace IntcodeMachine

namespace Turn

variable {t : Turn} {number : Nat}

/-- What a completed instruction tells after its line: an input which number it
has stored where, a move of the base where the base is now. -/
def followUp? (t : Turn) : Option Event :=
  if t.completed then
    match t.instruction.opcode with
    | .input => t.result?.map fun (d, v) => .stored d v
    | .adjustBase => (t.operand? .adjustBase).map fun offset =>
        .rebased (t.before.base + offset)
    | _ => none
  else none

/-- The events of some turns, the first of which has the given number. -/
def transcript : Nat → List Turn → List Event
  | _, [] => []
  | number, t :: later =>
      .executing number t.instruction ::
        (t.followUp?.toList ++ transcript (number + 1) later)

theorem transcript_append (number : Nat) (turns later : List Turn) :
    transcript number (turns ++ later) =
      transcript number turns ++ transcript (number + turns.length) later := by
  induction turns generalizing number with
  | nil => rfl
  | cons t turns ih =>
      have hnumber : number + 1 + turns.length =
          number + (t :: turns).length := by
        rw [List.length_cons]
        omega
      rw [List.cons_append, transcript, ih, hnumber, transcript,
        List.cons_append, List.append_assoc]

/-- A transcript is made of lines of a trace. -/
theorem traceLine?_of_mem_transcript {turns : List Turn} {event : Event}
    (h : event ∈ transcript number turns) :
    event.traceLine? = some event.text := by
  induction turns generalizing number with
  | nil => cases h
  | cons t turns ih =>
      rw [transcript, List.mem_cons, List.mem_append] at h
      rcases h with rfl | hfollow | hlater
      · rfl
      · have hevent := Option.mem_toList.mp hfollow
        unfold followUp? at hevent
        split at hevent
        · split at hevent
          · obtain ⟨_, _, rfl⟩ := Option.map_eq_some_iff.mp hevent
            rfl
          · obtain ⟨_, _, rfl⟩ := Option.map_eq_some_iff.mp hevent
            rfl
          · cases hevent
        · cases hevent
      · exact ih hlater

theorem followUp?_of_other (hinput : t.instruction.opcode ≠ .input)
    (hbase : t.instruction.opcode ≠ .adjustBase) : t.followUp? = none := by
  unfold followUp?
  split
  · split
    · next hop => exact absurd hop hinput
    · next hop => exact absurd hop hbase
    · rfl
  · rfl

theorem followUp?_of_input {d v : Int} (hcompleted : t.completed = true)
    (hop : t.instruction.opcode = .input) (hresult : t.result? = some (d, v)) :
    t.followUp? = some (.stored d v) := by
  rw [followUp?, if_pos hcompleted, hop, hresult]
  rfl

theorem followUp?_of_adjustBase {offset : Int} (hcompleted : t.completed = true)
    (hop : t.instruction.opcode = .adjustBase)
    (hoperand : t.operand? .adjustBase = some offset) :
    t.followUp? = some (.rebased (t.before.base + offset)) := by
  rw [followUp?, if_pos hcompleted, hop, hoperand]
  rfl

/-- What the lines of a turn say is so. The memory held the instruction at its
address when it was decoded, each parameter in a word of its own; there is a
second line exactly for a completed input and a completed move of the base; and
that line tells the effect on the machine that is left. -/
structure Faithful (t : Turn) : Prop where
  encodes : Encodes t.before.memory t.instruction
  position : t.instruction.position = t.before.ip
  completed : t.completed = true ↔
    ∃ next, Machine.step {} t.before = .ok () next
  followedUp : t.followUp?.isSome = true ↔
    t.completed = true ∧ t.instruction.opcode ∈ [.input, .adjustBase]
  effect : ∀ next, Machine.step {} t.before = .ok () next →
    ∀ event ∈ t.followUp?, Machine.FollowedUp t.before.memory t.before.base
      next t.instruction.opcode event

theorem isSome_followUp?_iff (h : t.Evaluated) :
    t.followUp?.isSome = true ↔
      t.completed = true ∧ t.instruction.opcode ∈ [.input, .adjustBase] := by
  by_cases hcompleted : t.completed = true
  · obtain ⟨hoperand, hresult⟩ := h hcompleted
    rw [followUp?, if_pos hcompleted]
    cases hop : t.instruction.opcode with
    | input => simpa [hop, hcompleted] using hresult
    | adjustBase => simpa [hop, hcompleted] using hoperand
    | add | multiply | output | jumpIfTrue | jumpIfFalse | lessThan | equals
    | halt => simp
  · simp [followUp?, hcompleted]

end Turn

namespace Machine

open Turn

variable {m next last : Machine} {i : Instruction} {op : Opcode}
  {params : List Parameter} {t : Turn} {n fuel : Nat} {o before : Outcome}

theorem toList_journal_listed (m : Machine) (i : Instruction) :
    (m.listed i).journal.toList =
      m.journal.toList ++ [.executing (m.steps + 1) i] := by
  simp [listed, noted, counted, line]

/-- What a completed instruction adds to the journal after its line, and what
that event tells of the machine that is left. -/
theorem Execution.followUp (hop : i.opcode = op) (hparams : i.params = params)
    (h : Execution (m.listed i) op params (.ok () next)) :
    next.journal.toList = (m.listed i).journal.toList ++
        (⟨m, i, true⟩ : Turn).followUp?.toList ∧
      ∀ event ∈ (⟨m, i, true⟩ : Turn).followUp?,
        FollowedUp m.memory m.base next op event := by
  have hsilent (hinput : op ≠ .input) (hbase : op ≠ .adjustBase)
      (hjournal : next.journal = (m.listed i).journal) :
      next.journal.toList = (m.listed i).journal.toList ++
          (⟨m, i, true⟩ : Turn).followUp?.toList ∧
        ∀ event ∈ (⟨m, i, true⟩ : Turn).followUp?,
          FollowedUp m.memory m.base next op event := by
    rw [followUp?_of_other (by rwa [hop]) (by rwa [hop]), hjournal]
    simp
  cases h with
  | stored hcombines =>
      exact hsilent (by rintro rfl; cases hcombines) hcombines.ne_adjustBase rfl
  | jumped htests | passed htests =>
      exact hsilent (by rintro rfl; cases htests) htests.ne_adjustBase rfl
  | sent => exact hsilent (by simp) (by simp) rfl
  | accepted hnames hin hinput hvalue =>
      have htaken := taken?_of_names (t := ⟨m, i, true⟩) hop hparams hnames hin
        hinput
      rw [followUp?_of_input (t := ⟨m, i, true⟩) rfl hop
        (result?_of_taken hparams htaken hvalue hnames)]
      refine ⟨Array.toList_push, ?_⟩
      rintro event ⟨⟩
      exact .stored hin rfl
  | rebased hp =>
      rw [followUp?_of_adjustBase (t := ⟨m, i, true⟩) rfl hop
        (operand?_of_completed rfl hop hparams hp)]
      refine ⟨Array.toList_push, ?_⟩
      rintro event ⟨⟩
      exact .rebased rfl

/-- A step that no numeral stops adds the lines of its turn to the journal. -/
theorem journal_of_step (hscripted : m.Scripted) (hstep : step {} m = o)
    (hwritten : ∀ next, o ≠ .error .tooManyDigits next) :
    (ofOutcome o).journal.toList =
      m.journal.toList ++ transcript (m.steps + 1) m.turn?.toList := by
  obtain ⟨htransition, _⟩ := transition_of_step rfl hscripted hstep hwritten
  cases htransition with
  | undecodable hundecodable =>
      rw [turn?_of_undecodable hundecodable, ofOutcome, hundecodable.next_eq]
      exact (List.append_nil _).symm
  | @executed i _ hencodes hposition hexecution =>
      have hturn (completed : Bool) (events : List Event)
          (hevents : (⟨m, i, completed⟩ : Turn).followUp?.toList = events) :
          (m.listed i).journal.toList ++ events = m.journal.toList ++
            transcript (m.steps + 1) [⟨m, i, completed⟩] := by
        simp [toList_journal_listed, transcript, hevents]
      rw [turn?_of_encodes hencodes hposition, hstep]
      cases o with
      | ok _ next =>
          exact (hexecution.followUp rfl rfl).1.trans (hturn true _ rfl)
      | error stop next =>
          rw [ofOutcome, hexecution.journal_of_error]
          exact (List.append_nil _).symm.trans (hturn false [] rfl)

/-- The lines of turns that follow one another stand one after the other, since
the count goes up by one with every turn. -/
theorem turnByTurn_journal :
    TurnByTurn fun m turns o =>
      (ofOutcome o).steps = m.steps + turns.length ∧
        ((∀ next, o ≠ .error .tooManyDigits next) →
          (ofOutcome o).journal.toList =
            m.journal.toList ++ transcript (m.steps + 1) turns) where
  rest hscripted :=
    ⟨turnByTurn_steps.rest hscripted, fun _ => (List.append_nil _).symm⟩
  step hscripted :=
    ⟨turnByTurn_steps.step hscripted, journal_of_step hscripted rfl⟩
  trans {m next turns later o} hfirst hlater := by
    refine ⟨turnByTurn_steps.trans hfirst.1 hlater.1, fun hwritten => ?_⟩
    have htold := hfirst.2 (by simp)
    have hcount := hfirst.1
    rw [ofOutcome] at hcount htold
    rw [hlater.2 hwritten, htold, transcript_append, List.append_assoc, hcount,
      Nat.add_right_comm]

/-- A step that completes has a turn. -/
theorem exists_turn_of_step_ok (hstep : step {} m = .ok () next) :
    ∃ t, m.turn? = some t := by
  cases hdecode : decode {} m with
  | ok i decoded => exact ⟨_, by rw [turn?, hdecode]⟩
  | error stop decoded =>
      rw [step_apply, hdecode] at hstep
      cases hstep

theorem exists_step_of_turn? (h : m.turn? = some t) :
    t.before = m ∧ ∃ decoded, decode {} m = .ok t.instruction decoded := by
  unfold turn? at h
  split at h
  · next i decoded hdecode =>
      cases h
      exact ⟨rfl, decoded, hdecode⟩
  · cases h

/-- The turns of a run go on as those of every machine that it reaches. -/
theorem turns_of_steps (hsteps : Steps {} n m last) (fuel : Nat) :
    m.turns (n + fuel) = m.turns n ++ last.turns fuel ∧
      (m.turns n).length = n := by
  induction hsteps with
  | refl => rw [Nat.zero_add]; exact ⟨rfl, rfl⟩
  | @cons n m next last hactive hstep _ ih =>
      obtain ⟨t, hturn⟩ := exists_turn_of_step_ok hstep
      rw [show n + 1 + fuel = n + fuel + 1 by omega,
        turns_of_ok hactive hstep, turns_of_ok hactive hstep, ih.1,
        List.append_assoc, List.length_append, ih.2, hturn]
      exact ⟨rfl, Nat.add_comm 1 n⟩

theorem head?_turns (hactive : m.Active) (fuel : Nat) :
    (m.turns (fuel + 1)).head? = m.turn? := by
  cases hstep : step {} m with
  | ok _ next =>
      obtain ⟨t, hturn⟩ := exists_turn_of_step_ok hstep
      rw [turns_of_ok hactive hstep, hturn]
      rfl
  | error stop next =>
      rw [turns_of_error hactive hstep]
      cases m.turn? <;> rfl

/-- The turn at an index is that of the step which as many steps lead to. -/
theorem steps_of_getElem?_turns (h : (m.turns fuel)[n]? = some t) :
    Steps {} n m t.before ∧ t.before.turn? = some t := by
  induction fuel generalizing m n with
  | zero => cases h
  | succ fuel ih =>
      by_cases hactive : m.Active
      · cases n with
        | zero =>
            rw [← List.head?_eq_getElem?, head?_turns hactive] at h
            rw [(exists_step_of_turn? h).1]
            exact ⟨.refl m, h⟩
        | succ n =>
            cases hstep : step {} m with
            | ok _ next =>
                obtain ⟨first, hturn⟩ := exists_turn_of_step_ok hstep
                rw [turns_of_ok hactive hstep, hturn] at h
                obtain ⟨hsteps, hlast⟩ := ih h
                exact ⟨.cons hactive hstep hsteps, hlast⟩
            | error stop next =>
                rw [turns_of_error hactive hstep] at h
                cases hturn : m.turn? <;> simp [hturn] at h
      · rw [turns_of_inactive hactive] at h
        cases h

theorem active_of_turn? (hready : Ready m) (h : m.turn? = some t) :
    m.Active := by
  obtain ⟨_, decoded, hdecode⟩ := exists_step_of_turn? h
  obtain ⟨hencodes, hposition, _⟩ := decode_eq_ok_iff.mp hdecode
  have hword := hencodes.word
  rw [hposition] at hword
  exact ⟨hready.running, (Memory.inBounds_of_get? hword).2⟩

/-- The turns of a run that has ended are the instructions that its steps
decode, in order, and no others. -/
theorem getElem?_turns_iff (hready : Ready m) (h : loop {} fuel m = some o) :
    (m.turns fuel)[n]? = some t ↔
      Steps {} n m t.before ∧ t.before.turn? = some t := by
  constructor
  · exact steps_of_getElem?_turns
  · rintro ⟨hsteps, hturn⟩
    have hactive := active_of_turn? (hready.steps hsteps) hturn
    obtain ⟨more, rfl⟩ : ∃ more, fuel = n + (more + 1) := by
      have hlt := lt_of_loop_of_steps hsteps h
      exact ⟨fuel - n - 1, by omega⟩
    obtain ⟨hturns, hlength⟩ := turns_of_steps hsteps (more + 1)
    rw [hturns, List.getElem?_append_right (by omega), hlength, Nat.sub_self,
      ← List.head?_eq_getElem?, head?_turns hactive, hturn]

theorem faithful_of_mem_turns (hscripted : m.Scripted)
    (h : t ∈ m.turns fuel) : t.Faithful := by
  obtain ⟨hturn, n, hsteps⟩ := turn?_of_mem_turns h
  have hbefore := hsteps.scripted rfl hscripted
  obtain ⟨_, decoded, hdecode⟩ := exists_step_of_turn? hturn
  obtain ⟨hencodes, hposition, _⟩ := decode_eq_ok_iff.mp hdecode
  have hcompleted : t.completed = succeeds (step {} t.before) := by
    rw [turn?_of_encodes hencodes hposition] at hturn
    exact (congrArg Turn.completed (Option.some.inj hturn)).symm
  refine ⟨hencodes, hposition, ?_,
    isSome_followUp?_iff (evaluated_of_mem_turns hscripted h), ?_⟩
  · rw [hcompleted]
    cases step {} t.before <;> simp [succeeds]
  · intro next hstep
    obtain ⟨htransition, _⟩ := transition_of_step rfl hbefore hstep (by simp)
    cases htransition with
    | @executed i _ hi hiposition hexecution =>
        obtain rfl := hi.unique hencodes (hiposition.trans hposition.symm)
        have hturn : (⟨t.before, t.instruction, true⟩ : Turn) = t := by
          rw [hstep] at hcompleted
          rw [show true = t.completed from hcompleted.symm]
        have heffect := (hexecution.followUp rfl rfl).2
        rwa [hturn] at heffect

/-- The line that closes the trace of a run, by the turns of the run and the
way it has ended. -/
inductive Closes (turns : List Turn) : Outcome → Event → Prop where
  | halted {t : Turn} {final : Machine} : turns.getLast? = some t →
      t.instruction.opcode = .halt → t.completed = false →
      final.status = .halted →
      Closes turns (.ok () final) (.halted final.steps)
  | ranOff {final : Machine} : (∀ t ∈ turns, t.completed = true) →
      final.memory.capacity ≤ final.ip → final.status = .halted →
      Closes turns (.ok () final) (.ranOff final.steps)
  | faulted {f : Fault} {final : Machine} : final.status = .faulted →
      Closes turns (.error (.fault f) final)
        (.registers final.ip final.base .faulted final.steps)

/-- All instructions of a run that leaves the memory at its end have
completed. -/
theorem completed_of_mem_turns (hready : Ready m)
    (hloop : loop {} fuel m = some (.ok () last)) (h : t ∈ m.turns fuel) :
    t.completed = true := by
  obtain ⟨n, hindex⟩ := List.mem_iff_getElem?.mp h
  obtain ⟨hsteps, hturn⟩ := steps_of_getElem?_turns hindex
  have hactive := active_of_turn? (hready.steps hsteps) hturn
  have hreached := loop_of_reached hloop hsteps
  apply (faithful_of_mem_turns hready.scripted h).completed.mpr
  cases hstep : step {} t.before with
  | ok _ next => exact ⟨next, rfl⟩
  | error stop next =>
      cases fuel with
      | zero => cases hloop
      | succ fuel =>
          rw [loop, if_pos hactive, hstep] at hreached
          cases hreached

/-- A run that halts has a halt for its last turn, which does not complete. -/
theorem getLast?_turns_of_halt (hready : Ready m) (hsteps : Steps {} n m last)
    (hactive : last.Active) (hstep : step {} last = .error .halt next)
    (hfuel : n < fuel) :
    ∃ t, (m.turns fuel).getLast? = some t ∧ t.instruction.opcode = .halt ∧
      t.completed = false := by
  obtain ⟨i, hencodes, hposition, hopcode, _⟩ :=
    halt_of_step (hready.steps hsteps).scripted hstep
  obtain ⟨more, rfl⟩ : ∃ more, fuel = n + (more + 1) :=
    ⟨fuel - n - 1, by omega⟩
  refine ⟨⟨last, i, false⟩, ?_, hopcode, rfl⟩
  rw [(turns_of_steps hsteps (more + 1)).1, turns_of_error hactive hstep,
    turn?_of_encodes hencodes hposition, hstep]
  exact List.getLast?_concat

/-- The end of a run adds its closing line and nothing else to the journal. -/
theorem exists_closing (hready : Ready m) (hloop : loop {} fuel m = some before)
    (hwritten : ∀ final, finish {} before ≠ .error .tooManyDigits final) :
    ∃ closing, Closes (m.turns fuel) (finish {} before) closing ∧
      (ofOutcome (finish {} before)).journal.toList =
        (ofOutcome before).journal.toList ++ [closing] := by
  obtain ⟨n, hfuel, last, hsteps, hstops⟩ := loop_eq_some_iff.mp hloop
  have hlast := hready.steps hsteps
  cases hstops with
  | inactive hinactive =>
      have hend : last.memory.capacity ≤ last.ip := by
        have hnot : ¬ last.ip < last.memory.capacity := fun hlt =>
          hinactive ⟨hlast.running, hlt⟩
        omega
      rw [finish_inactive hlast.running] at hwritten ⊢
      split at hwritten
      · next hfits =>
          rw [if_pos hfits]
          refine ⟨.ranOff last.steps, .ranOff ?_ hend rfl, Array.toList_push⟩
          intro t ht
          exact completed_of_mem_turns hready hloop ht
      · exact absurd rfl (hwritten _)
  | @stopped stop next hactive hstep =>
      have hdigits : stop ≠ .tooManyDigits := by
        rintro rfl
        exact hwritten next rfl
      obtain ⟨htransition, _⟩ := transition_of_step rfl hlast.scripted hstep
        (by simpa using hdigits)
      rcases htransition.stop_cases with rfl | ⟨f, rfl⟩
      · obtain ⟨t, ht, hopcode, hcompleted⟩ :=
          getLast?_turns_of_halt hready hsteps hactive hstep hfuel
        have hfits : Numeral.Fits Numeral.digitLimit next.steps :=
          fits_steps_of_step hlast.scripted hstep (by simp) (by simp)
        rw [finish, close_apply, emit_noted rfl,
          if_pos (by simpa [Event.numbers, writes_default] using hfits)]
        exact ⟨.halted next.steps, .halted ht hopcode hcompleted rfl,
          Array.toList_push⟩
      · rw [finish_fault] at hwritten ⊢
        split at hwritten
        · next hfits =>
            rw [if_pos hfits]
            exact ⟨.registers next.ip next.base .faulted next.steps,
              .faulted rfl, Array.toList_push⟩
        · exact absurd rfl (hwritten _)

theorem Closes.traceLine? {turns : List Turn} {closing : Event}
    (h : Closes turns o closing) : closing.traceLine? = some closing.text := by
  cases h <;> rfl

/-- The trace of a run that no numeral stops is complete and faithful. The
turns of the run are the instructions that its steps decode, in order, and as
many as it counts; the trace is the transcript of them, numbered from one, and
one closing line; and what the transcript says of every turn is so. -/
theorem run_transcript (program : List Int) (size : Int)
    (queue : List Entry) :
    let m := Machine.ofProgram program size (.script queue) (.collected #[])
    ∀ fuel o, run {} fuel m = some o →
      (∀ final, o ≠ .error .tooManyDigits final) →
      let turns := m.turns fuel
      let final := ofOutcome o
      (∀ n t, turns[n]? = some t ↔
        Steps {} n m t.before ∧ t.before.turn? = some t) ∧
      (∀ t ∈ turns, t.Faithful) ∧
      final.steps = turns.length ∧
      ∃ closing, Closes turns o closing ∧
        final.journal.toList = transcript 1 turns ++ [closing] ∧
        final.journal.toList.filterMap Event.traceLine? =
          (transcript 1 turns ++ [closing]).map Event.text := by
  intro m fuel o hrun hwritten turns final
  have hready : Ready m := ⟨rfl, ⟨_, rfl⟩, ⟨_, rfl⟩⟩
  have hsteps : final.steps = m.steps + turns.length :=
    steps_of_run hready.scripted hrun
  obtain ⟨before, hloop, rfl⟩ := Option.map_eq_some_iff.mp hrun
  have hbefore : ∀ next, before ≠ .error .tooManyDigits next := by
    rintro next rfl
    exact hwritten next rfl
  obtain ⟨closing, hcloses, hclosed⟩ := exists_closing hready hloop hwritten
  have hjournal : final.journal.toList = transcript 1 turns ++ [closing] := by
    rw [hclosed, (turnByTurn_journal.loop hready.scripted hloop).2 hbefore]
    rfl
  refine ⟨fun n t => getElem?_turns_iff hready hloop,
    fun t ht => faithful_of_mem_turns hready.scripted ht, ?_, closing, hcloses,
    hjournal, ?_⟩
  · rw [hsteps]
    exact Nat.zero_add _
  · have hlines : ∀ event ∈ transcript 1 turns ++ [closing],
        event.traceLine? = some event.text := by
      intro event hevent
      rcases List.mem_append.mp hevent with htold | hlast
      · exact traceLine?_of_mem_transcript htold
      · rw [List.mem_singleton.mp hlast]
        exact hcloses.traceLine?
    rw [hjournal, List.filterMap_congr hlines, List.filterMap_eq_map']

/-- A program reads a number, moves the base by it and finds the script empty
at its second input. That input has a line of its own and no other. -/
theorem run_transcript_exhausted :
    let m := Machine.ofProgram [3, 7, 9, 7, 3, 0, 99] 8 (.script [.line " 5 "])
      (.collected #[])
    let lines := ["  1: 0000  03 000 INPUT [P(7)]", "\t[7] = 5",
      "  2: 0002  09 000 RELBASE [P(7)]", "\trbase = 5",
      "  3: 0004  03 000 INPUT [P(0)]",
      "IP:6 RB:5 STATE:faulted STEPS:3"]
    ∃ final, run {} 3 m = some (.error (.fault .inputExhausted) final) ∧
      final.steps = (m.turns 3).length ∧
      final.journal.toList.filterMap Event.traceLine? = lines ∧
      ∃ closing, Closes (m.turns 3) (.error (.fault .inputExhausted) final)
          closing ∧
        (transcript 1 (m.turns 3) ++ [closing]).map Event.text = lines := by
  intro m lines
  let final : Machine := { m with
    memory := ⟨#[3, 7, 9, 7, 3, 0, 99, 5]⟩
    ip := 6
    base := 5
    status := .faulted
    steps := 3
    input := .script []
    journal := #[
      .executing 1 ⟨.input, [.position 7], 0, 0⟩,
      .stored 7 5,
      .executing 2 ⟨.adjustBase, [.position 7], 2, 0⟩,
      .rebased 5,
      .executing 3 ⟨.input, [.position 0], 4, 0⟩,
      .registers 6 5 .faulted 3] }
  have hrun : run {} 3 m = some (.error (.fault .inputExhausted) final) := by
    decide +kernel
  have hlines : final.journal.toList.filterMap Event.traceLine? = lines := by
    decide +kernel
  obtain ⟨_, _, hsteps, closing, hcloses, _, htext⟩ :=
    run_transcript _ 8 [.line " 5 "] 3 _ hrun (by simp)
  exact ⟨final, hrun, hsteps, hlines, closing, hcloses,
    htext.symm.trans hlines⟩

end Machine

end IntcodeMachine
