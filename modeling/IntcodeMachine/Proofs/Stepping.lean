import IntcodeMachine.Proofs.Execution

/-!
A step follows the table of rules. Every machine with scripted devices has
exactly one outcome by the rules, and the step has it as far as its numbers can
be written. Where one cannot, the first text that holds such a number decides
what is left: the line of the instruction stops the step before its execution,
a fault keeps its machine, and a follow-up line is lost after its effect.
-/

namespace IntcodeMachine.Machine

variable {r : Reporting} {m : Machine}

theorem step_of_undecodable {f : Fault} {next : Machine}
    (h : m.Undecodable f next) : step r m = .error (r.stopOf f) next := by
  rw [step_apply, decode_eq_error_iff.mpr ⟨f, h, rfl⟩]

theorem step_of_encodes (htraced : r.traced = true) {i : Instruction}
    (hencodes : Encodes m.memory i) (hposition : i.position = m.ip) :
    step r m =
      if ∀ n ∈ (m.line i).numbers, r.Writes n then
        execute r i.opcode i.params (m.listed i)
      else .error .tooManyDigits (m.counted i) := by
  rw [step_apply, decode_eq_ok_iff.mpr ⟨hencodes, hposition, rfl⟩]
  have hemit : emit r (.executing (m.steps + 1) i)
      { m with ip := m.ip + 1 + i.opcode.arity, steps := m.steps + 1 } =
        if ∀ n ∈ (m.line i).numbers, r.Writes n then .ok () (m.listed i)
        else .error .tooManyDigits (m.counted i) :=
    emit_noted htraced (m.line i)
  simp only [hemit]
  by_cases hline : ∀ n ∈ (m.line i).numbers, r.Writes n
  · rw [if_pos hline, if_pos hline]
  · rw [if_neg hline, if_neg hline]

theorem Execution.journal_eq_append {op : Opcode} {params : List Parameter}
    {o : Outcome} (h : Execution m op params o) :
    ∃ events, (ofOutcome o).journal.toList = m.journal.toList ++ events := by
  cases h with
  | accepted | rebased => exact ⟨_, Array.toList_push⟩
  | refused | stored | malformed | exhausted | sent | jumped | passed
  | halted => exact ⟨[], (List.append_nil _).symm⟩

theorem numbersSince_of_listed {i : Instruction} {next : Machine}
    {events : List Event}
    (h : next.journal.toList = (m.listed i).journal.toList ++ events) :
    m.numbersSince next =
      (m.line i).numbers ++ (m.listed i).numbersSince next := by
  have hlist : next.journal.toList =
      m.journal.toList ++ m.line i :: events := by
    rw [h]
    simp [listed, noted, counted]
  rw [numbersSince_of_append h, numbersSince_of_append hlist,
    List.flatMap_cons]

/-- What a step reports is the line of the instruction and what its execution
reports. -/
theorem reported_of_execution {i : Instruction} {op : Opcode}
    {params : List Parameter} {o : Outcome}
    (h : Execution (m.listed i) op params o) :
    m.reported o =
      (m.line i).numbers ++ (m.listed i).reported o := by
  obtain ⟨events, hevents⟩ := h.journal_eq_append
  cases o with
  | ok _ next => exact numbersSince_of_listed hevents
  | error stop next =>
      cases stop with
      | fault f =>
          have hnumbers : m.numbersSince next =
              (m.line i).numbers ++ (m.listed i).numbersSince next :=
            numbersSince_of_listed hevents
          simp only [reported]
          rw [hnumbers, List.append_assoc]
      | halt | tooManyDigits | noEntry | undecodable | interrupted
      | unattached =>
          exact numbersSince_of_listed hevents

theorem writes_reported_iff {i : Instruction} {op : Opcode}
    {params : List Parameter} {o : Outcome}
    (h : Execution (m.listed i) op params o) :
    (∀ n ∈ m.reported o, r.Writes n) ↔
      (∀ n ∈ (m.line i).numbers, r.Writes n) ∧
        ∀ n ∈ (m.listed i).reported o, r.Writes n := by
  rw [reported_of_execution h, List.forall_mem_append]

/-- A step has its outcome by the rules if all numbers in it can be
written. -/
theorem step_of_transition (htraced : r.traced = true) {o : Outcome}
    (h : Transition m o) (hwrites : ∀ n ∈ m.reported o, r.Writes n) :
    step r m = o := by
  cases h with
  | @undecodable f next hundecodable =>
      have hfault : r.stopOf f = .fault f := by
        apply Reporting.stopOf_eq_fault_iff.mpr
        refine ⟨rfl, ?_⟩
        intro n hn
        exact hwrites n (List.mem_append_right _ hn)
      rw [step_of_undecodable hundecodable, hfault]
  | @executed i _ hencodes hposition hexecution =>
      obtain ⟨hline, hrest⟩ := (writes_reported_iff hexecution).mp hwrites
      rw [step_of_encodes htraced hencodes hposition, if_pos hline,
        execute_of_execution htraced hexecution, if_pos hrest]

/-- Without a limit on numerals a step has its outcome by the rules. -/
theorem step_unlimited_of_transition {o : Outcome} (h : Transition m o) :
    step { longest := none } m = o := by
  apply step_of_transition rfl h
  intro n _
  exact Reporting.writes_of_unlimited rfl n

/-- The rules leave no choice. -/
theorem Transition.unique {o other : Outcome} (h : Transition m o)
    (hother : Transition m other) : o = other :=
  (step_unlimited_of_transition h).symm.trans
    (step_unlimited_of_transition hother)

/-- The pointer is at an instruction, or there is a reason why it is not. -/
theorem encodes_or_undecodable (m : Machine) :
    (∃ i, Encodes m.memory i ∧ i.position = m.ip) ∨
      ∃ f next, m.Undecodable f next := by
  cases hdecode : decode {} m with
  | ok i next =>
      obtain ⟨hencodes, hposition, _⟩ := decode_eq_ok_iff.mp hdecode
      exact Or.inl ⟨i, hencodes, hposition⟩
  | error stop next =>
      obtain ⟨f, hundecodable, _⟩ := decode_eq_error_iff.mp hdecode
      exact Or.inr ⟨f, next, hundecodable⟩

theorem Scripted.exists_execution (h : m.Scripted) {i : Instruction}
    (hencodes : Encodes m.memory i) :
    ∃ o, Execution (m.listed i) i.opcode i.params o := by
  have hlisted : (m.listed i).Scripted := h
  apply Machine.exists_execution hlisted hencodes.length
  intro p hp
  exact hencodes.tagged hp

/-- The rules cover every machine with scripted devices. -/
theorem exists_transition (hscripted : m.Scripted) :
    ∃ o, Transition m o := by
  rcases encodes_or_undecodable m with
    ⟨i, hencodes, hposition⟩ | ⟨f, next, hundecodable⟩
  · obtain ⟨o, hexecution⟩ := hscripted.exists_execution hencodes
    exact ⟨o, .executed hencodes hposition hexecution⟩
  · exact ⟨_, .undecodable hundecodable⟩

theorem Execution.journal_of_error {op : Opcode} {params : List Parameter}
    {stop : Stop} {next : Machine}
    (h : Execution m op params (.error stop next)) :
    next.journal = m.journal := by
  cases h <;> rfl

/-- All that a step can do when some numerals cannot be written. -/
inductive LimitedStep (r : Reporting) (m : Machine) : Outcome → Prop where
  | told {o : Outcome} : Transition m o →
      (∀ n ∈ m.reported o, r.Writes n) → LimitedStep r m o
  | message {f : Fault} {next : Machine} :
      Transition m (.error (.fault f) next) →
      (∀ n ∈ m.numbersSince next, r.Writes n) →
      ¬ (∀ n ∈ f.numbers, r.Writes n) →
      LimitedStep r m (.error .tooManyDigits next)
  | line {i : Instruction} : Encodes m.memory i → i.position = m.ip →
      ¬ (∀ n ∈ (m.line i).numbers, r.Writes n) →
      LimitedStep r m (.error .tooManyDigits (m.counted i))
  | followUp {i : Instruction} {next : Machine} : Encodes m.memory i →
      i.position = m.ip → (∀ n ∈ (m.line i).numbers, r.Writes n) →
      Execution (m.listed i) i.opcode i.params (.ok () next) →
      ¬ (∀ n ∈ (m.listed i).reported (.ok () next), r.Writes n) →
      LimitedStep r m (.error .tooManyDigits (untold (.ok () next)))

theorem limitedStep_of_execution (htraced : r.traced = true)
    {i : Instruction} {o : Outcome} (hencodes : Encodes m.memory i)
    (hposition : i.position = m.ip)
    (hexecution : Execution (m.listed i) i.opcode i.params o) :
    LimitedStep r m (step r m) := by
  have htransition := Transition.executed hencodes hposition hexecution
  rw [step_of_encodes htraced hencodes hposition]
  by_cases hline : ∀ n ∈ (m.line i).numbers, r.Writes n
  · rw [if_pos hline, execute_of_execution htraced hexecution]
    by_cases hrest : ∀ n ∈ (m.listed i).reported o, r.Writes n
    · rw [if_pos hrest]
      apply LimitedStep.told htransition
      exact (writes_reported_iff hexecution).mpr ⟨hline, hrest⟩
    · rw [if_neg hrest]
      cases o with
      | ok _ next =>
          exact .followUp hencodes hposition hline hexecution hrest
      | error stop next =>
          have hjournal := hexecution.journal_of_error
          have hnone : (m.listed i).numbersSince next = [] :=
            numbersSince_of_journal_eq hjournal
          cases stop with
          | fault f =>
              simp only [reported, hnone, List.nil_append] at hrest
              have happend : next.journal.toList =
                  (m.listed i).journal.toList ++ [] := by
                rw [hjournal, List.append_nil]
              have hnoted : m.numbersSince next = (m.line i).numbers := by
                rw [numbersSince_of_listed happend, hnone, List.append_nil]
              rw [← hnoted] at hline
              exact .message htransition hline hrest
          | halt | tooManyDigits | noEntry | undecodable | interrupted
          | unattached =>
              simp [reported, hnone] at hrest
  · rw [if_neg hline]
    exact .line hencodes hposition hline

/-- A step does nothing else than what the rules and the limit allow. -/
theorem limitedStep (htraced : r.traced = true) (hscripted : m.Scripted) :
    LimitedStep r m (step r m) := by
  rcases encodes_or_undecodable m with
    ⟨i, hencodes, hposition⟩ | ⟨f, next, hundecodable⟩
  · obtain ⟨o, hexecution⟩ := hscripted.exists_execution hencodes
    exact limitedStep_of_execution htraced hencodes hposition hexecution
  · have hjournal : next.journal = m.journal := by
      cases hundecodable <;> rfl
    have hnone := numbersSince_of_journal_eq hjournal
    have htransition := Transition.undecodable hundecodable
    rw [step_of_undecodable hundecodable, Reporting.stopOf]
    split
    · next hwrites =>
        apply LimitedStep.told htransition
        simpa [reported, hnone] using hwrites
    · next hwrites =>
        refine .message htransition ?_ hwrites
        simp [hnone]

/-- A step that no numeral stopped is a transition, and its texts could be
written. -/
theorem transition_of_step (htraced : r.traced = true)
    (hscripted : m.Scripted) {o : Outcome} (h : step r m = o)
    (hwritten : ∀ next, o ≠ .error .tooManyDigits next) :
    Transition m o ∧ ∀ n ∈ m.reported o, r.Writes n := by
  have hlimited : LimitedStep r m o := by
    rw [← h]
    exact limitedStep htraced hscripted
  cases hlimited with
  | told htransition hwrites => exact ⟨htransition, hwrites⟩
  | message | line | followUp => exact absurd rfl (hwritten _)

theorem writes_default {n : Int} :
    ({} : Reporting).Writes n ↔ Numeral.Fits Numeral.digitLimit n := by
  simp [Reporting.Writes]

/-- A step is exactly the table of rules where all numbers in its texts fit in
a numeral. -/
theorem step_eq_iff_transition (hscripted : m.Scripted)
    (hfits : ∀ o, Transition m o → ∀ n ∈ m.reported o,
      Numeral.Fits Numeral.digitLimit n)
    (o : Outcome) : step {} m = o ↔ Transition m o := by
  have hstep (other : Outcome) (h : Transition m other) :
      step {} m = other := by
    apply step_of_transition rfl h
    intro n hn
    exact writes_default.mpr (hfits other h n hn)
  constructor
  · intro ho
    obtain ⟨other, hother⟩ := exists_transition hscripted
    have heq : o = other := ho.symm.trans (hstep other hother)
    rw [heq]
    exact hother
  · exact hstep o

/-- An addition may store its result over its own opcode. -/
theorem step_eq_iff_transition_own_opcode :
    let m := Machine.ofProgram [1101, 60, 39, 0] 4 (.script []) (.collected #[])
    let i : Instruction :=
      ⟨.add, [.immediate 60, .immediate 39, .position 0], 0, 11⟩
    m.Scripted ∧
      (∀ o, Transition m o → ∀ n ∈ m.reported o,
        Numeral.Fits Numeral.digitLimit n) ∧
      Transition m
        (.ok () { m.listed i with memory := ⟨#[99, 60, 39, 0]⟩ }) := by
  intro m i
  have hscripted : m.Scripted := ⟨⟨_, rfl⟩, ⟨_, rfl⟩⟩
  have hfits : ∀ o, Transition m o → ∀ n ∈ m.reported o,
      Numeral.Fits Numeral.digitLimit n := by
    intro o h
    rw [← step_unlimited_of_transition h]
    decide +kernel
  refine ⟨hscripted, hfits, ?_⟩
  exact (step_eq_iff_transition hscripted hfits _).mp
    (by decide +kernel)

end IntcodeMachine.Machine
