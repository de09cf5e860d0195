import IntcodeMachine.Proofs.Reach

/-!
The limit on numerals is all that sets a step apart from the same step without
a limit. A step writes at most three texts: the line of its instruction, and
then the message of its fault or the line that tells of its effect. The first
of them that holds a number beyond the limit decides what is left; without one
the two steps are the same, and so are the runs made of them.
-/

namespace IntcodeMachine

/-- A text that a step writes: the line of its instruction, the message of its
fault, or the line that tells of its effect. -/
inductive StepText where
  | line (number : Nat) (instruction : Instruction)
  | message (cause : Fault)
  | followUp (event : Event)
deriving DecidableEq

namespace StepText

def ofEvent : Event → StepText
  | .executing number i => .line number i
  | event => .followUp event

/-- The numbers whose numerals stand in the text. -/
def numbers : StepText → List Int
  | .line number i => (Event.executing number i).numbers
  | .message cause => cause.numbers
  | .followUp event => event.numbers

/-- Every number of the text fits in a numeral. -/
def Fits (text : StepText) : Prop :=
  ∀ n ∈ text.numbers, Numeral.Fits Numeral.digitLimit n

instance (text : StepText) : Decidable text.Fits :=
  inferInstanceAs (Decidable (∀ n ∈ text.numbers, _))

@[simp] theorem numbers_ofEvent (event : Event) :
    (ofEvent event).numbers = event.numbers := by
  cases event <;> rfl

end StepText

namespace Machine

variable {m next last : Machine} {o : Outcome} {n : Nat}

/-- The reporting of a machine that can write every number. -/
abbrev unlimited : Reporting := { longest := none }

/-- The texts of the events that a later machine has noted. -/
def eventTexts (m next : Machine) : List StepText :=
  (next.journal.toList.drop m.journal.size).map .ofEvent

/-- The texts of an outcome, in the order in which they are written. -/
def texts (m : Machine) : Outcome → List StepText
  | .error (.fault f) next => m.eventTexts next ++ [.message f]
  | .ok _ next | .error _ next => m.eventTexts next

/-- The first text of an outcome with a number that does not fit. -/
def firstLost? (m : Machine) (o : Outcome) : Option StepText :=
  (m.texts o).find? fun text => ¬ text.Fits

/-- What a step leaves behind when the given text is the first that cannot be
written. The line of the instruction comes before its execution; a message and
a follow-up line come after all that the step without a limit does. -/
inductive LeftBehind (m : Machine) (ideal : Outcome) :
    StepText → Machine → Prop where
  | line {number : Nat} {i : Instruction} {decoded : Machine} :
      decode {} m = .ok i decoded →
      LeftBehind m ideal (.line number i)
        { decoded with steps := decoded.steps + 1 }
  | message {f : Fault} {final : Machine} : ideal = .error (.fault f) final →
      LeftBehind m ideal (.message f) final
  | followUp {event : Event} {final : Machine} :
      ideal = .ok () (final.noted event) →
      LeftBehind m ideal (.followUp event) final

/-- The step without a limit follows the table of rules. -/
theorem transition_unlimited (hscripted : m.Scripted) :
    Transition m (step unlimited m) := by
  obtain ⟨o, h⟩ := exists_transition hscripted
  rw [step_unlimited_of_transition h]
  exact h

theorem forall_eventTexts_iff :
    (∀ text ∈ m.eventTexts next, text.Fits) ↔
      ∀ v ∈ m.numbersSince next, Numeral.Fits Numeral.digitLimit v := by
  simp only [eventTexts, StepText.Fits, List.forall_mem_map,
    StepText.numbers_ofEvent, numbersSince, List.mem_flatMap]
  constructor
  · rintro hfits v ⟨event, hevent, hv⟩
    exact hfits event hevent v hv
  · intro hfits event hevent v hv
    exact hfits v ⟨event, hevent, hv⟩

/-- All texts of an outcome fit exactly when all its numbers do. -/
theorem forall_texts_iff :
    (∀ text ∈ m.texts o, text.Fits) ↔
      ∀ v ∈ m.reported o, Numeral.Fits Numeral.digitLimit v := by
  cases o with
  | ok _ next => exact forall_eventTexts_iff
  | error stop next =>
      cases stop with
      | fault f =>
          simp only [texts, reported, List.forall_mem_append,
            forall_eventTexts_iff, List.forall_mem_singleton]
          rfl
      | halt | tooManyDigits | noEntry | undecodable | interrupted
      | unattached =>
          exact forall_eventTexts_iff

theorem eventTexts_of_append {events : List Event}
    (h : next.journal.toList = m.journal.toList ++ events) :
    m.eventTexts next = events.map .ofEvent := by
  rw [eventTexts, h, ← Array.length_toList, List.drop_left]

/-- The line of the instruction is the first text of a step that executes
one. -/
theorem texts_of_execution {i : Instruction} {op : Opcode}
    {params : List Parameter} (h : Execution (m.listed i) op params o) :
    m.texts o = .line (m.steps + 1) i :: (m.listed i).texts o := by
  obtain ⟨events, hevents⟩ := h.journal_eq_append
  have hlist : (ofOutcome o).journal.toList =
      m.journal.toList ++ m.line i :: events := by
    rw [hevents]
    simp [listed, noted, counted]
  have htexts : m.eventTexts (ofOutcome o) =
      .line (m.steps + 1) i :: (m.listed i).eventTexts (ofOutcome o) := by
    rw [eventTexts_of_append hlist, eventTexts_of_append hevents]
    rfl
  cases o with
  | ok _ next => exact htexts
  | error stop next =>
      cases stop with
      | fault f => exact congrArg (· ++ [.message f]) htexts
      | halt | tooManyDigits | noEntry | undecodable | interrupted
      | unattached => exact htexts

theorem firstLost?_eq_none_iff :
    m.firstLost? o = none ↔ ∀ text ∈ m.texts o, text.Fits := by
  simp [firstLost?]

theorem firstLost?_of_line {i : Instruction} (hscripted : m.Scripted)
    (hencodes : Encodes m.memory i) (hposition : i.position = m.ip)
    (hlost : ¬ (StepText.line (m.steps + 1) i).Fits) :
    m.firstLost? (step unlimited m) = some (.line (m.steps + 1) i) := by
  obtain ⟨o, hexecution⟩ := hscripted.exists_execution hencodes
  rw [step_unlimited_of_transition (.executed hencodes hposition hexecution),
    firstLost?, texts_of_execution hexecution]
  exact List.find?_cons_of_pos (by simpa using hlost)

theorem firstLost?_of_message {f : Fault}
    (hevents : ∀ text ∈ m.eventTexts next, text.Fits)
    (hlost : ¬ (StepText.message f).Fits) :
    m.firstLost? (.error (.fault f) next) = some (.message f) := by
  have hnone : (m.eventTexts next).find? (fun text => ¬ text.Fits) = none := by
    simpa using hevents
  rw [firstLost?, texts, List.find?_append, hnone, Option.none_or]
  exact List.find?_cons_of_pos (by simpa using hlost)

theorem eventTexts_noted {final : Machine} (h : final.journal = m.journal)
    (event : Event) : m.eventTexts (final.noted event) = [.ofEvent event] := by
  have happend : (final.noted event).journal.toList =
      m.journal.toList ++ [event] := by
    simp [noted, h]
  rw [eventTexts_of_append happend]
  rfl

/-- An operation that completes writes at most one text, and that comes last of
all it does. -/
theorem Execution.texts_of_ok {op : Opcode} {params : List Parameter}
    (h : Execution m op params (.ok () next)) :
    m.texts (.ok () next) = [] ∨
      ∃ (event : Event) (final : Machine), next = final.noted event ∧
        m.texts (.ok () next) = [.followUp event] := by
  cases h with
  | accepted | rebased => exact Or.inr ⟨_, _, rfl, eventTexts_noted rfl _⟩
  | stored | sent | jumped | passed =>
      left
      exact eventTexts_of_append (List.append_nil _).symm

theorem leftBehind_of_followUp {i : Instruction} {op : Opcode}
    {params : List Parameter}
    (hexecution : Execution (m.listed i) op params (.ok () next))
    (hline : (StepText.line (m.steps + 1) i).Fits)
    (hlost : ¬ ∀ text ∈ (m.listed i).texts (.ok () next), text.Fits) :
    ∃ text, m.firstLost? (.ok () next) = some text ∧
      LeftBehind m (.ok () next) text (untold (.ok () next)) := by
  rcases hexecution.texts_of_ok with hnone | ⟨event, final, rfl, htexts⟩
  · rw [hnone] at hlost
    simp at hlost
  · refine ⟨.followUp event, ?_, ?_⟩
    · rw [htexts, List.forall_mem_singleton] at hlost
      rw [firstLost?, texts_of_execution hexecution, htexts,
        List.find?_cons_of_neg (by simpa using hline)]
      exact List.find?_cons_of_pos (by simpa using hlost)
    · rw [untold_noted]
      exact .followUp rfl

/-- A step is the step without a limit, or the first text that does not fit
stops it and decides what is left. -/
theorem step_cases (hscripted : m.Scripted) :
    (m.firstLost? (step unlimited m) = none ∧
      step {} m = step unlimited m) ∨
    ∃ text left, m.firstLost? (step unlimited m) = some text ∧
      step {} m = .error .tooManyDigits left ∧
      LeftBehind m (step unlimited m) text left := by
  have hlimited : LimitedStep {} m (step {} m) := limitedStep rfl hscripted
  generalize step {} m = o at hlimited
  cases hlimited with
  | told htransition hwrites =>
      left
      rw [step_unlimited_of_transition htransition, firstLost?_eq_none_iff,
        forall_texts_iff]
      exact ⟨fun v hv => writes_default.mp (hwrites v hv), rfl⟩
  | @message f next htransition hevents hlost =>
      simp only [writes_default] at hevents hlost
      rw [step_unlimited_of_transition htransition]
      refine Or.inr ⟨.message f, next, ?_, rfl, .message rfl⟩
      exact firstLost?_of_message (forall_eventTexts_iff.mpr hevents) hlost
  | @line i hencodes hposition hlost =>
      simp only [writes_default] at hlost
      refine Or.inr ⟨.line (m.steps + 1) i, m.counted i, ?_, rfl, ?_⟩
      · exact firstLost?_of_line hscripted hencodes hposition hlost
      · exact .line (decode_eq_ok_iff.mpr ⟨hencodes, hposition, rfl⟩)
  | @followUp i next hencodes hposition hline hexecution hlost =>
      simp only [writes_default, ← forall_texts_iff] at hline hlost
      rw [step_unlimited_of_transition
        (.executed hencodes hposition hexecution)]
      obtain ⟨text, hfirst, hleft⟩ :=
        leftBehind_of_followUp hexecution hline hlost
      exact Or.inr ⟨text, _, hfirst, rfl, hleft⟩

theorem numbersSince_trans (hnext : m.journal.toList <+: next.journal.toList)
    (hlast : next.journal.toList <+: last.journal.toList) :
    m.numbersSince last = m.numbersSince next ++ next.numbersSince last := by
  obtain ⟨events, hevents⟩ := hnext
  obtain ⟨later, hlater⟩ := hlast
  have hall : last.journal.toList =
      m.journal.toList ++ (events ++ later) := by
    rw [← hlater, ← hevents, List.append_assoc]
  rw [numbersSince_of_append hall, numbersSince_of_append hevents.symm,
    numbersSince_of_append hlater.symm, List.flatMap_append]

/-- A row of steps is also one of steps without a limit, and all numbers in its
events fit. -/
theorem Steps.without_limit (h : Steps {} n m last) (hscripted : m.Scripted) :
    Steps unlimited n m last ∧
      ∀ v ∈ m.numbersSince last, Numeral.Fits Numeral.digitLimit v := by
  induction h with
  | refl m =>
      rw [numbersSince_of_journal_eq rfl]
      exact ⟨.refl m, by simp⟩
  | @cons n m next last hactive hstep _ ih =>
      obtain ⟨htransition, hwrites⟩ :=
        transition_of_step rfl hscripted hstep (by simp)
      have hnext : next.Scripted := htransition.scripted hscripted
      obtain ⟨hsteps, hlater⟩ := ih hnext
      have hstep : step unlimited m = .ok () next :=
        step_unlimited_of_transition htransition
      refine ⟨.cons hactive hstep hsteps, ?_⟩
      rw [numbersSince_trans htransition.journal_isPrefix
        ((persists_journal rfl).steps rfl hnext hsteps), List.forall_mem_append]
      exact ⟨fun v hv => writes_default.mp (hwrites v hv), hlater⟩

/-- Steps without a limit are taken under the limit too, as long as all numbers
in their events fit. -/
theorem Steps.under_limit (h : Steps unlimited n m last)
    (hscripted : m.Scripted)
    (hfits : ∀ v ∈ m.numbersSince last, Numeral.Fits Numeral.digitLimit v) :
    Steps {} n m last := by
  induction h with
  | refl m => exact .refl m
  | @cons n m next last hactive hstep hsteps ih =>
      have htransition : Transition m (.ok () next) := by
        rw [← hstep]
        exact transition_unlimited hscripted
      have hnext : next.Scripted := htransition.scripted hscripted
      rw [numbersSince_trans htransition.journal_isPrefix
        ((persists_journal rfl).steps rfl hnext hsteps),
        List.forall_mem_append] at hfits
      have hstep : step {} m = .ok () next := by
        apply step_of_transition rfl htransition
        intro v hv
        exact writes_default.mpr (hfits.1 v hv)
      exact .cons hactive hstep (ih hnext hfits.2)

theorem emit_unlimited (event : Event) :
    emit unlimited event m = .ok () (m.noted event) := by
  rw [emit_noted rfl, if_pos]
  intro v _
  exact Reporting.writes_of_unlimited rfl v

theorem emit_of_fits {event : Event}
    (hfits : ∀ v ∈ event.numbers, Numeral.Fits Numeral.digitLimit v) :
    emit {} event m = .ok () (m.noted event) := by
  rw [emit_noted rfl, if_pos]
  intro v hv
  exact writes_default.mpr (hfits v hv)

theorem reported_trans (hnext : m.journal.toList <+: next.journal.toList)
    (hlast : next.journal.toList <+: (ofOutcome o).journal.toList) :
    m.reported o = m.numbersSince next ++ next.reported o := by
  have hnumbers := numbersSince_trans hnext hlast
  cases o with
  | ok _ last => exact hnumbers
  | error stop last =>
      cases stop with
      | fault f =>
          simp only [ofOutcome] at hnumbers
          simp only [reported, hnumbers, List.append_assoc]
      | halt | tooManyDigits | noEntry | undecodable | interrupted
      | unattached => exact hnumbers

/-- An end whose last event can be written is noted as it is without a
limit. -/
theorem finish_of_fits
    (hfits : ∀ v ∈ (ofOutcome o).reported (finish unlimited o),
      Numeral.Fits Numeral.digitLimit v) :
    finish {} o = finish unlimited o := by
  cases o with
  | ok _ last =>
      by_cases hrunning : last.status = .running
      · simp only [finish, if_pos hrunning, close_apply, emit_unlimited,
          reported, ofOutcome, numbersSince_noted] at hfits ⊢
        exact emit_of_fits hfits
      · simp only [finish, if_neg hrunning]
  | error stop last =>
      cases stop with
      | halt =>
          simp only [finish, close_apply, emit_unlimited,
            reported, ofOutcome, numbersSince_noted] at hfits ⊢
          exact emit_of_fits hfits
      | fault f =>
          simp only [finish, dump, Action.bind_apply, close_apply,
            emit_unlimited, reported, ofOutcome, numbersSince_noted, Action.throw_apply,
            List.forall_mem_append] at hfits ⊢
          rw [emit_of_fits hfits.1]
      | tooManyDigits | noEntry | undecodable | interrupted | unattached => rfl

theorem finish_fault_unlimited (f : Fault) :
    ∃ final, finish unlimited (.error (.fault f) m) =
      .error (.fault f) final := by
  simp only [finish, dump, Action.bind_apply, close_apply, emit_unlimited,
    Action.throw_apply]
  exact ⟨_, rfl⟩

/-- The numbers of a fault are among the numbers that are reported once it is
noted. -/
theorem mem_reported_finish {v : Int} (hv : v ∈ m.reported o)
    (hjournal : m.journal.toList <+: (ofOutcome o).journal.toList) :
    v ∈ m.reported (finish unlimited o) := by
  rw [reported_trans hjournal ((persists_journal rfl).finish o)]
  cases o with
  | ok _ next => exact List.mem_append_left _ hv
  | error stop next =>
      cases stop with
      | fault f =>
          obtain ⟨final, hfinal⟩ := finish_fault_unlimited (m := next) f
          rw [hfinal]
          rcases List.mem_append.mp hv with hevents | hmessage
          · exact List.mem_append_left _ hevents
          · exact List.mem_append_right _ (List.mem_append_right _ hmessage)
      | halt | tooManyDigits | noEntry | undecodable | interrupted
      | unattached =>
          exact List.mem_append_left _ hv

theorem StopsAt.under_limit (h : StopsAt unlimited last o)
    (hscripted : last.Scripted)
    (hfits : ∀ v ∈ last.reported o, Numeral.Fits Numeral.digitLimit v) :
    StopsAt {} last o := by
  cases h with
  | inactive hinactive => exact .inactive hinactive
  | @stopped stop next hactive hstep =>
      have htransition : Transition last (.error stop next) := by
        rw [← hstep]
        exact transition_unlimited hscripted
      refine .stopped hactive (step_of_transition rfl htransition ?_)
      intro v hv
      exact writes_default.mpr (hfits v hv)

theorem StopsAt.journal_isPrefix (h : StopsAt unlimited last o)
    (hscripted : last.Scripted) :
    last.journal.toList <+: (ofOutcome o).journal.toList := by
  cases h with
  | inactive => exact List.prefix_rfl
  | stopped _ hstep =>
      have htransition := transition_unlimited hscripted
      rw [hstep] at htransition
      exact htransition.journal_isPrefix

/-- A run without a limit is the run under the limit if all that it reports
fits. -/
theorem run_of_unlimited (hscripted : m.Scripted) {fuel : Nat}
    (h : run unlimited fuel m = some o)
    (hfits : ∀ v ∈ m.reported o, Numeral.Fits Numeral.digitLimit v) :
    run {} fuel m = some o := by
  obtain ⟨before, hloop, rfl⟩ := Option.map_eq_some_iff.mp h
  obtain ⟨n, hfuel, last, hsteps, hstops⟩ := loop_eq_some_iff.mp hloop
  have hlast := hsteps.scripted rfl hscripted
  have hgrows := persists_journal (r := unlimited) rfl
  have hjournal := hgrows.steps rfl hscripted hsteps
  have hstopped := hstops.journal_isPrefix hlast
  have hfinished := hstopped.trans (hgrows.finish before)
  rw [reported_trans hjournal hfinished, List.forall_mem_append] at hfits
  have hstops' : StopsAt {} last before := by
    apply hstops.under_limit hlast
    intro v hv
    exact hfits.2 v (mem_reported_finish hv hstopped)
  rw [run_of_steps (hsteps.under_limit hscripted hfits.1) hstops' hfuel,
    finish_of_fits]
  intro v hv
  apply hfits.2 v
  rw [reported_trans hstopped (hgrows.finish before)]
  exact List.mem_append_right _ hv

theorem step_ne_tooManyDigits_unlimited (hscripted : m.Scripted)
    (left : Machine) : step unlimited m ≠ .error .tooManyDigits left := by
  intro h
  have htransition := transition_unlimited hscripted
  rw [h] at htransition
  rcases htransition.stop_cases with hstop | ⟨f, hstop⟩
  · cases hstop
  · cases hstop

/-- A numeral stops a step exactly when the step without a limit writes a text
that does not fit. -/
theorem step_tooManyDigits_iff (hscripted : m.Scripted) :
    (∃ left, step {} m = .error .tooManyDigits left) ↔
      ∃ text ∈ m.texts (step unlimited m), ¬ text.Fits := by
  constructor
  · rintro ⟨left, hleft⟩
    rcases step_cases hscripted with ⟨_, hsame⟩ | ⟨text, _, hfirst, _, _⟩
    · rw [hsame] at hleft
      exact absurd hleft (step_ne_tooManyDigits_unlimited hscripted left)
    · have hlost := List.find?_some hfirst
      exact ⟨text, List.mem_of_find?_eq_some hfirst, by simpa using hlost⟩
  · rintro ⟨text, htext, hlost⟩
    rcases step_cases hscripted with ⟨hnone, _⟩ | ⟨_, left, _, hleft, _⟩
    · exact absurd (firstLost?_eq_none_iff.mp hnone text htext) hlost
    · exact ⟨left, hleft⟩

/-- A run is stopped by the first text that does not fit, after the steps that
it has in common with the run without a limit. -/
theorem run_of_lost (hscripted : m.Scripted) (hsteps : Steps unlimited n m last)
    (hfits : ∀ v ∈ m.numbersSince last, Numeral.Fits Numeral.digitLimit v)
    (hactive : last.Active)
    (hlost : ∃ text ∈ last.texts (step unlimited last), ¬ text.Fits) :
    ∃ left, step {} last = .error .tooManyDigits left ∧
      ∀ fuel > n, run {} fuel m = some (.error .tooManyDigits left) := by
  have hlast := hsteps.scripted rfl hscripted
  obtain ⟨left, hleft⟩ := (step_tooManyDigits_iff hlast).mpr hlost
  refine ⟨left, hleft, ?_⟩
  intro fuel hfuel
  rw [run_of_steps (hsteps.under_limit hscripted hfits)
    (.stopped hactive hleft) hfuel]
  rfl

/-- The limit on numerals is all that sets a machine apart from the one without
a limit. A numeral stops a step exactly when the step without a limit writes a
text that does not fit; if all fit, the two steps are the same; and the first
that does not decides what is left. So the runs have all steps in common up to
the first such text, which stops the run, and without one they end alike. -/
theorem limit_only_departure (hscripted : m.Scripted) :
    ((∃ left, step {} m = .error .tooManyDigits left) ↔
      ∃ text ∈ m.texts (step unlimited m), ¬ text.Fits) ∧
    ((∀ text ∈ m.texts (step unlimited m), text.Fits) →
      step {} m = step unlimited m) ∧
    (∀ text, m.firstLost? (step unlimited m) = some text →
      ∃ left, step {} m = .error .tooManyDigits left ∧
        LeftBehind m (step unlimited m) text left) ∧
    (∀ n last, Steps {} n m last ↔
      Steps unlimited n m last ∧
        ∀ v ∈ m.numbersSince last, Numeral.Fits Numeral.digitLimit v) ∧
    (∀ n last, Steps {} n m last → last.Active →
      (∃ text ∈ last.texts (step unlimited last), ¬ text.Fits) →
      ∃ left, step {} last = .error .tooManyDigits left ∧
        ∀ fuel > n, run {} fuel m = some (.error .tooManyDigits left)) ∧
    ∀ fuel o, run unlimited fuel m = some o →
      (∀ v ∈ m.reported o, Numeral.Fits Numeral.digitLimit v) →
      run {} fuel m = some o := by
  refine ⟨step_tooManyDigits_iff hscripted, ?_, ?_, ?_, ?_, ?_⟩
  · intro hfits
    rcases step_cases hscripted with ⟨_, hsame⟩ | ⟨text, _, hfirst, _, _⟩
    · exact hsame
    · rw [firstLost?_eq_none_iff.mpr hfits] at hfirst
      cases hfirst
  · intro text htext
    rcases step_cases hscripted with
      ⟨hnone, _⟩ | ⟨first, left, hfirst, hstep, hleft⟩
    · rw [hnone] at htext
      cases htext
    · rw [hfirst] at htext
      cases htext
      exact ⟨left, hstep, hleft⟩
  · intro n last
    constructor
    · intro hsteps
      exact hsteps.without_limit hscripted
    · rintro ⟨hsteps, hfits⟩
      exact hsteps.under_limit hscripted hfits
  · intro n last hsteps hactive hlost
    obtain ⟨hsteps, hfits⟩ := hsteps.without_limit hscripted
    exact run_of_lost hscripted hsteps hfits hactive hlost
  · intro fuel o hrun hfits
    exact run_of_unlimited hscripted hrun hfits

/-- A base beyond the limit is moved, and the line that tells of it is lost. -/
theorem limit_only_departure_moved_base :
    let m := Machine.ofProgram [9, 2, Nat.pow 10 4300] 3 (.script [])
      (.collected #[])
    let left : Machine :=
      { m.listed ⟨.adjustBase, [.position 2], 0, 0⟩ with
        base := Nat.pow 10 4300 }
    m.Scripted ∧
      m.firstLost? (step unlimited m) =
        some (.followUp (.rebased (Nat.pow 10 4300))) ∧
      step {} m = .error .tooManyDigits left ∧
      LeftBehind m (step unlimited m)
        (.followUp (.rebased (Nat.pow 10 4300))) left := by
  intro m left
  have hscripted : m.Scripted := ⟨⟨_, rfl⟩, ⟨_, rfl⟩⟩
  have hfirst : m.firstLost? (step unlimited m) =
      some (.followUp (.rebased (Nat.pow 10 4300))) := by
    decide +kernel
  have hstep : step {} m = .error .tooManyDigits left := by
    decide +kernel
  obtain ⟨other, hother, hleft⟩ :=
    (limit_only_departure hscripted).2.2.1 _ hfirst
  rw [hstep] at hother
  cases hother
  exact ⟨hscripted, hfirst, hstep, hleft⟩

end Machine

end IntcodeMachine
