import IntcodeMachine.Proofs.Semantics

/-!
Operations follow the table of rules. Whatever its parameters, an operation has
an outcome by a rule, and executing it gives that outcome as far as its numbers
can be written. A fault that cannot be written keeps its machine, and a
follow-up line that cannot be written is lost after its effect.
-/

namespace IntcodeMachine

namespace Parameter

variable {memory : Memory} {base : Int} {p : Parameter}

/-- The parameter has one of the three modes. -/
def Tagged (p : Parameter) : Prop :=
  ∃ mode : Mode, p = mode.tag p.value

theorem address_of_names {address : Int} (h : p.Names base address) :
    p.address base = .ok address := by
  cases h <;> rfl

theorem operand_of_standsFor {v : Int} (h : p.StandsFor memory base v) :
    p.operand memory base = .ok v := by
  cases h with
  | word => rfl
  | cell hnames hcell =>
      have hread := Memory.read_eq_ok_iff.mpr hcell
      cases hnames <;> exact hread

theorem operand_of_misses {address : Int} (h : p.Misses memory base address) :
    p.operand memory base = .error (.outOfBounds address) := by
  obtain ⟨hnames, hout⟩ := h
  have hread := Memory.read_eq_error_iff.mpr ⟨hout, rfl⟩
  cases hnames <;> exact hread

theorem Tagged.names_or_immediate (h : p.Tagged) (base : Int) :
    (∃ address, p.Names base address) ∨ ∃ v, p = .immediate v := by
  obtain ⟨mode, hmode⟩ := h
  rw [hmode]
  cases mode with
  | position => exact Or.inl ⟨_, .position _⟩
  | immediate => exact Or.inr ⟨_, rfl⟩
  | relative => exact Or.inl ⟨_, .relative _⟩

theorem Tagged.standsFor_or_misses (h : p.Tagged) (memory : Memory)
    (base : Int) :
    (∃ v, p.StandsFor memory base v) ∨
      ∃ address, p.Misses memory base address := by
  rcases h.names_or_immediate base with ⟨address, hnames⟩ | ⟨v, rfl⟩
  · by_cases hin : memory.InBounds address
    · obtain ⟨v, hv⟩ := Memory.exists_get? hin
      exact Or.inl ⟨v, .cell hnames hv⟩
    · exact Or.inr ⟨address, hnames, hin⟩
  · exact Or.inl ⟨v, .word v⟩

end Parameter

theorem Encodes.tagged {memory : Memory} {i : Instruction}
    (h : Encodes memory i) {p : Parameter} (hp : p ∈ i.params) :
    p.Tagged := by
  obtain ⟨index, hindex⟩ := List.mem_iff_getElem?.mp hp
  obtain ⟨mode, htag, _, _⟩ := h.params index p hindex
  exact ⟨mode, htag⟩

namespace Effect

variable {memory : Memory} {base : Int} {p q target : Parameter}

theorem combine_apply (f : Int → Int → Int) :
    combine memory base [p, q, target] f =
      (do
        let d ← target.address base
        let a ← p.operand memory base
        let b ← q.operand memory base
        memory.check d
        return .store d (f a b)) := rfl

theorem jumpWhen_apply (test : Int → Bool) :
    jumpWhen memory base [p, q] test =
      (do
        if test (← p.operand memory base) then
          return .jump (← q.operand memory base)
        else return .proceed) := rfl

theorem acceptAt_apply :
    acceptAt memory base [target] =
      (do
        let d ← target.address base
        memory.check d
        return .accept d) := rfl

end Effect

theorem Memory.check_of_inBounds {memory : Memory} {address : Int}
    (h : memory.InBounds address) : memory.check address = .ok () :=
  if_pos h

theorem Memory.check_of_not_inBounds {memory : Memory} {address : Int}
    (h : ¬ memory.InBounds address) :
    memory.check address = .error (.outOfBounds address) :=
  if_neg h

namespace Opcode

variable {memory : Memory} {base : Int} {op : Opcode} {p q target : Parameter}

theorem Combines.effect_eq {f : Int → Int → Int} (h : op.Combines f)
    (params : List Parameter) :
    op.effect params memory base = Effect.combine memory base params f := by
  cases h with
  | add => rfl
  | multiply => rfl
  | lessThan => simp [effect, truth]
  | equals => simp [effect, truth]

theorem Combines.effect_of_standsFor {f : Int → Int → Int} {d a b : Int}
    (h : op.Combines f) (hnames : target.Names base d)
    (hp : p.StandsFor memory base a) (hq : q.StandsFor memory base b)
    (hin : memory.InBounds d) :
    op.effect [p, q, target] memory base = .ok (.store d (f a b)) := by
  rw [h.effect_eq, Effect.combine_apply, Parameter.address_of_names hnames,
    Parameter.operand_of_standsFor hp, Parameter.operand_of_standsFor hq]
  simp only [bind, Except.bind, Memory.check_of_inBounds hin]
  rfl

theorem effect_input_of_names {d : Int} (hnames : target.Names base d)
    (hin : memory.InBounds d) :
    Opcode.input.effect [target] memory base = .ok (.accept d) := by
  simp only [effect, Effect.acceptAt_apply,
    Parameter.address_of_names hnames, bind, Except.bind,
    Memory.check_of_inBounds hin]
  rfl

theorem effect_output_of_standsFor {v : Int}
    (hp : p.StandsFor memory base v) :
    Opcode.output.effect [p] memory base = .ok (.send v) :=
  congrArg (Effect.send <$> ·) (Parameter.operand_of_standsFor hp)

theorem effect_adjustBase_of_standsFor {v : Int}
    (hp : p.StandsFor memory base v) :
    Opcode.adjustBase.effect [p] memory base = .ok (.rebase v) :=
  congrArg (Effect.rebase <$> ·) (Parameter.operand_of_standsFor hp)

theorem Tests.effect_of_misses {test : Int → Prop} {address : Int}
    (h : op.Tests test) (hp : p.Misses memory base address) :
    op.effect [p, q] memory base = .error (.outOfBounds address) := by
  have hoperand := Parameter.operand_of_misses hp
  cases h <;> simp only [effect, Effect.jumpWhen_apply, hoperand] <;> rfl

theorem Tests.effect_of_passes {test : Int → Prop} {a : Int}
    (h : op.Tests test) (hp : p.StandsFor memory base a) (htest : test a) :
    op.effect [p, q] memory base = .jump <$> q.operand memory base := by
  have hoperand := Parameter.operand_of_standsFor hp
  cases h with
  | jumpIfTrue =>
      simp only [effect, Effect.jumpWhen_apply, hoperand, bind, Except.bind,
        decide_eq_true htest]
      cases q.operand memory base <;> rfl
  | jumpIfFalse =>
      simp only [effect, Effect.jumpWhen_apply, hoperand, bind, Except.bind,
        decide_eq_true htest]
      cases q.operand memory base <;> rfl

theorem Tests.effect_of_fails {test : Int → Prop} {a : Int}
    (h : op.Tests test) (hp : p.StandsFor memory base a) (htest : ¬ test a) :
    op.effect [p, q] memory base = .ok .proceed := by
  have hoperand := Parameter.operand_of_standsFor hp
  cases h <;>
    simp only [effect, Effect.jumpWhen_apply, hoperand, bind, Except.bind,
      decide_eq_false htest] <;> rfl

theorem effect_of_refuses {params : List Parameter} {f : Fault}
    (h : Refuses memory base op params f) :
    op.effect params memory base = .error f := by
  cases h with
  | resultImmediate hop =>
      rw [hop.effect_eq]
      rfl
  | firstOperand hop hnames hp =>
      rw [hop.effect_eq, Effect.combine_apply,
        Parameter.address_of_names hnames, Parameter.operand_of_misses hp]
      rfl
  | secondOperand hop hnames hp hq =>
      rw [hop.effect_eq, Effect.combine_apply,
        Parameter.address_of_names hnames, Parameter.operand_of_standsFor hp,
        Parameter.operand_of_misses hq]
      rfl
  | resultCell hop hp hq htarget =>
      rw [hop.effect_eq, Effect.combine_apply,
        Parameter.address_of_names htarget.1,
        Parameter.operand_of_standsFor hp, Parameter.operand_of_standsFor hq]
      simp only [bind, Except.bind, Memory.check_of_not_inBounds htarget.2]
  | inputImmediate => rfl
  | inputCell htarget =>
      simp only [effect, Effect.acceptAt_apply,
        Parameter.address_of_names htarget.1, bind, Except.bind,
        Memory.check_of_not_inBounds htarget.2]
  | outputOperand hp =>
      have hoperand := Parameter.operand_of_misses hp
      exact congrArg (Effect.send <$> ·) hoperand
  | testedOperand hop hp => exact hop.effect_of_misses hp
  | jumpTarget hop hp htest hq =>
      rw [hop.effect_of_passes hp htest, Parameter.operand_of_misses hq]
      rfl
  | baseOperand hp =>
      have hoperand := Parameter.operand_of_misses hp
      exact congrArg (Effect.rebase <$> ·) hoperand

end Opcode

namespace Machine

variable {r : Reporting} {m : Machine}

theorem numbersSince_of_append {next : Machine} {events : List Event}
    (h : next.journal.toList = m.journal.toList ++ events) :
    m.numbersSince next = events.flatMap Event.numbers := by
  rw [numbersSince, h, ← Array.length_toList, List.drop_left]

theorem numbersSince_of_journal_eq {next : Machine}
    (h : next.journal = m.journal) : m.numbersSince next = [] := by
  have happend : next.journal.toList = m.journal.toList ++ [] := by
    rw [h, List.append_nil]
  rw [numbersSince_of_append happend]
  rfl

theorem numbersSince_noted {next : Machine} (h : next.journal = m.journal)
    (event : Event) : m.numbersSince (next.noted event) = event.numbers := by
  have happend : (next.noted event).journal.toList =
      m.journal.toList ++ [event] := by
    simp [noted, h]
  rw [numbersSince_of_append happend]
  simp

/-- The machine that is left when the last text of an outcome cannot be
written: that of the fault, or the one before the event was noted. -/
def untold : Outcome → Machine
  | .ok _ next => { next with journal := next.journal.pop }
  | .error _ next => next

@[simp] theorem untold_noted (next : Machine) (event : Event) :
    untold (.ok () (next.noted event)) = next := by
  simp [untold, noted]

theorem readInput_of_script {entry : Entry} {queue : List Entry}
    (hinput : m.input = .script (entry :: queue)) :
    readInput m =
      match entry.value with
      | .ok v => .ok v { m with input := .script queue }
      | .error f => .error (.fault f) { m with input := .script queue } := by
  have hprompt : m.prompt = m := by
    simp [prompt, hinput, Input.promptText]
  rw [readInput_apply, hprompt, hinput, Input.read]
  cases entry.value <;> rfl

theorem readInput_of_exhausted (hinput : m.input = .script []) :
    readInput m = .error (.fault .inputExhausted) m := by
  have hprompt : m.prompt = m := by
    simp [prompt, hinput, Input.promptText]
  rw [readInput_apply, hprompt, hinput, Input.read, ← hinput]

theorem apply_accept (d : Int) :
    apply r (.accept d) m =
      match readInput m with
      | .ok v next =>
          emit r (.stored d v) { next with memory := next.memory.set d v }
      | .error stop next => .error stop next := by
  simp only [apply, Action.bind_apply]
  cases readInput m <;> rfl

theorem emit_noted (htraced : r.traced = true) (event : Event) :
    emit r event m =
      if ∀ n ∈ event.numbers, r.Writes n then .ok () (m.noted event)
      else .error .tooManyDigits m := by
  rw [emit_apply, if_pos htraced]
  rfl

/-- An outcome without numbers is not changed by a limit on numerals. -/
theorem ite_of_reported_eq_nil {o other : Outcome} (h : m.reported o = []) :
    (if ∀ n ∈ m.reported o, r.Writes n then o else other) = o := by
  rw [h, if_pos]
  intro n hn
  cases hn

/-- An operation has its outcome by the rules, unless a number in it cannot be
written. -/
theorem execute_of_execution (htraced : r.traced = true) {op : Opcode}
    {params : List Parameter} {o : Outcome} (h : Execution m op params o) :
    execute r op params m =
      if ∀ n ∈ m.reported o, r.Writes n then o
      else .error .tooManyDigits (untold o) := by
  rw [execute_apply]
  cases h with
  | refused hrefuses =>
      simp only [Opcode.effect_of_refuses hrefuses, reported,
        numbersSince_of_journal_eq, List.nil_append, Reporting.stopOf]
      split <;> rfl
  | stored hop hnames hp hq hin =>
      rw [hop.effect_of_standsFor hnames hp hq hin, ite_of_reported_eq_nil]
      · rfl
      · exact numbersSince_of_journal_eq rfl
  | accepted hnames hin hinput hvalue =>
      simp only [Opcode.effect_input_of_names hnames hin, apply_accept,
        readInput_of_script hinput, hvalue, emit_noted htraced, reported,
        numbersSince_noted, untold_noted]
  | @malformed _ _ line _ hnames hin hinput hread =>
      have hvalue : (Entry.line line).value = .error
          (.inputMalformed (String.ofList (Text.trim line.toList))) := by
        simp only [Entry.value, Numeral.ofLine, hread]
      rw [Opcode.effect_input_of_names hnames hin, ite_of_reported_eq_nil]
      · simp only [apply_accept, readInput_of_script hinput, hvalue]
      · simp [reported, Fault.numbers, numbersSince_of_journal_eq]
  | exhausted hnames hin hinput =>
      rw [Opcode.effect_input_of_names hnames hin, ite_of_reported_eq_nil]
      · simp only [apply_accept, readInput_of_exhausted hinput]
      · simp [reported, Fault.numbers, numbersSince_of_journal_eq]
  | sent hp houtput =>
      rw [Opcode.effect_output_of_standsFor hp, ite_of_reported_eq_nil]
      · simp only [apply, writeOutput_apply, houtput, Output.write]
      · exact numbersSince_of_journal_eq rfl
  | jumped hop hp htest hq =>
      rw [hop.effect_of_passes hp htest, Parameter.operand_of_standsFor hq,
        ite_of_reported_eq_nil]
      · rfl
      · exact numbersSince_of_journal_eq rfl
  | passed hop hp htest =>
      rw [hop.effect_of_fails hp htest, ite_of_reported_eq_nil]
      · rfl
      · exact numbersSince_of_journal_eq rfl
  | rebased hp =>
      simp only [Opcode.effect_adjustBase_of_standsFor hp, apply,
        Action.bind_apply, Action.modify_apply, Action.get_apply,
        emit_noted htraced, reported, numbersSince_noted, untold_noted]
  | halted =>
      rw [ite_of_reported_eq_nil]
      · rfl
      · exact numbersSince_of_journal_eq rfl

theorem exists_execution_of_combines {op : Opcode} {f : Int → Int → Int}
    {params : List Parameter} (hop : op.Combines f)
    (hlength : params.length = 3) (htagged : ∀ p ∈ params, p.Tagged) :
    ∃ o, Execution m op params o := by
  match params, hlength with
  | [p, q, target], _ =>
      have hp : p.Tagged := htagged p (by simp)
      have hq : q.Tagged := htagged q (by simp)
      have htarget : target.Tagged := htagged target (by simp)
      rcases htarget.names_or_immediate m.base with ⟨d, hnames⟩ | ⟨v, rfl⟩
      · rcases hp.standsFor_or_misses m.memory m.base with
          ⟨a, ha⟩ | ⟨_, hmiss⟩
        · rcases hq.standsFor_or_misses m.memory m.base with
            ⟨b, hb⟩ | ⟨_, hmiss⟩
          · by_cases hin : m.memory.InBounds d
            · exact ⟨_, .stored hop hnames ha hb hin⟩
            · exact ⟨_, .refused (.resultCell hop ha hb ⟨hnames, hin⟩)⟩
          · exact ⟨_, .refused (.secondOperand hop hnames ha hmiss)⟩
        · exact ⟨_, .refused (.firstOperand hop hnames hmiss)⟩
      · exact ⟨_, .refused (.resultImmediate hop)⟩

theorem exists_execution_of_tests {op : Opcode} {test : Int → Prop}
    {params : List Parameter} (hop : op.Tests test)
    (hlength : params.length = 2) (htagged : ∀ p ∈ params, p.Tagged) :
    ∃ o, Execution m op params o := by
  match params, hlength with
  | [p, q], _ =>
      have hp : p.Tagged := htagged p (by simp)
      have hq : q.Tagged := htagged q (by simp)
      rcases hp.standsFor_or_misses m.memory m.base with ⟨a, ha⟩ | ⟨_, hmiss⟩
      · by_cases htest : test a
        · rcases hq.standsFor_or_misses m.memory m.base with
            ⟨b, hb⟩ | ⟨_, hmiss⟩
          · exact ⟨_, .jumped hop ha htest hb⟩
          · exact ⟨_, .refused (.jumpTarget hop ha htest hmiss)⟩
        · exact ⟨_, .passed hop ha htest⟩
      · exact ⟨_, .refused (.testedOperand hop hmiss)⟩

theorem exists_execution_input (hscripted : m.Scripted) {target : Parameter}
    (htarget : target.Tagged) : ∃ o, Execution m .input [target] o := by
  obtain ⟨⟨queue, hinput⟩, _⟩ := hscripted
  rcases htarget.names_or_immediate m.base with ⟨d, hnames⟩ | ⟨v, rfl⟩
  · by_cases hin : m.memory.InBounds d
    · cases queue with
      | nil => exact ⟨_, .exhausted hnames hin hinput⟩
      | cons entry queue =>
          cases entry with
          | number v => exact ⟨_, .accepted hnames hin hinput rfl⟩
          | line text =>
              cases hread : Numeral.read? (Text.trim text.toList) with
              | none => exact ⟨_, .malformed hnames hin hinput hread⟩
              | some v =>
                  have hvalue : (Entry.line text).value = .ok v := by
                    simp only [Entry.value, Numeral.ofLine, hread]
                  exact ⟨_, .accepted hnames hin hinput hvalue⟩
    · exact ⟨_, .refused (.inputCell ⟨hnames, hin⟩)⟩
  · exact ⟨_, .refused .inputImmediate⟩

/-- Every operation on as many parameters as it takes has an outcome. -/
theorem exists_execution (hscripted : m.Scripted) {op : Opcode}
    {params : List Parameter} (hlength : params.length = op.arity)
    (htagged : ∀ p ∈ params, p.Tagged) : ∃ o, Execution m op params o := by
  cases op with
  | add => exact exists_execution_of_combines .add hlength htagged
  | multiply => exact exists_execution_of_combines .multiply hlength htagged
  | lessThan => exact exists_execution_of_combines .lessThan hlength htagged
  | equals => exact exists_execution_of_combines .equals hlength htagged
  | jumpIfTrue => exact exists_execution_of_tests .jumpIfTrue hlength htagged
  | jumpIfFalse => exact exists_execution_of_tests .jumpIfFalse hlength htagged
  | input =>
      match params, hlength with
      | [target], _ =>
          exact exists_execution_input hscripted (htagged target (by simp))
  | output =>
      match params, hlength with
      | [p], _ =>
          have hp : p.Tagged := htagged p (by simp)
          obtain ⟨_, values, houtput⟩ := hscripted
          rcases hp.standsFor_or_misses m.memory m.base with
            ⟨v, hv⟩ | ⟨_, hmiss⟩
          · exact ⟨_, .sent hv houtput⟩
          · exact ⟨_, .refused (.outputOperand hmiss)⟩
  | adjustBase =>
      match params, hlength with
      | [p], _ =>
          have hp : p.Tagged := htagged p (by simp)
          rcases hp.standsFor_or_misses m.memory m.base with
            ⟨v, hv⟩ | ⟨_, hmiss⟩
          · exact ⟨_, .rebased hv⟩
          · exact ⟨_, .refused (.baseOperand hmiss)⟩
  | halt =>
      match params, hlength with
      | [], _ => exact ⟨_, .halted⟩

end Machine

end IntcodeMachine
