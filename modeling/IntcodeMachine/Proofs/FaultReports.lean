import IntcodeMachine.Proofs.Running

/-!
A fault tells the truth about the machine that it leaves behind: the words,
digits, addresses and lines that it names are found there, right before the
pointer or at the head of the script. A failed step is atomic, so what the
fault saw during the step is still in the memory when the run has ended.
-/

namespace IntcodeMachine

/-- What a fault says about the machine that a run leaves, given the input
device as it was before the last step. -/
def Fault.TrueOf (before : Input) (final : Machine) : Fault → Prop
  | .invalidOpcode code position =>
      0 ≤ position ∧ position < final.memory.capacity ∧
        final.ip = position + 1 ∧
        (∃ word, final.memory.get? position = some word ∧
          code = opcodeOf word) ∧
        code ∉ [1, 2, 3, 4, 5, 6, 7, 8, 9, 99]
  | .invalidMode digit =>
      ∃ (word : Int) (op : Opcode),
        final.memory.get? (final.ip - 1) = some word ∧ 0 ≤ word ∧
        opcodeOf word = op.code ∧
        ∃ index < op.arity, digit = modeDigit (word / 100) index ∧
          2 < digit ∧ ∀ earlier < index, modeDigit (word / 100) earlier ≤ 2
  | .immediateDestination p =>
      ∃ word, final.memory.get? (final.ip - 1) = some word ∧
        p = .immediate word
  | .outOfBounds address => address < 0 ∨ final.memory.capacity ≤ address
  | .inputMalformed text =>
      ∃ line queue, before = .script (.line line :: queue) ∧
        final.input = .script queue ∧
        text = String.ofList (Text.trim line.toList)
  | .inputExhausted => final.input = .script []
  | .missingParameter _ | .inputClosed | .inputFailed _ => False

theorem Opcode.exists_code_eq {n : Int}
    (h : n ∈ [1, 2, 3, 4, 5, 6, 7, 8, 9, 99]) : ∃ op : Opcode, n = op.code := by
  have hall : ∀ n ∈ [1, 2, 3, 4, 5, 6, 7, 8, 9, 99],
      ∃ op ∈ Opcode.all, n = op.code := by decide
  obtain ⟨op, _, hop⟩ := hall n h
  exact ⟨op, hop⟩

theorem Memory.outside_of_not_inBounds {memory : Memory} {address : Int}
    (h : ¬ memory.InBounds address) :
    address < 0 ∨ memory.capacity ≤ address := by
  by_cases hneg : address < 0
  · exact Or.inl hneg
  · right
    have hlt : ¬ address < memory.capacity := fun hlt => h ⟨by omega, hlt⟩
    omega

/-- The last parameter of an instruction is the word right before the next
instruction. -/
theorem Encodes.get?_last {memory : Memory} {i : Instruction} {p : Parameter}
    (h : Encodes memory i) (hlast : i.params.getLast? = some p) :
    memory.get? (i.position + i.opcode.arity) = some p.value := by
  rw [List.getLast?_eq_getElem?] at hlast
  obtain ⟨_, _, hcell, _⟩ := h.params _ p hlast
  have hpos : i.params.length - 1 < i.params.length :=
    (List.getElem?_eq_some_iff.mp hlast).1
  have hlength := h.length
  have haddress : i.position + 1 + ((i.params.length - 1 : Nat) : Int) =
      i.position + i.opcode.arity := by
    omega
  rw [← haddress]
  exact hcell

/-- An operation is refused for an immediate destination, which is its last
parameter, or for a cell that is missing. -/
theorem Refuses.fault_cases {memory : Memory} {base : Int} {op : Opcode}
    {params : List Parameter} {f : Fault}
    (h : Refuses memory base op params f) :
    (∃ v, params.getLast? = some (.immediate v) ∧
      f = .immediateDestination (.immediate v)) ∨
    ∃ address, f = .outOfBounds address ∧ ¬ memory.InBounds address := by
  cases h with
  | resultImmediate | inputImmediate => exact Or.inl ⟨_, rfl, rfl⟩
  | firstOperand _ _ hmiss => exact Or.inr ⟨_, rfl, hmiss.2⟩
  | secondOperand _ _ _ hmiss => exact Or.inr ⟨_, rfl, hmiss.2⟩
  | resultCell _ _ _ hmiss => exact Or.inr ⟨_, rfl, hmiss.2⟩
  | inputCell hmiss => exact Or.inr ⟨_, rfl, hmiss.2⟩
  | outputOperand hmiss => exact Or.inr ⟨_, rfl, hmiss.2⟩
  | testedOperand _ hmiss => exact Or.inr ⟨_, rfl, hmiss.2⟩
  | jumpTarget _ _ _ hmiss => exact Or.inr ⟨_, rfl, hmiss.2⟩
  | baseOperand hmiss => exact Or.inr ⟨_, rfl, hmiss.2⟩

namespace Machine

variable {m next last : Machine} {f : Fault}

theorem Undecodable.trueOf (h : m.Undecodable f next) :
    f.TrueOf m.input next := by
  cases h with
  | word hout => exact Memory.outside_of_not_inBounds hout
  | @opcode word hword hall =>
      have hin := Memory.inBounds_of_get? hword
      refine ⟨hin.1, hin.2, rfl, ⟨word, hword, rfl⟩, ?_⟩
      intro hmem
      obtain ⟨op, hop⟩ := Opcode.exists_code_eq hmem
      exact hall op hop
  | @parameter op modes index _ hmodes hword hindex hearlier hlacks =>
      cases hlacks with
      | cell hout => exact Memory.outside_of_not_inBounds hout
      | mode _ hdigit =>
          have hpos := op.code_pos
          have hcode : opcodeOf (op.code + opcodeBase * modes) = op.code :=
            Opcode.ofCode?_eq_some_iff.mp (op.ofCode?_opcodeOf_code_add hmodes)
          have hdigits : (op.code + opcodeBase * modes) / 100 = modes :=
            op.modesOf_code_add modes
          refine ⟨op.code + opcodeBase * modes, op, ?_, ?_, hcode, index,
            hindex, ?_, hdigit, ?_⟩
          · change m.memory.get? (m.ip + 1 - 1) = _
            rw [Int.add_sub_cancel]
            exact hword
          · unfold opcodeBase
            omega
          · rw [hdigits]
          · intro earlier hlt
            rw [hdigits]
            exact (hearlier earlier hlt).2

theorem Execution.trueOf {i : Instruction} {op : Opcode}
    {params : List Parameter} (hencodes : Encodes m.memory i)
    (hposition : i.position = m.ip) (hparams : i.params = params)
    (h : Execution (m.listed i) op params (.error (.fault f) next)) :
    f.TrueOf m.input next := by
  cases h with
  | refused hrefuses =>
      rcases hrefuses.fault_cases with ⟨v, hlast, rfl⟩ | ⟨address, rfl, hout⟩
      · rw [← hparams] at hlast
        refine ⟨v, ?_, rfl⟩
        have hcell := hencodes.get?_last hlast
        have haddress : m.ip + 1 + i.opcode.arity - 1 =
            i.position + i.opcode.arity := by
          omega
        change m.memory.get? (m.ip + 1 + i.opcode.arity - 1) = some v
        rw [haddress]
        exact hcell
      · exact Memory.outside_of_not_inBounds hout
  | malformed _ _ hinput _ => exact ⟨_, _, hinput, rfl, rfl⟩
  | exhausted _ _ hinput => exact hinput

/-- The fault of a step is true of the machine that the step leaves. -/
theorem Transition.trueOf (h : Transition m (.error (.fault f) next)) :
    f.TrueOf m.input next := by
  cases h with
  | undecodable hundecodable => exact hundecodable.trueOf
  | executed hencodes hposition hexecution =>
      exact hexecution.trueOf hencodes hposition rfl

/-- Every fault that a run reports is true of the machine that the run
leaves. -/
theorem run_fault_trueOf {fuel : Nat} {final : Machine}
    (hrunning : m.status = .running) (hscripted : m.Scripted)
    (h : run {} fuel m = some (.error (.fault f) final)) :
    ∃ n last next, Steps {} n m last ∧
      step {} last = .error (.fault f) next ∧ f.TrueOf last.input final := by
  have hready : Ready m := ⟨hrunning, hscripted⟩
  generalize ho : EStateM.Result.error (Stop.fault f) final = o at h
  cases ending_of_run hready h with
  | ranOff | untoldRanOff | halted | undumped | unwritten => cases ho
  | @faulted n last next _ hsteps hstep =>
      cases ho
      refine ⟨n, last, next, hsteps, hstep, ?_⟩
      obtain ⟨htransition, _⟩ := transition_of_step rfl
        (hready.steps hsteps).scripted hstep (by simp)
      have htrue := htransition.trueOf
      cases f <;> exact htrue

/-- A program may write the word whose second mode a fault names. -/
theorem run_fault_trueOf_written_mode :
    let m := Machine.ofProgram [1101, 3001, 1, 4] 7 (.script [.number 5])
      (.collected #[])
    let final : Machine :=
      { memory := ⟨#[1101, 3001, 1, 4, 3002, 0, 0]⟩
        ip := 5
        status := .faulted
        steps := 1
        input := .script [.number 5]
        output := .collected #[]
        journal := #[
          .executing 1
            ⟨.add, [.immediate 3001, .immediate 1, .position 4], 0, 11⟩,
          .registers 5 0 .faulted 1] }
    m.status = .running ∧ m.Scripted ∧
      run {} 2 m = some (.error (.fault (.invalidMode 3)) final) ∧
      ∃ n last next, Steps {} n m last ∧
        step {} last = .error (.fault (.invalidMode 3)) next ∧
        (Fault.invalidMode 3).TrueOf last.input final := by
  intro m final
  have hscripted : m.Scripted := ⟨⟨_, rfl⟩, ⟨_, rfl⟩⟩
  have hrun : run {} 2 m =
      some (.error (.fault (.invalidMode 3)) final) := by
    decide +kernel
  exact ⟨rfl, hscripted, hrun, run_fault_trueOf rfl hscripted hrun⟩

end Machine

end IntcodeMachine
