import IntcodeMachine.Proofs.FaultReports

/-!
Which fault decoding comes to, when several things are wrong at once. The cell
of the first word comes before its opcode, the opcode before the parameters,
and an earlier parameter before a later one; of one parameter, the cell comes
before the mode digit. A fault leaves all but the pointer as it was.
-/

namespace IntcodeMachine

/-- The codes of the operations, as a list of numbers. -/
theorem Opcode.code_mem (op : Opcode) :
    op.code ∈ [1, 2, 3, 4, 5, 6, 7, 8, 9, 99] := by
  cases op <;> decide

/-- The words without an operation: those below zero, and those whose two low
digits are no code. -/
theorem Opcode.forall_opcodeOf_ne_iff {word : Int} :
    (∀ op : Opcode, opcodeOf word ≠ op.code) ↔
      word < 0 ∨ word % 100 ∉ [1, 2, 3, 4, 5, 6, 7, 8, 9, 99] := by
  by_cases hneg : word < 0
  · refine iff_of_true ?_ (Or.inl hneg)
    intro op hop
    have hpos := op.code_pos
    have hnonneg : 0 ≤ (-word).tmod 100 := Int.tmod_nonneg _ (by omega)
    rw [Int.neg_tmod] at hnonneg
    unfold opcodeOf opcodeBase at hop
    omega
  · have hcode : opcodeOf word = word % 100 :=
      Int.tmod_eq_emod_of_nonneg (by omega)
    simp only [hneg, false_or, hcode]
    constructor
    · intro hall hmem
      obtain ⟨op, hop⟩ := exists_code_eq hmem
      exact hall op hop
    · intro hnotin op hop
      rw [hop] at hnotin
      exact hnotin op.code_mem

namespace Machine

variable {r : Reporting} {m next : Machine} {f : Fault}

/-- Only the pointer moves where nothing can be decoded. -/
theorem Undecodable.eq_at_ip (h : m.Undecodable f next) :
    ∃ ip, next = { m with ip } := by
  cases h with
  | word => exact ⟨m.ip, rfl⟩
  | opcode | parameter => exact ⟨m.ip + 1, rfl⟩

/-- A fault that can be reported is reported as itself. -/
theorem decode_eq_fault_iff
    (hwrites : ∀ f next,
      decode { r with longest := none } m = .error (.fault f) next →
        ∀ n ∈ f.numbers, r.Writes n) :
    decode r m = .error (.fault f) next ↔ m.Undecodable f next := by
  constructor
  · intro h
    obtain ⟨g, hundecodable, hstop⟩ := decode_eq_error_iff.mp h
    obtain ⟨rfl, _⟩ := Reporting.stopOf_eq_fault_iff.mp hstop.symm
    exact hundecodable
  · intro h
    have hunlimited :
        decode { r with longest := none } m = .error (.fault f) next := by
      refine decode_eq_error_iff.mpr ⟨f, h, Eq.symm ?_⟩
      exact Reporting.stopOf_eq_fault_iff.mpr
        ⟨rfl, fun n _ => Reporting.writes_of_unlimited rfl n⟩
    refine decode_eq_error_iff.mpr ⟨f, h, Eq.symm ?_⟩
    exact Reporting.stopOf_eq_fault_iff.mpr
      ⟨rfl, hwrites f next hunlimited⟩

/-- No fault of a later cell names the pointer. -/
theorem undecodable_outOfBounds_iff :
    (∃ next, m.Undecodable (.outOfBounds m.ip) next) ↔
      m.ip < 0 ∨ m.memory.capacity ≤ m.ip := by
  constructor
  · rintro ⟨next, h⟩
    generalize hf : Fault.outOfBounds m.ip = f at h
    cases h with
    | word hout => exact Memory.outside_of_not_inBounds hout
    | opcode => cases hf
    | @parameter op modes index f hmodes hword hindex hearlier hlacks =>
        cases hlacks with
        | mode => cases hf
        | cell hout =>
            have haddress := Fault.outOfBounds.inj hf
            omega
  · intro hout
    refine ⟨m, .word ?_⟩
    rintro ⟨hnonneg, hlt⟩
    omega

theorem undecodable_invalidOpcode_iff {word : Int}
    (hword : m.memory.get? m.ip = some word) :
    (∃ next, m.Undecodable (.invalidOpcode (opcodeOf word) m.ip) next) ↔
      word < 0 ∨ word % 100 ∉ [1, 2, 3, 4, 5, 6, 7, 8, 9, 99] := by
  rw [← Opcode.forall_opcodeOf_ne_iff]
  constructor
  · rintro ⟨next, h⟩
    generalize hf : Fault.invalidOpcode (opcodeOf word) m.ip = f at h
    cases h with
    | word => cases hf
    | @opcode other hother hall =>
        rw [hword] at hother
        cases hother
        exact hall
    | @parameter op modes index f hmodes hword hindex hearlier hlacks =>
        cases hlacks <;> cases hf
  · intro hall
    exact ⟨_, .opcode hword hall⟩

/-- A word of an operation is its code and its mode digits. -/
theorem get?_eq_code_add {word : Int} {op : Opcode} (hnonneg : 0 ≤ word)
    (hop : word % 100 = op.code) (hword : m.memory.get? m.ip = some word) :
    0 ≤ word / 100 ∧
      m.memory.get? m.ip = some (op.code + opcodeBase * (word / 100)) := by
  refine ⟨by omega, ?_⟩
  rw [hword]
  apply congrArg some
  unfold opcodeBase
  omega

/-- The first parameter that is not good is the one that decoding names: its
cell if that is missing, or else its digit. -/
theorem undecodable_of_first {word : Int} {op : Opcode} {index : Nat}
    (hnonneg : 0 ≤ word) (hop : word % 100 = op.code)
    (hword : m.memory.get? m.ip = some word) (hindex : index < op.arity)
    (hearlier : ∀ earlier < index,
      m.memory.HasParameter (m.ip + 1) (word / 100) earlier)
    (hfirst : ¬ m.memory.HasParameter (m.ip + 1) (word / 100) index) :
    ∃ next, m.Undecodable
      (if m.memory.capacity ≤ m.ip + 1 + index then
        .outOfBounds (m.ip + 1 + index)
      else .invalidMode (modeDigit (word / 100) index)) next := by
  obtain ⟨hmodes, hcode⟩ := get?_eq_code_add hnonneg hop hword
  have hip := Memory.inBounds_of_get? hword
  refine ⟨_, .parameter hmodes hcode hindex hearlier ?_⟩
  split
  · next hout =>
      apply Memory.LacksParameter.cell
      rintro ⟨_, hlt⟩
      omega
  · next hin =>
      have hcell : m.memory.InBounds (m.ip + 1 + index) := by
        have hpointer := hip.1
        exact ⟨by omega, by omega⟩
      apply Memory.LacksParameter.mode hcell
      apply Int.not_le.mp
      intro hle
      exact hfirst ⟨hcell, hle⟩

/-- Good parameters are decoded. -/
theorem exists_decode_of_parameters {word : Int} {op : Opcode}
    (hnonneg : 0 ≤ word) (hop : word % 100 = op.code)
    (hword : m.memory.get? m.ip = some word)
    (hall : ∀ index < op.arity,
      m.memory.HasParameter (m.ip + 1) (word / 100) index) :
    ∃ i next, decode r m = .ok i next := by
  cases h : decode r m with
  | ok i next => exact ⟨i, next, rfl⟩
  | error stop next =>
      exfalso
      obtain ⟨hmodes, hcode⟩ := get?_eq_code_add hnonneg hop hword
      obtain ⟨f, hundecodable, _⟩ := decode_eq_error_iff.mp h
      cases hundecodable with
      | word hout => exact hout (Memory.inBounds_of_get? hword)
      | @opcode other hother hne =>
          rw [hcode] at hother
          cases hother
          exact hne op (Opcode.ofCode?_eq_some_iff.mp
            (op.ofCode?_opcodeOf_code_add hmodes))
      | @parameter other modes index _ hmodes' hother hindex _ hlacks =>
          have heq := Option.some.inj (hcode.symm.trans hother)
          obtain rfl : op = other := by
            have hcode := op.ofCode?_opcodeOf_code_add hmodes
            rw [heq, other.ofCode?_opcodeOf_code_add hmodes'] at hcode
            exact (Option.some.inj hcode).symm
          obtain rfl : word / 100 = modes := by
            rw [← op.modesOf_code_add (word / 100), heq,
              op.modesOf_code_add]
          exact hlacks.not_hasParameter (hall index hindex)

/-- Decoding comes to a fault exactly where something is wrong, and of all that
is wrong it names the first: a pointer outside the memory, else a word that is
negative or has no code of an operation, else the first parameter whose cell
is missing or whose digit is above two, and of that parameter the cell before
the digit. Otherwise it gives an instruction. Whatever stops it, nothing but
the pointer has moved. -/
theorem decode_fault_precedence (r : Reporting) (m : Machine)
    (hwrites : ∀ f next,
      decode { r with longest := none } m = .error (.fault f) next →
        ∀ n ∈ f.numbers, r.Writes n) :
    ((∃ next, decode r m = .error (.fault (.outOfBounds m.ip)) next) ↔
      m.ip < 0 ∨ m.memory.capacity ≤ m.ip) ∧
    (∀ word, m.memory.get? m.ip = some word →
      ((∃ next, decode r m =
          .error (.fault (.invalidOpcode (word.tmod 100) m.ip)) next) ↔
        word < 0 ∨ word % 100 ∉ [1, 2, 3, 4, 5, 6, 7, 8, 9, 99]) ∧
      ∀ op : Opcode, 0 ≤ word → word % 100 = op.code →
        ((∀ index < op.arity,
            m.memory.HasParameter (m.ip + 1) (word / 100) index) →
          ∃ i next, decode r m = .ok i next) ∧
        ∀ index < op.arity,
          (∀ earlier < index,
            m.memory.HasParameter (m.ip + 1) (word / 100) earlier) →
          ¬ m.memory.HasParameter (m.ip + 1) (word / 100) index →
          ∃ next, decode r m = .error (.fault
            (if m.memory.capacity ≤ m.ip + 1 + index then
              .outOfBounds (m.ip + 1 + index)
            else .invalidMode (word / 100 / 10 ^ index % 10))) next) ∧
    ∀ stop next, decode r m = .error stop next →
      ∃ ip, next = { m with ip } := by
  have hfault {f : Fault} :
      (∃ next, decode r m = .error (.fault f) next) ↔
        ∃ next, m.Undecodable f next :=
    exists_congr fun _ => decode_eq_fault_iff hwrites
  refine ⟨?_, ?_, ?_⟩
  · rw [hfault]
    exact undecodable_outOfBounds_iff
  · intro word hword
    refine ⟨?_, ?_⟩
    · rw [hfault]
      exact undecodable_invalidOpcode_iff hword
    · intro op hnonneg hop
      refine ⟨exists_decode_of_parameters hnonneg hop hword, ?_⟩
      intro index hindex hearlier hfirst
      rw [hfault]
      exact undecodable_of_first hnonneg hop hword hindex hearlier hfirst
  · intro stop next h
    obtain ⟨f, hundecodable, _⟩ := decode_eq_error_iff.mp h
    exact hundecodable.eq_at_ip

/-- The second parameter has neither a cell nor a good digit, and the third is
no better. -/
theorem decode_fault_precedence_missing_cell :
    let m : Machine :=
      { memory := ⟨#[0, 75001, 4]⟩
        ip := 1
        input := .script []
        output := .collected #[] }
    (∀ f next, decode { longest := none } m = .error (.fault f) next →
      ∀ n ∈ f.numbers, ({} : Reporting).Writes n) ∧
    m.memory.get? m.ip = some 75001 ∧ 75001 % 100 = Opcode.add.code ∧
    m.memory.HasParameter (m.ip + 1) 750 0 ∧
    ¬ m.memory.HasParameter (m.ip + 1) 750 1 ∧
    ∃ next, decode {} m = .error (.fault (.outOfBounds 3)) next := by
  intro m
  have hwrites : ∀ f next,
      decode { longest := none } m = .error (.fault f) next →
        ∀ n ∈ f.numbers, ({} : Reporting).Writes n := by
    intro f next h
    have hdecode : decode { longest := none } m =
        .error (.fault (.outOfBounds 3)) { m with ip := 2 } := rfl
    rw [hdecode] at h
    cases h
    decide
  have hfirst : m.memory.HasParameter (m.ip + 1) 750 0 :=
    ⟨by decide, by decide⟩
  have hsecond : ¬ m.memory.HasParameter (m.ip + 1) 750 1 := by
    rintro ⟨hin, _⟩
    exact absurd hin (by decide)
  obtain ⟨_, hopcode, _⟩ := decode_fault_precedence {} m hwrites
  obtain ⟨_, hparams⟩ := hopcode 75001 rfl
  obtain ⟨_, hlacks⟩ := hparams .add (by decide) rfl
  refine ⟨hwrites, rfl, rfl, hfirst, hsecond, ?_⟩
  refine hlacks 1 (by decide) ?_ hsecond
  intro earlier hlt
  obtain rfl : earlier = 0 := by omega
  exact hfirst

end Machine

end IntcodeMachine
