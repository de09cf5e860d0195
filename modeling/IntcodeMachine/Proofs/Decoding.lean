import Mathlib.Algebra.Ring.Int.Defs
import IntcodeMachine.Machine.Decode

/-!
What it means for a memory to hold an instruction, said without the decoder:
a word that is an opcode plus a hundred times its mode digits, and one cell
after it for each parameter. Decoding finds exactly the instructions that are
held in this sense, and it refuses the first cell or digit that is not good,
the cell before its digit.
-/

namespace IntcodeMachine

/-- The decimal digit that gives the mode of the parameter at an index, the
lowest digit first. -/
def modeDigit (modes : Int) (index : Nat) : Int :=
  modes / modeBase ^ index % modeBase

@[simp] theorem modeDigit_zero (modes : Int) :
    modeDigit modes 0 = modes % modeBase := by
  simp [modeDigit]

theorem modeDigit_div (modes : Int) (index : Nat) :
    modeDigit (modes / modeBase) index = modeDigit modes (index + 1) := by
  unfold modeDigit
  rw [Int.ediv_ediv_of_nonneg (by decide), Int.pow_succ, Int.mul_comm]

namespace Mode

theorem digit_le (mode : Mode) : mode.digit ≤ 2 := by
  cases mode <;> decide

/-- The digits up to two are the digits of the modes. -/
theorem exists_digit_eq {n : Int} (hnonneg : 0 ≤ n) (hle : n ≤ 2) :
    ∃ mode : Mode, n = mode.digit := by
  have hcases : n = 0 ∨ n = 1 ∨ n = 2 := by omega
  rcases hcases with rfl | rfl | rfl
  · exact ⟨.position, rfl⟩
  · exact ⟨.immediate, rfl⟩
  · exact ⟨.relative, rfl⟩

theorem ofDigit?_eq_none_iff {n : Int} (hnonneg : 0 ≤ n) :
    ofDigit? n = none ↔ 2 < n := by
  constructor
  · intro hnone
    by_cases hle : n ≤ 2
    · obtain ⟨mode, rfl⟩ := exists_digit_eq hnonneg hle
      simp at hnone
    · omega
  · intro hlt
    cases h : ofDigit? n with
    | none => rfl
    | some mode =>
        have hdigit := ofDigit?_eq_some_iff.mp h
        have hle := mode.digit_le
        omega

end Mode

namespace Memory

variable {memory : Memory}

theorem inBounds_of_get? {address word : Int}
    (h : memory.get? address = some word) : memory.InBounds address := by
  rw [← isSome_get?, h]
  rfl

theorem exists_get? {address : Int} (h : memory.InBounds address) :
    ∃ word, memory.get? address = some word :=
  Option.isSome_iff_exists.mp (isSome_get?.mpr h)

/-- The cells from an address on hold the given parameters, in the modes that
the digits say. -/
def HoldsParameters (memory : Memory) (address modes : Int)
    (params : List Parameter) : Prop :=
  ∀ (index : Nat) (p : Parameter), params[index]? = some p →
    ∃ mode : Mode, p = mode.tag p.value ∧
      memory.get? (address + index) = some p.value ∧
      modeDigit modes index = mode.digit

/-- There is a cell for the parameter at an index, and a mode for its
digit. -/
def HasParameter (memory : Memory) (address modes : Int) (index : Nat) :
    Prop :=
  memory.InBounds (address + index) ∧ modeDigit modes index ≤ 2

/-- Why there is no parameter at an index. A missing cell comes before a digit
without a mode. -/
inductive LacksParameter (memory : Memory) (address modes : Int)
    (index : Nat) : Fault → Prop where
  | cell : ¬ memory.InBounds (address + index) →
      LacksParameter memory address modes index
        (.outOfBounds (address + index))
  | mode : memory.InBounds (address + index) → 2 < modeDigit modes index →
      LacksParameter memory address modes index
        (.invalidMode (modeDigit modes index))

theorem LacksParameter.not_hasParameter {address modes : Int} {index : Nat}
    {f : Fault} (h : memory.LacksParameter address modes index f) :
    ¬ memory.HasParameter address modes index := by
  rintro ⟨hin, hle⟩
  cases h with
  | cell hout => exact hout hin
  | mode _ hlt => omega

theorem holdsParameters_nil (address modes : Int) :
    memory.HoldsParameters address modes [] := by
  intro index p h
  cases h

theorem holdsParameters_cons_iff {address modes : Int} {p : Parameter}
    {rest : List Parameter} :
    memory.HoldsParameters address modes (p :: rest) ↔
      (∃ mode : Mode, p = mode.tag p.value ∧
        memory.get? address = some p.value ∧
        modes % modeBase = mode.digit) ∧
      memory.HoldsParameters (address + 1) (modes / modeBase) rest := by
  constructor
  · intro h
    constructor
    · simpa using h 0 p rfl
    · intro index q hq
      obtain ⟨mode, htag, hcell, hdigit⟩ := h (index + 1) q hq
      refine ⟨mode, htag, ?_, ?_⟩
      · rw [← hcell]
        congr 1
        omega
      · rw [modeDigit_div, hdigit]
  · rintro ⟨⟨mode, htag, hcell, hdigit⟩, hrest⟩ index q hq
    cases index with
    | zero =>
        cases hq
        exact ⟨mode, htag, by simpa using hcell, by simpa using hdigit⟩
    | succ index =>
        obtain ⟨mode, htag, hcell, hdigit⟩ := hrest index q hq
        refine ⟨mode, htag, ?_, ?_⟩
        · rw [← hcell]
          congr 1
          omega
        · rw [← modeDigit_div, hdigit]

theorem parameters_succ (count : Nat) (address modes : Int) :
    memory.parameters (count + 1) address modes =
      match memory.get? address with
      | none => .error (.outOfBounds address)
      | some word =>
          match Mode.ofDigit? (modes % modeBase) with
          | none => .error (.invalidMode (modes % modeBase))
          | some mode =>
              (memory.parameters count (address + 1) (modes / modeBase)).map
                (mode.tag word :: ·) := by
  simp only [parameters, read]
  cases memory.get? address with
  | none => rfl
  | some word =>
      simp only [bind, Except.bind]
      cases Mode.ofDigit? (modes % modeBase) with
      | none => rfl
      | some mode =>
          cases memory.parameters count (address + 1) (modes / modeBase) <;>
            rfl

theorem parameters_succ_eq_ok_iff {count : Nat} {address modes : Int}
    {params : List Parameter} :
    memory.parameters (count + 1) address modes = .ok params ↔
      ∃ word mode rest, memory.get? address = some word ∧
        Mode.ofDigit? (modes % modeBase) = some mode ∧
        memory.parameters count (address + 1) (modes / modeBase) = .ok rest ∧
        params = mode.tag word :: rest := by
  rw [parameters_succ]
  cases memory.get? address with
  | none => simp
  | some word =>
      cases Mode.ofDigit? (modes % modeBase) with
      | none => simp
      | some mode =>
          cases memory.parameters count (address + 1) (modes / modeBase) with
          | error f => simp [Except.map]
          | ok rest => simp [Except.map, eq_comm]

/-- The parameters that are read are those that the cells hold. -/
theorem parameters_eq_ok_iff {count : Nat} {address modes : Int}
    {params : List Parameter} :
    memory.parameters count address modes = .ok params ↔
      params.length = count ∧ memory.HoldsParameters address modes params := by
  induction count generalizing address modes params with
  | zero =>
      cases params with
      | nil => simp [parameters, holdsParameters_nil]
      | cons p rest => simp [parameters]
  | succ count ih =>
      rw [parameters_succ_eq_ok_iff]
      constructor
      · rintro ⟨word, mode, rest, hword, hmode, hrest, rfl⟩
        obtain ⟨hlength, hholds⟩ := ih.mp hrest
        refine ⟨by simp [hlength], ?_⟩
        rw [holdsParameters_cons_iff]
        refine ⟨⟨mode, by simp, by simpa using hword, ?_⟩, hholds⟩
        exact Mode.ofDigit?_eq_some_iff.mp hmode
      · rintro ⟨hlength, hholds⟩
        cases params with
        | nil => simp at hlength
        | cons p rest =>
            obtain ⟨⟨mode, htag, hword, hdigit⟩, hrest⟩ :=
              holdsParameters_cons_iff.mp hholds
            have hlater : memory.parameters count (address + 1)
                (modes / modeBase) = .ok rest :=
              ih.mpr ⟨by simpa using hlength, hrest⟩
            have hmode := Mode.ofDigit?_eq_some_iff.mpr hdigit
            refine ⟨p.value, mode, rest, hword, hmode, hlater, ?_⟩
            rw [← htag]

theorem get?_eq_none_iff {address : Int} :
    memory.get? address = none ↔ ¬ memory.InBounds address := by
  rw [← isSome_get?]
  simp

theorem hasParameter_zero {address modes : Int} :
    memory.HasParameter address modes 0 ↔
      (∃ word, memory.get? address = some word) ∧
        ∃ mode, Mode.ofDigit? (modes % modeBase) = some mode := by
  have hnonneg : 0 ≤ modes % modeBase := Int.emod_nonneg _ (by decide)
  simp only [HasParameter, modeDigit_zero, Int.natCast_zero, Int.add_zero]
  constructor
  · rintro ⟨hin, hle⟩
    obtain ⟨mode, hmode⟩ := Mode.exists_digit_eq hnonneg hle
    exact ⟨exists_get? hin, mode, Mode.ofDigit?_eq_some_iff.mpr hmode⟩
  · rintro ⟨⟨word, hword⟩, mode, hmode⟩
    have hdigit := Mode.ofDigit?_eq_some_iff.mp hmode
    have hle := mode.digit_le
    exact ⟨inBounds_of_get? hword, by omega⟩

theorem lacksParameter_zero {address modes : Int} {f : Fault} :
    memory.LacksParameter address modes 0 f ↔
      (memory.get? address = none ∧ f = .outOfBounds address) ∨
      ((∃ word, memory.get? address = some word) ∧
        Mode.ofDigit? (modes % modeBase) = none ∧
        f = .invalidMode (modes % modeBase)) := by
  have hnonneg : 0 ≤ modes % modeBase := Int.emod_nonneg _ (by decide)
  constructor
  · intro h
    cases h with
    | cell hout =>
        rw [Int.natCast_zero, Int.add_zero] at hout ⊢
        exact Or.inl ⟨get?_eq_none_iff.mpr hout, rfl⟩
    | mode hin hdigit =>
        rw [Int.natCast_zero, Int.add_zero] at hin
        rw [modeDigit_zero] at hdigit ⊢
        have hnone := (Mode.ofDigit?_eq_none_iff hnonneg).mpr hdigit
        exact Or.inr ⟨exists_get? hin, hnone, rfl⟩
  · rintro (⟨hnone, rfl⟩ | ⟨⟨word, hword⟩, hnone, rfl⟩)
    · have h : memory.LacksParameter address modes 0
          (.outOfBounds (address + (0 : Nat))) :=
        .cell (by simpa using get?_eq_none_iff.mp hnone)
      simpa using h
    · have h : memory.LacksParameter address modes 0
          (.invalidMode (modeDigit modes 0)) :=
        .mode (by simpa using inBounds_of_get? hword)
          (by simpa using (Mode.ofDigit?_eq_none_iff hnonneg).mp hnone)
      simpa using h

theorem hasParameter_succ {address modes : Int} {index : Nat} :
    memory.HasParameter address modes (index + 1) ↔
      memory.HasParameter (address + 1) (modes / modeBase) index := by
  have hcell : address + 1 + (index : Int) =
      address + ((index + 1 : Nat) : Int) := by
    omega
  rw [HasParameter, HasParameter, modeDigit_div, hcell]

theorem lacksParameter_succ {address modes : Int} {index : Nat} {f : Fault} :
    memory.LacksParameter address modes (index + 1) f ↔
      memory.LacksParameter (address + 1) (modes / modeBase) index f := by
  have hcell : address + ((index + 1 : Nat) : Int) = address + 1 + index := by
    omega
  constructor
  · intro h
    cases h with
    | cell hout =>
        rw [hcell] at hout ⊢
        exact .cell hout
    | mode hin hdigit =>
        rw [hcell] at hin
        rw [← modeDigit_div] at hdigit ⊢
        exact .mode hin hdigit
  · intro h
    cases h with
    | cell hout =>
        rw [← hcell] at hout ⊢
        exact .cell hout
    | mode hin hdigit =>
        rw [← hcell] at hin
        rw [modeDigit_div] at hdigit ⊢
        exact .mode hin hdigit

theorem parameters_succ_eq_error_iff {count : Nat} {address modes : Int}
    {f : Fault} :
    memory.parameters (count + 1) address modes = .error f ↔
      memory.LacksParameter address modes 0 f ∨
      (memory.HasParameter address modes 0 ∧
        memory.parameters count (address + 1) (modes / modeBase) =
          .error f) := by
  rw [parameters_succ, hasParameter_zero, lacksParameter_zero]
  cases memory.get? address with
  | none => simp [eq_comm]
  | some word =>
      cases Mode.ofDigit? (modes % modeBase) with
      | none => simp [eq_comm]
      | some mode =>
          cases memory.parameters count (address + 1) (modes / modeBase) with
          | error g => simp [Except.map]
          | ok rest => simp [Except.map]

/-- Reading a row of parameters fails at the first that is lacking. -/
theorem parameters_eq_error_iff {count : Nat} {address modes : Int}
    {f : Fault} :
    memory.parameters count address modes = .error f ↔
      ∃ index < count,
        (∀ earlier < index, memory.HasParameter address modes earlier) ∧
        memory.LacksParameter address modes index f := by
  induction count generalizing address modes with
  | zero => simp [parameters]
  | succ count ih =>
      rw [parameters_succ_eq_error_iff, ih]
      constructor
      · rintro (hlacks | ⟨hfirst, index, hindex, hearlier, hlacks⟩)
        · exact ⟨0, by omega, by omega, hlacks⟩
        · refine ⟨index + 1, by omega, ?_, lacksParameter_succ.mpr hlacks⟩
          intro earlier hlt
          cases earlier with
          | zero => exact hfirst
          | succ earlier =>
              exact hasParameter_succ.mpr (hearlier earlier (by omega))
      · rintro ⟨index, hindex, hearlier, hlacks⟩
        cases index with
        | zero => exact Or.inl hlacks
        | succ index =>
            right
            refine ⟨hearlier 0 (by omega), index, by omega, ?_,
              lacksParameter_succ.mp hlacks⟩
            intro earlier hlt
            exact hasParameter_succ.mp (hearlier (earlier + 1) (by omega))

end Memory

namespace Opcode

theorem code_pos (op : Opcode) : 0 < op.code := by
  cases op <;> decide

theorem code_lt (op : Opcode) : op.code < opcodeBase := by
  cases op <;> decide

/-- A word has the number of an operation exactly when it is that number and
mode digits above it. No negative word is. -/
theorem ofCode?_opcodeOf_eq_some_iff {word : Int} {op : Opcode} :
    ofCode? (opcodeOf word) = some op ↔
      0 ≤ modesOf word ∧ word = op.code + opcodeBase * modesOf word := by
  have hpos := op.code_pos
  have hlt := op.code_lt
  rw [ofCode?_eq_some_iff]
  unfold opcodeOf modesOf opcodeBase at *
  by_cases hword : 0 ≤ word
  · rw [Int.tmod_eq_emod_of_nonneg hword]
    omega
  · have hneg : word.tmod 100 ≤ 0 := by
      have hnonneg : 0 ≤ (-word).tmod 100 := Int.tmod_nonneg _ (by omega)
      rw [Int.neg_tmod] at hnonneg
      omega
    omega

@[simp] theorem modesOf_code_add (op : Opcode) (modes : Int) :
    modesOf (op.code + opcodeBase * modes) = modes := by
  have hpos := op.code_pos
  have hlt := op.code_lt
  unfold modesOf opcodeBase at *
  omega

theorem ofCode?_opcodeOf_code_add (op : Opcode) {modes : Int}
    (hmodes : 0 ≤ modes) :
    ofCode? (opcodeOf (op.code + opcodeBase * modes)) = some op := by
  rw [ofCode?_opcodeOf_eq_some_iff, modesOf_code_add]
  exact ⟨hmodes, rfl⟩

theorem ofCode?_eq_none_iff {n : Int} :
    ofCode? n = none ↔ ∀ op : Opcode, n ≠ op.code := by
  constructor
  · rintro hnone op rfl
    simp at hnone
  · intro hall
    cases h : ofCode? n with
    | none => rfl
    | some op => exact absurd (ofCode?_eq_some_iff.mp h) (hall op)

end Opcode

/-- A memory holds an instruction at the instruction's position. -/
structure Encodes (memory : Memory) (i : Instruction) : Prop where
  word : memory.get? i.position = some i.word
  modes : 0 ≤ i.modes
  length : i.params.length = i.opcode.arity
  params : memory.HoldsParameters (i.position + 1) i.modes i.params

/-- A memory holds at most one instruction at a position. -/
theorem Encodes.unique {memory : Memory} {i j : Instruction}
    (hi : Encodes memory i) (hj : Encodes memory j)
    (hposition : i.position = j.position) : i = j := by
  have hword : i.word = j.word := by
    have hget := hi.word
    rw [hposition, hj.word] at hget
    exact (Option.some.inj hget).symm
  have hopcode : i.opcode = j.opcode := by
    have hcode := i.opcode.ofCode?_opcodeOf_code_add hi.modes
    change Opcode.ofCode? (opcodeOf i.word) = some i.opcode at hcode
    rw [hword] at hcode
    exact Option.some.inj
      (hcode.symm.trans (j.opcode.ofCode?_opcodeOf_code_add hj.modes))
  have hmodes : i.modes = j.modes := by
    rw [← i.opcode.modesOf_code_add i.modes,
      ← j.opcode.modesOf_code_add j.modes]
    exact congrArg modesOf hword
  have hparams : i.params = j.params := by
    have hread := Memory.parameters_eq_ok_iff.mpr ⟨hi.length, hi.params⟩
    rw [hposition, hopcode, hmodes,
      Memory.parameters_eq_ok_iff.mpr ⟨hj.length, hj.params⟩] at hread
    exact (Except.ok.inj hread).symm
  obtain ⟨opcode, params, position, modes⟩ := i
  obtain ⟨_, _, _, _⟩ := j
  cases hopcode
  cases hparams
  cases hposition
  cases hmodes
  rfl

namespace Machine

/-- Why the instruction pointer is at no instruction, and the machine that is
left: the pointer has moved past the first word if there is one. -/
inductive Undecodable (m : Machine) : Fault → Machine → Prop where
  | word : ¬ m.memory.InBounds m.ip →
      Undecodable m (.outOfBounds m.ip) m
  | opcode {word : Int} : m.memory.get? m.ip = some word →
      (∀ op : Opcode, opcodeOf word ≠ op.code) →
      Undecodable m (.invalidOpcode (opcodeOf word) m.ip)
        { m with ip := m.ip + 1 }
  | parameter {op : Opcode} {modes : Int} {index : Nat} {f : Fault} :
      0 ≤ modes → m.memory.get? m.ip = some (op.code + opcodeBase * modes) →
      index < op.arity →
      (∀ earlier < index,
        m.memory.HasParameter (m.ip + 1) modes earlier) →
      m.memory.LacksParameter (m.ip + 1) modes index f →
      Undecodable m f { m with ip := m.ip + 1 }

variable {r : Reporting} {m next : Machine}

/-- Decoding finds the instruction that the memory holds at the pointer and
moves the pointer past it. -/
theorem decode_eq_ok_iff {i : Instruction} :
    decode r m = .ok i next ↔
      Encodes m.memory i ∧ i.position = m.ip ∧
        next = { m with ip := m.ip + 1 + i.opcode.arity } := by
  rw [decode_apply]
  constructor
  · intro h
    cases hread : m.memory.read m.ip with
    | error f => simp [hread] at h
    | ok word =>
        cases hop : Opcode.ofCode? (opcodeOf word) with
        | none => simp [hread, hop] at h
        | some op =>
            cases hparams : m.memory.parameters op.arity (m.ip + 1)
                (modesOf word) with
            | error f => simp [hread, hop, hparams] at h
            | ok params =>
                simp only [hread, hop, hparams] at h
                cases h
                obtain ⟨hmodes, hword⟩ :=
                  Opcode.ofCode?_opcodeOf_eq_some_iff.mp hop
                obtain ⟨hlength, hholds⟩ :=
                  Memory.parameters_eq_ok_iff.mp hparams
                refine ⟨⟨?_, hmodes, hlength, hholds⟩, rfl, rfl⟩
                rw [Memory.read_eq_ok_iff.mp hread]
                exact congrArg some hword
  · rintro ⟨hencodes, hposition, rfl⟩
    have hread : m.memory.read m.ip = .ok i.word := by
      rw [Memory.read_eq_ok_iff, ← hposition, hencodes.word]
    have hparams : m.memory.parameters i.opcode.arity (m.ip + 1) i.modes =
        .ok i.params := by
      rw [Memory.parameters_eq_ok_iff, ← hposition]
      exact ⟨hencodes.length, hencodes.params⟩
    have hop := i.opcode.ofCode?_opcodeOf_code_add hencodes.modes
    simp only [hread, Instruction.word, hop, Opcode.modesOf_code_add, hparams]
    rw [← hposition]

/-- Decoding fails exactly where the pointer is at no instruction. -/
theorem decode_eq_error_iff {stop : Stop} :
    decode r m = .error stop next ↔
      ∃ f, m.Undecodable f next ∧ stop = r.stopOf f := by
  rw [decode_apply]
  constructor
  · intro h
    cases hread : m.memory.read m.ip with
    | error f =>
        simp only [hread] at h
        cases h
        obtain ⟨hout, rfl⟩ := Memory.read_eq_error_iff.mp hread
        exact ⟨_, .word hout, rfl⟩
    | ok word =>
        have hword := Memory.read_eq_ok_iff.mp hread
        cases hop : Opcode.ofCode? (opcodeOf word) with
        | none =>
            simp only [hread, hop] at h
            cases h
            exact ⟨_, .opcode hword (Opcode.ofCode?_eq_none_iff.mp hop), rfl⟩
        | some op =>
            cases hparams : m.memory.parameters op.arity (m.ip + 1)
                (modesOf word) with
            | ok params => simp [hread, hop, hparams] at h
            | error f =>
                simp only [hread, hop, hparams] at h
                cases h
                obtain ⟨hmodes, heq⟩ :=
                  Opcode.ofCode?_opcodeOf_eq_some_iff.mp hop
                obtain ⟨index, hindex, hearlier, hlacks⟩ :=
                  Memory.parameters_eq_error_iff.mp hparams
                rw [heq] at hword
                exact ⟨f, .parameter hmodes hword hindex hearlier hlacks, rfl⟩
  · rintro ⟨f, hundecodable, rfl⟩
    cases hundecodable with
    | word hout =>
        have hread := Memory.read_eq_error_iff.mpr ⟨hout, rfl⟩
        simp only [hread]
    | opcode hword hall =>
        have hread := Memory.read_eq_ok_iff.mpr hword
        simp only [hread, Opcode.ofCode?_eq_none_iff.mpr hall]
    | @parameter op modes index _ hmodes hword hindex hearlier hlacks =>
        have hread := Memory.read_eq_ok_iff.mpr hword
        have hop := op.ofCode?_opcodeOf_code_add hmodes
        have hparams := Memory.parameters_eq_error_iff.mpr
          ⟨index, hindex, hearlier, hlacks⟩
        simp only [hread, hop, Opcode.modesOf_code_add, hparams]

end Machine

end IntcodeMachine
