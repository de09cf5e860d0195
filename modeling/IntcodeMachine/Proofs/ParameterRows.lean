import IntcodeMachine.Proofs.Stepping

/-!
Rows of parameters for any number as the mode digits, also a negative one, and
any count. The digit at a place is that of the floor quotient by a power of
ten. A row is read whole if every place of it has a cell and the digit of a
mode, and the pointer moves by the count; otherwise the first place without
them gives the fault, and nothing moves. The floor quotients of a negative
number end in minus one, so that from some place on its digits are nines and no
row that reaches so far is read.
-/

namespace IntcodeMachine

theorem modeDigit_nonneg (modes : Int) (index : Nat) :
    0 ≤ modeDigit modes index :=
  Int.emod_nonneg _ (by decide)

theorem modeDigit_lt (modes : Int) (index : Nat) :
    modeDigit modes index < modeBase :=
  Int.emod_lt_of_pos _ (by decide)

/-- Above its own digits a negative number has nines. -/
theorem modeDigit_of_neg {modes : Int} {index : Nat} (hneg : modes < 0)
    (hplace : -modes ≤ modeBase ^ index) : modeDigit modes index = 9 := by
  have hquotient : modes / modeBase ^ index = -1 :=
    Int.ediv_eq_neg_one_of_neg_of_le hneg hplace
  rw [modeDigit, hquotient]
  rfl

/-- The place that is as far up as the number is large lies above its own
digits. -/
theorem modeDigit_natAbs {modes : Int} (hneg : modes < 0) :
    modeDigit modes modes.natAbs = 9 := by
  apply modeDigit_of_neg hneg
  have hlt : modes.natAbs < 10 ^ modes.natAbs :=
    Nat.lt_pow_self (by decide)
  calc -modes = (modes.natAbs : Int) := by omega
    _ ≤ ((10 ^ modes.natAbs : Nat) : Int) := Int.ofNat_le.mpr (Nat.le_of_lt hlt)
    _ = modeBase ^ modes.natAbs := by push_cast; rfl

theorem Numeral.fits_of_lt_ten {limit : Nat} {n : Int} (hlimit : 0 < limit)
    (hnonneg : 0 ≤ n) (hlt : n < 10) : Fits limit n :=
  calc n.natAbs < 10 := by omega
    _ = Nat.pow 10 1 := rfl
    _ ≤ Nat.pow 10 limit := Nat.pow_le_pow_right (by decide) hlimit

namespace Memory

variable {memory : Memory} {address modes : Int} {count index : Nat}
  {params : List Parameter}

theorem hasParameter_iff_mem :
    memory.HasParameter address modes index ↔
      memory.InBounds (address + index) ∧ modeDigit modes index ∈ [0, 1, 2] := by
  have hnonneg := modeDigit_nonneg modes index
  refine and_congr_right fun _ => ?_
  simp only [List.mem_cons, List.not_mem_nil, or_false]
  omega

/-- A parameter that is read has the word of its cell and the mode of its
digit. -/
theorem getElem?_parameters
    (h : memory.parameters count address modes = .ok params)
    (hindex : index < count) :
    ∃ (mode : Mode) (word : Int), mode.digit = modeDigit modes index ∧
      memory.get? (address + index) = some word ∧
      params[index]? = some (mode.tag word) := by
  obtain ⟨rfl, hholds⟩ := parameters_eq_ok_iff.mp h
  have hget := List.getElem?_eq_getElem hindex
  obtain ⟨mode, htag, hcell, hdigit⟩ := hholds index _ hget
  exact ⟨mode, _, hdigit.symm, hcell, by rw [← htag, hget]⟩

theorem hasParameter_of_parameters
    (h : memory.parameters count address modes = .ok params)
    (hindex : index < count) : memory.HasParameter address modes index := by
  obtain ⟨mode, word, hdigit, hcell, _⟩ := getElem?_parameters h hindex
  exact ⟨inBounds_of_get? hcell, hdigit ▸ mode.digit_le⟩

/-- A row with a parameter at every place is read. -/
theorem exists_parameters_of_hasParameter
    (h : ∀ index < count, memory.HasParameter address modes index) :
    ∃ params, memory.parameters count address modes = .ok params := by
  cases hread : memory.parameters count address modes with
  | ok params => exact ⟨params, rfl⟩
  | error f =>
      obtain ⟨index, hindex, _, hlacks⟩ := parameters_eq_error_iff.mp hread
      exact absurd (h index hindex) hlacks.not_hasParameter

/-- A missing cell is reported by its address, if that can be written, and a
digit without a mode by itself. -/
theorem LacksParameter.stopOf_eq {f : Fault}
    (h : memory.LacksParameter address modes index f) :
    ({} : Reporting).stopOf f =
      if memory.InBounds (address + index) then
        .fault (.invalidMode (modeDigit modes index))
      else if Numeral.Fits Numeral.digitLimit (address + index) then
        .fault (.outOfBounds (address + index))
      else .tooManyDigits := by
  cases h with
  | cell hout =>
      rw [if_neg hout]
      simp only [Reporting.stopOf, Fault.numbers, List.mem_singleton,
        forall_eq, Machine.writes_default]
  | mode hin _ =>
      rw [if_pos hin, Reporting.stopOf_eq_fault_iff]
      refine ⟨rfl, ?_⟩
      simp only [Fault.numbers, List.mem_singleton, forall_eq,
        Machine.writes_default]
      exact Numeral.fits_of_lt_ten (by decide) (modeDigit_nonneg modes index)
        (modeDigit_lt modes index)

end Memory

namespace Machine

/-- Taking parameters in closed form, for any number as the digits and any
count. If every place up to the count has a cell and a digit up to two, there
is one parameter for each, its word tagged by its digit, and the pointer moves
by the count. Otherwise the first other place is named, by its address if the
cell is missing and else by its digit, and the machine is as it was. For digits
of a negative number there is a bound above which no count is good on any
machine. -/
theorem takeParameters_closed_form (modes : Int) :
    let digit (i : Nat) : Int := modes / 10 ^ i % 10
    (∀ (m : Machine) (count : Int),
      let Good (i : Nat) : Prop :=
        m.memory.InBounds (m.ip + i) ∧ digit i ∈ [0, 1, 2]
      ((∀ i : Nat, i < count → Good i) →
        ∃ params, takeParameters {} modes count m =
            .ok params { m with ip := m.ip + count } ∧
          params.length = count.toNat ∧
          ∀ i : Nat, i < count → ∃ (mode : Mode) (word : Int),
            mode.digit = digit i ∧ m.memory.get? (m.ip + i) = some word ∧
              params[i]? = some (mode.tag word)) ∧
      ((¬ ∀ i : Nat, i < count → Good i) →
        ∃ i : Nat, i < count ∧ (∀ earlier < i, Good earlier) ∧ ¬ Good i ∧
          takeParameters {} modes count m = .error
            (if m.memory.InBounds (m.ip + i) then
              .fault (.invalidMode (digit i))
            else if Numeral.Fits Numeral.digitLimit (m.ip + i) then
              .fault (.outOfBounds (m.ip + i))
            else .tooManyDigits) m)) ∧
    (modes < 0 → ∃ bound : Nat, ∀ (m : Machine) (count : Int),
      bound < count → ∃ stop, takeParameters {} modes count m =
        .error stop m) := by
  intro digit
  constructor
  · intro m count Good
    have hgood (i : Nat) : Good i ↔ m.memory.HasParameter m.ip modes i :=
      Memory.hasParameter_iff_mem.symm
    have hplace (i : Nat) : (i : Int) < count ↔ i < count.toNat := by omega
    simp only [takeParameters_apply, hgood, hplace]
    constructor
    · intro hall
      obtain ⟨params, hparams⟩ :=
        Memory.exists_parameters_of_hasParameter hall
      rw [hparams]
      refine ⟨params, rfl, (Memory.parameters_eq_ok_iff.mp hparams).1, ?_⟩
      intro i hi
      exact Memory.getElem?_parameters hparams hi
    · intro hsome
      cases hread : m.memory.parameters count.toNat m.ip modes with
      | ok params =>
          exact absurd (fun i => Memory.hasParameter_of_parameters hread)
            hsome
      | error f =>
          obtain ⟨i, hi, hearlier, hlacks⟩ :=
            Memory.parameters_eq_error_iff.mp hread
          refine ⟨i, hi, hearlier, hlacks.not_hasParameter, ?_⟩
          simp only [hlacks.stopOf_eq]
          rfl
  · intro hneg
    refine ⟨modes.natAbs, ?_⟩
    intro m count hbound
    rw [takeParameters_apply]
    cases hread : m.memory.parameters count.toNat m.ip modes with
    | error f => exact ⟨_, rfl⟩
    | ok params =>
        obtain ⟨_, hle⟩ :=
          Memory.hasParameter_of_parameters hread
            (show modes.natAbs < count.toNat by omega)
        rw [modeDigit_natAbs hneg] at hle
        exact absurd hle (by decide)

/-- The floor quotients of a negative number give three modes and then nines,
and a negative count moves the pointer back. -/
theorem takeParameters_closed_form_negative :
    let m : Machine :=
      { memory := ⟨#[5, 6, 7, 8, 9]⟩
        ip := 1
        input := .script []
        output := .collected #[] }
    (∀ i : Nat, (i : Int) < 3 →
      m.memory.InBounds (m.ip + i) ∧ (-979) / 10 ^ i % 10 ∈ [0, 1, 2]) ∧
    (∃ params, takeParameters {} (-979) 3 m =
      .ok params { m with ip := 4 } ∧ params.length = 3) ∧
    (¬ ∀ i : Nat, (i : Int) < 4 →
      m.memory.InBounds (m.ip + i) ∧ (-979) / 10 ^ i % 10 ∈ [0, 1, 2]) ∧
    takeParameters {} (-979) 4 m = .error (.fault (.invalidMode 9)) m ∧
    takeParameters {} (-979) (-1) m = .ok [] { m with ip := 0 } ∧
    ∃ bound : Nat, ∀ (m : Machine) (count : Int), bound < count →
      ∃ stop, takeParameters {} (-979) count m = .error stop m := by
  intro m
  obtain ⟨hclosed, hnegative⟩ := takeParameters_closed_form (-979)
  have hthree : ∀ i : Nat, (i : Int) < 3 →
      m.memory.InBounds (m.ip + i) ∧ (-979) / 10 ^ i % 10 ∈ [0, 1, 2] := by
    intro i hi
    obtain rfl | rfl | rfl : i = 0 ∨ i = 1 ∨ i = 2 := by omega
    all_goals exact ⟨by decide, by decide⟩
  have hfour : ¬ ∀ i : Nat, (i : Int) < 4 →
      m.memory.InBounds (m.ip + i) ∧ (-979) / 10 ^ i % 10 ∈ [0, 1, 2] := by
    intro hall
    exact absurd (hall 3 (by decide)).2 (by decide)
  obtain ⟨params, htaken, hlength, _⟩ := (hclosed m 3).1 hthree
  obtain ⟨row, hback, hempty, _⟩ := (hclosed m (-1)).1 (by omega)
  obtain rfl := List.length_eq_zero_iff.mp hempty
  refine ⟨hthree, ⟨params, htaken, hlength⟩, hfour, ?_, hback,
    hnegative (by decide)⟩
  obtain ⟨i, hi, _, hbad, herror⟩ := (hclosed m 4).2 hfour
  obtain rfl : i = 3 := by
    by_contra hne
    exact hbad (hthree i (by omega))
  exact herror

end Machine

end IntcodeMachine
