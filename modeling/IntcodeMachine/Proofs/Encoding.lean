import Mathlib.Algebra.BigOperators.Fin
import IntcodeMachine.Proofs.Decoding

/-!
Encoding and decoding are inverse to each other. A word is made of an opcode,
one mode digit for each parameter and any digits above them, and the parameters
follow it. Decoding finds the opcode, the modes and the parameters of every
such row of words, whatever the digits that no parameter has; and a row of
words that is decoded is made in this way.
-/

namespace IntcodeMachine

/-- The digits of a word above its opcode: those of the modes, lowest first, and
above them the digits that no parameter has. -/
def modesNumber {count : Nat} (modes : Fin count → Mode) (excess : Nat) : Int :=
  ∑ index, modeBase ^ index.val * (modes index).digit +
    modeBase ^ count * excess

theorem Mode.digit_nonneg (mode : Mode) : 0 ≤ mode.digit := by
  cases mode <;> decide

theorem modesNumber_succ {count : Nat} (modes : Fin (count + 1) → Mode)
    (excess : Nat) :
    modesNumber modes excess =
      (modes 0).digit +
        modeBase * modesNumber (fun index => modes index.succ) excess := by
  simp only [modesNumber, Fin.sum_univ_succ, Fin.val_zero, Fin.val_succ,
    Int.pow_zero, Int.one_mul, Int.mul_add, Finset.mul_sum, Int.pow_succ']
  simp only [Int.mul_assoc, Int.add_assoc]

theorem modesNumber_nonneg {count : Nat} (modes : Fin count → Mode)
    (excess : Nat) : 0 ≤ modesNumber modes excess := by
  induction count with
  | zero => simp [modesNumber]
  | succ count ih =>
      have hfirst := (modes 0).digit_nonneg
      have hrest := ih fun index => modes index.succ
      rw [modesNumber_succ]
      unfold modeBase
      omega

/-- Every parameter finds its own mode in the digits. -/
theorem modeDigit_modesNumber {count : Nat} (modes : Fin count → Mode)
    (excess : Nat) (index : Fin count) :
    modeDigit (modesNumber modes excess) index = (modes index).digit := by
  induction count with
  | zero => exact index.elim0
  | succ count ih =>
      have hnonneg := (modes 0).digit_nonneg
      have hle := (modes 0).digit_le
      rw [modesNumber_succ]
      cases index using Fin.cases with
      | zero =>
          rw [Fin.val_zero, modeDigit_zero]
          unfold modeBase
          omega
      | succ index =>
          rw [Fin.val_succ, ← modeDigit_div]
          have hrest (rest : Int) :
              ((modes 0).digit + modeBase * rest) / modeBase = rest := by
            unfold modeBase
            omega
          rw [hrest]
          exact ih (fun index => modes index.succ) index

namespace Machine

variable {r : Reporting} {m : Machine} {op : Opcode}

/-- A row of words that is made of an opcode, modes and values holds the
instruction of these. -/
theorem encodes_of_words {modes : Fin op.arity → Mode}
    {values : Fin op.arity → Int} {excess : Nat}
    (hword : m.memory.get? m.ip =
      some (op.code + opcodeBase * modesNumber modes excess))
    (hvalues : ∀ index, m.memory.get? (m.ip + 1 + index.val) =
      some (values index)) :
    Encodes m.memory
      { opcode := op
        params := List.ofFn fun index => (modes index).tag (values index)
        position := m.ip
        modes := modesNumber modes excess } where
  word := hword
  modes := modesNumber_nonneg modes excess
  length := List.length_ofFn
  params := by
    intro index p hp
    rw [List.getElem?_ofFn] at hp
    split at hp
    · next hindex =>
        cases hp
        refine ⟨modes ⟨index, hindex⟩, ?_, ?_, ?_⟩
        · rw [Parameter.value_tag]
        · rw [Parameter.value_tag]
          exact hvalues ⟨index, hindex⟩
        · exact modeDigit_modesNumber modes excess ⟨index, hindex⟩
    · cases hp

/-- Decoding is inverse to encoding. The instruction of an opcode, modes and
values is decoded from their words, and digits above the modes make no
difference to it. What is decoded is the opcode and the digits of its word, one
parameter for each place of the opcode, in the mode of its digit and with the
word of its cell; nothing but the pointer has moved. -/
theorem decode_inverts_encoding (r : Reporting) :
    (∀ (op : Opcode) (modes : Fin op.arity → Mode)
      (values : Fin op.arity → Int) (excess : Nat) (m : Machine),
      m.memory.get? m.ip =
        some (op.code + opcodeBase * modesNumber modes excess) →
      (∀ index, m.memory.get? (m.ip + 1 + index.val) =
        some (values index)) →
      decode r m = .ok
        { opcode := op
          params := List.ofFn fun index => (modes index).tag (values index)
          position := m.ip
          modes := modesNumber modes excess }
        { m with ip := m.ip + 1 + op.arity }) ∧
    ∀ (m : Machine) (i : Instruction) (next : Machine),
      decode r m = .ok i next →
      i.position = m.ip ∧ 0 ≤ i.modes ∧
        m.memory.get? i.position =
          some (i.opcode.code + opcodeBase * i.modes) ∧
        i.params.length = i.opcode.arity ∧
        (∀ (index : Nat) (p : Parameter), i.params[index]? = some p →
          ∃ mode : Mode, p = mode.tag p.value ∧
            mode.digit = i.modes / modeBase ^ index % modeBase ∧
            m.memory.get? (i.position + 1 + index) = some p.value) ∧
        next = { m with ip := m.ip + 1 + i.opcode.arity } := by
  constructor
  · intro op modes values excess m hword hvalues
    exact decode_eq_ok_iff.mpr ⟨encodes_of_words hword hvalues, rfl, rfl⟩
  · intro m i next hdecode
    obtain ⟨hencodes, hposition, hnext⟩ := decode_eq_ok_iff.mp hdecode
    refine ⟨hposition, hencodes.modes, hencodes.word, hencodes.length, ?_,
      hnext⟩
    intro index p hp
    obtain ⟨mode, htag, hcell, hdigit⟩ := hencodes.params index p hp
    exact ⟨mode, htag, hdigit.symm, hcell⟩

/-- A comparison with three kinds of parameters and a digit too many. -/
theorem decode_inverts_encoding_excess_digit :
    let m : Machine :=
      { memory := ⟨#[0, 701207, -3, 4, 5]⟩
        ip := 1
        input := .script []
        output := .collected #[] }
    let i : Instruction :=
      ⟨.lessThan, [.relative (-3), .immediate 4, .position 5], 1, 7012⟩
    decode {} m = .ok i { m with ip := 5 } ∧
      (∀ index : Nat, ∀ p, i.params[index]? = some p →
        ∃ mode : Mode, p = mode.tag p.value ∧
          mode.digit = 7012 / modeBase ^ index % modeBase ∧
          m.memory.get? (1 + 1 + index) = some p.value) := by
  intro m i
  have hdecode : decode {} m = .ok i { m with ip := 5 } :=
    (decode_inverts_encoding {}).1 .lessThan
      ![.relative, .immediate, .position] ![-3, 4, 5] 7 m
      (by decide +kernel) (by decide +kernel)
  obtain ⟨_, _, _, _, hparams, _⟩ :=
    (decode_inverts_encoding {}).2 m i _ hdecode
  exact ⟨hdecode, hparams⟩

end Machine

end IntcodeMachine
