import IntcodeMachine.Machine.Event
import IntcodeMachine.Proofs.Reprinting

/-!
The line of an instruction tells all of the instruction. Its numbers have no
fixed width, but each of them ends at a character that no numeral holds, so that
the columns can be told apart from left to right, whatever zeros or blanks were
put before the digits. The name of the operation adds nothing to its number, and
a parameter ends at its bracket. So two lines are the same only for the same
number and the same instruction, and the word that was decoded can be had from
the line.
-/

namespace IntcodeMachine

namespace Text

/-- Texts are cut alike at the first of a character. -/
theorem eq_and_eq_of_cut {before other rest more : List Char} {c : Char}
    (hbefore : c ∉ before) (hother : c ∉ other)
    (h : before ++ c :: rest = other ++ c :: more) :
    before = other ∧ rest = more := by
  have hcut (start left : List Char) (hstart : c ∉ start) :
      (start ++ c :: left).takeWhile (· ≠ c) = start ∧
        (start ++ c :: left).dropWhile (· ≠ c) = c :: left := by
    apply cut_of_boundary
    · intro d hd
      have hne : d ≠ c := fun heq => hstart (heq ▸ hd)
      simpa using hne
    · simp
  obtain ⟨htake, hdrop⟩ := hcut before rest hbefore
  obtain ⟨htake', hdrop'⟩ := hcut other more hother
  rw [h] at htake hdrop
  exact ⟨htake.symm.trans htake', (List.cons.inj (hdrop.symm.trans hdrop')).2⟩

end Text

namespace Numeral

open Text

variable {n v : Int} {k l : Nat} {c : Char} {rest more : List Char}

/-- The numeral of a number with the given number of zeros after its sign. -/
def filled (zeros : Nat) (n : Int) : List Char :=
  sign n ++ (List.replicate zeros '0' ++ digits n.natAbs)

/-- The number that a sign and digits stand for. -/
def signedValue : List Char → Int
  | '-' :: digits => -(Nat.ofDigitChars 10 digits 0 : Int)
  | digits => Nat.ofDigitChars 10 digits 0

theorem chars_eq_filled (n : Int) : chars n = filled 0 n := rfl

theorem toList_writePadded (width : Nat) (n : Int) :
    ∃ zeros, (writePadded width n).toList = filled zeros n :=
  ⟨_, String.toList_ofList ..⟩

theorem toList_writeAligned (width : Nat) (n : Int) :
    ∃ spaces, (writeAligned width n).toList =
      List.replicate spaces ' ' ++ chars n :=
  ⟨_, String.toList_ofList ..⟩

/-- A character that is no digit and no minus sign stands in no numeral. -/
theorem notMem_filled (hsign : c ≠ '-') (hdigit : c.isDigit = false) :
    c ∉ filled k n := by
  have hdigits : c ∉ digits n.natAbs := by
    intro hmem
    rw [isDigit_of_mem_digits hmem] at hdigit
    cases hdigit
  have hzero : c ≠ '0' := by
    rintro rfl
    cases hdigit
  simp only [filled, sign, List.mem_append, List.mem_replicate]
  split <;> simp [hsign, hzero, hdigits]

theorem ofDigitChars_zeros (zeros n : Nat) :
    Nat.ofDigitChars 10 (List.replicate zeros '0' ++ digits n) 0 = n := by
  induction zeros with
  | zero => exact Nat.ofDigitChars_ten_toDigits
  | succ zeros ih =>
      rw [List.replicate_succ, List.cons_append, Nat.ofDigitChars_cons]
      exact ih

theorem signedValue_of_notMem {text : List Char} (h : '-' ∉ text) :
    signedValue text = Nat.ofDigitChars 10 text 0 := by
  unfold signedValue
  split
  · simp at h
  · rfl

/-- A number is known by its numeral, and zeros after the sign make no
difference. -/
theorem signedValue_filled (k : Nat) (n : Int) :
    signedValue (filled k n) = n := by
  have hvalue := ofDigitChars_zeros k n.natAbs
  by_cases hneg : n < 0
  · rw [filled, sign, if_pos hneg, List.singleton_append, signedValue, hvalue]
    omega
  · have hsign : sign n = [] := if_neg hneg
    have hminus : '-' ∉ List.replicate k '0' ++ digits n.natAbs := by
      intro hmem
      rcases List.mem_append.mp hmem with hzero | hdigit
      · exact absurd (List.eq_of_mem_replicate hzero) (by decide)
      · exact absurd (isDigit_of_mem_digits hdigit) (by decide)
    rw [filled, hsign, List.nil_append, signedValue_of_notMem hminus, hvalue]
    omega

theorem eq_of_filled_eq (h : filled k n = filled l v) : n = v := by
  rw [← signedValue_filled k n, h, signedValue_filled]

/-- A numeral ends where a character follows that no numeral holds. -/
theorem eq_and_eq_of_filled_cut (hsign : c ≠ '-') (hdigit : c.isDigit = false)
    (h : filled k n ++ c :: rest = filled l v ++ c :: more) :
    n = v ∧ rest = more := by
  obtain ⟨hfilled, hrest⟩ := eq_and_eq_of_cut
    (notMem_filled hsign hdigit) (notMem_filled hsign hdigit) h
  exact ⟨eq_of_filled_eq hfilled, hrest⟩

/-- Blanks before a numeral make no difference. -/
theorem eq_of_aligned_eq {spaces blanks : Nat}
    (h : List.replicate spaces ' ' ++ chars n =
      List.replicate blanks ' ' ++ chars v) : n = v := by
  have hdrop (count : Nat) (w : Int) :
      (List.replicate count ' ' ++ chars w).dropWhile (· = ' ') = chars w := by
    refine (cut_of_boundary ?_ ?_).2
    · intro c hc
      simp [List.eq_of_mem_replicate hc]
    · intro c hc
      have hmem : c ∈ chars w := List.mem_of_mem_head? hc
      have hne : c ≠ ' ' := by
        rintro rfl
        exact notMem_filled (k := 0) (by decide) (by decide) hmem
      simpa using hne
  have hchars : filled 0 n = filled 0 v := by
    rw [← chars_eq_filled, ← hdrop spaces n, h, hdrop blanks v,
      chars_eq_filled]
  exact eq_of_filled_eq hchars

end Numeral

namespace Opcode

theorem eq_of_code_eq {op other : Opcode} (h : op.code = other.code) :
    op = other :=
  Option.some.inj (by rw [← ofCode?_code op, h, ofCode?_code])

end Opcode

namespace Parameter

variable {p q : Parameter} {params others : List Parameter}
  {rest more : List Char}

theorem toList_text_append (p : Parameter) (rest : List Char) :
    p.text.toList ++ rest =
      p.letter.toList ++ '(' :: (Numeral.filled 0 p.value ++ ')' :: rest) := by
  simp [text, Numeral.chars_eq_filled]

theorem eq_of_letter_eq (hletter : p.letter = q.letter)
    (hvalue : p.value = q.value) : p = q := by
  cases p <;> cases q <;> simp_all [letter, value]

theorem length_letter (p : Parameter) : p.letter.toList.length = 1 := by
  cases p <;> simp [letter]

/-- The text of a parameter ends at its bracket. -/
theorem eq_and_eq_of_text_append
    (h : p.text.toList ++ rest = q.text.toList ++ more) :
    p = q ∧ rest = more := by
  rw [toList_text_append, toList_text_append] at h
  obtain ⟨hletter, hvalues⟩ :=
    List.append_inj h (p.length_letter.trans q.length_letter.symm)
  obtain ⟨hvalue, hrest⟩ := Numeral.eq_and_eq_of_filled_cut (by decide)
    (by decide) (List.cons.inj hvalues).2
  exact ⟨eq_of_letter_eq (String.toList_injective hletter) hvalue, hrest⟩

/-- The texts of parameters, with what stands between two of them. -/
def joined (params : List Parameter) : List Char :=
  [',', ' '].intercalate (params.map fun p => p.text.toList)

theorem joined_singleton (p : Parameter) : joined [p] = p.text.toList :=
  List.intercalate_singleton

theorem joined_cons_cons (p q : Parameter) (params : List Parameter) :
    joined (p :: q :: params) =
      p.text.toList ++ ',' :: ' ' :: joined (q :: params) := by
  simp [joined, List.intercalate_cons_cons]

/-- No parameter begins with the bracket that ends the list of them. -/
theorem joined_cons_ne (p : Parameter) (params : List Parameter) :
    joined (p :: params) ++ [']'] ≠ [']'] := by
  have htext (rest : List Char) : p.text.toList ++ rest ≠ [']'] := by
    cases p <;> simp [text, letter]
  cases params with
  | nil =>
      rw [joined_singleton]
      exact htext [']']
  | cons q params =>
      rw [joined_cons_cons, List.append_assoc]
      exact htext _

/-- The texts of parameters tell the parameters: after each of them comes the
bracket at the end or the comma before the next. -/
theorem eq_of_joined_eq (h : joined params ++ [']'] = joined others ++ [']']) :
    params = others := by
  induction params generalizing others with
  | nil =>
      cases others with
      | nil => rfl
      | cons q others => exact absurd h.symm (joined_cons_ne q others)
  | cons p params ih =>
      cases others with
      | nil => exact absurd h (joined_cons_ne p params)
      | cons q others =>
          match params, others with
          | [], [] =>
              rw [joined_singleton, joined_singleton] at h
              rw [(eq_and_eq_of_text_append h).1]
          | [], _ :: _ =>
              rw [joined_singleton, joined_cons_cons, List.append_assoc] at h
              cases (eq_and_eq_of_text_append h).2
          | _ :: _, [] =>
              rw [joined_singleton, joined_cons_cons, List.append_assoc] at h
              cases (eq_and_eq_of_text_append h).2
          | _ :: _, _ :: _ =>
              rw [joined_cons_cons, joined_cons_cons, List.append_assoc,
                List.append_assoc] at h
              obtain ⟨rfl, hrest⟩ := eq_and_eq_of_text_append h
              rw [ih (List.cons.inj (List.cons.inj hrest).2).2]

end Parameter

namespace Event

variable {i j : Instruction} {number other : Nat}

/-- The line of an instruction, column by column. -/
theorem toList_instructionLine (number : Nat) (i : Instruction) :
    ∃ spaces k l z, (instructionLine number i).toList =
      (List.replicate spaces ' ' ++ Numeral.chars number) ++ ':' :: ' ' ::
        (Numeral.filled k i.position ++ ' ' :: ' ' ::
          (Numeral.filled l i.opcode.code ++ ' ' ::
            (Numeral.filled z i.modes ++ ' ' ::
              (i.opcode.mnemonic.toList ++ ' ' :: '[' ::
                (Parameter.joined i.params ++ [']']))))) := by
  obtain ⟨spaces, hnumber⟩ := Numeral.toList_writeAligned 3 number
  obtain ⟨k, hposition⟩ := Numeral.toList_writePadded 4 i.position
  obtain ⟨l, hcode⟩ := Numeral.toList_writePadded 2 i.opcode.code
  obtain ⟨z, hmodes⟩ := Numeral.toList_writePadded 3 i.modes
  refine ⟨spaces, k, l, z, ?_⟩
  simp [instructionLine, hnumber, hposition, hcode, hmodes, Instruction.text,
    Opcode.textWith, Parameter.joined, String.toList_intercalate,
    Function.comp_def]

theorem notMem_aligned (spaces : Nat) (n : Int) :
    ':' ∉ List.replicate spaces ' ' ++ Numeral.chars n := by
  have hchars : ':' ∉ Numeral.chars n :=
    Numeral.notMem_filled (k := 0) (by decide) (by decide)
  simp [hchars]

/-- The columns are cut off one after the other. -/
theorem eq_and_eq_of_instructionLine_eq
    (h : instructionLine number i = instructionLine other j) :
    number = other ∧ i = j := by
  obtain ⟨_, _, _, _, hline⟩ := toList_instructionLine number i
  obtain ⟨_, _, _, _, hline'⟩ := toList_instructionLine other j
  have htext := hline.symm.trans ((congrArg String.toList h).trans hline')
  obtain ⟨hnumber, hafter⟩ :=
    Text.eq_and_eq_of_cut (notMem_aligned _ _) (notMem_aligned _ _) htext
  obtain ⟨hposition, hafter⟩ := Numeral.eq_and_eq_of_filled_cut (by decide)
    (by decide) (List.cons.inj hafter).2
  obtain ⟨hcode, hafter⟩ := Numeral.eq_and_eq_of_filled_cut (by decide)
    (by decide) (List.cons.inj hafter).2
  obtain ⟨hmodes, hafter⟩ := Numeral.eq_and_eq_of_filled_cut (by decide)
    (by decide) hafter
  have hopcode : i.opcode = j.opcode := Opcode.eq_of_code_eq hcode
  rw [hopcode] at hafter
  have hlist := List.append_cancel_left hafter
  have hparams : i.params = j.params := Parameter.eq_of_joined_eq
    (List.cons.inj (List.cons.inj hlist).2).2
  refine ⟨Int.ofNat_inj.mp (Numeral.eq_of_aligned_eq hnumber), ?_⟩
  obtain ⟨opcode, params, position, modes⟩ := i
  obtain ⟨_, _, _, _⟩ := j
  cases hopcode
  cases hparams
  cases hposition
  cases hmodes
  rfl

theorem injective_instructionLine :
    Function.Injective (Function.uncurry instructionLine) := by
  rintro ⟨number, i⟩ ⟨other, j⟩ h
  obtain ⟨rfl, rfl⟩ := eq_and_eq_of_instructionLine_eq h
  rfl

/-- Two lines of instructions are the same text exactly if their numbers, the
addresses, the operations, the mode digits and the parameters, each in its mode
and its place, are the same. So the word that an instruction was decoded from
and the raw words of its parameters can be had from its line. -/
theorem instructionLine_determines :
    (∀ (number other : Nat) (i j : Instruction),
      instructionLine number i = instructionLine other j ↔
        number = other ∧ i.position = j.position ∧ i.opcode = j.opcode ∧
          i.modes = j.modes ∧ i.params = j.params) ∧
    ∃ recover : String → Int × List Int, ∀ (number : Nat) (i : Instruction),
      recover (instructionLine number i) = (i.word, i.numbers) := by
  constructor
  · intro number other i j
    constructor
    · intro h
      obtain ⟨rfl, rfl⟩ := eq_and_eq_of_instructionLine_eq h
      exact ⟨rfl, rfl, rfl, rfl, rfl⟩
    · rintro ⟨rfl, hposition, hopcode, hmodes, hparams⟩
      simp only [instructionLine, Instruction.text, hposition, hopcode, hmodes,
        hparams]
  · let words (entry : Nat × Instruction) : Int × List Int :=
      (entry.2.word, entry.2.numbers)
    refine ⟨Function.extend (Function.uncurry instructionLine) words
      fun _ => (0, []), ?_⟩
    intro number i
    exact injective_instructionLine.extend_apply words _ (number, i)

end Event

end IntcodeMachine
