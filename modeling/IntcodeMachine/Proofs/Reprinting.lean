import IntcodeMachine.Program
import IntcodeMachine.Proofs.Listings

/-!
Programs that are written and read again. The numeral of a number is a literal
of its value, and it is not too long exactly if the number fits in the limit.
So a program whose words fit is read back from its text, and every program that
was read is one whose words fit.
-/

namespace IntcodeMachine

namespace Numeral

variable {n : Nat} {c : Char}

theorem isDigit_of_mem_digits (h : c ∈ digits n) : c.isDigit = true :=
  Nat.isDigit_of_mem_toDigits (by decide) (by decide) h

theorem digits_ne_nil (n : Nat) : digits n ≠ [] :=
  List.ne_nil_of_length_pos Nat.length_toDigits_pos

/-- The digits are no more than the limit exactly if the number fits. -/
theorem length_digits_le_iff {limit : Nat} (h : 0 < limit) :
    (digits n).length ≤ limit ↔ n < Nat.pow 10 limit := by
  rw [Nat.pow_eq]
  exact Nat.length_toDigits_le_iff (by decide) h

theorem natOfDigits_digits (n : Nat) :
    natOfDigits ((digits n).map fun c => c.toNat - '0'.toNat) = n := by
  rw [natOfDigits, List.foldl_map]
  exact Nat.ofDigitChars_ten_toDigits

end Numeral

namespace Program

variable {text word : List Char} {words : List Int} {value : Int}

/-- The literal that a number is written as. -/
def Literal.ofInt (n : Int) : Literal :=
  ⟨decide (n < 0), Numeral.digits n.natAbs⟩

theorem Literal.spells_ofInt (n : Int) :
    (ofInt n).Spells (Numeral.chars n) := by
  refine ⟨Numeral.sign n, ?_, rfl, Numeral.digits_ne_nil _,
    fun c => Numeral.isDigit_of_mem_digits⟩
  by_cases hneg : n < 0
  · simp only [ofInt, Numeral.sign, hneg, if_true, decide_true]
    exact .minus
  · simp only [ofInt, Numeral.sign, hneg, if_false, decide_false]
    exact .absent

theorem Literal.value_ofInt (n : Int) : (ofInt n).value = n := by
  rw [value, Numeral.ofDigits, ofInt, Numeral.natOfDigits_digits]
  by_cases hneg : n < 0
  · rw [decide_eq_true hneg, if_pos rfl]
    omega
  · rw [decide_eq_false hneg, if_neg Bool.false_ne_true]
    omega

theorem Literal.tooLong_ofInt_iff (n : Int) :
    (ofInt n).TooLong ↔ ¬ Numeral.Fits Numeral.digitLimit n := by
  rw [TooLong, ofInt, ← Nat.not_le,
    Numeral.length_digits_le_iff (by decide), Numeral.Fits]

/-- The numeral of a number is an integer of a program. -/
theorem integer_chars (h : Numeral.Fits Numeral.digitLimit value) :
    Integer (Numeral.chars value) value :=
  integer_iff.mpr ⟨.ofInt value, Literal.spells_ofInt value,
    fun hlong => (Literal.tooLong_ofInt_iff value).mp hlong h,
    Literal.value_ofInt value⟩

theorem DigitRow.magnitude_lt {digits : List Char} (h : DigitRow digits) :
    magnitude digits < 10 ^ digits.length := by
  have hvalues : ∀ d ∈ digits.reverse.map fun c => c.toNat - '0'.toNat,
      d < 10 := by
    intro d hd
    obtain ⟨c, hc, rfl⟩ := List.mem_map.mp hd
    obtain ⟨_, hhigh⟩ :=
      Char.isDigit_iff_toNat.mp (h.plain c (List.mem_reverse.mp hc))
    have hnine : '9'.toNat - '0'.toNat < 10 := by decide
    omega
  have hlength := Nat.ofDigits_lt_base_pow_length (by decide) hvalues
  rwa [List.length_map, List.length_reverse] at hlength

theorem DigitRow.fits_magnitude {digits : List Char} {limit : Nat}
    (h : DigitRow digits) (hle : digits.length ≤ limit) :
    Numeral.Fits limit (magnitude digits) := by
  rw [Numeral.Fits, Int.natAbs_natCast, Nat.pow_eq]
  exact h.magnitude_lt.trans_le (Nat.pow_le_pow_right (by decide) hle)

/-- The value of an integer has no more digits than its word. -/
theorem Integer.fits (h : Integer word value) :
    Numeral.Fits Numeral.digitLimit value := by
  cases h with
  | unsigned h | plus h => exact h.fits_magnitude h.fits
  | minus h =>
      rw [Numeral.Fits, Int.natAbs_neg]
      exact h.fits_magnitude h.fits

theorem item_of_integer (h : Integer word value) : Item word value := by
  have hnone : Gaps [] := by simp [Gaps]
  simpa using Item.mk hnone h hnone

theorem listing_render (hne : words ≠ [])
    (hfits : ∀ w ∈ words, Numeral.Fits Numeral.digitLimit w) :
    Listing (render words) words := by
  induction words with
  | nil => exact absurd rfl hne
  | cons w words ih =>
      obtain ⟨hw, hwords⟩ := List.forall_mem_cons.mp hfits
      have hitem := item_of_integer (integer_chars hw)
      cases words with
      | nil => simpa [render] using Listing.last hitem
      | cons next words =>
          have hrender : render (w :: next :: words) =
              Numeral.chars w ++ ',' :: render (next :: words) := by
            simp [render, List.intercalate_cons_cons]
          rw [hrender]
          exact .more hitem (ih (by simp) hwords)

theorem Item.fits (h : Item text value) :
    Numeral.Fits Numeral.digitLimit value := by
  cases h with
  | mk _ hword _ => exact hword.fits

theorem Listing.fits (h : Listing text words) :
    words ≠ [] ∧ ∀ w ∈ words, Numeral.Fits Numeral.digitLimit w := by
  induction h with
  | last hitem => exact ⟨by simp, by simpa using hitem.fits⟩
  | more hitem _ ih =>
      exact ⟨by simp, List.forall_mem_cons.mpr ⟨hitem.fits, ih.2⟩⟩

/-- A program with at least one word is read back from its text if its words
can be written. All words of a program that was read can be written, and the
program is read back from the text in which they are. -/
theorem read_render (words : List Int) :
    (words ≠ [] → (∀ w ∈ words, Numeral.Fits Numeral.digitLimit w) →
      read (render words) = .ok words) ∧
    ∀ text, read text = .ok words →
      (∀ w ∈ words, Numeral.Fits Numeral.digitLimit w) ∧
        read (render words) = read text := by
  have hback (hne : words ≠ [])
      (hfits : ∀ w ∈ words, Numeral.Fits Numeral.digitLimit w) :
      read (render words) = .ok words := by
    rw [read_eq_ok_iff_accepted, accepted_iff_listing]
    exact listing_render hne hfits
  refine ⟨hback, ?_⟩
  intro text h
  obtain ⟨hne, hfits⟩ :=
    (accepted_iff_listing.mp (read_eq_ok_iff_accepted.mp h)).fits
  exact ⟨hfits, (hback hne hfits).trans h.symm⟩

/-- Zero, a negative number and the largest one that can be written; and a
listing with a sign, zeros and gaps that its own text does not have. -/
theorem read_render_largest :
    let words : List Int := [0, -7, 10 ^ Numeral.digitLimit - 1]
    let text := " +007,\t-0\n".toList
    read (render words) = .ok words ∧ render [7, 0] = "7,0".toList ∧
      read (render [7, 0]) = read text := by
  intro words text
  have hfits : ∀ w ∈ words, Numeral.Fits Numeral.digitLimit w := by
    decide +kernel
  have hread : read text = .ok [7, 0] := by
    decide +kernel
  exact ⟨(read_render words).1 (by simp [words]) hfits, by decide +kernel,
    ((read_render [7, 0]).2 text hread).2⟩

end Program

end IntcodeMachine
