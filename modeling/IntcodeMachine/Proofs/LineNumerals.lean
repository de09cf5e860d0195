import Mathlib.Data.List.Forall2
import IntcodeMachine.Device
import IntcodeMachine.Proofs.Listings

/-!
The two readers of integers, that of programs and that of input lines. A line
may have more: blanks that are no gaps, digits of other scripts, underscores.
Between commas the integers of a program are lines with the same numbers, and
lines that are written in the characters of programs alone are such integers.
-/

namespace IntcodeMachine

namespace Text

variable {text before after : List Char}

/-- Blanks at the ends of a text are trimmed. -/
theorem trim_append (hbefore : ∀ c ∈ before, isBlank c = true)
    (hafter : ∀ c ∈ after, isBlank c = true)
    (hfirst : ∀ c ∈ text.head?, isBlank c = false)
    (hlast : ∀ c ∈ text.getLast?, isBlank c = false) (hne : text ≠ []) :
    trim (before ++ (text ++ after)) = text := by
  have hstart : ∀ c ∈ (text ++ after).head?, isBlank c = false := by
    rwa [List.head?_append_of_ne_nil text hne]
  have hend : ∀ c ∈ text.reverse.head?, isBlank c = false := by
    rwa [List.head?_reverse]
  have hblank : ∀ c ∈ after.reverse, isBlank c = true := by
    intro c hc
    exact hafter c (List.mem_reverse.mp hc)
  rw [trim, trimBy, (cut_of_boundary hbefore hstart).2, List.reverse_append,
    (cut_of_boundary hblank hend).2, List.reverse_reverse]

/-- Only blanks are trimmed. -/
theorem exists_trim (text : List Char) :
    ∃ before after, (∀ c ∈ before, isBlank c = true) ∧
      (∀ c ∈ after, isBlank c = true) ∧
      text = before ++ (trim text ++ after) := by
  let inner := text.dropWhile isBlank
  refine ⟨text.takeWhile isBlank, (inner.reverse.takeWhile isBlank).reverse,
    fun c hc => List.mem_takeWhile_imp hc, ?_, ?_⟩
  · intro c hc
    exact List.mem_takeWhile_imp (List.mem_reverse.mp hc)
  · have hinner : trim text ++ (inner.reverse.takeWhile isBlank).reverse =
        inner := by
      rw [trim, trimBy, ← List.reverse_append,
        List.takeWhile_append_dropWhile, List.reverse_reverse]
    rw [hinner, List.takeWhile_append_dropWhile]

/-- The plain digits are digits with their usual values. -/
theorem digitValue?_of_isDigit {c : Char} (h : c.isDigit = true) :
    digitValue? c = some (c.toNat - '0'.toNat) := by
  have hcode : 0x30 ≤ c.toNat ∧ c.toNat < 0x30 + 10 := by
    obtain ⟨hlow, hhigh⟩ := Char.isDigit_iff_toNat.mp h
    exact ⟨hlow, Nat.lt_succ_of_le hhigh⟩
  rw [digitValue?, zeroDigits, List.findSome?_cons, if_pos hcode]
  rfl

end Text

namespace Program

open Text

variable {text word row : List Char} {value : Int} {values : List Nat}
  {words : List Int} {c : Char} {l : Literal}

/-- The characters that programs are written in. -/
def IsPlain (c : Char) : Prop :=
  c.isDigit = true ∨ c ∈ ['+', '-', ',', ' ', '\t', '\n', '\r']

instance (c : Char) : Decidable (IsPlain c) :=
  inferInstanceAs (Decidable (_ ∨ _))

/-- The plain digits are the only digits among the plain characters. -/
theorem isDigit_of_digitValue? {d : Nat} (hplain : IsPlain c)
    (h : digitValue? c = some d) :
    c.isDigit = true ∧ d = c.toNat - '0'.toNat := by
  have hdigit : c.isDigit = true := by
    rcases hplain with hdigit | hmem
    · exact hdigit
    · simp only [List.mem_cons, List.not_mem_nil, or_false] at hmem
      rcases hmem with rfl | rfl | rfl | rfl | rfl | rfl | rfl <;> cases h
  rw [digitValue?_of_isDigit hdigit] at h
  exact ⟨hdigit, (Option.some.inj h).symm⟩

/-- The gaps are the only blanks among the plain characters. -/
theorem gap_of_isBlank (hplain : IsPlain c) (h : isBlank c = true) :
    c ∈ [' ', '\t', '\n', '\r'] := by
  rcases hplain with hdigit | hmem
  · rw [isBlank_of_isDigit hdigit] at h
    cases h
  · simp only [List.mem_cons, List.not_mem_nil, or_false] at hmem ⊢
    rcases hmem with rfl | rfl | rfl | hgap
    · cases h
    · cases h
    · cases h
    · exact hgap

theorem digitRow?_of_isDigit (hne : row ≠ [])
    (h : ∀ c ∈ row, c.isDigit = true) :
    Numeral.digitRow? row = some (row.map fun c => c.toNat - '0'.toNat) := by
  fun_induction Numeral.digitRow? row with
  | case1 => exact absurd rfl hne
  | case2 c => simp [digitValue?_of_isDigit (h c (by simp))]
  | case3 c rest ih =>
      have hunderscore : '_'.isDigit = true := h '_' (by simp)
      cases hunderscore
  | case4 c rest hrest _ ih =>
      have hne : rest ≠ [] := fun hnil => hrest hnil
      have hc := digitValue?_of_isDigit (h c (List.mem_cons_self ..))
      have hds := ih hne fun d hd => h d (List.mem_cons_of_mem _ hd)
      simp [hc, hds]

/-- A row of plain characters is a row of plain digits if it is read. -/
theorem isDigit_of_digitRow? (hplain : ∀ c ∈ row, IsPlain c)
    (h : Numeral.digitRow? row = some values) :
    row ≠ [] ∧ (∀ c ∈ row, c.isDigit = true) ∧
      values = row.map fun c => c.toNat - '0'.toNat := by
  fun_induction Numeral.digitRow? row generalizing values with
  | case1 => cases h
  | case2 c =>
      obtain ⟨d, hd, rfl⟩ := Option.map_eq_some_iff.mp h
      obtain ⟨hdigit, rfl⟩ :=
        isDigit_of_digitValue? (hplain c (by simp)) hd
      exact ⟨by simp, by simpa using hdigit, rfl⟩
  | case3 c rest ih =>
      have hunderscore : IsPlain '_' := hplain '_' (by simp)
      exact absurd hunderscore (by simp [IsPlain])
  | case4 c rest hrest _ ih =>
      simp only [Option.bind_eq_bind, Option.bind_eq_some_iff,
        Option.pure_def, Option.some.injEq] at h
      obtain ⟨d, hd, ds, hds, rfl⟩ := h
      obtain ⟨hdigit, rfl⟩ :=
        isDigit_of_digitValue? (hplain c (List.mem_cons_self ..)) hd
      obtain ⟨_, hdigits, rfl⟩ :=
        ih (fun d hd => hplain d (List.mem_cons_of_mem _ hd)) hds
      exact ⟨by simp, List.forall_mem_cons.mpr ⟨hdigit, hdigits⟩, rfl⟩

/-- The word of a literal is a numeral, if it is not too long. -/
theorem read?_of_spells (h : l.Spells word) (hfits : ¬ l.TooLong) :
    Numeral.read? word = some l.value := by
  obtain ⟨sign, hsign, rfl, hne, hdigits⟩ := h
  have hfirst : ∃ c ∈ l.digits.head?, c.isDigit = true := by
    obtain ⟨d, ds, heq⟩ := List.exists_cons_of_ne_nil hne
    exact ⟨d, by simp [heq], hdigits d (by simp [heq])⟩
  have hlength : l.digits.length ≤ Numeral.digitLimit := Nat.not_lt.mp hfits
  simp [Numeral.read?, splitSign_of_sign hsign hfirst,
    digitRow?_of_isDigit hne hdigits, hlength, Literal.value]

/-- A numeral in plain characters is the word of a literal. -/
theorem exists_spells_of_read? (hplain : ∀ c ∈ word, IsPlain c)
    (h : Numeral.read? word = some value) :
    ∃ l : Literal, l.Spells word ∧ ¬ l.TooLong ∧ l.value = value := by
  obtain ⟨sign, hsign, hword⟩ := exists_sign word
  simp only [Numeral.read?, Option.bind_eq_bind, Option.bind_eq_some_iff,
    Option.pure_def] at h
  obtain ⟨values, hvalues, h⟩ := h
  split at h
  · next hlength =>
      cases h
      have hrow : ∀ c ∈ (Numeral.splitSign word).2, IsPlain c := by
        intro c hc
        apply hplain c
        rw [hword]
        exact List.mem_append_right _ hc
      obtain ⟨hne, hdigits, rfl⟩ := isDigit_of_digitRow? hrow hvalues
      rw [List.length_map] at hlength
      exact ⟨⟨(Numeral.splitSign word).1, (Numeral.splitSign word).2⟩,
        ⟨sign, hsign, hword, hne, hdigits⟩, Nat.not_lt.mpr hlength, rfl⟩
  · cases h

theorem ofLine_eq_ok_iff {line : List Char} :
    Numeral.ofLine line = .ok value ↔
      Numeral.read? (trim line) = some value := by
  unfold Numeral.ofLine
  cases Numeral.read? (trim line) <;> simp

/-- No blank is part of a word. -/
theorem isBlank_of_mem_word (h : l.Spells word) (hc : c ∈ word) :
    isBlank c = false := by
  rcases h.mem hc with rfl | rfl | hdigit
  · rfl
  · rfl
  · exact isBlank_of_isDigit hdigit

/-- An integer between gaps is a line with its value. -/
theorem ofLine_of_item (h : Item text value) :
    Numeral.ofLine text = .ok value := by
  cases h with
  | @mk before word after value hbefore hword hafter =>
      obtain ⟨l, hspells, hfits, rfl⟩ := integer_iff.mp hword
      have hblank {gaps : List Char} (hgaps : Gaps gaps) :
          ∀ c ∈ gaps, isBlank c = true :=
        fun c hc => isBlank_of_gap (hgaps c hc)
      have hne : word ≠ [] := by
        obtain ⟨sign, _, rfl, hne, _⟩ := hspells
        simp [hne]
      have htrim : trim (before ++ (word ++ after)) = word := by
        apply trim_append (hblank hbefore) (hblank hafter) _ _ hne
        · intro c hc
          exact isBlank_of_mem_word hspells (List.mem_of_mem_head? hc)
        · intro c hc
          exact isBlank_of_mem_word hspells (List.mem_of_mem_getLast? hc)
      rw [ofLine_eq_ok_iff, htrim, read?_of_spells hspells hfits]

/-- A line in plain characters is an integer between gaps. -/
theorem item_of_ofLine (hplain : ∀ c ∈ text, IsPlain c)
    (h : Numeral.ofLine text = .ok value) : Item text value := by
  obtain ⟨before, after, hbefore, hafter, htext⟩ := exists_trim text
  have hgaps {part : List Char} (hpart : ∀ c ∈ part, c ∈ text)
      (hblank : ∀ c ∈ part, isBlank c = true) : Gaps part :=
    fun c hc => gap_of_isBlank (hplain c (hpart c hc)) (hblank c hc)
  have hword : ∀ c ∈ trim text, IsPlain c := by
    intro c hc
    apply hplain
    rw [htext]
    simp [hc]
  have hinteger : Integer (trim text) value :=
    integer_iff.mpr (exists_spells_of_read? hword (ofLine_eq_ok_iff.mp h))
  rw [htext]
  refine .mk (hgaps ?_ hbefore) hinteger (hgaps ?_ hafter)
  · intro c hc
    rw [htext]
    exact List.mem_append_left _ hc
  · intro c hc
    rw [htext]
    exact List.mem_append_right _ (List.mem_append_right _ hc)

theorem comma_notMem_of_item (h : Item text value) : ',' ∉ text := by
  cases h with
  | @mk before word after value hbefore hword hafter =>
      have hgaps {gaps : List Char} (h : Gaps gaps) : ',' ∉ gaps := by
        intro hmem
        exact absurd (h ',' hmem) (by decide)
      have hletters : ',' ∉ word := by
        obtain ⟨l, hspells, _⟩ := integer_iff.mp hword
        intro hmem
        exact absurd (hspells.mem hmem) (by decide)
      simp [hgaps hbefore, hletters, hgaps hafter]

/-- A text is a list of lines between commas, and these are the numbers on
them. -/
def ReadsAsLines (text : List Char) (words : List Int) : Prop :=
  List.Forall₂ (fun line value => Numeral.ofLine line = .ok value)
    (text.splitOn ',') words

theorem readsAsLines_of_listing (h : Listing text words) :
    ReadsAsLines text words := by
  unfold ReadsAsLines
  induction h with
  | last hitem =>
      rw [List.splitOn_eq_singleton (comma_notMem_of_item hitem)]
      exact .cons (ofLine_of_item hitem) .nil
  | more hitem _ ih =>
      rw [List.splitOn_append_cons_self_of_not_mem
        (comma_notMem_of_item hitem)]
      exact .cons (ofLine_of_item hitem) ih

theorem listing_of_readsAsLines (hplain : ∀ c ∈ text, IsPlain c)
    (h : ReadsAsLines text words) : Listing text words := by
  unfold ReadsAsLines at h
  induction words generalizing text with
  | nil =>
      have hnil := List.forall₂_nil_right_iff.mp h
      exact absurd hnil (List.splitOn_ne_nil _ _)
  | cons value words ih =>
      by_cases hcomma : ',' ∈ text
      · obtain ⟨line, rest, rfl, hline⟩ := List.eq_append_cons_of_mem hcomma
        rw [List.splitOn_append_cons_self_of_not_mem hline] at h
        obtain ⟨hvalue, hwords⟩ := List.forall₂_cons.mp h
        refine .more (item_of_ofLine ?_ hvalue) (ih ?_ hwords)
        · intro c hc
          exact hplain c (List.mem_append_left _ hc)
        · intro c hc
          exact hplain c (List.mem_append_right _ (List.mem_cons_of_mem _ hc))
      · rw [List.splitOn_eq_singleton hcomma] at h
        obtain ⟨hvalue, hwords⟩ := List.forall₂_cons.mp h
        obtain rfl := List.forall₂_nil_left_iff.mp hwords
        exact .last (item_of_ofLine hplain hvalue)

/-- A program that is read is a list of lines between its commas, with the same
numbers. A text in the characters of programs that is such a list of lines is a
program, with the same numbers. -/
theorem read_agrees_with_lines (text : List Char) (words : List Int) :
    (read text = .ok words → ReadsAsLines text words) ∧
    ((∀ c ∈ text, IsPlain c) → ReadsAsLines text words →
      read text = .ok words) := by
  rw [read_eq_ok_iff_accepted, accepted_iff_listing]
  exact ⟨readsAsLines_of_listing, listing_of_readsAsLines⟩

/-- Signs, leading zeros and all four kinds of gaps. -/
theorem read_agrees_with_lines_signs :
    let text := " +07,\t-3\r\n,0".toList
    let words := [7, -3, 0]
    read text = .ok words ∧ (∀ c ∈ text, IsPlain c) ∧
      ReadsAsLines text words ∧ read text = .ok words := by
  intro text words
  have hread : read text = .ok words := by
    decide +kernel
  have hall : text.all (fun c => decide (IsPlain c)) = true := by
    decide +kernel
  have hplain : ∀ c ∈ text, IsPlain c := by
    intro c hc
    exact of_decide_eq_true (List.all_eq_true.mp hall c hc)
  obtain ⟨hlines, hback⟩ := read_agrees_with_lines text words
  exact ⟨hread, hplain, hlines hread, hback hplain (hlines hread)⟩

end Program

end IntcodeMachine
