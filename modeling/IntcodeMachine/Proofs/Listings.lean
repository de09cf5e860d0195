import Mathlib.Data.Nat.Digits.Defs
import IntcodeMachine.Proofs.Spacing

/-!
The grammar of program texts, and that the reader accepts it exactly. A listing
is a list of integers with a comma between two of them and gaps around each. An
integer is a row of plain digits with an optional sign, no longer than the
limit; it stands for the number that its digits are the decimal digits of.
-/

namespace IntcodeMachine.Program

open Text

variable {text rest word : List Char} {value : Int} {words : List Int}

/-- The digits of an integer: at least one, and no more than the limit. -/
structure DigitRow (digits : List Char) : Prop where
  nonempty : digits ≠ []
  plain : ∀ c ∈ digits, c.isDigit = true
  fits : digits.length ≤ Numeral.digitLimit

/-- The number with the given decimal digits, the most significant first. -/
def magnitude (digits : List Char) : Nat :=
  Nat.ofDigits 10 (digits.reverse.map fun c => c.toNat - '0'.toNat)

/-- An integer and its value. -/
inductive Integer : List Char → Int → Prop where
  | unsigned {digits : List Char} : DigitRow digits →
      Integer digits (magnitude digits)
  | plus {digits : List Char} : DigitRow digits →
      Integer ('+' :: digits) (magnitude digits)
  | minus {digits : List Char} : DigitRow digits →
      Integer ('-' :: digits) (-(magnitude digits))

/-- An integer between gaps. -/
inductive Item : List Char → Int → Prop where
  | mk {before word after : List Char} {value : Int} : Gaps before →
      Integer word value → Gaps after →
      Item (before ++ (word ++ after)) value

/-- A program text: integers between gaps, with a comma between two of them,
and the list of their values. -/
inductive Listing : List Char → List Int → Prop where
  | last {text : List Char} {value : Int} : Item text value →
      Listing text [value]
  | more {text rest : List Char} {value : Int} {words : List Int} :
      Item text value → Listing rest words →
      Listing (text ++ ',' :: rest) (value :: words)

theorem natOfDigits_eq (digits : List Nat) :
    Numeral.natOfDigits digits = Nat.ofDigits 10 digits.reverse := by
  rw [Nat.ofDigits_eq_foldr, List.foldr_reverse, Numeral.natOfDigits]
  congr 1
  funext n d
  exact Nat.add_comm ..

theorem Literal.value_eq (l : Literal) :
    l.value = if l.negative then -(magnitude l.digits : Int)
      else magnitude l.digits := by
  rw [Literal.value, Numeral.ofDigits, natOfDigits_eq, magnitude,
    List.map_reverse]

/-- The integers are the literals that are not too long. -/
theorem integer_iff :
    Integer word value ↔
      ∃ l : Literal, l.Spells word ∧ ¬ l.TooLong ∧ l.value = value := by
  constructor
  · intro h
    cases h with
    | unsigned h =>
        exact ⟨⟨false, _⟩, ⟨_, .absent, rfl, h.nonempty, h.plain⟩,
          Nat.not_lt.mpr h.fits, Literal.value_eq _⟩
    | plus h =>
        exact ⟨⟨false, _⟩, ⟨_, .plus, rfl, h.nonempty, h.plain⟩,
          Nat.not_lt.mpr h.fits, Literal.value_eq _⟩
    | minus h =>
        exact ⟨⟨true, _⟩, ⟨_, .minus, rfl, h.nonempty, h.plain⟩,
          Nat.not_lt.mpr h.fits, Literal.value_eq _⟩
  · rintro ⟨⟨negative, digits⟩, ⟨sign, hsign, rfl, hne, hplain⟩, hlong, rfl⟩
    have hrow : DigitRow digits := ⟨hne, hplain, Nat.not_lt.mp hlong⟩
    rw [Literal.value_eq]
    change Sign sign negative at hsign
    cases hsign with
    | absent => exact .unsigned hrow
    | plus => exact .plus hrow
    | minus => exact .minus hrow

/-- The literals of a listing are found at the start of a text that does not
go on after it. -/
theorem greedy_of_listing (h : Listing text words) (hend : EndsDigits rest)
    (hstop : ¬ GoesOn rest) :
    ∃ ls after, Greedy (text ++ rest) ls (after ++ rest) ∧ Gaps after ∧
      (∀ l ∈ ls, ¬ l.TooLong) ∧ ls.map Literal.value = words := by
  induction h with
  | @last text value hitem =>
      cases hitem with
      | @mk before word after value hbefore hword hafter =>
          obtain ⟨l, hspells, hlong, hvalue⟩ := integer_iff.mp hword
          refine ⟨[l], after, ?_, hafter, by simpa using hlong,
            by simp [hvalue]⟩
          rw [List.append_assoc, List.append_assoc]
          exact .last hbefore hspells (endsDigits_of_gaps hafter hend)
            (not_goesOn_append hafter hstop)
  | @more text tail value words hitem _ ih =>
      obtain ⟨ls, left, hgreedy, hleft, hlongs, hvalues⟩ := ih
      cases hitem with
      | @mk before word after value hbefore hword hafter =>
          obtain ⟨l, hspells, hlong, hvalue⟩ := integer_iff.mp hword
          refine ⟨l :: ls, left, ?_, hleft,
            List.forall_mem_cons.mpr ⟨hlong, hlongs⟩, ?_⟩
          · have htext : before ++ (word ++ after) ++ ',' :: tail ++ rest =
                before ++ (word ++ (after ++ ',' :: (tail ++ rest))) := by
              simp only [List.append_assoc, List.cons_append]
            rw [htext]
            exact .more hbefore hspells hafter hgreedy
          · rw [List.map_cons, hvalue, hvalues]

/-- The literals that were found are those of a listing, if they are not too
long, and it may have any gaps at its end. -/
theorem Greedy.exists_listing {ls : List Literal} (h : Greedy text ls rest)
    (hfits : ∀ l ∈ ls, ¬ l.TooLong) :
    ∃ body, text = body ++ rest ∧ ∀ gaps, Gaps gaps →
      Listing (body ++ gaps) (ls.map Literal.value) := by
  induction h with
  | @last gaps word rest l hgaps hword _ _ =>
      have hinteger : Integer word l.value :=
        integer_iff.mpr ⟨l, hword, hfits l (List.mem_cons_self ..), rfl⟩
      refine ⟨gaps ++ word, (List.append_assoc ..).symm, ?_⟩
      intro after hafter
      rw [List.append_assoc]
      exact .last (.mk hgaps hinteger hafter)
  | @more gaps word before text rest l ls hgaps hword hbefore _ ih =>
      have hinteger : Integer word l.value :=
        integer_iff.mpr ⟨l, hword, hfits l (List.mem_cons_self ..), rfl⟩
      obtain ⟨body, rfl, hbody⟩ :=
        ih fun l' hl' => hfits l' (List.mem_cons_of_mem _ hl')
      refine ⟨gaps ++ (word ++ before) ++ ',' :: body, ?_, ?_⟩
      · simp only [List.append_assoc, List.cons_append]
      · intro after hafter
        rw [List.append_assoc]
        exact .more (.mk hgaps hinteger hbefore) (hbody after hafter)

/-- A text whose literals are not too long and that has only gaps after
them. -/
def Accepted (text : List Char) (words : List Int) : Prop :=
  ∃ ls rest, literals? text = some (ls, rest) ∧ (∀ l ∈ ls, ¬ l.TooLong) ∧
    Gaps rest ∧ ls.map Literal.value = words

theorem accepted_iff_listing : Accepted text words ↔ Listing text words := by
  constructor
  · rintro ⟨ls, rest, hfound, hfits, hrest, rfl⟩
    obtain ⟨body, rfl, hbody⟩ :=
      (greedy_of_literals? hfound).exists_listing hfits
    exact hbody rest hrest
  · intro h
    have hend : EndsDigits [] := by simp [EndsDigits]
    have hstop : ¬ GoesOn [] := not_goesOn_of_gaps (by simp [Gaps])
    obtain ⟨ls, after, hgreedy, hafter, hfits, hvalues⟩ :=
      greedy_of_listing h hend hstop
    rw [List.append_nil, List.append_nil] at hgreedy
    exact ⟨ls, after, literals?_of_greedy hgreedy, hfits, hafter, hvalues⟩

section Page

variable {page : List Char} {ls : List Literal}

/-! What a page reads as, by the literals at its start and what is left. -/

theorem readPage_of_none (h : literals? page = none) :
    readPage page = .error (malformedAt .integer page (skipGaps page)) := by
  simp only [readPage, h]

theorem exists_readPage_of_tooLong (h : literals? page = some (ls, rest))
    (hlong : ∃ l ∈ ls, l.TooLong) :
    ∃ count, readPage page = .error (.tooManyDigits count) := by
  simp only [readPage, h]
  cases hfind : ls.find? (·.TooLong) with
  | some l => exact ⟨l.digits.length, rfl⟩
  | none =>
      obtain ⟨l, hl, hlong⟩ := hlong
      have hfits := List.find?_eq_none.mp hfind l hl
      exact absurd hlong (by simpa using hfits)

theorem readPage_of_fits (h : literals? page = some (ls, rest))
    (hfits : ∀ l ∈ ls, ¬ l.TooLong) :
    readPage page =
      if skipGaps rest = [] then .ok (ls.map Literal.value)
      else .error (malformedAt .endOfText page (skipGaps rest)) := by
  have hfind : ls.find? (·.TooLong) = none := by simpa using hfits
  simp only [readPage, h, hfind]
  cases skipGaps rest with
  | nil => rfl
  | cons c left => rfl

theorem readPage_of_gaps (h : literals? page = some (ls, rest))
    (hfits : ∀ l ∈ ls, ¬ l.TooLong) (hgaps : Gaps rest) :
    readPage page = .ok (ls.map Literal.value) := by
  rw [readPage_of_fits h hfits, if_pos (skipGaps_eq_nil_iff.mpr hgaps)]

theorem readPage_of_left (h : literals? page = some (ls, rest))
    (hfits : ∀ l ∈ ls, ¬ l.TooLong) (hleft : ¬ Gaps rest) :
    readPage page = .error (malformedAt .endOfText page (skipGaps rest)) := by
  rw [readPage_of_fits h hfits, if_neg (mt skipGaps_eq_nil_iff.mp hleft)]

end Page

theorem readPage_eq_ok_iff :
    readPage text = .ok words ↔ Accepted text words := by
  constructor
  · intro h
    cases hfound : literals? text with
    | none =>
        rw [readPage_of_none hfound] at h
        cases h
    | some found =>
        obtain ⟨ls, rest⟩ := found
        by_cases hlong : ∃ l ∈ ls, l.TooLong
        · obtain ⟨count, hcount⟩ := exists_readPage_of_tooLong hfound hlong
          rw [hcount] at h
          cases h
        have hfits : ∀ l ∈ ls, ¬ l.TooLong :=
          fun l hl hl' => hlong ⟨l, hl, hl'⟩
        by_cases hgaps : Gaps rest
        · rw [readPage_of_gaps hfound hfits hgaps] at h
          cases h
          exact ⟨ls, rest, hfound, hfits, hgaps, rfl⟩
        · rw [readPage_of_left hfound hfits hgaps] at h
          cases h
  · rintro ⟨ls, rest, hfound, hfits, hgaps, rfl⟩
    exact readPage_of_gaps hfound hfits hgaps

/-- Other gaps make no difference to what is accepted. -/
theorem accepted_of_squeeze_eq {other : List Char}
    (h : squeeze text = squeeze other) (htext : Accepted text words) :
    Accepted other words := by
  obtain ⟨ls, rest, hfound, hfits, hgaps, hvalues⟩ := htext
  obtain ⟨left, hother, hleft⟩ := exists_literals?_of_squeeze_eq h hfound
  exact ⟨ls, left, hother, hfits, (gaps_iff_of_squeeze_eq hleft).mpr hgaps,
    hvalues⟩

/-- Expanded tabs make no difference to what is accepted. -/
theorem accepted_expandTabs_iff :
    Accepted (expandTabs text) words ↔ Accepted text words :=
  ⟨accepted_of_squeeze_eq (squeeze_expandTabs text),
    accepted_of_squeeze_eq (squeeze_expandTabs text).symm⟩

theorem exists_digit_of_item (h : Item text value) :
    ∃ c ∈ text, c.isDigit = true := by
  cases h with
  | @mk before word after value _ hword _ =>
      obtain ⟨l, ⟨sign, _, rfl, hne, hplain⟩, _, _⟩ := integer_iff.mp hword
      obtain ⟨d, ds, hdigits⟩ := List.exists_cons_of_ne_nil hne
      exact ⟨d, by simp [hdigits], hplain d (by simp [hdigits])⟩

/-- A listing has a digit, which is no blank. -/
theorem not_blank_of_listing (h : Listing text words) :
    ¬ text.all isBlank = true := by
  have hdigit : ∃ c ∈ text, c.isDigit = true := by
    cases h with
    | last hitem => exact exists_digit_of_item hitem
    | more hitem _ =>
        obtain ⟨c, hc, hdigit⟩ := exists_digit_of_item hitem
        exact ⟨c, List.mem_append_left _ hc, hdigit⟩
  obtain ⟨c, hc, hdigit⟩ := hdigit
  intro hall
  have hblank := List.all_eq_true.mp hall c hc
  rw [isBlank_of_isDigit hdigit] at hblank
  cases hblank

theorem read_of_not_blank (h : ∃ c ∈ text, isBlank c = false) :
    read text = readPage (expandTabs text) := by
  have hall : ¬ text.all isBlank = true := by simpa using h
  rw [read, if_neg hall]

theorem read_eq_ok_iff_accepted :
    read text = .ok words ↔ Accepted text words := by
  unfold read
  split
  · next hblank =>
      constructor
      · intro h
        cases h
      · intro h
        exact absurd hblank (not_blank_of_listing (accepted_iff_listing.mp h))
  · rw [readPage_eq_ok_iff, accepted_expandTabs_iff]

/-- The reader accepts a text exactly if it is a listing, and it gives the
values of its integers. -/
theorem read_eq_ok_iff_listing (text : List Char) (words : List Int) :
    read text = .ok words ↔ Listing text words := by
  rw [read_eq_ok_iff_accepted, accepted_iff_listing]

end IntcodeMachine.Program
