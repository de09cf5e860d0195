import IntcodeMachine.Proofs.LineNumerals

/-!
The grammar of input lines, and that their reader accepts it exactly. A line
holds a numeral between blanks: one sign or none, then decimal digits of any
scripts in groups, with an underscore between two groups. All other lines are
malformed, and the fault names what the line holds without its blanks.
-/

namespace IntcodeMachine

namespace Text

variable {text inner before after : List Char} {c : Char} {d : Nat}

/-- A decimal digit and its value: the digits of a script follow its zero. -/
def IsDecimal (c : Char) (d : Nat) : Prop :=
  d < 10 ∧ ∃ first ∈ zeroDigits, c.toNat = first + d

/-- No two scripts share a digit. -/
theorem pairwise_zeroDigits :
    zeroDigits.Pairwise fun first next => first + 10 ≤ next := by
  decide

theorem digitValue?_eq_some_iff : digitValue? c = some d ↔ IsDecimal c d := by
  constructor
  · intro h
    obtain ⟨first, hmem, hfirst⟩ := List.exists_of_findSome?_eq_some h
    split at hfirst
    · cases hfirst
      exact ⟨by omega, first, hmem, by omega⟩
    · cases hfirst
  · rintro ⟨hd, first, hmem, hc⟩
    obtain ⟨earlier, later, hsplit⟩ := List.append_of_mem hmem
    have hpairs := pairwise_zeroDigits
    rw [hsplit] at hpairs
    rw [digitValue?, List.findSome?_eq_some_iff]
    refine ⟨earlier, first, later, hsplit, ?_, ?_⟩
    · rw [if_pos (by omega), hc, Nat.add_sub_cancel_left]
    · intro other hother
      have hgap := (List.pairwise_append.mp hpairs).2.2 other hother first
        (List.mem_cons_self ..)
      rw [if_neg (by omega)]

theorem IsDecimal.ne {mark : Char} (h : IsDecimal c d)
    (hmark : digitValue? mark = none) : c ≠ mark := by
  rintro rfl
  rw [digitValue?_eq_some_iff.mpr h] at hmark
  cases hmark

/-- What a text holds between the blanks at its ends. -/
structure Stripped (text inner : List Char) : Prop where
  surrounded : ∃ before after, (∀ c ∈ before, isBlank c = true) ∧
    (∀ c ∈ after, isBlank c = true) ∧ text = before ++ (inner ++ after)
  first : ∀ c ∈ inner.head?, isBlank c = false
  last : ∀ c ∈ inner.getLast?, isBlank c = false

theorem trim_eq_nil_of_blank (h : ∀ c ∈ text, isBlank c = true) :
    trim text = [] := by
  rw [trim, trimBy, List.dropWhile_eq_nil_iff.mpr h]
  rfl

theorem Stripped.trim_eq (h : Stripped text inner) : trim text = inner := by
  obtain ⟨⟨before, after, hbefore, hafter, rfl⟩, hfirst, hlast⟩ := h
  by_cases hne : inner = []
  · subst hne
    apply trim_eq_nil_of_blank
    intro c hc
    exact (List.mem_append.mp hc).elim (hbefore c) (hafter c)
  · exact trim_append hbefore hafter hfirst hlast hne

theorem stripped_trim (text : List Char) : Stripped text (trim text) := by
  refine ⟨exists_trim text, ?_, ?_⟩
  · intro c hc
    obtain ⟨after, hafter⟩ : ∃ after,
        text.dropWhile isBlank = trim text ++ after := by
      obtain ⟨dropped, hdropped⟩ :=
        List.dropWhile_suffix (l := (text.dropWhile isBlank).reverse) isBlank
      refine ⟨dropped.reverse, ?_⟩
      rw [trim, trimBy, ← List.reverse_append, hdropped, List.reverse_reverse]
    have hhead : c ∈ (text.dropWhile isBlank).head? := by
      rw [hafter, List.head?_append, Option.mem_def.mp hc]
      rfl
    exact head?_dropWhile hhead
  · intro c hc
    rw [trim, trimBy, List.getLast?_reverse] at hc
    exact head?_dropWhile hc

theorem trim_eq_iff : trim text = inner ↔ Stripped text inner := by
  constructor
  · rintro rfl
    exact stripped_trim text
  · exact Stripped.trim_eq

/-- More blanks at the ends of a text are trimmed with the others. -/
theorem trim_surrounded (hbefore : ∀ c ∈ before, isBlank c = true)
    (hafter : ∀ c ∈ after, isBlank c = true) (text : List Char) :
    trim (before ++ text ++ after) = trim text := by
  obtain ⟨⟨front, back, hfront, hback, htext⟩, hfirst, hlast⟩ :=
    stripped_trim text
  rw [trim_eq_iff]
  refine ⟨⟨before ++ front, back ++ after, ?_, ?_, ?_⟩, hfirst, hlast⟩
  · intro c hc
    exact (List.mem_append.mp hc).elim (hbefore c) (hfront c)
  · intro c hc
    exact (List.mem_append.mp hc).elim (hback c) (hafter c)
  · conv => lhs; rw [htext]
    simp only [List.append_assoc]

end Text

namespace Numeral

open Text

variable {row text : List Char} {groups : List (List Char)}
  {values : List Nat} {value : Int} {c : Char} {d : Nat}

/-- Groups of decimal digits with an underscore between two of them, and the
values of all the digits. -/
def Grouped (row : List Char) (values : List Nat) : Prop :=
  ∃ groups : List (List Char), groups ≠ [] ∧ (∀ group ∈ groups, group ≠ []) ∧
    row = ['_'].intercalate groups ∧
    List.Forall₂ IsDecimal groups.flatten values

/-- The digits of a numeral: at least one, and no more than the limit. The
underscores between them do not count. -/
structure Digits (row : List Char) (values : List Nat) : Prop where
  grouped : Grouped row values
  fits : values.length ≤ digitLimit

/-- The number with the given decimal digits, the most significant first. -/
def positional (values : List Nat) : Nat :=
  Nat.ofDigits 10 values.reverse

/-- A numeral and its value. -/
inductive Signed : List Char → Int → Prop where
  | unsigned {row : List Char} {values : List Nat} : Digits row values →
      Signed row (positional values)
  | plus {row : List Char} {values : List Nat} : Digits row values →
      Signed ('+' :: row) (positional values)
  | minus {row : List Char} {values : List Nat} : Digits row values →
      Signed ('-' :: row) (-(positional values))

theorem intercalate_extended (c : Char) (group : List Char)
    (groups : List (List Char)) :
    ['_'].intercalate ((c :: group) :: groups) =
      c :: ['_'].intercalate (group :: groups) := by
  cases groups with
  | nil => simp
  | cons => simp [List.intercalate_cons_cons]

theorem Grouped.single (h : IsDecimal c d) : Grouped [c] [d] :=
  ⟨[[c]], by simp, by simp, rfl, .cons h .nil⟩

/-- A digit starts a group of its own. -/
theorem Grouped.underscore (h : IsDecimal c d) (hrow : Grouped row values) :
    Grouped (c :: '_' :: row) (d :: values) := by
  obtain ⟨groups, hgroups, hne, rfl, hvalues⟩ := hrow
  obtain ⟨group, later, rfl⟩ := List.exists_cons_of_ne_nil hgroups
  refine ⟨[c] :: group :: later, by simp, ?_, ?_, .cons h hvalues⟩
  · exact List.forall_mem_cons.mpr ⟨by simp, hne⟩
  · rw [List.intercalate_cons_cons]
    rfl

/-- A digit joins the group that follows. -/
theorem Grouped.cons (h : IsDecimal c d) (hrow : Grouped row values) :
    Grouped (c :: row) (d :: values) := by
  obtain ⟨groups, hgroups, hne, rfl, hvalues⟩ := hrow
  obtain ⟨group, later, rfl⟩ := List.exists_cons_of_ne_nil hgroups
  refine ⟨(c :: group) :: later, by simp, ?_, ?_, .cons h hvalues⟩
  · exact List.forall_mem_cons.mpr
      ⟨by simp, fun g hg => hne g (List.mem_cons_of_mem _ hg)⟩
  · rw [intercalate_extended]

theorem grouped_of_digitRow? (h : digitRow? row = some values) :
    Grouped row values := by
  fun_induction digitRow? row generalizing values with
  | case1 => cases h
  | case2 c =>
      obtain ⟨d, hd, rfl⟩ := Option.map_eq_some_iff.mp h
      exact .single (digitValue?_eq_some_iff.mp hd)
  | case3 c rest ih =>
      simp only [Option.bind_eq_bind, Option.bind_eq_some_iff,
        Option.pure_def, Option.some.injEq] at h
      obtain ⟨d, hd, ds, hds, rfl⟩ := h
      exact .underscore (digitValue?_eq_some_iff.mp hd) (ih hds)
  | case4 c rest _ _ ih =>
      simp only [Option.bind_eq_bind, Option.bind_eq_some_iff,
        Option.pure_def, Option.some.injEq] at h
      obtain ⟨d, hd, ds, hds, rfl⟩ := h
      exact .cons (digitValue?_eq_some_iff.mp hd) (ih hds)

theorem digitRow?_underscore (h : IsDecimal c d) (row : List Char) :
    digitRow? (c :: '_' :: row) = (digitRow? row).map (d :: ·) := by
  rw [digitRow?, digitValue?_eq_some_iff.mpr h]
  cases digitRow? row <;> rfl

theorem digitRow?_cons (h : IsDecimal c d) {next : Char}
    (hnext : next ≠ '_') (row : List Char) :
    digitRow? (c :: next :: row) = (digitRow? (next :: row)).map (d :: ·) := by
  rw [digitRow?, digitValue?_eq_some_iff.mpr h]
  · cases digitRow? (next :: row) <;> rfl
  · intro heq
    cases heq
  · rintro rest heq
    cases heq
    exact hnext rfl

theorem digitRow?_intercalate (hgroups : groups ≠ [])
    (hne : ∀ group ∈ groups, group ≠ [])
    (h : List.Forall₂ IsDecimal groups.flatten values) :
    digitRow? (['_'].intercalate groups) = some values := by
  induction groups generalizing values with
  | nil => exact absurd rfl hgroups
  | cons group groups ih =>
      induction group generalizing values with
      | nil => exact absurd rfl (hne [] (List.mem_cons_self ..))
      | cons c group ihgroup =>
          obtain ⟨d, ds, hc, hds, rfl⟩ := List.forall₂_cons_left_iff.mp h
          have hlater : ∀ group ∈ groups, group ≠ [] :=
            fun g hg => hne g (List.mem_cons_of_mem _ hg)
          cases group with
          | nil =>
              cases groups with
              | nil =>
                  obtain rfl := List.forall₂_nil_left_iff.mp hds
                  simp [digitRow?, digitValue?_eq_some_iff.mpr hc]
              | cons second groups =>
                  rw [intercalate_extended, List.intercalate_cons_cons,
                    List.nil_append, List.singleton_append,
                    digitRow?_underscore hc, ih (by simp) hlater hds]
                  rfl
          | cons next group =>
              obtain ⟨_, _, hnext, _, _⟩ := List.forall₂_cons_left_iff.mp hds
              have hrow := ihgroup (by simp)
                (List.forall_mem_cons.mpr ⟨by simp, hlater⟩) hds
              rw [intercalate_extended] at hrow ⊢
              rw [intercalate_extended,
                digitRow?_cons hc (hnext.ne (by decide)), hrow]
              rfl

theorem digitRow?_eq_some_iff : digitRow? row = some values ↔
    Grouped row values := by
  constructor
  · exact grouped_of_digitRow?
  · rintro ⟨groups, hgroups, hne, rfl, hvalues⟩
    exact digitRow?_intercalate hgroups hne hvalues

theorem splitSign_of_grouped (h : Grouped row values) :
    splitSign row = (false, row) := by
  obtain ⟨groups, hgroups, hne, rfl, hvalues⟩ := h
  obtain ⟨group, later, rfl⟩ := List.exists_cons_of_ne_nil hgroups
  obtain ⟨c, group, rfl⟩ :=
    List.exists_cons_of_ne_nil (hne group (List.mem_cons_self ..))
  obtain ⟨d, _, hc, _, _⟩ := List.forall₂_cons_left_iff.mp hvalues
  rw [intercalate_extended]
  exact Program.splitSign_of_ne (hc.ne (by decide)) (hc.ne (by decide))

theorem ofDigits_eq (negative : Bool) (values : List Nat) :
    ofDigits negative values =
      if negative then -(positional values : Int) else positional values := by
  rw [ofDigits, Program.natOfDigits_eq, positional]

theorem read?_of_digits {negative : Bool}
    (hsign : splitSign text = (negative, row)) (h : Digits row values) :
    read? text = some
      (if negative then -(positional values : Int) else positional values) := by
  simp [read?, hsign, digitRow?_eq_some_iff.mpr h.grouped, h.fits, ofDigits_eq]

theorem exists_digits_of_read? (h : read? text = some value) :
    ∃ values, Digits (splitSign text).2 values ∧
      value = ofDigits (splitSign text).1 values := by
  simp only [read?, Option.bind_eq_bind, Option.bind_eq_some_iff,
    Option.pure_def] at h
  obtain ⟨values, hvalues, h⟩ := h
  split at h
  · next hlength =>
      cases h
      exact ⟨values, ⟨digitRow?_eq_some_iff.mp hvalues, hlength⟩, rfl⟩
  · cases h

/-- The texts that are read as a numeral are the numerals. -/
theorem read?_eq_some_iff : read? text = some value ↔ Signed text value := by
  constructor
  · intro h
    obtain ⟨values, hdigits, rfl⟩ := exists_digits_of_read? h
    obtain ⟨sign, hsign, htext⟩ := Program.exists_sign text
    generalize (splitSign text).1 = negative at hsign ⊢
    generalize (splitSign text).2 = row at hdigits htext
    subst htext
    rw [ofDigits_eq]
    cases hsign with
    | absent => exact .unsigned hdigits
    | plus => exact .plus hdigits
    | minus => exact .minus hdigits
  · intro h
    cases h with
    | unsigned h =>
        exact read?_of_digits (splitSign_of_grouped h.grouped) h
    | @plus row values h =>
        have hsign : splitSign ('+' :: row) = (false, row) := rfl
        exact read?_of_digits hsign h
    | @minus row values h =>
        have hsign : splitSign ('-' :: row) = (true, row) := rfl
        exact read?_of_digits hsign h

/-- A line is read exactly if it holds a numeral between blanks, and every
other line is malformed, named by what it holds. More blanks at its ends change
neither. -/
theorem ofLine_accepts_signed (line : List Char) :
    (∀ inner, trim line = inner ↔ Stripped line inner) ∧
    (∀ value, ofLine line = .ok value ↔ Signed (trim line) value) ∧
    ((∀ value, ¬ Signed (trim line) value) →
      ofLine line = .error (.inputMalformed (String.ofList (trim line)))) ∧
    ∀ before after, (∀ c ∈ before, isBlank c = true) →
      (∀ c ∈ after, isBlank c = true) →
      ofLine (before ++ line ++ after) = ofLine line := by
  refine ⟨fun inner => trim_eq_iff, ?_, ?_, ?_⟩
  · intro value
    rw [Program.ofLine_eq_ok_iff, read?_eq_some_iff]
  · intro hnone
    have hread : read? (trim line) = none := by
      rw [Option.eq_none_iff_forall_ne_some]
      intro value hvalue
      exact hnone value (read?_eq_some_iff.mp hvalue)
    simp only [ofLine, hread]
  · intro before after hbefore hafter
    rw [ofLine, ofLine, trim_surrounded hbefore hafter]

/-- Digits of three scripts after a minus, with an underscore and an ideographic
space; two underscores in a row are malformed. -/
theorem ofLine_accepts_signed_scripts :
    let line := "\u3000-\uff11_\u06623\n".toList
    let other := " 1__2".toList
    Signed "-\uff11_\u06623".toList (-123) ∧
      ofLine (['\t'] ++ line ++ ['\x1c']) = .ok (-123) ∧
      (∀ value, ¬ Signed "1__2".toList value) ∧
      ofLine other = .error (.inputMalformed "1__2") := by
  intro line other
  obtain ⟨_, hvalue, _, hmargin⟩ := ofLine_accepts_signed line
  obtain ⟨_, hother, hmalformed, _⟩ := ofLine_accepts_signed other
  have hread : ofLine line = .ok (-123) := by decide +kernel
  have hinner : trim line = "-\uff11_\u06623".toList := by decide +kernel
  have hleft : trim other = "1__2".toList := by decide +kernel
  have hnone : ∀ value, ¬ Signed (trim other) value := by
    intro value hsigned
    have hok := (hother value).mpr hsigned
    have herror : ofLine other = .error (.inputMalformed "1__2") := by
      decide +kernel
    rw [herror] at hok
    cases hok
  refine ⟨?_, ?_, ?_, ?_⟩
  · rw [← hinner]
    exact (hvalue _).mp hread
  · rw [hmargin _ _ (List.all_eq_true.mp rfl) (List.all_eq_true.mp rfl)]
    exact hread
  · rw [← hleft]
    exact hnone
  · rw [hmalformed hnone, hleft]
    rfl

end Numeral

end IntcodeMachine
