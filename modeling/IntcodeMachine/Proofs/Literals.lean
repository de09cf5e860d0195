import Mathlib.Data.List.TakeWhile
import IntcodeMachine.Program

/-!
What the reader of literals finds. A literal is a word of a sign and a row of
digits after gaps, and it is found exactly if no digit follows it. The literals
of a list are found one after the other, each after a comma.
-/

namespace IntcodeMachine

namespace Text

variable {text : List Char} {skipped : Char → Bool}

/-- A text of one class is cut off where something else follows. -/
theorem cut_of_boundary {rest : List Char}
    (hall : ∀ c ∈ text, skipped c = true)
    (hrest : ∀ c ∈ rest.head?, skipped c = false) :
    (text ++ rest).takeWhile skipped = text ∧
      (text ++ rest).dropWhile skipped = rest := by
  rw [List.takeWhile_append_of_pos hall, List.dropWhile_append_of_pos hall]
  cases rest with
  | nil => simp
  | cons c rest => simp [hrest c rfl]

/-- A class of characters is left behind at one that does not belong to it. -/
theorem head?_dropWhile {c : Char} (h : c ∈ (text.dropWhile skipped).head?) :
    skipped c = false := by
  have hnot := List.head?_dropWhile_not skipped text
  rw [Option.mem_def.mp h] at hnot
  simpa using hnot

end Text

namespace Program

open Text

variable {text rest : List Char} {l : Literal} {ls : List Literal}

/-- A row of gaps. -/
def Gaps (text : List Char) : Prop :=
  ∀ c ∈ text, c ∈ [' ', '\t', '\n', '\r']

theorem isGap_iff {c : Char} :
    isGap c = true ↔ c ∈ [' ', '\t', '\n', '\r'] := by
  simp [isGap, or_assoc]

/-- Every gap is a blank. -/
theorem isBlank_of_gap {c : Char} (h : c ∈ [' ', '\t', '\n', '\r']) :
    isBlank c = true := by
  simp only [List.mem_cons, List.not_mem_nil, or_false] at h
  rcases h with rfl | rfl | rfl | rfl <;> rfl

theorem isBlank_of_isDigit {c : Char} (h : c.isDigit = true) :
    isBlank c = false := by
  have hcode : 0x30 ≤ c.toNat ∧ c.toNat ≤ 0x39 := Char.isDigit_iff_toNat.mp h
  rw [Bool.eq_false_iff, ne_eq, isBlank, inRanges_iff]
  rintro ⟨range, hrange, hlow, hhigh⟩
  simp only [blankRanges, List.mem_cons, List.not_mem_nil, or_false] at hrange
  rcases hrange with rfl | rfl | rfl | rfl | rfl | rfl | rfl | rfl | rfl |
    rfl <;> simp only at hlow hhigh <;> omega

theorem isDigit_of_isBlank {c : Char} (h : isBlank c = true) :
    c.isDigit = false := by
  rw [Bool.eq_false_iff]
  intro hdigit
  rw [isBlank_of_isDigit hdigit] at h
  cases h

theorem gaps_iff : Gaps text ↔ ∀ c ∈ text, isGap c = true := by
  simp only [Gaps, isGap_iff]

theorem skipGaps_append (h : Gaps text) (rest : List Char) :
    skipGaps (text ++ rest) = skipGaps rest :=
  List.dropWhile_append_of_pos (gaps_iff.mp h)

theorem skipGaps_eq_nil_iff : skipGaps text = [] ↔ Gaps text := by
  rw [skipGaps, List.dropWhile_eq_nil_iff, gaps_iff]

theorem exists_gaps (text : List Char) :
    ∃ gaps, Gaps gaps ∧ text = gaps ++ skipGaps text := by
  refine ⟨text.takeWhile isGap, ?_, ?_⟩
  · rw [gaps_iff]
    intro c hc
    exact List.mem_takeWhile_imp hc
  · rw [skipGaps, List.takeWhile_append_dropWhile]

theorem exists_skipGaps (h : ¬ Gaps text) :
    ∃ c left, skipGaps text = c :: left ∧ isGap c = false := by
  cases hskip : skipGaps text with
  | nil => exact absurd (skipGaps_eq_nil_iff.mp hskip) h
  | cons c left =>
      have hhead : c ∈ (text.dropWhile isGap).head? := by
        rw [← skipGaps, hskip]
        rfl
      exact ⟨c, left, rfl, head?_dropWhile hhead⟩

/-- What may stand before a row of digits, and whether it is a minus. -/
inductive Sign : List Char → Bool → Prop where
  | absent : Sign [] false
  | plus : Sign ['+'] false
  | minus : Sign ['-'] true

theorem exists_sign (text : List Char) :
    ∃ sign, Sign sign (Numeral.splitSign text).1 ∧
      text = sign ++ (Numeral.splitSign text).2 := by
  unfold Numeral.splitSign
  split
  · exact ⟨['-'], .minus, rfl⟩
  · exact ⟨['+'], .plus, rfl⟩
  · exact ⟨[], .absent, rfl⟩

theorem splitSign_of_ne {c : Char} (hminus : c ≠ '-') (hplus : c ≠ '+') :
    Numeral.splitSign (c :: text) = (false, c :: text) := by
  rw [Numeral.splitSign]
  · rintro rest heq
    cases heq
    exact hminus rfl
  · rintro rest heq
    cases heq
    exact hplus rfl

/-- A literal as it is written. -/
def Literal.Spells (l : Literal) (word : List Char) : Prop :=
  ∃ sign, Sign sign l.negative ∧ word = sign ++ l.digits ∧
    l.digits ≠ [] ∧ ∀ c ∈ l.digits, c.isDigit = true

theorem Literal.Spells.mem {word : List Char} {c : Char} (h : l.Spells word)
    (hc : c ∈ word) : c = '+' ∨ c = '-' ∨ c.isDigit = true := by
  obtain ⟨sign, hsign, rfl, _, hdigits⟩ := h
  rcases List.mem_append.mp hc with hc | hc
  · generalize l.negative = negative at hsign
    cases hsign with
    | absent => cases hc
    | plus => exact Or.inl (List.mem_singleton.mp hc)
    | minus => exact Or.inr (Or.inl (List.mem_singleton.mp hc))
  · exact Or.inr (Or.inr (hdigits c hc))

/-- A text does not go on with a digit. -/
def EndsDigits (rest : List Char) : Prop :=
  ∀ c ∈ rest.head?, c.isDigit = false

/-- The row of digits starts after the sign. -/
theorem splitSign_of_sign {sign row : List Char} {negative : Bool}
    (h : Sign sign negative) (hrow : ∃ c ∈ row.head?, c.isDigit = true) :
    Numeral.splitSign (sign ++ row) = (negative, row) := by
  cases h with
  | plus | minus => rfl
  | absent =>
      obtain ⟨c, hc, hdigit⟩ := hrow
      cases row with
      | nil => cases hc
      | cons d row =>
          cases hc
          apply splitSign_of_ne
          · rintro rfl
            cases hdigit
          · rintro rfl
            cases hdigit

theorem isGap_of_isDigit {c : Char} (h : c.isDigit = true) :
    isGap c = false := by
  rw [Bool.eq_false_iff, ne_eq, isGap_iff]
  intro hmem
  simp only [List.mem_cons, List.not_mem_nil, or_false] at hmem
  rcases hmem with rfl | rfl | rfl | rfl <;> cases h

/-- Gaps end a row of digits, and so does a comma after them. -/
theorem endsDigits_of_gaps {gaps : List Char} (hgaps : Gaps gaps)
    (hrest : EndsDigits rest) : EndsDigits (gaps ++ rest) := by
  cases gaps with
  | nil => exact hrest
  | cons c gaps =>
      intro d hd
      cases hd
      have hgap := hgaps c (List.mem_cons_self ..)
      exact isDigit_of_isBlank (isBlank_of_gap hgap)

theorem endsDigits_comma (text : List Char) : EndsDigits (',' :: text) := by
  intro c hc
  cases hc
  rfl

/-- No gap stands before a word. -/
theorem skipGaps_word {word : List Char} (h : l.Spells word)
    (rest : List Char) : skipGaps (word ++ rest) = word ++ rest := by
  obtain ⟨sign, hsign, rfl, hne, hdigits⟩ := h
  generalize l.negative = negative at hsign
  cases hsign with
  | plus | minus => rfl
  | absent =>
      obtain ⟨d, ds, hrow⟩ := List.exists_cons_of_ne_nil hne
      have hd : isGap d = false := isGap_of_isDigit (hdigits d (by simp [hrow]))
      rw [hrow, List.nil_append, List.cons_append, skipGaps,
        List.dropWhile_cons_of_neg (by simp [hd])]

/-- A literal is found after gaps, if no digit follows it. -/
theorem literal?_of_spells {gaps word : List Char} (hgaps : Gaps gaps)
    (hword : l.Spells word) (hrest : EndsDigits rest) :
    literal? (gaps ++ (word ++ rest)) = some (l, rest) := by
  have hskip := skipGaps_word hword rest
  obtain ⟨sign, hsign, rfl, hne, hdigits⟩ := hword
  obtain ⟨hrow, hafter⟩ := cut_of_boundary hdigits hrest
  have hfirst : ∃ c ∈ (l.digits ++ rest).head?, c.isDigit = true := by
    obtain ⟨d, ds, heq⟩ := List.exists_cons_of_ne_nil hne
    exact ⟨d, by simp [heq], hdigits d (by simp [heq])⟩
  simp only [literal?]
  rw [skipGaps_append hgaps, hskip, List.append_assoc,
    splitSign_of_sign hsign hfirst]
  simp only [hrow, hafter]

/-- What is found is a literal after gaps, and no digit follows it. -/
theorem exists_of_literal? (h : literal? text = some (l, rest)) :
    ∃ gaps word, Gaps gaps ∧ l.Spells word ∧ EndsDigits rest ∧
      text = gaps ++ (word ++ rest) := by
  obtain ⟨gaps, hgaps, htext⟩ := exists_gaps text
  obtain ⟨sign, hsign, hskip⟩ := exists_sign (skipGaps text)
  simp only [literal?] at h
  split at h
  · cases h
  · next hne =>
      cases h
      refine ⟨gaps, _, hgaps, ⟨sign, hsign, rfl, hne, ?_⟩, ?_, ?_⟩
      · intro c hc
        exact List.mem_takeWhile_imp hc
      · intro c hc
        exact head?_dropWhile hc
      · rw [List.append_assoc, List.takeWhile_append_dropWhile, ← hskip]
        exact htext

theorem nextLiteral?_of_gaps (h : Gaps text) : nextLiteral? text = none := by
  rw [nextLiteral?, skipGaps_eq_nil_iff.mpr h]

theorem nextLiteral?_of_comma {gaps : List Char} (h : Gaps gaps)
    (rest : List Char) :
    nextLiteral? (gaps ++ ',' :: rest) = literal? rest := by
  rw [nextLiteral?, skipGaps_append h]
  rfl

theorem exists_of_nextLiteral? (h : nextLiteral? text = some (l, rest)) :
    ∃ gaps tail, Gaps gaps ∧ text = gaps ++ ',' :: tail ∧
      literal? tail = some (l, rest) := by
  obtain ⟨gaps, hgaps, htext⟩ := exists_gaps text
  unfold nextLiteral? at h
  split at h
  · next tail hskip =>
      rw [hskip] at htext
      exact ⟨gaps, tail, hgaps, htext, h⟩
  · cases h

theorem moreLiterals_of_none (h : nextLiteral? text = none) :
    moreLiterals text = ([], text) := by
  rw [moreLiterals]
  split
  · rfl
  · next heq =>
      rw [h] at heq
      cases heq

theorem moreLiterals_of_some (h : nextLiteral? text = some (l, rest)) :
    moreLiterals text =
      (l :: (moreLiterals rest).1, (moreLiterals rest).2) := by
  rw [moreLiterals]
  split
  · next heq =>
      rw [h] at heq
      cases heq
  · next heq =>
      rw [h] at heq
      cases heq
      rfl

theorem literals?_eq_some_iff :
    literals? text = some (ls, rest) ↔
      ∃ l after, literal? text = some (l, after) ∧
        ls = l :: (moreLiterals after).1 ∧ rest = (moreLiterals after).2 := by
  simp only [literals?, bind, Option.bind]
  cases literal? text with
  | none => simp
  | some found =>
      obtain ⟨l, after⟩ := found
      simp only [pure, Option.some.injEq, Prod.mk.injEq]
      constructor
      · rintro ⟨rfl, rfl⟩
        exact ⟨l, after, ⟨rfl, rfl⟩, rfl, rfl⟩
      · rintro ⟨l, after, ⟨rfl, rfl⟩, rfl, rfl⟩
        exact ⟨rfl, rfl⟩

/-- The list goes on with the literals after a comma. -/
theorem moreLiterals_of_comma {gaps left : List Char} (hgaps : Gaps gaps)
    (h : literals? rest = some (ls, left)) :
    moreLiterals (gaps ++ ',' :: rest) = (ls, left) := by
  obtain ⟨l, after, hfirst, rfl, rfl⟩ := literals?_eq_some_iff.mp h
  apply moreLiterals_of_some
  rw [nextLiteral?_of_comma hgaps, hfirst]

theorem exists_of_moreLiterals {left : List Char}
    (h : moreLiterals text = (l :: ls, left)) :
    ∃ gaps rest, Gaps gaps ∧ text = gaps ++ ',' :: rest ∧
      literals? rest = some (l :: ls, left) := by
  cases hnext : nextLiteral? text with
  | none =>
      rw [moreLiterals_of_none hnext] at h
      cases h
  | some found =>
      obtain ⟨first, after⟩ := found
      rw [moreLiterals_of_some hnext] at h
      cases h
      obtain ⟨gaps, tail, hgaps, htext, hfirst⟩ := exists_of_nextLiteral? hnext
      exact ⟨gaps, tail, hgaps, htext,
        literals?_eq_some_iff.mpr ⟨l, after, hfirst, rfl, rfl⟩⟩

theorem eq_of_moreLiterals_nil {left : List Char}
    (h : moreLiterals text = ([], left)) : left = text := by
  cases hnext : nextLiteral? text with
  | none =>
      rw [moreLiterals_of_none hnext] at h
      cases h
      rfl
  | some found =>
      rw [moreLiterals_of_some hnext] at h
      cases h

/-- A literal may be longer: it takes all digits that follow. -/
theorem literal?_of_word {gaps word : List Char} (hgaps : Gaps gaps)
    (hword : l.Spells word) (rest : List Char) :
    ∃ longer, literal? (gaps ++ (word ++ rest)) =
      some (longer, rest.dropWhile Char.isDigit) := by
  obtain ⟨sign, hsign, rfl, hne, hdigits⟩ := hword
  let longer : Literal :=
    { l with digits := l.digits ++ rest.takeWhile Char.isDigit }
  have hlonger : longer.Spells (sign ++ longer.digits) := by
    refine ⟨sign, hsign, rfl, by simp [longer, hne], ?_⟩
    intro c hc
    rcases List.mem_append.mp hc with hc | hc
    · exact hdigits c hc
    · exact List.mem_takeWhile_imp hc
  have hend : EndsDigits (rest.dropWhile Char.isDigit) :=
    fun c hc => head?_dropWhile hc
  refine ⟨longer, ?_⟩
  have hfound := literal?_of_spells hgaps hlonger hend
  simpa only [longer, List.append_assoc, List.takeWhile_append_dropWhile]
    using hfound

/-- A text goes on with a comma and a literal. -/
def GoesOn (text : List Char) : Prop :=
  ∃ before between word rest, ∃ l : Literal, Gaps before ∧ Gaps between ∧
    l.Spells word ∧ text = before ++ ',' :: (between ++ (word ++ rest))

theorem nextLiteral?_eq_none_iff : nextLiteral? text = none ↔ ¬ GoesOn text := by
  rw [← not_iff_not, not_not, ← ne_eq, Option.ne_none_iff_exists']
  constructor
  · rintro ⟨⟨l, rest⟩, hnext⟩
    obtain ⟨before, tail, hbefore, rfl, hfirst⟩ := exists_of_nextLiteral? hnext
    obtain ⟨between, word, hbetween, hword, _, rfl⟩ :=
      exists_of_literal? hfirst
    exact ⟨before, between, word, rest, l, hbefore, hbetween, hword, rfl⟩
  · rintro ⟨before, between, word, rest, l, hbefore, hbetween, hword, rfl⟩
    obtain ⟨longer, hfound⟩ := literal?_of_word hbetween hword rest
    exact ⟨_, (nextLiteral?_of_comma hbefore _).trans hfound⟩

theorem not_goesOn_of_gaps (h : Gaps text) : ¬ GoesOn text :=
  nextLiteral?_eq_none_iff.mp (nextLiteral?_of_gaps h)

/-- Gaps make no difference to whether a text goes on. -/
theorem not_goesOn_append {gaps : List Char} (hgaps : Gaps gaps)
    (h : ¬ GoesOn rest) : ¬ GoesOn (gaps ++ rest) := by
  rw [← nextLiteral?_eq_none_iff] at h ⊢
  rw [nextLiteral?, skipGaps_append hgaps]
  exact h

/-- The literals at the start of a text and the text after them. Each literal
has all digits that there are, and there are as many literals as can be. -/
inductive Greedy : List Char → List Literal → List Char → Prop where
  | last {gaps word rest : List Char} {l : Literal} : Gaps gaps →
      l.Spells word → EndsDigits rest → ¬ GoesOn rest →
      Greedy (gaps ++ (word ++ rest)) [l] rest
  | more {gaps word before text rest : List Char} {l : Literal}
      {ls : List Literal} : Gaps gaps → l.Spells word → Gaps before →
      Greedy text ls rest →
      Greedy (gaps ++ (word ++ (before ++ ',' :: text))) (l :: ls) rest

theorem greedy_of_literals? (h : literals? text = some (ls, rest)) :
    Greedy text ls rest := by
  induction ls generalizing text with
  | nil =>
      obtain ⟨_, _, _, hcons, _⟩ := literals?_eq_some_iff.mp h
      cases hcons
  | cons l ls ih =>
      obtain ⟨first, after, hfirst, hcons, hlast⟩ := literals?_eq_some_iff.mp h
      obtain ⟨rfl, hls⟩ := List.cons.inj hcons
      have hmore : moreLiterals after = (ls, rest) :=
        Prod.ext hls.symm hlast.symm
      obtain ⟨gaps, word, hgaps, hword, hend, rfl⟩ := exists_of_literal? hfirst
      cases ls with
      | nil =>
          obtain rfl := eq_of_moreLiterals_nil hmore
          refine .last hgaps hword hend (nextLiteral?_eq_none_iff.mp ?_)
          cases hnext : nextLiteral? rest with
          | none => rfl
          | some found =>
              rw [moreLiterals_of_some hnext] at hmore
              cases hmore
      | cons second ls =>
          obtain ⟨before, tail, hbefore, rfl, htail⟩ :=
            exists_of_moreLiterals hmore
          exact .more hgaps hword hbefore (ih htail)

theorem literals?_of_greedy (h : Greedy text ls rest) :
    literals? text = some (ls, rest) := by
  induction h with
  | @last gaps word rest l hgaps hword hend hstop =>
      have hfound := literal?_of_spells hgaps hword hend
      have hmore := moreLiterals_of_none (nextLiteral?_eq_none_iff.mpr hstop)
      exact literals?_eq_some_iff.mpr
        ⟨l, rest, hfound, by rw [hmore], by rw [hmore]⟩
  | @more gaps word before text rest l ls hgaps hword hbefore _ ih =>
      have hfound := literal?_of_spells hgaps hword
        (endsDigits_of_gaps hbefore (endsDigits_comma text))
      have hmore := moreLiterals_of_comma hbefore ih
      exact literals?_eq_some_iff.mpr
        ⟨l, _, hfound, by rw [hmore], by rw [hmore]⟩

/-- The literals that are found are those that cannot be longer or more. -/
theorem literals?_eq_some_iff_greedy :
    literals? text = some (ls, rest) ↔ Greedy text ls rest :=
  ⟨greedy_of_literals?, literals?_of_greedy⟩

end Program

end IntcodeMachine
