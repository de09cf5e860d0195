import Mathlib.Data.List.DropRight
import IntcodeMachine.Proofs.Literals
import IntcodeMachine.Text.Layout

/-!
How wide a gap is makes no difference to the reader, nor does what it is made
of. A squeezed text has a single space for each row of gaps; its literals are
those of the text itself, and the same is wrong with it. Tabs and line ends are
gaps, so a text is squeezed to the same whether its tabs have been expanded or
not, and whichever line ends it has.
-/

namespace IntcodeMachine

namespace Text

theorem expandTabsFrom_tab (column : Nat) (text : List Char) :
    ∃ width, expandTabsFrom column ('\t' :: text) =
      ' ' :: (List.replicate width ' ' ++
        expandTabsFrom (column + (width + 1)) text) := by
  obtain ⟨width, hwidth⟩ : ∃ width, tabStop - column % tabStop = width + 1 := by
    have hlt : column % tabStop < tabStop := Nat.mod_lt _ (by decide)
    exact ⟨tabStop - column % tabStop - 1, by omega⟩
  refine ⟨width, ?_⟩
  rw [expandTabsFrom, hwidth, List.replicate_succ, List.cons_append]

theorem expandTabsFrom_of_ne {c : Char} (h : c ≠ '\t') (column : Nat)
    (text : List Char) :
    ∃ next, expandTabsFrom column (c :: text) =
      c :: expandTabsFrom next text := by
  refine ⟨_, expandTabsFrom.eq_3 column c text ?_⟩
  exact h

end Text

namespace Program

open Text

variable {text other rest : List Char} {c : Char} {l : Literal}
  {ls : List Literal}

/-- The text with one space in place of each row of gaps. -/
def squeeze : List Char → List Char
  | [] => []
  | c :: rest =>
      if isGap c then ' ' :: skipGaps (squeeze rest) else c :: squeeze rest

theorem squeeze_gap (h : isGap c = true) (rest : List Char) :
    squeeze (c :: rest) = ' ' :: skipGaps (squeeze rest) := by
  rw [squeeze, if_pos h]

theorem squeeze_of_not_gap (h : isGap c = false) (rest : List Char) :
    squeeze (c :: rest) = c :: squeeze rest := by
  simp [squeeze, h]

theorem skipGaps_gap (h : isGap c = true) (rest : List Char) :
    skipGaps (c :: rest) = skipGaps rest :=
  List.dropWhile_cons_of_pos h

theorem skipGaps_skipGaps (text : List Char) :
    skipGaps (skipGaps text) = skipGaps text :=
  List.dropWhile_idempotent isGap text

theorem skipGaps_squeeze (text : List Char) :
    skipGaps (squeeze text) = squeeze (skipGaps text) := by
  induction text with
  | nil => rfl
  | cons c rest ih =>
      by_cases hc : isGap c = true
      · rw [squeeze_gap hc, skipGaps_gap rfl, skipGaps_skipGaps, ih,
          skipGaps_gap hc]
      · rw [Bool.not_eq_true] at hc
        have hstay : skipGaps (c :: rest) = c :: rest :=
          List.dropWhile_cons_of_neg (by simp [hc])
        rw [hstay, squeeze_of_not_gap hc, skipGaps,
          List.dropWhile_cons_of_neg (by simp [hc])]

/-- Gaps before a text are as good as one. -/
theorem squeeze_gaps {gaps : List Char} (hgaps : Gaps gaps)
    (h : isGap c = true) (rest : List Char) :
    squeeze (c :: (gaps ++ rest)) = squeeze (' ' :: rest) := by
  rw [squeeze_gap h, squeeze_gap rfl, skipGaps_squeeze, skipGaps_squeeze,
    skipGaps_append hgaps]

theorem squeeze_cons_congr (h : squeeze text = squeeze other) (c : Char) :
    squeeze (c :: text) = squeeze (c :: other) := by
  rw [squeeze, squeeze, h]

/-- Characters of a class without gaps are left as they are. -/
theorem takeWhile_squeeze {kept : Char → Bool}
    (h : ∀ c, isGap c = true → kept c = false) (text : List Char) :
    (squeeze text).takeWhile kept = text.takeWhile kept := by
  induction text with
  | nil => rfl
  | cons c rest ih =>
      by_cases hc : isGap c = true
      · rw [squeeze_gap hc, List.takeWhile_cons_of_neg (by simp [h ' ' rfl]),
          List.takeWhile_cons_of_neg (by simp [h c hc])]
      · rw [Bool.not_eq_true] at hc
        rw [squeeze_of_not_gap hc, List.takeWhile_cons, List.takeWhile_cons,
          ih]

theorem dropWhile_squeeze {kept : Char → Bool}
    (h : ∀ c, isGap c = true → kept c = false) (text : List Char) :
    (squeeze text).dropWhile kept = squeeze (text.dropWhile kept) := by
  induction text with
  | nil => rfl
  | cons c rest ih =>
      by_cases hkept : kept c = true
      · have hc : isGap c = false := by
          rw [Bool.eq_false_iff]
          intro hgap
          rw [h c hgap] at hkept
          cases hkept
        rw [squeeze_of_not_gap hc, List.dropWhile_cons_of_pos hkept,
          List.dropWhile_cons_of_pos hkept, ih]
      · rw [List.dropWhile_cons_of_neg hkept]
        by_cases hc : isGap c = true
        · rw [squeeze_gap hc, List.dropWhile_cons_of_neg (by simp [h ' ' rfl])]
        · rw [Bool.not_eq_true] at hc
          rw [squeeze_of_not_gap hc, List.dropWhile_cons_of_neg hkept]

theorem squeeze_eq_nil_iff : squeeze text = [] ↔ text = [] := by
  cases text with
  | nil => simp [squeeze]
  | cons c rest =>
      rw [squeeze]
      split <;> simp

theorem gaps_squeeze_iff : Gaps (squeeze text) ↔ Gaps text := by
  rw [← skipGaps_eq_nil_iff, skipGaps_squeeze, squeeze_eq_nil_iff,
    skipGaps_eq_nil_iff]

theorem isDigit_of_isGap (h : isGap c = true) : c.isDigit = false :=
  isDigit_of_isBlank (isBlank_of_gap (isGap_iff.mp h))

theorem splitSign_squeeze (text : List Char) :
    Numeral.splitSign (squeeze text) =
      ((Numeral.splitSign text).1, squeeze (Numeral.splitSign text).2) := by
  cases text with
  | nil => rfl
  | cons c rest =>
      by_cases hminus : c = '-'
      · subst hminus
        rfl
      by_cases hplus : c = '+'
      · subst hplus
        rfl
      rw [splitSign_of_ne hminus hplus]
      by_cases hc : isGap c = true
      · rw [squeeze_gap hc, splitSign_of_ne (by decide) (by decide)]
      · rw [Bool.not_eq_true] at hc
        rw [squeeze_of_not_gap hc, splitSign_of_ne hminus hplus]

/-- A literal is found in a squeezed text as in the text, and the rest of it is
squeezed. -/
theorem literal?_squeeze (text : List Char) :
    literal? (squeeze text) =
      (literal? text).map (Prod.map id squeeze) := by
  simp only [literal?, skipGaps_squeeze, splitSign_squeeze,
    takeWhile_squeeze fun _ => isDigit_of_isGap,
    dropWhile_squeeze fun _ => isDigit_of_isGap]
  split <;> rfl

theorem nextLiteral?_squeeze (text : List Char) :
    nextLiteral? (squeeze text) =
      (nextLiteral? text).map (Prod.map id squeeze) := by
  rw [nextLiteral?, nextLiteral?, skipGaps_squeeze]
  cases htext : skipGaps text with
  | nil => rfl
  | cons c tail =>
      have hhead : c ∈ (text.dropWhile isGap).head? := by
        rw [← skipGaps, htext]
        rfl
      have hc : isGap c = false := head?_dropWhile hhead
      rw [squeeze_of_not_gap hc]
      by_cases hcomma : c = ','
      · subst hcomma
        exact literal?_squeeze tail
      · simp [hcomma]

theorem moreLiterals_squeeze (text : List Char) :
    moreLiterals (squeeze text) =
      Prod.map id squeeze (moreLiterals text) := by
  fun_induction moreLiterals text with
  | case1 text h =>
      have hnext := nextLiteral?_squeeze text
      rw [h] at hnext
      exact moreLiterals_of_none hnext
  | case2 text l rest h _ ls after hmore ih =>
      have hnext := nextLiteral?_squeeze text
      rw [h] at hnext
      rw [moreLiterals_of_some hnext]
      simp only [id_eq, ih, hmore, Prod.map_apply]

/-- The literals of a list are found in a squeezed text as in the text. -/
theorem literals?_squeeze (text : List Char) :
    literals? (squeeze text) =
      (literals? text).map (Prod.map id squeeze) := by
  have hfirst := literal?_squeeze text
  cases htext : literal? text with
  | none =>
      rw [htext] at hfirst
      simp [literals?, hfirst, htext]
  | some found =>
      rw [htext] at hfirst
      simp [literals?, hfirst, htext, moreLiterals_squeeze]

section Alike

/-! What is said of two texts that differ in their gaps alone. -/

theorem gaps_iff_of_squeeze_eq (h : squeeze text = squeeze other) :
    Gaps text ↔ Gaps other := by
  rw [← gaps_squeeze_iff, h, gaps_squeeze_iff]

theorem literals?_eq_none_of_squeeze_eq (h : squeeze text = squeeze other)
    (htext : literals? text = none) : literals? other = none := by
  have hsame := literals?_squeeze text
  rw [h, literals?_squeeze, htext] at hsame
  simpa using hsame

theorem exists_literals?_of_squeeze_eq (h : squeeze text = squeeze other)
    (htext : literals? text = some (ls, rest)) :
    ∃ left, literals? other = some (ls, left) ∧
      squeeze left = squeeze rest := by
  have hsame := literals?_squeeze text
  rw [h, literals?_squeeze, htext, Option.map_some,
    Option.map_eq_some_iff] at hsame
  obtain ⟨⟨ls', left⟩, hfound, heq⟩ := hsame
  obtain ⟨rfl, hleft⟩ := Prod.mk.inj heq
  exact ⟨left, hfound, hleft⟩

end Alike

theorem all_isBlank_skipGaps (text : List Char) :
    (skipGaps text).all isBlank = text.all isBlank := by
  obtain ⟨gaps, hgaps, heq⟩ := exists_gaps text
  have hblank : gaps.all isBlank = true :=
    List.all_eq_true.mpr fun c hc => isBlank_of_gap (hgaps c hc)
  conv => rhs; rw [heq]
  rw [List.all_append, hblank, Bool.true_and]

theorem all_isBlank_squeeze (text : List Char) :
    (squeeze text).all isBlank = text.all isBlank := by
  induction text with
  | nil => rfl
  | cons c rest ih =>
      by_cases hc : isGap c = true
      · have hblank := isBlank_of_gap (isGap_iff.mp hc)
        have hspace : isBlank ' ' = true := rfl
        rw [squeeze_gap hc, List.all_cons, List.all_cons, hblank, hspace,
          all_isBlank_skipGaps, ih]
      · rw [Bool.not_eq_true] at hc
        rw [squeeze_of_not_gap hc, List.all_cons, List.all_cons, ih]

/-- A tab and the spaces in its place are squeezed to the same. -/
theorem squeeze_expandTabsFrom (column : Nat) (text : List Char) :
    squeeze (expandTabsFrom column text) = squeeze text := by
  induction text generalizing column with
  | nil => rfl
  | cons c text ih =>
      by_cases htab : c = '\t'
      · subst htab
        obtain ⟨width, hwidth⟩ := expandTabsFrom_tab column text
        have hspaces : Gaps (List.replicate width ' ') := by
          intro d hd
          rw [List.eq_of_mem_replicate hd]
          exact List.mem_cons_self ..
        rw [hwidth, squeeze_gaps hspaces rfl]
        exact squeeze_cons_congr (ih _) ' '
      · obtain ⟨next, hnext⟩ := expandTabsFrom_of_ne htab column text
        rw [hnext]
        exact squeeze_cons_congr (ih next) c

theorem squeeze_expandTabs (text : List Char) :
    squeeze (expandTabs text) = squeeze text :=
  squeeze_expandTabsFrom 0 text

theorem squeeze_unifyLineEnds (text : List Char) :
    squeeze (unifyLineEnds text) = squeeze text := by
  fun_induction unifyLineEnds text with
  | case1 rest ih =>
      have hfeed : Gaps ['\n'] := by simp [Gaps]
      rw [squeeze_cons_congr ih]
      exact (squeeze_gaps hfeed rfl rest).symm
  | case2 rest _ ih =>
      exact squeeze_cons_congr ih '\n'
  | case3 c rest _ _ ih =>
      exact squeeze_cons_congr ih c
  | case4 => rfl

theorem isWordCharacter_of_gap {c : Char} (h : isGap c = true) :
    isWordCharacter c = false := by
  have hmem := isGap_iff.mp h
  simp only [List.mem_cons, List.not_mem_nil, or_false] at hmem
  rcases hmem with rfl | rfl | rfl | rfl <;> rfl

/-- What a report shows of a text does not start with a gap, and it has
none. -/
theorem leadingWord_squeeze (text : List Char) :
    leadingWord (squeeze (skipGaps text)) = leadingWord (skipGaps text) := by
  have hfirst :
      (squeeze (skipGaps text)).take 1 = (skipGaps text).take 1 := by
    by_cases h : Gaps text
    · rw [skipGaps_eq_nil_iff.mpr h]
      rfl
    · obtain ⟨c, left, hskip, hc⟩ := exists_skipGaps h
      rw [hskip, squeeze_of_not_gap hc]
      rfl
  have hword := takeWhile_squeeze (fun _ => isWordCharacter_of_gap)
    (skipGaps text)
  rw [leadingWord, leadingWord, ← List.take_takeWhile, ← List.take_takeWhile,
    hword, hfirst]

/-- The error without its place. -/
def ReadError.unplaced : ReadError → ReadError
  | .malformed expected found _ => .malformed expected found (.after [])
  | e => e

theorem unplaced_malformedAt {rest left : List Char}
    (h : leadingWord rest = leadingWord left) (expected : Expectation)
    (page other : List Char) :
    (malformedAt expected page rest).unplaced =
      (malformedAt expected other left).unplaced := by
  rw [malformedAt, malformedAt, h]
  rfl

theorem readPage_squeeze (page : List Char) :
    (readPage (squeeze page)).mapError ReadError.unplaced =
      (readPage page).mapError ReadError.unplaced := by
  rw [readPage, readPage, literals?_squeeze]
  cases literals? page with
  | none =>
      rw [skipGaps_squeeze]
      exact congrArg Except.error
        (unplaced_malformedAt (leadingWord_squeeze page) ..)
  | some found =>
      obtain ⟨ls, rest⟩ := found
      simp only [Option.map_some, Prod.map_apply, id_eq]
      cases ls.find? (·.TooLong) with
      | some l => rfl
      | none =>
          have hword := leadingWord_squeeze rest
          rw [skipGaps_squeeze]
          by_cases h : Gaps rest
          · rw [skipGaps_eq_nil_iff.mpr h]
            rfl
          · obtain ⟨c, left, hskip, hc⟩ := exists_skipGaps h
            rw [hskip, squeeze_of_not_gap hc] at hword ⊢
            exact congrArg Except.error (unplaced_malformedAt hword ..)

/-- Two texts that differ in their gaps alone are the same program, or the same
is wrong with them, if not at the same place. -/
theorem read_of_squeeze_eq (h : squeeze text = squeeze other) :
    (read text).mapError ReadError.unplaced =
      (read other).mapError ReadError.unplaced := by
  have hblank : text.all isBlank = other.all isBlank := by
    rw [← all_isBlank_squeeze, h, all_isBlank_squeeze]
  rw [read, read, hblank]
  split
  · rfl
  · rw [← readPage_squeeze, squeeze_expandTabs, h, ← squeeze_expandTabs,
      readPage_squeeze]

end Program

end IntcodeMachine
