import IntcodeMachine.Proofs.Listings

/-!
Where a text stops being a program. The place that an error names is the end of
the longest program at the start of the page, gaps after it included; a page on
which no program starts is at fault where its first word should be. A place is
named twice, by its offset and by its line and column, and both are the same
character of the page.
-/

namespace IntcodeMachine

namespace Text

variable {before line : List Char} {c : Char}

/-- A place names a character of a text: at its offset, and in its column of
one of the lines between line feeds. The offset counts the lines before with
their line feeds. -/
structure Place.Names (p : Place) (text : List Char) (c : Char) : Prop where
  character : text[p.offset]? = some c
  counted : 1 ≤ p.line ∧ 1 ≤ p.column
  onLine : ∃ row, (text.splitOn '\n')[p.line - 1]? = some row ∧
    row[p.column - 1]? = some c
  offset : p.offset = p.column - 1 +
    (((text.splitOn '\n').take (p.line - 1)).map (·.length + 1)).sum

/-- Without a separator the start of a text belongs to the first piece. -/
theorem exists_splitOn_append {separator : Char} (h : separator ∉ line)
    (rest : List Char) :
    ∃ more pieces, (line ++ rest).splitOn separator =
      (line ++ more) :: pieces := by
  by_cases hrest : separator ∈ rest
  · obtain ⟨more, later, rfl, hmore⟩ := List.eq_append_cons_of_mem hrest
    refine ⟨more, later.splitOn separator, ?_⟩
    rw [← List.append_assoc]
    apply List.splitOn_append_cons_self_of_not_mem
    simp [h, hmore]
  · refine ⟨rest, [], ?_⟩
    apply List.splitOn_eq_singleton
    simp [h, hrest]

theorem Place.after_first (h : '\n' ∉ before) :
    Place.after before = ⟨before.length, 1, before.length + 1⟩ := by
  have hall : ∀ c ∈ before.reverse, decide (c ≠ '\n') = true := by
    intro c hc
    rw [List.mem_reverse] at hc
    apply decide_eq_true
    rintro rfl
    exact h hc
  rw [Place.after, List.count_eq_zero.mpr h,
    List.takeWhile_eq_self_iff.mpr hall, List.length_reverse]

/-- A line before the others moves a place down by a line and on by its
length. -/
theorem Place.after_line (line before : List Char) :
    Place.after (line ++ '\n' :: before) =
      { offset := line.length + 1 + (Place.after before).offset
        line := line.count '\n' + 1 + (Place.after before).line
        column := (Place.after before).column } := by
  have hreverse : (line ++ '\n' :: before).reverse =
      before.reverse ++ '\n' :: line.reverse := by
    simp
  have hcolumn : ((line ++ '\n' :: before).reverse.takeWhile (· ≠ '\n')) =
      before.reverse.takeWhile (· ≠ '\n') := by
    rw [hreverse, List.takeWhile_append]
    split
    · next hwhole =>
        rw [List.takeWhile_cons_of_neg (by decide), List.append_nil]
        exact (List.IsPrefix.eq_of_length
          (List.takeWhile_prefix _) hwhole).symm
    · rfl
  simp only [Place.after, hcolumn, List.length_append, List.length_cons,
    List.count_append, List.count_cons_self, Place.mk.injEq, and_true]
  omega

/-- The place after a text is that of the character that follows. -/
theorem Place.names_after (before : List Char) (hc : c ≠ '\n')
    (rest : List Char) :
    (Place.after before).Names (before ++ c :: rest) c := by
  induction hlines : before.count '\n' generalizing before with
  | zero =>
      have hfirst : '\n' ∉ before := List.count_eq_zero.mp hlines
      have hpiece : '\n' ∉ before ++ [c] := by
        simp [hfirst, hc.symm]
      obtain ⟨more, lines, hsplit⟩ := exists_splitOn_append hpiece rest
      rw [List.append_assoc, List.singleton_append] at hsplit
      rw [Place.after_first hfirst]
      exact {
        character := by simp
        counted := ⟨Nat.le_refl _, Nat.succ_le_succ (Nat.zero_le _)⟩
        onLine := ⟨before ++ [c] ++ more, by simp [hsplit], by simp⟩
        offset := by simp }
  | succ count ih =>
      have hmem : '\n' ∈ before := List.count_pos_iff.mp (by omega)
      obtain ⟨line, later, rfl, hline⟩ := List.eq_append_cons_of_mem hmem
      have hcount : later.count '\n' = count := by
        rw [List.count_append, List.count_eq_zero.mpr hline,
          List.count_cons_self] at hlines
        omega
      obtain ⟨hcharacter, ⟨hrow, hcolumn⟩, hon, hoffset⟩ := ih later hcount
      have hsplit := List.splitOn_append_cons_self_of_not_mem hline
        (later ++ c :: rest)
      rw [List.append_assoc, List.cons_append, Place.after_line,
        List.count_eq_zero.mpr hline]
      have hindex : 0 + 1 + (Place.after later).line - 1 =
          (Place.after later).line - 1 + 1 := by
        omega
      exact {
        character := by
          rw [List.getElem?_append_right (by simp only; omega)]
          have hskip : line.length + 1 + (Place.after later).offset -
              line.length = (Place.after later).offset + 1 := by
            omega
          rw [hskip, List.getElem?_cons_succ]
          exact hcharacter
        counted := ⟨Nat.le_add_right _ _, hcolumn⟩
        onLine := by
          rw [hsplit, hindex, List.getElem?_cons_succ]
          exact hon
        offset := by
          rw [hsplit, hindex, List.take_succ_cons, List.map_cons,
            List.sum_cons]
          simp only at hoffset ⊢
          omega }

end Text

namespace Program

open Text

variable {text page front rest : List Char} {words : List Int}
  {expected : Expectation}

/-- Why a page is no program, and what stands before the place where it stops
being one: gaps where no literal is found, and else the literals, of which none
is too long, with gaps after them. -/
inductive Defect : List Char → Expectation → List Char → Prop where
  | integer {front left : List Char} {c : Char} : isGap c = false →
      Gaps front → literals? (front ++ c :: left) = none →
      Defect (front ++ c :: left) .integer front
  | endOfText {body gaps left : List Char} {c : Char} {ls : List Literal} :
      isGap c = false → Gaps gaps →
      literals? (body ++ gaps ++ c :: left) = some (ls, gaps ++ c :: left) →
      (∀ l ∈ ls, ¬ l.TooLong) →
      Defect (body ++ gaps ++ c :: left) .endOfText (body ++ gaps)

theorem malformedAt_append (expected : Expectation) (front left : List Char) :
    malformedAt expected (front ++ left) left =
      .malformed expected (leadingWord left) (.after front) := by
  simp [malformedAt]

theorem exists_defect_of_none (hfound : literals? page = none)
    (hpage : ¬ Gaps page) :
    ∃ front found, Defect page .integer front ∧
      readPage page = .error (.malformed .integer found (.after front)) := by
  obtain ⟨c, left, hskip, hc⟩ := exists_skipGaps hpage
  obtain ⟨front, hfront, heq⟩ := exists_gaps page
  rw [hskip] at heq
  subst heq
  refine ⟨front, leadingWord (c :: left), .integer hc hfront hfound, ?_⟩
  rw [readPage_of_none hfound, hskip, malformedAt_append]

theorem exists_defect_of_left {ls : List Literal}
    (hfound : literals? page = some (ls, rest))
    (hfits : ∀ l ∈ ls, ¬ l.TooLong) (hrest : ¬ Gaps rest) :
    ∃ front found, Defect page .endOfText front ∧
      readPage page = .error (.malformed .endOfText found (.after front)) := by
  obtain ⟨c, left, hskip, hc⟩ := exists_skipGaps hrest
  obtain ⟨gaps, hgaps, heq⟩ := exists_gaps rest
  rw [hskip] at heq
  obtain ⟨body, hbody, _⟩ := (greedy_of_literals? hfound).exists_listing hfits
  have hread := readPage_of_left hfound hfits hrest
  rw [heq, ← List.append_assoc] at hbody
  rw [heq] at hfound
  subst hbody
  refine ⟨body ++ gaps, leadingWord (c :: left),
    .endOfText hc hgaps hfound hfits, ?_⟩
  rw [hread, hskip, malformedAt_append]

/-- A malformed text has a defect on its page, and the error names its
place. -/
theorem exists_defect_of_read {found : List Char} {place : Place}
    (h : read text = .error (.malformed expected found place)) :
    ∃ front, Defect (expandTabs text) expected front ∧
      place = .after front := by
  unfold read at h
  split at h
  · cases h
  · next hblank =>
      cases hfound : literals? (expandTabs text) with
      | none =>
          have hpage : ¬ Gaps (expandTabs text) := by
            rw [gaps_iff_of_squeeze_eq (squeeze_expandTabs text)]
            intro hgaps
            apply hblank
            exact List.all_eq_true.mpr fun c hc => isBlank_of_gap (hgaps c hc)
          obtain ⟨front, found, hdefect, hread⟩ :=
            exists_defect_of_none hfound hpage
          rw [hread] at h
          cases h
          exact ⟨front, hdefect, rfl⟩
      | some literals =>
          obtain ⟨ls, rest⟩ := literals
          by_cases hlong : ∃ l ∈ ls, l.TooLong
          · obtain ⟨count, hcount⟩ := exists_readPage_of_tooLong hfound hlong
            rw [hcount] at h
            cases h
          have hfits : ∀ l ∈ ls, ¬ l.TooLong :=
            fun l hl hl' => hlong ⟨l, hl, hl'⟩
          by_cases hrest : Gaps rest
          · rw [readPage_of_gaps hfound hfits hrest] at h
            cases h
          · obtain ⟨front, found, hdefect, hread⟩ :=
              exists_defect_of_left hfound hfits hrest
            rw [hread] at h
            cases h
            exact ⟨front, hdefect, rfl⟩

theorem length_skipGaps_moreLiterals_le (text : List Char) :
    (skipGaps (moreLiterals text).2).length ≤ (skipGaps text).length := by
  fun_induction moreLiterals text with
  | case1 text h => exact Nat.le_refl _
  | case2 text l rest h _ ls after hmore ih =>
      obtain ⟨gaps, tail, hgaps, rfl, hfirst⟩ := exists_of_nextLiteral? h
      rw [hmore] at ih
      rw [skipGaps_append hgaps]
      calc
        (skipGaps after).length ≤ (skipGaps rest).length := ih
        _ ≤ rest.length := length_dropWhile_le isGap rest
        _ ≤ tail.length := length_literal?_le hfirst
        _ ≤ (',' :: tail).length := Nat.le_succ _

/-- Digits go on only where no gap stands after the word. -/
theorem length_skipGaps_dropWhile_le {gaps : List Char} (h : Gaps gaps)
    (tail : List Char) :
    (skipGaps ((gaps ++ tail).dropWhile Char.isDigit)).length ≤
      tail.length := by
  cases gaps with
  | nil =>
      exact Nat.le_trans (length_dropWhile_le isGap _)
        (length_dropWhile_le Char.isDigit tail)
  | cons c gaps =>
      have hc : c.isDigit = false :=
        isDigit_of_isBlank (isBlank_of_gap (h c (List.mem_cons_self ..)))
      rw [List.cons_append, List.dropWhile_cons_of_neg (by simp [hc]),
        ← List.cons_append, skipGaps_append h]
      exact length_dropWhile_le isGap tail

/-- At the start of a longer text the literals of a listing are found too, or
longer ones; they do not end before it, the gaps after them included. -/
theorem exists_literals?_of_listing (h : Listing text words)
    (tail : List Char) :
    ∃ ls rest, literals? (text ++ tail) = some (ls, rest) ∧
      (skipGaps rest).length ≤ tail.length := by
  induction h with
  | @last text value hitem =>
      cases hitem with
      | @mk before word after value hbefore hword hafter =>
          obtain ⟨l, hspells, _, _⟩ := integer_iff.mp hword
          obtain ⟨longer, hfound⟩ :=
            literal?_of_word hbefore hspells (after ++ tail)
          have hle := length_skipGaps_dropWhile_le hafter tail
          generalize (after ++ tail).dropWhile Char.isDigit = left
            at hfound hle
          have hmore := length_skipGaps_moreLiterals_le left
          refine ⟨longer :: (moreLiterals left).1, (moreLiterals left).2, ?_,
            Nat.le_trans hmore hle⟩
          rw [List.append_assoc, List.append_assoc]
          exact literals?_eq_some_iff.mpr ⟨longer, left, hfound, rfl, rfl⟩
  | @more text rest value words hitem _ ih =>
      obtain ⟨ls, left, hrest, hle⟩ := ih
      cases hitem with
      | @mk before word after value hbefore hword hafter =>
          obtain ⟨l, hspells, _, _⟩ := integer_iff.mp hword
          have hfound := literal?_of_spells hbefore hspells
            (endsDigits_of_gaps hafter (endsDigits_comma (rest ++ tail)))
          have hmore := moreLiterals_of_comma hafter hrest
          refine ⟨l :: ls, left, ?_, hle⟩
          have htext : before ++ (word ++ after) ++ ',' :: rest ++ tail =
              before ++ (word ++ (after ++ ',' :: (rest ++ tail))) := by
            simp only [List.append_assoc, List.cons_append]
          rw [htext]
          exact literals?_eq_some_iff.mpr
            ⟨l, _, hfound, by rw [hmore], by rw [hmore]⟩

theorem exists_literals?_of_read {start page : List Char}
    (hstart : start <+: page) (h : read start = .ok words) :
    ∃ ls rest, literals? page = some (ls, rest) ∧
      start.length + (skipGaps rest).length ≤ page.length := by
  obtain ⟨tail, rfl⟩ := hstart
  have hlisting := accepted_iff_listing.mp (read_eq_ok_iff_accepted.mp h)
  obtain ⟨ls, rest, hfound, hle⟩ := exists_literals?_of_listing hlisting tail
  refine ⟨ls, rest, hfound, ?_⟩
  rw [List.length_append]
  omega

namespace Defect

/-- The place of a defect is that of a character, which is no gap. -/
theorem names (h : Defect page expected front) :
    ∃ c, c ∉ [' ', '\t', '\n', '\r'] ∧ (Place.after front).Names page c := by
  have hplace {front : List Char} {c : Char} (hc : isGap c = false)
      (left : List Char) : c ∉ [' ', '\t', '\n', '\r'] ∧
        (Place.after front).Names (front ++ c :: left) c := by
    have hnotgap : c ∉ [' ', '\t', '\n', '\r'] := by
      rw [← isGap_iff, hc]
      decide
    refine ⟨hnotgap, Place.names_after front ?_ left⟩
    rintro rfl
    exact hnotgap (by decide)
  cases h with
  | integer hc | endOfText hc => exact ⟨_, hplace hc _⟩

theorem take_eq (h : Defect page expected front) :
    page.take (Place.after front).offset = front := by
  cases h with
  | integer | endOfText => exact List.take_left

theorem gaps (h : Defect page .integer front) : Gaps front := by
  cases h with
  | integer _ hfront _ => exact hfront

/-- Where no literal is found, no program starts. -/
theorem read_ne_ok (h : Defect page .integer front) {start : List Char}
    (hstart : start <+: page) (words : List Int) : read start ≠ .ok words := by
  intro hread
  obtain ⟨ls, rest, hfound, _⟩ := exists_literals?_of_read hstart hread
  cases h with
  | integer _ _ hnone =>
      rw [hnone] at hfound
      cases hfound

/-- Before the place where the text should end there is a program. -/
theorem exists_read (h : Defect page .endOfText front) :
    ∃ words, read front = .ok words := by
  cases h with
  | @endOfText body gaps left c ls _ hgaps hfound hfits =>
      obtain ⟨body', hbody, hlisting⟩ :=
        (greedy_of_literals? hfound).exists_listing hfits
      rw [List.append_assoc] at hbody
      obtain rfl : body = body' := List.append_cancel_right hbody
      refine ⟨ls.map Literal.value, ?_⟩
      rw [read_eq_ok_iff_accepted, accepted_iff_listing]
      exact hlisting gaps hgaps

/-- No program at the start of the page goes beyond that place. -/
theorem length_le_of_read (h : Defect page .endOfText front)
    {start : List Char} (hstart : start <+: page)
    (hread : read start = .ok words) : start.length ≤ front.length := by
  obtain ⟨ls', rest, hfound', hle⟩ := exists_literals?_of_read hstart hread
  cases h with
  | @endOfText body gaps left c ls hc hgaps hfound _ =>
      rw [hfound] at hfound'
      cases hfound'
      have hskip : skipGaps (gaps ++ c :: left) = c :: left := by
        rw [skipGaps_append hgaps, skipGaps,
          List.dropWhile_cons_of_neg (by simp [hc])]
      rw [hskip, List.length_append] at hle
      omega

end Defect

theorem exists_tooManyDigits_iff :
    (∃ count, read text = .error (.tooManyDigits count)) ↔
      (∃ c ∈ text, isBlank c = false) ∧
        ∃ ls rest, literals? (expandTabs text) = some (ls, rest) ∧
          ∃ l ∈ ls, l.TooLong := by
  constructor
  · rintro ⟨count, h⟩
    unfold read at h
    split at h
    · cases h
    · next hall =>
        refine ⟨by simpa using hall, ?_⟩
        cases hfound : literals? (expandTabs text) with
        | none =>
            rw [readPage_of_none hfound] at h
            cases h
        | some found =>
            obtain ⟨ls, rest⟩ := found
            refine ⟨ls, rest, rfl, ?_⟩
            apply not_not.mp
            intro hlong
            rw [readPage_of_fits hfound fun l hl hl' => hlong ⟨l, hl, hl'⟩]
              at h
            split at h <;> cases h
  · rintro ⟨hsome, ls, rest, hfound, hlong⟩
    rw [read_of_not_blank hsome]
    exact exists_readPage_of_tooLong hfound hlong

/-- A malformed text is refused at the end of the longest program at the start
of its page, where the text should end; or, if no program starts there, at the
first character that is no gap, where an integer should be. The place is that
character's, by offset and by line and column. A text that is not blank is
refused for its length instead exactly if one of the literals at its start is
too long, whatever follows them. -/
theorem malformed_at_longest_program (text : List Char) :
    (∀ expected found place,
      read text = .error (.malformed expected found place) →
      (∃ c, c ∉ [' ', '\t', '\n', '\r'] ∧
        place.Names (expandTabs text) c) ∧
      (expected = .endOfText →
        (∃ words, read ((expandTabs text).take place.offset) = .ok words) ∧
        ∀ start, start <+: expandTabs text → place.offset < start.length →
          ∀ words, read start ≠ .ok words) ∧
      (expected = .integer →
        Gaps ((expandTabs text).take place.offset) ∧
        ∀ start, start <+: expandTabs text →
          ∀ words, read start ≠ .ok words)) ∧
    ((∃ count, read text = .error (.tooManyDigits count)) ↔
      (∃ c ∈ text, isBlank c = false) ∧
        ∃ ls rest, Greedy (expandTabs text) ls rest ∧
          ∃ l ∈ ls, Numeral.digitLimit < l.digits.length) := by
  constructor
  · intro expected found place h
    obtain ⟨front, hdefect, rfl⟩ := exists_defect_of_read h
    rw [hdefect.take_eq]
    refine ⟨hdefect.names, ?_, ?_⟩
    · rintro rfl
      refine ⟨hdefect.exists_read, ?_⟩
      intro start hstart hlonger words hread
      have hle := hdefect.length_le_of_read hstart hread
      change front.length < start.length at hlonger
      omega
    · rintro rfl
      exact ⟨hdefect.gaps, fun start hstart => hdefect.read_ne_ok hstart⟩
  · simp only [exists_tooManyDigits_iff, literals?_eq_some_iff_greedy]
    exact Iff.rfl

/-- A comma without an integer after it is left, behind tabs and on the second
line. -/
theorem malformed_at_longest_program_second_line :
    let text := "4\t,\n\t-5 ,,6".toList
    let place : Place := ⟨21, 2, 12⟩
    read text = .error (.malformed .endOfText [','] place) ∧
      (∃ c, c ∉ [' ', '\t', '\n', '\r'] ∧
        place.Names (expandTabs text) c) ∧
      (∃ words, read ((expandTabs text).take 21) = .ok words) ∧
      ∀ start, start <+: expandTabs text → 21 < start.length →
        ∀ words, read start ≠ .ok words := by
  intro text place
  have hread : read text = .error (.malformed .endOfText [','] place) := by
    decide +kernel
  obtain ⟨hmalformed, _⟩ := malformed_at_longest_program text
  obtain ⟨hnames, hend, _⟩ := hmalformed .endOfText [','] place hread
  exact ⟨hread, hnames, hend rfl⟩

end Program

end IntcodeMachine
