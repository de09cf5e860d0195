import IntcodeMachine.Proofs.Listings

/-!
Blanks around a program. Gaps at its ends are ignored. The other blanks are
not, although a text of blanks alone is as empty as one of gaps: before a
program they stand where its first integer should be, and after it where the
text should end.
-/

namespace IntcodeMachine.Program

open Text

variable {text before after : List Char} {words : List Int}

theorem literals?_append {gaps : List Char} (h : Gaps gaps)
    (text : List Char) : literals? (gaps ++ text) = literals? text := by
  have hfirst : literal? (gaps ++ text) = literal? text := by
    rw [literal?, skipGaps_append h]
    rfl
  rw [literals?, hfirst]
  rfl

/-- No literal starts with a blank that is no gap. -/
theorem literals?_of_blank {c : Char} {left : List Char}
    (hskip : skipGaps text = c :: left) (hblank : isBlank c = true) :
    literals? text = none := by
  have hsign : Numeral.splitSign (c :: left) = (false, c :: left) := by
    apply splitSign_of_ne
    · rintro rfl
      cases hblank
    · rintro rfl
      cases hblank
  have hdigit := isDigit_of_isBlank hblank
  simp [literals?, literal?, hskip, hsign, hdigit]

theorem skipGaps_append_of_left {c : Char} {left : List Char}
    (h : skipGaps text = c :: left) (rest : List Char) :
    skipGaps (text ++ rest) = c :: (left ++ rest) := by
  rw [skipGaps] at h
  rw [skipGaps, List.dropWhile_append, h]
  rfl

/-- Without a literal at its start a text is refused for want of an
integer. -/
theorem read_of_no_literal (hsome : ∃ c ∈ text, isBlank c = false)
    (h : literals? text = none) :
    ∃ found place,
      read text = .error (.malformed .integer found place) := by
  have hpage := literals?_eq_none_of_squeeze_eq (squeeze_expandTabs text).symm h
  exact ⟨_, _, (read_of_not_blank hsome).trans (readPage_of_none hpage)⟩

/-- With more than gaps after its literals a text is refused for not ending
there. -/
theorem read_of_left {ls : List Literal} {rest : List Char}
    (hsome : ∃ c ∈ text, isBlank c = false)
    (h : literals? text = some (ls, rest)) (hfits : ∀ l ∈ ls, ¬ l.TooLong)
    (hleft : ¬ Gaps rest) :
    ∃ found place,
      read text = .error (.malformed .endOfText found place) := by
  obtain ⟨left, hpage, hsame⟩ :=
    exists_literals?_of_squeeze_eq (squeeze_expandTabs text).symm h
  have hpageLeft : ¬ Gaps left := mt (gaps_iff_of_squeeze_eq hsame).mp hleft
  exact ⟨_, _, (read_of_not_blank hsome).trans
    (readPage_of_left hpage hfits hpageLeft)⟩

/-- Blanks after a listing are no part of its literals. -/
theorem greedy_before_blanks (h : Listing text words)
    (hafter : ∀ c ∈ after, isBlank c = true) :
    ∃ ls gaps, Greedy (text ++ after) ls (gaps ++ after) ∧ Gaps gaps ∧
      (∀ l ∈ ls, ¬ l.TooLong) ∧ ls.map Literal.value = words := by
  apply greedy_of_listing h
  · intro c hc
    exact isDigit_of_isBlank (hafter c (List.mem_of_mem_head? hc))
  · rintro ⟨gaps, between, word, rest, l, _, _, _, rfl⟩
    have hcomma := hafter ',' (by simp)
    cases hcomma

/-- Surrounding gaps are ignored, and no other blanks are. A blank that is no
gap is refused before a program, where an integer should be, and after it,
where the text should end. -/
theorem read_surrounded_by_blanks (h : read text = .ok words)
    (hbefore : ∀ c ∈ before, isBlank c = true)
    (hafter : ∀ c ∈ after, isBlank c = true) :
    (Gaps before → Gaps after →
      read (before ++ text ++ after) = .ok words) ∧
    (¬ Gaps before → ∃ found place,
      read (before ++ text ++ after) =
        .error (.malformed .integer found place)) ∧
    (Gaps before → ¬ Gaps after → ∃ found place,
      read (before ++ text ++ after) =
        .error (.malformed .endOfText found place)) := by
  have hlisting := accepted_iff_listing.mp (read_eq_ok_iff_accepted.mp h)
  have hsome : ∃ c ∈ before ++ text ++ after, isBlank c = false := by
    obtain ⟨c, hc, hblank⟩ : ∃ c ∈ text, isBlank c = false := by
      simpa using not_blank_of_listing hlisting
    exact ⟨c, by simp [hc], hblank⟩
  obtain ⟨ls, gaps, hgreedy, hgaps, hfits, hvalues⟩ :=
    greedy_before_blanks hlisting hafter
  have hfound : Gaps before →
      literals? (before ++ text ++ after) = some (ls, gaps ++ after) := by
    intro hbefore
    rw [List.append_assoc, literals?_append hbefore]
    exact literals?_of_greedy hgreedy
  refine ⟨?_, ?_, ?_⟩
  · intro hbefore hafter
    have hrest : Gaps (gaps ++ after) := by
      intro c hc
      exact (List.mem_append.mp hc).elim (hgaps c) (hafter c)
    exact read_eq_ok_iff_accepted.mpr
      ⟨ls, gaps ++ after, hfound hbefore, hfits, hrest, hvalues⟩
  · intro hleft
    obtain ⟨c, left, hskip, _⟩ := exists_skipGaps hleft
    have hc : c ∈ before := by
      apply (List.dropWhile_sublist isGap).subset
      change c ∈ skipGaps before
      rw [hskip]
      exact List.mem_cons_self ..
    apply read_of_no_literal hsome
    rw [List.append_assoc]
    exact literals?_of_blank (skipGaps_append_of_left hskip _) (hbefore c hc)
  · intro hbefore hleft
    apply read_of_left hsome (hfound hbefore) hfits
    intro hrest
    exact hleft fun c hc => hrest c (List.mem_append_right _ hc)

/-- A line end before a program is ignored, a no-break space is not, nor is a
form feed after it. -/
theorem read_surrounded_by_blanks_both_ends :
    let text := "7,8".toList
    let feed := ['\t', '\x0c']
    read text = .ok [7, 8] ∧ (∀ c ∈ feed, isBlank c = true) ∧
      (∀ c ∈ ['\u00a0'], isBlank c = true) ∧
      read (['\n'] ++ text ++ ['\t']) = .ok [7, 8] ∧
      (∃ found place, read (['\u00a0'] ++ text ++ feed) =
        .error (.malformed .integer found place)) ∧
      (∃ found place, read (['\n'] ++ text ++ feed) =
        .error (.malformed .endOfText found place)) := by
  intro text feed
  have hread : read text = .ok [7, 8] := by
    decide +kernel
  have hline : ∀ c ∈ ['\n'], isBlank c = true :=
    List.all_eq_true.mp rfl
  have htab : ∀ c ∈ ['\t'], isBlank c = true :=
    List.all_eq_true.mp rfl
  have hspace : ∀ c ∈ ['\u00a0'], isBlank c = true :=
    List.all_eq_true.mp rfl
  have hfeed : ∀ c ∈ feed, isBlank c = true :=
    List.all_eq_true.mp rfl
  have hgaps : Gaps ['\n'] ∧ Gaps ['\t'] := by
    simp [Gaps]
  have hother : ¬ Gaps ['\u00a0'] ∧ ¬ Gaps feed := by
    simp [Gaps, feed]
  obtain ⟨hignored, _⟩ := read_surrounded_by_blanks hread hline htab
  obtain ⟨_, hinteger, _⟩ := read_surrounded_by_blanks hread hspace hfeed
  obtain ⟨_, _, hend⟩ := read_surrounded_by_blanks hread hline hfeed
  exact ⟨hread, hfeed, hspace, hignored hgaps.1 hgaps.2, hinteger hother.1,
    hend hgaps.1 hother.2⟩

/-- A form feed after a program, as after a page, makes it malformed, although
it is a blank. -/
theorem form_feed_refused :
    read "99".toList = .ok [99] ∧ isBlank '\x0c' = true ∧
      read ([] ++ "99".toList ++ ['\x0c']) =
        .error (.malformed .endOfText ['\x0c'] ⟨2, 1, 3⟩) := by
  decide +kernel

end IntcodeMachine.Program
