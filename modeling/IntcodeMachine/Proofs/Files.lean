import IntcodeMachine.Proofs.Spacing
import IntcodeMachine.Proofs.Utf8
import IntcodeMachine.Storage

/-!
A file that holds a text in UTF-8 is read as that text. Its line ends are made
line feeds first, which moves the places of errors and changes nothing else:
the words are the same, and so is what is wrong with a text that is no program.
A file that holds no text is refused by the decoder.
-/

namespace IntcodeMachine

namespace Text

variable {text line : List Char} {lines : List (List Char)} {c : Char}

/-- What ends a line. -/
inductive LineEnd : List Char → Prop where
  | feed : LineEnd ['\n']
  | carriage : LineEnd ['\r']
  | both : LineEnd ['\r', '\n']

/-- Some line ends of the first text are other ones in the second. -/
inductive Exchanged : List Char → List Char → Prop where
  | nil : Exchanged [] []
  | keep (c : Char) {text variant : List Char} : Exchanged text variant →
      Exchanged (c :: text) (c :: variant)
  | exchange {first second text variant : List Char} : LineEnd first →
      LineEnd second → Exchanged text variant →
      Exchanged (first ++ text) (second ++ variant)

/-- A text without line ends. -/
def SingleLine (line : List Char) : Prop :=
  ∀ c ∈ line, c ≠ '\n' ∧ c ≠ '\r'

/-- The lines of a text. A return that a line feed follows ends the same line
as the line feed. -/
inductive Lines : List (List Char) → List Char → Prop where
  | last {line : List Char} : SingleLine line → Lines [line] line
  | more {line ending rest : List Char} {lines : List (List Char)} :
      SingleLine line → LineEnd ending →
      (ending = ['\r'] → '\n' ∉ rest.head?) → Lines lines rest →
      Lines (line :: lines) (line ++ (ending ++ rest))

theorem SingleLine.nil : SingleLine [] := fun _ hc =>
  absurd hc List.not_mem_nil

/-- A text goes on in its first line. -/
theorem exists_lines_cons (hc : c ≠ '\n' ∧ c ≠ '\r')
    (h : Lines lines text) : ∃ lines, Lines lines (c :: text) := by
  have hfirst : ∀ {line}, SingleLine line → SingleLine (c :: line) :=
    fun hline => List.forall_mem_cons.mpr ⟨hc, hline⟩
  cases h with
  | last hline => exact ⟨_, .last (hfirst hline)⟩
  | more hline hending hreturn hrest =>
      exact ⟨_, .more (hfirst hline) hending hreturn hrest⟩

theorem exists_lines (text : List Char) : ∃ lines, Lines lines text := by
  fun_induction unifyLineEnds text with
  | case1 rest ih =>
      obtain ⟨lines, hrest⟩ := ih
      exact ⟨_, .more .nil .both (fun heq => by cases heq) hrest⟩
  | case2 rest hfeed ih =>
      obtain ⟨lines, hrest⟩ := ih
      refine ⟨_, .more .nil .carriage (fun _ hhead => ?_) hrest⟩
      obtain ⟨tail, rfl⟩ := List.head?_eq_some_iff.mp hhead
      exact hfeed tail rfl
  | case3 c rest _ hreturn ih =>
      obtain ⟨lines, hrest⟩ := ih
      by_cases hfeed : c = '\n'
      · subst hfeed
        exact ⟨_, .more .nil .feed (fun heq => by cases heq) hrest⟩
      · exact exists_lines_cons ⟨hfeed, hreturn⟩ hrest
  | case4 => exact ⟨_, .last .nil⟩

theorem unifyLineEnds_of_ne (h : c ≠ '\r') (rest : List Char) :
    unifyLineEnds (c :: rest) = c :: unifyLineEnds rest :=
  unifyLineEnds.eq_3 c rest (fun _ heq _ => h heq) h

theorem unifyLineEnds_return {rest : List Char} (h : '\n' ∉ rest.head?) :
    unifyLineEnds ('\r' :: rest) = '\n' :: unifyLineEnds rest := by
  apply unifyLineEnds.eq_2
  rintro tail rfl
  exact h rfl

theorem unifyLineEnds_append (h : SingleLine line) (rest : List Char) :
    unifyLineEnds (line ++ rest) = line ++ unifyLineEnds rest := by
  induction line with
  | nil => rfl
  | cons c line ih =>
      obtain ⟨hc, hline⟩ := List.forall_mem_cons.mp h
      rw [List.cons_append, unifyLineEnds_of_ne hc.2, ih hline,
        List.cons_append]

theorem unifyLineEnds_ending {ending rest : List Char} (h : LineEnd ending)
    (hreturn : ending = ['\r'] → '\n' ∉ rest.head?) :
    unifyLineEnds (ending ++ rest) = '\n' :: unifyLineEnds rest := by
  cases h with
  | feed => exact unifyLineEnds_of_ne (by decide) rest
  | carriage => exact unifyLineEnds_return (hreturn rfl)
  | both => rfl

/-- Unified line ends are one line feed between two lines. -/
theorem unifyLineEnds_of_lines (h : Lines lines text) :
    unifyLineEnds text = ['\n'].intercalate lines := by
  induction h with
  | @last line hline =>
      have happend := unifyLineEnds_append hline []
      rw [List.append_nil] at happend
      rw [happend, List.intercalate_singleton]
      exact List.append_nil line
  | @more line ending rest lines hline hending hreturn hrest ih =>
      rw [unifyLineEnds_append hline, unifyLineEnds_ending hending hreturn, ih]
      cases hrest <;> rw [List.intercalate_cons_cons, List.append_assoc] <;> rfl

end Text

namespace Program

open Text

variable {text variant : List Char}

theorem gaps_of_lineEnd {ending : List Char} (h : LineEnd ending) :
    ∃ c gaps, ending = c :: gaps ∧ isGap c = true ∧ Gaps gaps := by
  cases h with
  | feed => exact ⟨'\n', [], rfl, rfl, by simp [Gaps]⟩
  | carriage => exact ⟨'\r', [], rfl, rfl, by simp [Gaps]⟩
  | both => exact ⟨'\r', ['\n'], rfl, rfl, by simp [Gaps]⟩

theorem squeeze_exchanged (h : Exchanged text variant) :
    squeeze text = squeeze variant := by
  induction h with
  | nil => rfl
  | keep c _ ih => exact squeeze_cons_congr ih c
  | exchange hfirst hsecond _ ih =>
      obtain ⟨c, before, rfl, hc, hbefore⟩ := gaps_of_lineEnd hfirst
      obtain ⟨d, after, rfl, hd, hafter⟩ := gaps_of_lineEnd hsecond
      rw [List.cons_append, List.cons_append, squeeze_gaps hbefore hc,
        squeeze_gaps hafter hd]
      exact squeeze_cons_congr ih ' '

end Program

/-- The error without its place in the text. -/
def LoadError.unplaced : LoadError → LoadError
  | .unreadable cause => .unreadable cause.unplaced
  | e => e

namespace Program

open Text

variable {text variant : List Char} {content : List UInt8} {words : List Int}
  {find : String → Lookup} {path : Path}

theorem ofBytes_encodeUtf8 (text : List Char) :
    ofBytes (encodeUtf8 text) =
      (read (unifyLineEnds text)).mapError .unreadable := by
  rw [ofBytes, decodeUtf8_eq_ok_iff.mpr rfl]
  rfl

/-- The bytes of a text are read as the text is, but for the places of
errors. -/
theorem ofBytes_unplaced (text : List Char) :
    (ofBytes (encodeUtf8 text)).mapError LoadError.unplaced =
      ((read text).mapError ReadError.unplaced).mapError .unreadable := by
  have hswap : ∀ outcome : Except ReadError (List Int),
      (outcome.mapError LoadError.unreadable).mapError LoadError.unplaced =
        (outcome.mapError ReadError.unplaced).mapError .unreadable := by
    rintro (_ | _) <;> rfl
  rw [ofBytes_encodeUtf8, hswap,
    read_of_squeeze_eq (squeeze_unifyLineEnds text)]

theorem ofBytes_eq_ok_iff :
    ofBytes (encodeUtf8 text) = .ok words ↔ read text = .ok words := by
  rw [← mapError_eq_ok_iff LoadError.unplaced, ofBytes_unplaced,
    mapError_eq_ok_iff, mapError_eq_ok_iff]

theorem exists_refusal_of_ofBytes {e : LoadError}
    (h : ofBytes (encodeUtf8 text) = .error e) :
    ∃ cause refusal, e = .unreadable cause ∧ read text = .error refusal ∧
      cause.unplaced = refusal.unplaced := by
  have hsame := ofBytes_unplaced text
  rw [h] at hsame
  obtain ⟨_, hmap, hcause⟩ := exists_of_mapError_eq_error hsame.symm
  obtain ⟨refusal, hread, rfl⟩ := exists_of_mapError_eq_error hmap
  rw [ofBytes_encodeUtf8] at h
  obtain ⟨cause, _, rfl⟩ := exists_of_mapError_eq_error h
  exact ⟨cause, refusal, rfl, hread, (LoadError.unreadable.inj hcause).symm⟩

theorem exists_decodeError (h : ∀ text, content ≠ encodeUtf8 text) :
    ∃ cause, decodeUtf8 content = .error cause := by
  cases hdecode : decodeUtf8 content with
  | ok text => exact absurd (decodeUtf8_eq_ok_iff.mp hdecode) (h text)
  | error cause => exact ⟨cause, rfl⟩

theorem load_of_file (h : find path.text = .file content) :
    load find path =
      (loadRecords path (ofBytes content), ofBytes content) := by
  simp only [load, h, ofLookup]

/-- Loading a file is reading its text. The words are the same, and an error is
the same but for its place. Other line ends make no more difference, and none at
all if the lines are the same. Bytes that are no text are refused before
anything is read. -/
theorem load_text_file (h : find path.text = .file content) :
    (∀ text, content = encodeUtf8 text →
      (∀ words, (load find path).2 = .ok words ↔ read text = .ok words) ∧
      (∀ e, (load find path).2 = .error e → ∃ cause refusal,
        e = .unreadable cause ∧ read text = .error refusal ∧
          cause.unplaced = refusal.unplaced) ∧
      (∃ lines, Lines lines text) ∧
      ∀ find' path' variant, find' path'.text = .file (encodeUtf8 variant) →
        (Exchanged text variant →
          (load find' path').2.mapError LoadError.unplaced =
            (load find path).2.mapError LoadError.unplaced) ∧
        ∀ lines, Lines lines text → Lines lines variant →
          (load find' path').2 = (load find path).2) ∧
    ((∀ text, content ≠ encodeUtf8 text) → ∃ cause,
      decodeUtf8 content = .error cause ∧
        load find path =
          ([⟨.debug, "Loading program " ++ path.text⟩],
            .error (.undecodable cause))) := by
  rw [load_of_file h]
  constructor
  · rintro text rfl
    refine ⟨fun _ => ofBytes_eq_ok_iff, fun _ => exists_refusal_of_ofBytes,
      exists_lines text, ?_⟩
    intro find' path' variant hvariant
    rw [load_of_file hvariant]
    constructor
    · intro hexchanged
      have hread := read_of_squeeze_eq (squeeze_exchanged hexchanged)
      simp only [ofBytes_unplaced, hread]
    · intro lines htext hlines
      simp only [ofBytes_encodeUtf8, unifyLineEnds_of_lines htext,
        unifyLineEnds_of_lines hlines]
  · intro hnone
    obtain ⟨cause, hcause⟩ := exists_decodeError hnone
    have hbytes : ofBytes content = .error (.undecodable cause) := by
      rw [ofBytes, hcause]
      rfl
    exact ⟨cause, hcause, by rw [hbytes]; rfl⟩

/-- The same program with line feeds and with other line ends, and a file with
a surrogate. -/
theorem load_text_file_variants :
    let feeds := "1,\n\t2\n".toList
    let returns := "1,\r\n\t2\r".toList
    let find := fun path : String =>
      if path = "feeds" then .file (encodeUtf8 feeds)
      else if path = "returns" then .file (encodeUtf8 returns)
      else if path = "broken" then .file [0x31, 0xED, 0xA0, 0x80]
      else .missing
    (load find (.ofString "feeds")).2 = .ok [1, 2] ∧
      (load find (.ofString "returns")).2 =
        (load find (.ofString "feeds")).2 ∧
      ∃ cause, load find (.ofString "broken") =
        ([⟨.debug, "Loading program broken"⟩],
          .error (.undecodable cause)) := by
  intro feeds returns find
  have hfeeds : find (Path.ofString "feeds").text =
      .file (encodeUtf8 feeds) := by
    decide +kernel
  have hreturns : find (Path.ofString "returns").text =
      .file (encodeUtf8 returns) := by
    decide +kernel
  have hbroken : find (Path.ofString "broken").text =
      .file [0x31, 0xED, 0xA0, 0x80] := by
    decide +kernel
  have hread : read feeds = .ok [1, 2] := by
    decide +kernel
  have hfirst : SingleLine "1,".toList := by
    simp [SingleLine]
  have hsecond : SingleLine "\t2".toList := by
    simp [SingleLine]
  have hlines : Lines ["1,".toList, "\t2".toList, []] feeds :=
    .more hfirst .feed (by decide) (.more hsecond .feed (by decide) (.last .nil))
  have hother : Lines ["1,".toList, "\t2".toList, []] returns :=
    .more hfirst .both (by decide)
      (.more hsecond .carriage (by decide) (.last .nil))
  have hnone : ∀ text, [0x31, 0xED, 0xA0, 0x80] ≠ encodeUtf8 text := by
    intro text heq
    have hdecode := decodeUtf8_eq_ok_iff.mpr heq
    have hrefused : decodeUtf8 [0x31, 0xED, 0xA0, 0x80] =
        .error ⟨1, 0xED, 1, .invalidContinuation⟩ := by
      decide +kernel
    rw [hrefused] at hdecode
    cases hdecode
  obtain ⟨hwords, _, _, hvariants⟩ := (load_text_file hfeeds).1 feeds rfl
  obtain ⟨_, hsame⟩ := hvariants find _ returns hreturns
  obtain ⟨cause, _, hload⟩ := (load_text_file hbroken).2 hnone
  exact ⟨(hwords _).mpr hread, hsame _ hlines hother, cause, hload⟩

end Program

end IntcodeMachine
