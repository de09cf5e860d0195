import IntcodeMachine.Proofs.Consoles
import IntcodeMachine.Proofs.LineNumerals
import IntcodeMachine.Proofs.Reprinting

/-!
The output of a console as the input of another. Every number that was written
has a line of its own, and the line is read as that number; after the last one
the stream is closed. A number that cannot be written leaves what was written
before it.
-/

namespace IntcodeMachine

variable {text : String} {values : List Int} {v : Int}

/-- The numeral of a number that can be written is a line with that number. -/
theorem Numeral.ofLine_chars (h : Fits digitLimit v) :
    ofLine (chars v) = .ok v :=
  Program.ofLine_of_item (Program.item_of_integer (Program.integer_chars h))

theorem Numeral.lineFeed_notMem_chars (v : Int) : '\n' ∉ chars v := by
  intro hmem
  exact absurd ((Program.Literal.spells_ofInt v).mem hmem) (by decide)

/-- The text of some numbers is a stream of their numerals. -/
theorem TextStream.ofLines_write (values : List Int) :
    ofLines (values.map Numeral.write) =
      ⟨(Output.lines values).toList, .closed⟩ := by
  simp [ofLines, Output.lines, List.flatMap_map, String.toList_join]

namespace Input

/-- What the given number of reads give, one after the other. -/
def readMany : Nat → Input → List (Except Stop Int)
  | 0, _ => []
  | n + 1, input => input.read.1 :: readMany n input.read.2

variable {prompt : Option String}

theorem read_written_nil :
    (console (.ofLines []) prompt).read =
      (.error (.fault .inputClosed), console (.ofLines []) prompt) := by
  rw [read, TextStream.readLine_ofLines_nil]
  rfl

theorem read_written_cons (h : Numeral.Fits Numeral.digitLimit v)
    (lines : List String) :
    (console (.ofLines (Numeral.write v :: lines)) prompt).read =
      (.ok v, console (.ofLines lines) prompt) := by
  have hline : '\n' ∉ (Numeral.write v).toList := by
    rw [Numeral.toList_write]
    exact Numeral.lineFeed_notMem_chars v
  rw [read, TextStream.readLine_ofLines_cons lines hline]
  simp only [bind, Except.bind, Numeral.ofLine_concat, Numeral.toList_write,
    Numeral.ofLine_chars h, Except.mapError]

/-- A closed stream stays closed. -/
theorem readMany_nil (more : Nat) :
    readMany more (console (.ofLines []) prompt) =
      List.replicate more (.error (.fault .inputClosed)) := by
  induction more with
  | zero => rfl
  | succ more ih =>
      rw [readMany, read_written_nil, ih, List.replicate_succ]

theorem readMany_written
    (h : ∀ v ∈ values, Numeral.Fits Numeral.digitLimit v) (more : Nat) :
    readMany (values.length + more)
        (console (.ofLines (values.map Numeral.write)) prompt) =
      values.map .ok ++
        List.replicate more (.error (.fault .inputClosed)) := by
  induction values with
  | nil =>
      rw [List.length_nil, Nat.zero_add]
      exact readMany_nil more
  | cons v values ih =>
      obtain ⟨hv, hvalues⟩ := List.forall_mem_cons.mp h
      rw [List.length_cons, Nat.succ_add, readMany, List.map_cons,
        read_written_cons hv, ih hvalues]
      rfl

end Input

namespace Machine

variable {m : Machine}

theorem writeOutput_of_fits (houtput : m.output = .console text)
    (h : Numeral.Fits Numeral.digitLimit v) :
    writeOutput {} v m =
      .ok () { m with output := .console (text ++ Output.lines [v]) } := by
  have hline : text ++ Output.lines [v] = text ++ Numeral.write v ++ "\n" := by
    simp [Output.lines, String.append_assoc]
  rw [writeOutput_apply, houtput, Output.write, if_pos (writes_default.mpr h),
    hline]

theorem writeOutput_of_not_fits (houtput : m.output = .console text)
    (h : ¬ Numeral.Fits Numeral.digitLimit v) :
    writeOutput {} v m = .error .tooManyDigits m := by
  rw [writeOutput_apply, houtput, Output.write,
    if_neg (mt writes_default.mp h)]

/-- Numbers that can be written are written one after the other. -/
theorem forM_writeOutput (houtput : m.output = .console text)
    (h : ∀ v ∈ values, Numeral.Fits Numeral.digitLimit v) :
    values.forM (writeOutput {}) m =
      .ok () { m with output := .console (text ++ Output.lines values) } := by
  induction values generalizing text m with
  | nil =>
      rw [Output.append_lines_nil, ← houtput]
      rfl
  | cons v values ih =>
      obtain ⟨hv, hvalues⟩ := List.forall_mem_cons.mp h
      change (writeOutput {} v >>= fun _ => values.forM (writeOutput {})) m = _
      rw [Action.bind_apply, writeOutput_of_fits houtput hv]
      simp only
      rw [ih rfl hvalues, String.append_assoc, ← Output.lines_append]
      rfl

/-- Numbers that were written on a console are read from its text, in order
and one for each read, and every further read finds the stream closed. A number
that cannot be written stops the action and leaves the text as it is. -/
theorem read_back_written (values : List Int)
    (hfits : ∀ v ∈ values, Numeral.Fits Numeral.digitLimit v) (m : Machine)
    (hempty : m.output = .console "") :
    let written := { m with output := .console (Output.lines values) }
    values.forM (writeOutput {}) m = .ok () written ∧
      (∀ prompt more,
        Input.readMany (values.length + more)
          (.console ⟨written.output.text.toList, .closed⟩ prompt) =
        values.map .ok ++
          List.replicate more (.error (.fault .inputClosed))) ∧
      (Stop.fault .inputClosed).message = "Input stream closed" ∧
      ∀ v, ¬ Numeral.Fits Numeral.digitLimit v →
        writeOutput {} v written = .error .tooManyDigits written := by
  intro written
  refine ⟨?_, ?_, rfl, ?_⟩
  · rw [forM_writeOutput hempty hfits, String.empty_append]
  · intro prompt more
    have htext : written.output.text = Output.lines values := rfl
    rw [htext, ← TextStream.ofLines_write]
    exact Input.readMany_written hfits more
  · intro v hv
    exact writeOutput_of_not_fits rfl hv

/-- Both signs, zero and the largest number that can be written, and the next
one, which cannot. -/
theorem read_back_written_largest :
    let values : List Int := [5, -7, 0, 10 ^ Numeral.digitLimit - 1]
    let m := ofProgram [99] 1 (.script []) (.console "")
    let written := { m with output := .console (Output.lines values) }
    values.forM (writeOutput {}) m = .ok () written ∧
      Input.readMany (values.length + 2)
          (.console ⟨written.output.text.toList, .closed⟩ (some "? ")) =
        values.map .ok ++
          [.error (.fault .inputClosed), .error (.fault .inputClosed)] ∧
      writeOutput {} (10 ^ Numeral.digitLimit) written =
        .error .tooManyDigits written := by
  intro values m written
  have hfits : ∀ v ∈ values, Numeral.Fits Numeral.digitLimit v := by
    decide +kernel
  have hlost : ¬ Numeral.Fits Numeral.digitLimit (10 ^ Numeral.digitLimit) := by
    decide +kernel
  obtain ⟨hwrite, hread, _, hrefused⟩ := read_back_written values hfits m rfl
  exact ⟨hwrite, hread (some "? ") 2, hrefused _ hlost⟩

end Machine

end IntcodeMachine
