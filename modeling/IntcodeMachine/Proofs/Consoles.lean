import Mathlib.Data.List.ReduceOption
import IntcodeMachine.Proofs.Conservation

/-!
A run on a console and the run on a script of the same lines. The two machines
stay equal but for their devices and the prompts in the journal: the stream
holds the lines that the script has left, and the text holds the numbers that
were collected. Both ask their input device at the same turns, a read past the
last line included, and an instruction that does not come to ask its device
touches neither stream nor script.

Only the numerals of the outputs can tell the two apart, since a console writes
them and a collection does not; so a run on a console is as good as the other
while they can be written.
-/

namespace IntcodeMachine

namespace Text

variable {line rest : List Char} {skipped : Char → Bool} {c : Char}

theorem splitLine_line (h : '\n' ∉ line) :
    splitLine (line ++ '\n' :: rest) = (line ++ ['\n'], rest) := by
  induction line with
  | nil => rfl
  | cons c line ih =>
      have hc : c ≠ '\n' := fun heq => h (by simp [heq])
      have hline : '\n' ∉ line := fun hmem => h (List.mem_cons_of_mem _ hmem)
      rw [List.cons_append, splitLine, ih hline, List.cons_append]
      intro heq
      exact hc heq

/-- A character of the class at the end of a text is dropped. -/
theorem trimBy_concat (hc : skipped c = true) :
    trimBy skipped (line ++ [c]) = trimBy skipped line := by
  unfold trimBy
  rw [List.dropWhile_append]
  split
  · next hempty =>
      rw [List.isEmpty_iff.mp hempty]
      simp [hc]
  · rw [List.reverse_append, List.reverse_singleton, List.singleton_append,
      List.dropWhile_cons_of_pos hc]

end Text

/-- The line feed of a line is no part of its number. -/
theorem Numeral.ofLine_concat (line : List Char) :
    ofLine (line ++ ['\n']) = ofLine line := by
  have htrim : Text.trim (line ++ ['\n']) = Text.trim line :=
    Text.trimBy_concat (by decide)
  rw [ofLine, ofLine, htrim]

/-- A stream that holds the given lines, each with a line feed. -/
def TextStream.ofLines (lines : List String) : TextStream :=
  { rest := lines.flatMap fun line => line.toList ++ ['\n'] }

theorem TextStream.readLine_ofLines_nil :
    (ofLines []).readLine = (.error (.fault .inputClosed), ofLines []) := rfl

theorem TextStream.readLine_ofLines_cons {line : String} (lines : List String)
    (h : '\n' ∉ line.toList) :
    (ofLines (line :: lines)).readLine =
      (.ok (line.toList ++ ['\n']), ofLines lines) := by
  have hrest : (ofLines (line :: lines)).rest =
      line.toList ++ '\n' :: (ofLines lines).rest := by
    simp [ofLines]
  unfold readLine
  split
  · next hnil =>
      rw [hrest] at hnil
      simp at hnil
  · rw [hrest, Text.splitLine_line h]
    rfl

/-- The text in which each number has a line of its own. -/
def Output.lines (values : List Int) : String :=
  String.join (values.map fun v => Numeral.write v ++ "\n")

theorem Output.append_lines_nil (text : String) : text ++ lines [] = text :=
  String.append_empty

theorem Output.lines_append (values more : List Int) :
    lines (values ++ more) = lines values ++ lines more := by
  simp [lines, String.join_append]

theorem Output.lines_concat (values : List Int) (v : Int) :
    lines (values ++ [v]) = lines values ++ Numeral.write v ++ "\n" := by
  rw [lines_append, String.append_assoc]
  simp [lines]

/-- How often an effect asks the input device. -/
def Effect.asks : Effect → Nat
  | .accept _ => 1
  | _ => 0

/-- A script that is used up is a stream that is closed. -/
def Fault.onConsole : Fault → Fault
  | .inputExhausted => .inputClosed
  | f => f

theorem Fault.onConsole_of_ne {f : Fault} (h : f ≠ .inputExhausted) :
    f.onConsole = f := by
  cases f <;> first | rfl | exact absurd rfl h

def Stop.onConsole : Stop → Stop
  | .fault f => .fault f.onConsole
  | stop => stop

namespace Machine

variable {prompt : Option String} {asked : Nat} {m c : Machine} {o o' : Outcome}

theorem fits_of_isPrefix {next : Machine}
    (h : m.output.values.toList <+: next.output.values.toList)
    (hfits : ∀ v ∈ next.output.values, Numeral.Fits Numeral.digitLimit v) :
    ∀ v ∈ m.output.values, Numeral.Fits Numeral.digitLimit v := by
  intro v hv
  apply hfits
  exact Array.mem_toList_iff.mp (h.subset (Array.mem_toList_iff.mpr hv))

/-- The second machine is the first one on a console that has shown its prompt
the given number of times: the stream holds the lines of the script, and the
text the collected numbers. -/
structure Mirrors (prompt : Option String) (asked : Nat) (m c : Machine) :
    Prop where
  memory : c.memory = m.memory
  ip : c.ip = m.ip
  base : c.base = m.base
  status : c.status = m.status
  steps : c.steps = m.steps
  input : ∃ lines : List String, (∀ line ∈ lines, '\n' ∉ line.toList) ∧
    m.input = .script (lines.map .line) ∧
    c.input = .console (.ofLines lines) prompt
  output : ∃ values, m.output = .collected values ∧
    c.output = .console (Output.lines values.toList)
  journal : c.journal.toList.filter (·.promptText? = none) = m.journal.toList
  prompts : c.journal.toList.filterMap Event.promptText? =
    (List.replicate asked prompt).reduceOption

/-- Two outcomes are the same but for the devices. -/
inductive Alike (prompt : Option String) (asked : Nat) :
    Outcome → Outcome → Prop where
  | ok {m c : Machine} : Mirrors prompt asked m c →
      Alike prompt asked (.ok () m) (.ok () c)
  | error {m c : Machine} (stop : Stop) : Mirrors prompt asked m c →
      Alike prompt asked (.error stop m) (.error stop.onConsole c)

theorem Alike.mirrors (h : Alike prompt asked o o') :
    Mirrors prompt asked (ofOutcome o) (ofOutcome o') := by
  cases h with
  | ok h => exact h
  | error _ h => exact h

theorem asks_of_effect {op : Opcode} {params : List Parameter}
    {effect : Effect} (h : op.effect params m.memory m.base = .ok effect) :
    (if m.Asks op params then 1 else 0) = effect.asks := by
  cases effect with
  | accept d =>
      rw [if_pos ((asks_iff_of_effect h).mpr ⟨d, rfl⟩), Effect.asks]
  | store | send | jump | proceed | rebase | halt =>
      rw [if_neg (by simp [asks_iff_of_effect h])]
      rfl

/-- An instruction asks if its line can be written and its operation asks. -/
theorem asked_of_encodes {i : Instruction} (hencodes : Encodes m.memory i)
    (hposition : i.position = m.ip) :
    m.turn?.toList.countP (·.Asked) =
      if ∀ n ∈ (m.line i).numbers, Numeral.Fits Numeral.digitLimit n then
        if m.Asks i.opcode i.params then 1 else 0
      else 0 := by
  have hasked : (⟨m, i, succeeds (step {} m)⟩ : Turn).Asked ↔
      (∀ n ∈ (m.line i).numbers, Numeral.Fits Numeral.digitLimit n) ∧
        m.Asks i.opcode i.params := Iff.rfl
  rw [turn?_of_encodes hencodes hposition, Option.toList_some,
    List.countP_singleton]
  simp only [decide_eq_true_eq, hasked, ite_and]

theorem Undecodable.ne_exhausted {f : Fault} {next : Machine}
    (h : m.Undecodable f next) : f ≠ .inputExhausted := by
  cases h with
  | word | opcode => simp
  | parameter _ _ _ _ hlacks => cases hlacks <;> simp

theorem readInput_of_closed (hinput : c.input = .console (.ofLines []) prompt) :
    readInput c = .error (.fault .inputClosed) c.prompt := by
  have hprompt : c.prompt.input = .console (.ofLines []) prompt := by
    rw [prompt_input, hinput]
  rw [readInput_apply, hprompt, Input.read, TextStream.readLine_ofLines_nil]
  simp only [bind, Except.bind]
  rw [← hprompt]

theorem readInput_of_line {line : String} {lines : List String}
    (hinput : c.input = .console (.ofLines (line :: lines)) prompt)
    (hline : '\n' ∉ line.toList) :
    readInput c =
      match Numeral.ofLine line.toList with
      | .ok v => .ok v
          { c.prompt with input := .console (.ofLines lines) prompt }
      | .error f => .error (.fault f)
          { c.prompt with input := .console (.ofLines lines) prompt } := by
  rw [readInput_apply, prompt_input, hinput, Input.read,
    TextStream.readLine_ofLines_cons lines hline]
  simp only [bind, Except.bind, Numeral.ofLine_concat]
  cases Numeral.ofLine line.toList <;> rfl

theorem Alike.exists_of_ok (h : Alike prompt asked o o')
    (ho : o = .ok () m) : ∃ c, o' = .ok () c ∧ Mirrors prompt asked m c := by
  cases h with
  | ok h =>
      cases ho
      exact ⟨_, rfl, h⟩
  | error => cases ho

theorem Alike.exists_of_error {stop : Stop} (h : Alike prompt asked o o')
    (ho : o = .error stop m) :
    ∃ c, o' = .error stop.onConsole c ∧ Mirrors prompt asked m c := by
  cases h with
  | ok => cases ho
  | error stop h =>
      cases ho
      exact ⟨_, rfl, h⟩

namespace Mirrors

theorem scripted (h : Mirrors prompt asked m c) : m.Scripted := by
  obtain ⟨lines, _, hinput, _⟩ := h.input
  obtain ⟨values, houtput, _⟩ := h.output
  exact ⟨⟨_, hinput⟩, ⟨_, houtput⟩⟩

theorem active (h : Mirrors prompt asked m c) : c.Active ↔ m.Active := by
  rw [Active, Active, h.status, h.ip, h.memory]

theorem noted (h : Mirrors prompt asked m c) {event : Event}
    (hevent : event.promptText? = none) :
    Mirrors prompt asked (m.noted event) (c.noted event) :=
  { h with
    journal := by simp [Machine.noted, h.journal, hevent]
    prompts := by simp [Machine.noted, h.prompts, hevent] }

theorem emit (h : Mirrors prompt asked m c) {event : Event}
    (hevent : event.promptText? = none) :
    Alike prompt asked (emit {} event m) (emit {} event c) := by
  rw [emit_noted rfl, emit_noted rfl]
  split
  · exact .ok (h.noted hevent)
  · exact .error .tooManyDigits h

theorem line_eq (h : Mirrors prompt asked m c) (i : Instruction) :
    c.line i = m.line i := by
  rw [line, line, h.steps]

theorem counted (h : Mirrors prompt asked m c) (i : Instruction) :
    Mirrors prompt asked (m.counted i) (c.counted i) :=
  { h with
    ip := by simp only [Machine.counted, h.ip]
    steps := by simp only [Machine.counted, h.steps] }

theorem listed (h : Mirrors prompt asked m c) (i : Instruction) :
    Mirrors prompt asked (m.listed i) (c.listed i) := by
  rw [Machine.listed, Machine.listed, h.line_eq]
  exact (h.counted i).noted rfl

/-- The console shows its prompt before each read. -/
theorem shown (h : Mirrors prompt asked m c) :
    Mirrors prompt (asked + 1) m c.prompt := by
  obtain ⟨lines, hlines, hinput, hconsole⟩ := h.input
  cases prompt with
  | none =>
      have hprompt : c.prompt = c := by
        simp [Machine.prompt, hconsole, Input.promptText]
      rw [hprompt]
      exact { h with
        prompts := by
          rw [h.prompts, List.replicate_succ, List.reduceOption_cons_of_none] }
  | some text =>
      have hprompt : c.prompt = c.noted (.prompted text) := by
        simp [Machine.prompt, hconsole, Input.promptText, Machine.noted]
      have htext : (Event.prompted text).promptText? = some text := rfl
      rw [hprompt]
      exact { h with
        journal := by simp [Machine.noted, h.journal, htext]
        prompts := by
          rw [List.replicate_succ', List.reduceOption_append, ← h.prompts]
          simp [Machine.noted, htext] }

theorem undecodable (h : Mirrors prompt asked m c) {f : Fault}
    {next : Machine} (hundecodable : m.Undecodable f next) :
    ∃ last, c.Undecodable f last ∧ Mirrors prompt asked next last := by
  refine ⟨{ c with ip := next.ip }, ?_, ?_⟩
  · obtain ⟨memory, ip, base, status, steps, input, output, journal⟩ := c
    have hmemory : memory = m.memory := h.memory
    have hip : ip = m.ip := h.ip
    subst hmemory hip
    cases hundecodable with
    | word hout => exact .word hout
    | opcode hword hall => exact .opcode hword hall
    | parameter hmodes hword hindex hearlier hlacks =>
        exact .parameter hmodes hword hindex hearlier hlacks
  · rw [hundecodable.next_eq]
    exact { h with ip := rfl }

theorem fault (h : Mirrors prompt asked m c) {f : Fault}
    (hf : f ≠ .inputExhausted) :
    Alike prompt asked (.error (.fault f) m) (.error (.fault f) c) := by
  have halike := Alike.error (.fault f) h
  rw [Stop.onConsole, Fault.onConsole_of_ne hf] at halike
  exact halike

theorem stopOf (h : Mirrors prompt asked m c) {f : Fault}
    (hf : f ≠ .inputExhausted) :
    Alike prompt asked (.error (({} : Reporting).stopOf f) m)
      (.error (({} : Reporting).stopOf f) c) := by
  rw [Reporting.stopOf]
  split
  · exact h.fault hf
  · exact .error .tooManyDigits h

theorem store (h : Mirrors prompt asked m c) (d v : Int) :
    Mirrors prompt asked { m with memory := m.memory.set d v }
      { c with memory := c.memory.set d v } :=
  { h with memory := by simp only [h.memory] }

/-- Both devices take the same line, and its number or fault is the same. -/
theorem accept (h : Mirrors prompt asked m c) (d : Int) :
    Alike prompt (asked + 1) (apply {} (.accept d) m)
      (apply {} (.accept d) c) := by
  have hshown := h.shown
  obtain ⟨lines, hlines, hinput, hconsole⟩ := h.input
  rw [apply_accept, apply_accept]
  cases lines with
  | nil =>
      rw [readInput_of_exhausted hinput, readInput_of_closed hconsole]
      exact .error (.fault .inputExhausted) hshown
  | cons line lines =>
      have hrest : Mirrors prompt (asked + 1)
          { m with input := .script (lines.map .line) }
          { c.prompt with input := .console (.ofLines lines) prompt } :=
        { hshown with
          input := ⟨lines, fun l hl => hlines l (List.mem_cons_of_mem _ hl),
            rfl, rfl⟩ }
      have hline := hlines line (List.mem_cons_self ..)
      rw [readInput_of_script hinput, readInput_of_line hconsole hline,
        Entry.value]
      cases hvalue : Numeral.ofLine line.toList with
      | ok v => exact (hrest.store d v).emit rfl
      | error f =>
          obtain ⟨text, rfl⟩ := Numeral.exists_malformed_of_ofLine hvalue
          exact hrest.fault (by simp)

/-- Applying an effect asks the input device if it is to accept a number. -/
theorem apply (h : Mirrors prompt asked m c) (effect : Effect)
    (hfits : ∀ v ∈ (ofOutcome (apply {} effect m)).output.values,
      Numeral.Fits Numeral.digitLimit v) :
    Alike prompt (asked + effect.asks)
      (apply {} effect m) (apply {} effect c) := by
  cases effect with
  | accept d => exact h.accept d
  | store d v => exact .ok (h.store d v)
  | send v =>
      obtain ⟨values, houtput, htext⟩ := h.output
      have hv : Numeral.Fits Numeral.digitLimit v := by
        apply hfits
        simp [Machine.apply, writeOutput_apply, houtput, Output.write,
          ofOutcome, Output.values]
      simp only [Machine.apply, writeOutput_apply, houtput, htext,
        Output.write, writes_default, if_pos hv]
      refine .ok { h with output := ⟨_, rfl, ?_⟩ }
      rw [Array.toList_push, Output.lines_concat]
  | jump target => exact .ok { h with ip := rfl }
  | proceed => exact .ok h
  | rebase offset =>
      simp only [Machine.apply, Action.bind_apply, Action.modify_apply,
        Action.get_apply, h.base]
      have hmoved : Mirrors prompt asked
          { m with base := m.base + offset }
          { c with base := m.base + offset } := { h with base := rfl }
      exact hmoved.emit rfl
  | halt => exact .error .halt h

theorem execute (h : Mirrors prompt asked m c) {op : Opcode}
    {params : List Parameter}
    (hfits : ∀ v ∈ (ofOutcome (execute {} op params m)).output.values,
      Numeral.Fits Numeral.digitLimit v) :
    Alike prompt (asked + if c.Asks op params then 1 else 0)
      (execute {} op params m) (execute {} op params c) := by
  rw [execute_apply, ← h.memory, ← h.base] at hfits
  rw [execute_apply, execute_apply, ← h.memory, ← h.base]
  cases heffect : op.effect params c.memory c.base with
  | error f =>
      have hasks : ¬ c.Asks op params := by
        simp [asks_iff, heffect]
      rw [if_neg hasks]
      exact h.stopOf (Opcode.raises_of_effect heffect).ne_inputExhausted
  | ok effect =>
      rw [heffect] at hfits
      rw [asks_of_effect heffect]
      exact h.apply effect hfits

/-- A step asks the input device if its instruction comes to do so. -/
theorem step (h : Mirrors prompt asked m c)
    (hfits : ∀ v ∈ (ofOutcome (step {} m)).output.values,
      Numeral.Fits Numeral.digitLimit v) :
    Alike prompt (asked + c.turn?.toList.countP (·.Asked))
      (step {} m) (step {} c) := by
  rcases encodes_or_undecodable m with
    ⟨i, hencodes, hposition⟩ | ⟨f, next, hundecodable⟩
  · have hencodes' : Encodes c.memory i := by
      rw [h.memory]
      exact hencodes
    have hposition' : i.position = c.ip := hposition.trans h.ip.symm
    rw [step_of_encodes rfl hencodes hposition] at hfits
    rw [asked_of_encodes hencodes' hposition',
      step_of_encodes rfl hencodes hposition,
      step_of_encodes rfl hencodes' hposition', h.line_eq]
    simp only [writes_default] at hfits ⊢
    by_cases hwrites : ∀ n ∈ (m.line i).numbers,
        Numeral.Fits Numeral.digitLimit n
    · rw [if_pos hwrites] at hfits
      rw [if_pos hwrites, if_pos hwrites, if_pos hwrites]
      exact (h.listed i).execute hfits
    · rw [if_neg hwrites, if_neg hwrites, if_neg hwrites]
      exact .error .tooManyDigits (h.counted i)
  · obtain ⟨last, hlast, hmirrors⟩ := h.undecodable hundecodable
    rw [turn?_of_undecodable hlast, step_of_undecodable hundecodable,
      step_of_undecodable hlast]
    exact hmirrors.stopOf hundecodable.ne_exhausted

/-- Step by step the two machines stay alike, and the prompts are counted by
the turns. -/
theorem loop {fuel : Nat} (h : Mirrors prompt asked m c)
    (hloop : loop {} fuel m = some o)
    (hfits : ∀ v ∈ (ofOutcome o).output.values,
      Numeral.Fits Numeral.digitLimit v) :
    ∃ o', Machine.loop {} fuel c = some o' ∧
      Alike prompt (asked + (c.turns fuel).countP (·.Asked)) o o' := by
  induction fuel generalizing asked m c with
  | zero => cases hloop
  | succ fuel ih =>
      rw [Machine.loop] at hloop
      by_cases hactive : m.Active
      · have hactive' : c.Active := h.active.mpr hactive
        rw [if_pos hactive] at hloop
        rw [Machine.loop, if_pos hactive']
        cases hstep : Machine.step {} m with
        | ok _ next =>
            have hnext := (continues_step h.scripted).scripted
            rw [hstep] at hloop hnext
            have hgrows := (continues_loop hnext hloop).output
            have hfirst := h.step (by
              rw [hstep]
              exact fits_of_isPrefix hgrows hfits)
            obtain ⟨reached, hreached, hmirrors⟩ := hfirst.exists_of_ok hstep
            rw [hreached, turns_of_ok hactive' hreached, List.countP_append,
              ← Nat.add_assoc]
            exact ih hmirrors hloop
        | error stop next =>
            rw [hstep] at hloop
            cases hloop
            have hfirst := h.step (by rwa [hstep])
            obtain ⟨last, hlast, hmirrors⟩ := hfirst.exists_of_error hstep
            rw [hlast, turns_of_error hactive' hlast]
            exact ⟨_, rfl, .error stop hmirrors⟩
      · have hinactive : ¬ c.Active := fun hc => hactive (h.active.mp hc)
        rw [if_neg hactive] at hloop
        cases hloop
        rw [Machine.loop, if_neg hinactive, turns_of_inactive hinactive]
        exact ⟨_, rfl, .ok h⟩

theorem close (h : Mirrors prompt asked m c) (status : Status)
    {event : Machine → Event}
    (hevent : (event { m with status }).promptText? = none)
    (hsame : event { c with status } = event { m with status }) :
    Alike prompt asked (close status (tell {} event) m)
      (close status (tell {} event) c) := by
  have hended : Mirrors prompt asked { m with status } { c with status } :=
    { h with status := rfl }
  rw [close_apply, close_apply, hsame]
  exact hended.emit hevent

end Mirrors

/-- The end of a run reports the same on both devices. -/
theorem Alike.finish (h : Alike prompt asked o o') :
    Alike prompt asked (finish {} o) (finish {} o') := by
  cases h with
  | @ok m c h =>
      rw [Machine.finish, Machine.finish, h.status]
      split
      · exact h.close .halted rfl (by rw [h.steps])
      · exact .ok h
  | @error m c stop h =>
      cases stop with
      | halt => exact h.close .halted rfl (by rw [h.steps])
      | fault f =>
          have hended : Mirrors prompt asked { m with status := .faulted }
              { c with
                ip := m.ip
                base := m.base
                status := .faulted
                steps := m.steps } :=
            { h with ip := rfl, base := rfl, status := rfl, steps := rfl }
          rw [Stop.onConsole, finish_fault, finish_fault, h.ip, h.base,
            h.steps]
          split
          · exact .error (.fault f) (hended.noted rfl)
          · exact .error .tooManyDigits hended
      | tooManyDigits => exact .error .tooManyDigits h
      | noEntry n => exact .error (.noEntry n) h
      | undecodable cause => exact .error (.undecodable cause) h
      | interrupted => exact .error .interrupted h
      | unattached => exact .error .unattached h

theorem Mirrors.run {fuel : Nat} (h : Mirrors prompt asked m c)
    (hrun : run {} fuel m = some o)
    (hfits : ∀ v ∈ (ofOutcome o).output.values,
      Numeral.Fits Numeral.digitLimit v) :
    ∃ o', Machine.run {} fuel c = some o' ∧
      Alike prompt (asked + (c.turns fuel).countP (·.Asked)) o o' := by
  obtain ⟨before, hloop, rfl⟩ := Option.map_eq_some_iff.mp hrun
  obtain ⟨status, journal, _, hframe⟩ := finish_frame {} before
  rw [hframe] at hfits
  obtain ⟨before', hloop', halike⟩ := h.loop hloop hfits
  rw [Machine.run, hloop']
  exact ⟨_, rfl, halike.finish⟩

theorem mirrors_ofProgram (program : List Int) (size : Int)
    {lines : List String} (hlines : ∀ line ∈ lines, '\n' ∉ line.toList)
    (prompt : Option String) :
    Mirrors prompt 0
      (ofProgram program size (.script (lines.map .line)) (.collected #[]))
      (ofProgram program size (.console (.ofLines lines) prompt)
        (.console "")) where
  memory := rfl
  ip := rfl
  base := rfl
  status := rfl
  steps := rfl
  input := ⟨lines, hlines, rfl, rfl⟩
  output := ⟨#[], rfl, rfl⟩
  journal := rfl
  prompts := rfl

/-- Why an action gave no result. -/
def stop? : Outcome → Option Stop
  | .ok .. => none
  | .error stop _ => some stop

theorem Alike.stop?_eq (h : Alike prompt asked o o') :
    stop? o' = (stop? o).map Stop.onConsole := by
  cases h <;> rfl

/-- A run on a script of lines, as long as its outputs can be written, is the
same on a console whose stream holds these lines: the machine ends in the same
state and with the same result, but that the end of the input has the name of a
closed stream; the text is that of the collected numbers; the stream is left
with the lines that the script is left with; and the prompt was shown once for
each instruction that came to ask for a line. -/
theorem run_on_console (program : List Int) (size : Int)
    (lines : List String) (hlines : ∀ line ∈ lines, '\n' ∉ line.toList)
    (prompt : Option String) :
    let m := ofProgram program size (.script (lines.map .line)) (.collected #[])
    let c := ofProgram program size (.console (.ofLines lines) prompt)
      (.console "")
    ∀ fuel o, Machine.run {} fuel m = some o →
      (∀ v ∈ (ofOutcome o).output.values,
        Numeral.Fits Numeral.digitLimit v) →
      ∃ o', Machine.run {} fuel c = some o' ∧
        stop? o' = (stop? o).map Stop.onConsole ∧
        (ofOutcome o').memory = (ofOutcome o).memory ∧
        (ofOutcome o').ip = (ofOutcome o).ip ∧
        (ofOutcome o').base = (ofOutcome o).base ∧
        (ofOutcome o').status = (ofOutcome o).status ∧
        (ofOutcome o').steps = (ofOutcome o).steps ∧
        (∃ values, (ofOutcome o).output = .collected values ∧
          (ofOutcome o').output = .console (Output.lines values.toList)) ∧
        (∃ left : List String,
          (ofOutcome o).input = .script (left.map .line) ∧
          (ofOutcome o').input = .console (.ofLines left) prompt) ∧
        (ofOutcome o').journal.toList.filter (·.promptText? = none) =
          (ofOutcome o).journal.toList ∧
        (ofOutcome o').journal.toList.filterMap Event.promptText? =
          (List.replicate ((c.turns fuel).countP (·.Asked))
            prompt).reduceOption := by
  intro m c fuel o hrun hfits
  obtain ⟨o', hrun', halike⟩ :=
    (mirrors_ofProgram program size hlines prompt).run hrun hfits
  have hmirrors := halike.mirrors
  obtain ⟨left, _, hscript, hstream⟩ := hmirrors.input
  refine ⟨o', hrun', halike.stop?_eq, hmirrors.memory, hmirrors.ip,
    hmirrors.base, hmirrors.status, hmirrors.steps, hmirrors.output,
    ⟨left, hscript, hstream⟩, hmirrors.journal, ?_⟩
  rw [hmirrors.prompts, Nat.zero_add]

/-- A program repeats what it reads until there is no more, after two lines and
three prompts. -/
theorem run_on_console_echo :
    let c := ofProgram [3, 9, 4, 9, 1105, 1, 0] 10
      (.console (.ofLines ["5", " -7 "]) (some "? ")) (.console "")
    ∃ o, Machine.run {} 7 c = some o ∧
      stop? o = some (.fault .inputClosed) ∧
      (ofOutcome o).output = .console (Output.lines [5, -7]) ∧
      (ofOutcome o).input = .console (.ofLines []) (some "? ") ∧
      (ofOutcome o).journal.toList.filterMap Event.promptText? =
        ["? ", "? ", "? "] := by
  intro c
  let m := ofProgram [3, 9, 4, 9, 1105, 1, 0] 10
    (.script (["5", " -7 "].map .line)) (.collected #[])
  have hends : (Machine.run {} 7 m).map (fun o =>
      (stop? o, (ofOutcome o).input, (ofOutcome o).output)) =
        some (some (.fault .inputExhausted), .script [],
          .collected #[5, -7]) := by decide +kernel
  obtain ⟨o, hrun, hlast⟩ := Option.map_eq_some_iff.mp hends
  simp only [Prod.mk.injEq] at hlast
  obtain ⟨hstop, hempty, hvalues⟩ := hlast
  have hasked : (c.turns 7).countP (·.Asked) = 3 := by decide +kernel
  have hfits : ∀ v ∈ (ofOutcome o).output.values,
      Numeral.Fits Numeral.digitLimit v := by
    rw [hvalues]
    decide +kernel
  obtain ⟨o', hrun', hstop', _, _, _, _, _, ⟨values, hout, htext⟩,
      ⟨left, hin, hstream⟩, _, hprompts⟩ :=
    run_on_console [3, 9, 4, 9, 1105, 1, 0] 10 ["5", " -7 "]
      (by decide +kernel) (some "? ") 7 o hrun hfits
  refine ⟨o', hrun', ?_, ?_, ?_, ?_⟩
  · rw [hstop', hstop]
    rfl
  · rw [hvalues] at hout
    cases hout
    exact htext
  · rw [hempty] at hin
    have hleft : left = [] := by simpa using hin
    rw [hstream, hleft]
  · rw [hprompts, hasked]
    rfl

end Machine

end IntcodeMachine
