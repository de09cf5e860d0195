import IntcodeMachine.Command.Session
import IntcodeMachine.Proofs.Devices
import IntcodeMachine.Proofs.Outcomes
import IntcodeMachine.Proofs.Paths

/-!
A call of the command is a run of the library. The call looks its file up twice,
under the path as it was given and under its shortest spelling; what it loads,
the machine it makes and how its run ends are those of the library on the
content that it finds. The exit code tells the ends of that run apart, and the
standard output is what the run has sent. Whether the trace is shown plays no
part in either, and the standard input only where no numbers are given.
-/

namespace IntcodeMachine.Command

variable {find : String → Lookup} {host : Host} {console : Console}
  {settings : Settings} {room : Nat} {content : List UInt8} {size : Int}
  {input : Input} {program : List Int} {m : Machine} {o : Machine.Outcome}
  {fuel : Nat}

section Requests

/-! Only a file and a positive size come to be run. -/

theorem Given.exists_file {given : Given} {path : String}
    (h : given.file find = .ok path) :
    ∃ content, find path = .file content := by
  unfold Given.file at h
  split at h
  · cases h
  · next first extra _ =>
      cases hfound : find first with
      | file content =>
          simp only [hfound] at h
          split at h
          · cases h
            exact ⟨content, hfound⟩
          · cases h
      | missing | notDirectory | tooLong | directory | nullInPath =>
          simp [hfound] at h

theorem Given.one_le_memorySize {given : Given}
    (h : given.memorySize = .ok size) : 1 ≤ size := by
  unfold Given.memorySize at h
  split at h
  · cases h
    decide
  · split at h
    · cases h
    · split at h
      · next hle =>
          cases h
          exact hle
      · cases h

theorem Given.one_le_of_numbers {given : Given} {inputs : List Int}
    (h : given.numbers = .ok (size, inputs)) : 1 ≤ size := by
  unfold Given.numbers at h
  split at h
  · obtain ⟨_, _, h⟩ := exists_of_bind_eq_ok h
    obtain ⟨_, hsize, h⟩ := exists_of_bind_eq_ok h
    cases h
    exact one_le_memorySize hsize
  · obtain ⟨_, hsize, h⟩ := exists_of_bind_eq_ok h
    obtain ⟨_, _, h⟩ := exists_of_bind_eq_ok h
    cases h
    exact one_le_memorySize hsize

/-- A request to run something tells all that was read from the arguments. -/
theorem ofArguments_eq_run_iff {arguments : List String} :
    Request.ofArguments find arguments = .ok (.run settings) ↔
      ∃ given, Given.ofArguments arguments = .ok given ∧
        ¬ given.settings.any (·.switch = .help) ∧
        given.numbers = .ok (settings.memorySize, settings.inputs) ∧
        given.file find = .ok settings.file ∧
        settings.verbose = given.settings.any (·.switch = .verbose) := by
  constructor
  · intro h
    obtain ⟨given, hgiven, h⟩ := exists_of_bind_eq_ok h
    split at h
    · cases h
    · next hhelp =>
        obtain ⟨⟨size, inputs⟩, hnumbers, h⟩ := exists_of_bind_eq_ok h
        obtain ⟨file, hfile, h⟩ := exists_of_bind_eq_ok h
        cases h
        exact ⟨given, (mapError_eq_ok_iff _).mp hgiven, hhelp,
          (mapError_eq_ok_iff _).mp hnumbers, hfile, rfl⟩
  · rintro ⟨given, hgiven, hhelp, hnumbers, hfile, hverbose⟩
    simp only [Request.ofArguments, hgiven, Except.mapError, bind, Except.bind,
      if_neg hhelp, hnumbers, hfile, ← hverbose]
    rfl

/-- What comes to be run is a file, with a memory of at least one word. -/
theorem file_of_ofArguments {arguments : List String}
    (h : Request.ofArguments find arguments = .ok (.run settings)) :
    1 ≤ settings.memorySize ∧
      ∃ content, find settings.file = .file content := by
  obtain ⟨given, _, _, hnumbers, hfile, _⟩ := ofArguments_eq_run_iff.mp h
  exact ⟨Given.one_le_of_numbers hnumbers, Given.exists_file hfile⟩

/-- Arguments among which the trace is asked for first. -/
def Given.traced (given : Given) : Given :=
  { given with settings := { switch := .verbose } :: given.settings }

theorem Given.traced_numbers (given : Given) :
    given.traced.numbers = given.numbers := by
  simp [traced, numbers, inputsFirst, memorySize, inputs, values,
    Switch.takesValue]

theorem ofArguments_cons_verbose {arguments : List String} {given : Given}
    (h : Given.ofArguments arguments = .ok given) :
    Given.ofArguments ("-v" :: arguments) = .ok given.traced := by
  have hoption : options? "-v" =
      some (.ok ([{ switch := .verbose }], none)) := rfl
  have hrest : sortOut none arguments = .ok given := h
  rw [Given.ofArguments, sortOut, if_neg (by decide), hoption]
  simp only [hrest]
  rfl

/-- To ask for the trace changes nothing else in a request. -/
theorem ofArguments_verbose {arguments : List String}
    (h : Request.ofArguments find arguments = .ok (.run settings)) :
    Request.ofArguments find ("-v" :: arguments) =
      .ok (.run { settings with verbose := true }) := by
  obtain ⟨given, hgiven, hhelp, hnumbers, hfile, _⟩ :=
    ofArguments_eq_run_iff.mp h
  refine ofArguments_eq_run_iff.mpr ⟨given.traced,
    ofArguments_cons_verbose hgiven, ?_, ?_, hfile, rfl⟩
  · simpa [Given.traced] using hhelp
  · rw [Given.traced_numbers]
    exact hnumbers

end Requests

/-- The input device of a call: the numbers given as options, or else its
standard input. -/
def Settings.device (settings : Settings) (console : Console) : Input :=
  if settings.inputs = [] then console.input
  else .script (settings.inputs.map .number)

/-- The library has a fresh machine for the content of a file: its program can
be loaded, and there is room for its zeros. The machine writes to a console. -/
structure Loads (room : Nat) (content : List UInt8) (size : Int)
    (input : Input) (program : List Int) (m : Machine) : Prop where
  loaded : Program.ofBytes content = .ok program
  allocated : Machine.allocate room program size input (.console "") = .ok m

/-- The run of that machine comes to an end. -/
structure Ran (room : Nat) (content : List UInt8) (size : Int) (input : Input)
    (program : List Int) (m : Machine) (o : Machine.Outcome) : Prop
    extends Loads room content size input program m where
  ended : ∃ fuel, Machine.run {} fuel m = some o

namespace Loads

theorem eq_ofProgram (h : Loads room content size input program m) :
    m = Machine.ofProgram program size input (.console "") :=
  (Machine.allocate_eq_ok_iff.mp h.allocated).2.2

theorem capacity (h : Loads room content size input program m)
    (hsize : 1 ≤ size) :
    (m.memory.capacity : Int) = max size program.length := by
  have hcapacity : m.memory.capacity = max size.toNat program.length := by
    rw [h.eq_ofProgram]
    exact Memory.capacity_ofProgram program size
  omega

/-- Only the number of zeros can keep a program that is read from being
loaded. -/
theorem exists_of_ofBytes (hloaded : Program.ofBytes content = .ok program)
    (haddress : size ≤ program.length + Memory.largestRequest)
    (hroom : size ≤ program.length + room) :
    ∃ m, Loads room content size input program m :=
  ⟨_, hloaded, Machine.allocate_eq_ok_iff.mpr ⟨haddress, hroom, rfl⟩⟩

end Loads

/-- What a caller learns of a call: how it ended and its output. -/
def Report.result (report : Report) : Nat × String :=
  (report.exitCode, report.stdout)

/-- The result of the library's work on the content of a file. -/
def result (fuel room : Nat) (content : List UInt8) (size : Int)
    (input : Input) : Option (Nat × String) :=
  match Program.ofBytes content with
  | .error _ => some (Exit.failed, "")
  | .ok program =>
      match Machine.allocate room program size input (.console "") with
      | .error _ => some (Exit.failed, "")
      | .ok m =>
          (Machine.run {} fuel m).map fun o =>
            ((Ending.ofOutcome o).exitCode, (Machine.ofOutcome o).output.text)

/-- The result of a call is that of the library, whatever the call logs. -/
theorem runSettings_result (fuel : Nat) (console : Console)
    (hfile : host.find (Path.ofString settings.file).text = .file content) :
    (runSettings fuel host console settings).map Report.result =
      result fuel host.room content settings.memorySize
        (settings.device console) := by
  simp only [runSettings, Program.load, hfile, Program.ofLookup, result,
    Settings.machine, Settings.device]
  cases Program.ofBytes content with
  | error e => rfl
  | ok program =>
      simp only
      cases Machine.allocate host.room program settings.memorySize
          (if settings.inputs = [] then console.input
            else .script (settings.inputs.map .number)) (.console "") with
      | error e => rfl
      | ok m =>
          simp only [Option.map_map]
          rfl

section Endings

variable {code : Nat} {text : String}

theorem exitCode_eq_halted_iff : (Ending.ofOutcome o).exitCode = Exit.halted ↔
    ∃ final, o = .ok () final := by
  rcases o with ⟨_, m⟩ | ⟨stop, m⟩
  · simp [Ending.ofOutcome, Ending.exitCode]
  · cases stop <;> simp [Ending.ofOutcome, Ending.exitCode, Exit.halted,
      Exit.faulted, Exit.interrupted, Exit.failed]

theorem exitCode_eq_faulted_iff :
    (Ending.ofOutcome o).exitCode = Exit.faulted ↔
      ∃ f final, o = .error (.fault f) final := by
  rcases o with ⟨_, m⟩ | ⟨stop, m⟩
  · simp [Ending.ofOutcome, Ending.exitCode, Exit.halted, Exit.faulted]
  · cases stop <;> simp [Ending.ofOutcome, Ending.exitCode, Exit.faulted,
      Exit.interrupted, Exit.failed]

theorem exitCode_eq_interrupted_iff :
    (Ending.ofOutcome o).exitCode = Exit.interrupted ↔
      ∃ final, o = .error .interrupted final := by
  rcases o with ⟨_, m⟩ | ⟨stop, m⟩
  · simp [Ending.ofOutcome, Ending.exitCode, Exit.halted, Exit.interrupted]
  · cases stop <;> simp [Ending.ofOutcome, Ending.exitCode, Exit.faulted,
      Exit.interrupted, Exit.failed]

theorem exitCode_mem (ending : Ending) :
    ending.exitCode ∈
      [Exit.halted, Exit.faulted, Exit.interrupted, Exit.failed] := by
  cases ending <;> simp [Ending.exitCode]

theorem result_of_loads (h : Loads room content size input program m) :
    result fuel room content size input = (Machine.run {} fuel m).map fun o =>
      ((Ending.ofOutcome o).exitCode, (Machine.ofOutcome o).output.text) := by
  simp only [result, h.loaded, h.allocated]

theorem result_of_not_loads
    (h : ∀ program m, ¬ Loads room content size input program m) :
    result fuel room content size input = some (Exit.failed, "") := by
  unfold result
  split
  · rfl
  · next program hloaded =>
      split
      · rfl
      · next m hallocated => exact absurd ⟨hloaded, hallocated⟩ (h program m)

/-- The result tells the end of the run and holds what it has sent. -/
theorem result_of_ran (h : Ran room content size input program m o)
    (hresult : result fuel room content size input = some (code, text)) :
    code = (Ending.ofOutcome o).exitCode ∧
      text = Output.lines (m.sent fuel) := by
  rw [result_of_loads h.toLoads] at hresult
  obtain ⟨o', hrun, hends⟩ := Option.map_eq_some_iff.mp hresult
  obtain ⟨rfl, rfl⟩ := Prod.mk.inj hends
  obtain ⟨more, hended⟩ := h.ended
  obtain rfl : o' = o := Machine.run_unique hended hrun
  have hconsole : m.output = .console "" := by
    rw [h.eq_ofProgram]
    rfl
  rw [Machine.run_output hconsole hrun]
  exact ⟨rfl, String.empty_append⟩

theorem exists_ran_of_result {found : Nat × String}
    (h : Loads room content size input program m)
    (hresult : result fuel room content size input = some found) :
    ∃ o, Ran room content size input program m o := by
  rw [result_of_loads h] at hresult
  obtain ⟨o, hrun, _⟩ := Option.map_eq_some_iff.mp hresult
  exact ⟨o, h, fuel, hrun⟩

/-- A result comes of a run, or of a failure before it. -/
theorem ran_of_result
    (hresult : result fuel room content size input = some (code, text)) :
    (∃ program m o, Ran room content size input program m o) ∨
      code = Exit.failed ∧ text = "" := by
  by_cases h : ∃ program m, Loads room content size input program m
  · obtain ⟨program, m, hloads⟩ := h
    exact Or.inl ⟨program, m, exists_ran_of_result hloads hresult⟩
  · simp only [not_exists] at h
    rw [result_of_not_loads h] at hresult
    cases hresult
    exact Or.inr ⟨rfl, rfl⟩

/-- There is a result exactly if the run of the machine ends, if there is a
machine. -/
theorem exists_result_iff :
    (∃ fuel found, result fuel room content size input = some found) ↔
      ∀ program m, Loads room content size input program m →
        ∃ o, Ran room content size input program m o := by
  constructor
  · rintro ⟨fuel, found, hresult⟩ program m hloads
    exact exists_ran_of_result hloads hresult
  · intro hends
    by_cases h : ∃ program m, Loads room content size input program m
    · obtain ⟨program, m, hloads⟩ := h
      obtain ⟨o, hran⟩ := hends program m hloads
      obtain ⟨fuel, hrun⟩ := hran.ended
      have hresult : result fuel room content size input = _ :=
        result_of_loads hloads
      rw [hrun] at hresult
      exact ⟨fuel, _, hresult⟩
    · simp only [not_exists] at h
      exact ⟨0, _, result_of_not_loads h⟩

/-- Every code but that of a failure tells a way in which a run ends. -/
theorem code_eq_iff {wanted : Nat} {Ends : Machine.Outcome → Prop}
    (hwanted : wanted ≠ Exit.failed)
    (hends : ∀ o, (Ending.ofOutcome o).exitCode = wanted ↔ Ends o)
    (hresult : result fuel room content size input = some (code, text)) :
    code = wanted ↔
      ∃ program m o, Ran room content size input program m o ∧ Ends o := by
  constructor
  · rintro rfl
    rcases ran_of_result hresult with ⟨program, m, o, h⟩ | ⟨hfailed, _⟩
    · have hcode := (result_of_ran h hresult).1
      exact ⟨program, m, o, h, (hends o).mp hcode.symm⟩
    · exact absurd hfailed hwanted
  · rintro ⟨program, m, o, h, ho⟩
    rw [(result_of_ran h hresult).1]
    exact (hends o).mpr ho

theorem code_mem
    (hresult : result fuel room content size input = some (code, text)) :
    code ∈ [Exit.halted, Exit.faulted, Exit.interrupted, Exit.failed] := by
  rcases ran_of_result hresult with ⟨program, m, o, h⟩ | ⟨rfl, _⟩
  · rw [(result_of_ran h hresult).1]
    exact exitCode_mem _
  · simp

end Endings

theorem device_eq {verbose : Bool} {console' : Console}
    (h : settings.inputs = [] → console' = console) :
    { settings with verbose }.device console' = settings.device console := by
  unfold Settings.device
  by_cases hinputs : settings.inputs = []
  · rw [h hinputs]
  · rw [if_neg hinputs, if_neg hinputs]

section Calls

variable {arguments : List String}

/-- A call that comes to be run replies with the report of its run. -/
theorem call_eq_some_iff {reply : Reply}
    (h : Request.ofArguments host.find arguments = .ok (.run settings)) :
    call fuel host console arguments = some reply ↔
      ∃ report, runSettings fuel host console settings = some report ∧
        .report report = reply := by
  rw [call, h]
  exact Option.map_eq_some_iff

theorem exists_call_iff
    (h : Request.ofArguments host.find arguments = .ok (.run settings))
    (hfile : host.find (Path.ofString settings.file).text = .file content) :
    (∃ fuel reply, call fuel host console arguments = some reply) ↔
      ∃ fuel found, result fuel host.room content settings.memorySize
        (settings.device console) = some found := by
  constructor
  · rintro ⟨fuel, reply, hcall⟩
    obtain ⟨report, hreport, _⟩ := (call_eq_some_iff h).mp hcall
    refine ⟨fuel, report.result, ?_⟩
    rw [← runSettings_result fuel console hfile, hreport]
    rfl
  · rintro ⟨fuel, found, hfound⟩
    rw [← runSettings_result fuel console hfile] at hfound
    obtain ⟨report, hreport, _⟩ := Option.map_eq_some_iff.mp hfound
    exact ⟨fuel, _, (call_eq_some_iff h).mpr ⟨report, hreport, rfl⟩⟩

/-- Only the file, the size and the input device decide the result of a
call. -/
theorem exists_same_report {code : Nat} {text : String}
    (h : Request.ofArguments host.find arguments = .ok (.run settings))
    (hfile : host.find (Path.ofString settings.file).text = .file content)
    (hdevice : settings.device console = input)
    (hresult : result fuel host.room content settings.memorySize input =
      some (code, text)) :
    ∃ report, call fuel host console arguments = some (.report report) ∧
      report.exitCode = code ∧ report.stdout = text := by
  have hsame := runSettings_result fuel console hfile
  rw [hdevice, hresult] at hsame
  obtain ⟨report, hreport, hfound⟩ := Option.map_eq_some_iff.mp hsame
  exact ⟨report, (call_eq_some_iff h).mpr ⟨report, hreport, rfl⟩,
    congrArg Prod.fst hfound, congrArg Prod.snd hfound⟩

end Calls

/-- A call that comes to be run does what the library does with the content of
its file: it loads the program, gives a machine of the larger of the given size
and the program's length the numbers of the options or else the standard input,
and runs it. There is such a machine if the program can be read and there is
room for its zeros. The call ends exactly if that run does, if there is one.
Then the standard output holds the values that the run has sent, however it
ended, and nothing if nothing could be loaded. The exit code is 0 if the run
returns, 1 if it ends with a fault, 3 if the user has interrupted it, and 100 in
all other cases. A call with the same settings, with the trace or without, has
the same exit code and the same output, and on every other standard input too if
numbers are given as options. Of the host it is only asked that a file which it
has at a path can be found under the shortest spelling of that path. -/
theorem call_refines_run (host : Host)
    (hfind : ∀ path content, host.find path = .file content →
      host.find (Path.ofString path).text = .file content)
    (console : Console) (arguments : List String) (settings : Settings)
    (hrequest :
      Request.ofArguments host.find arguments = .ok (.run settings)) :
    ∃ content,
      1 ≤ settings.memorySize ∧
      host.find settings.file = .file content ∧
      let loads := Loads host.room content settings.memorySize
        (settings.device console)
      let ran := Ran host.room content settings.memorySize
        (settings.device console)
      (∀ program, Program.ofBytes content = .ok program →
        settings.memorySize ≤ program.length + Memory.largestRequest →
        settings.memorySize ≤ program.length + host.room →
        ∃ m, loads program m) ∧
      ((∃ fuel reply, call fuel host console arguments = some reply) ↔
        ∀ program m, loads program m → ∃ o, ran program m o) ∧
      ∀ fuel reply, call fuel host console arguments = some reply →
        ∃ report, reply = .report report ∧
          (∀ program m, loads program m →
            (m.memory.capacity : Int) =
                max settings.memorySize program.length ∧
              report.stdout = Output.lines (m.sent fuel)) ∧
          ((∀ program m, ¬ loads program m) → report.stdout = "") ∧
          (report.exitCode = 0 ↔
            ∃ program m final, ran program m (.ok () final)) ∧
          (report.exitCode = 1 ↔
            ∃ program m f final, ran program m (.error (.fault f) final) ∧
              ∀ index, f ≠ .missingParameter index) ∧
          (report.exitCode = 3 ↔
            ∃ program m final, ran program m (.error .interrupted final)) ∧
          report.exitCode ∈ [0, 1, 3, 100] ∧
          ∀ arguments' verbose console',
            Request.ofArguments host.find arguments' =
              .ok (.run { settings with verbose }) →
            (settings.inputs = [] → console' = console) →
            ∃ report', call fuel host console' arguments' =
                some (.report report') ∧
              report'.exitCode = report.exitCode ∧
              report'.stdout = report.stdout := by
  obtain ⟨hsize, content, hfile⟩ := file_of_ofArguments hrequest
  have hopened := hfind settings.file content hfile
  refine ⟨content, hsize, hfile, ?_, ?_, ?_⟩
  · intro program hloaded haddress hroom
    exact Loads.exists_of_ofBytes hloaded haddress hroom
  · rw [← exists_result_iff]
    exact exists_call_iff hrequest hopened
  · intro fuel reply hcall
    obtain ⟨report, hreport, rfl⟩ := (call_eq_some_iff hrequest).mp hcall
    have hresult : result fuel host.room content settings.memorySize
        (settings.device console) = some (report.exitCode, report.stdout) := by
      rw [← runSettings_result fuel console hopened, hreport]
      rfl
    refine ⟨report, rfl, ?_, ?_, ?_, ?_, ?_, code_mem hresult, ?_⟩
    · intro program m hloads
      obtain ⟨o, hran⟩ := exists_ran_of_result hloads hresult
      exact ⟨hloads.capacity hsize, (result_of_ran hran hresult).2⟩
    · intro hnone
      rw [result_of_not_loads hnone] at hresult
      exact (congrArg Prod.snd (Option.some.inj hresult)).symm
    · refine (code_eq_iff (by decide) (fun _ => exitCode_eq_halted_iff)
        hresult).trans ⟨?_, ?_⟩
      · rintro ⟨program, m, _, h, final, rfl⟩
        exact ⟨program, m, final, h⟩
      · rintro ⟨program, m, final, h⟩
        exact ⟨program, m, _, h, final, rfl⟩
    · refine (code_eq_iff (by decide) (fun _ => exitCode_eq_faulted_iff)
        hresult).trans ⟨?_, ?_⟩
      · rintro ⟨program, m, _, h, f, final, rfl⟩
        obtain ⟨_, hrun⟩ := h.ended
        exact ⟨program, m, f, final, h, Machine.run_ne_missingParameter hrun⟩
      · rintro ⟨program, m, f, final, h, _⟩
        exact ⟨program, m, _, h, f, final, rfl⟩
    · refine (code_eq_iff (by decide) (fun _ => exitCode_eq_interrupted_iff)
        hresult).trans ⟨?_, ?_⟩
      · rintro ⟨program, m, _, h, final, rfl⟩
        exact ⟨program, m, final, h⟩
      · rintro ⟨program, m, final, h⟩
        exact ⟨program, m, _, h, final, rfl⟩
    · intro arguments' verbose console' hrequest' hconsole
      exact exists_same_report hrequest' hopened (device_eq hconsole) hresult

/-- A program in a file below the root repeats a number that is given as an
option, with the trace and without it, while the standard input is no text. The
host has room for the one zero that the program needs. -/
theorem call_refines_run_traced :
    let tree : Tree :=
      { entries := [(["bin", "p"], .file "3,5,4,5,99".toUTF8.toList)]
        current := ["home"] }
    let host : Host := { find := tree.lookup, room := 1 }
    let arguments := ["-m", "6", "-i", "7", "/bin/./p"]
    ∃ report report',
      call 3 host (.ofText [] false) arguments = some (.report report) ∧
      call 3 host
        { stdin := ⟨[], .undecodable ⟨0, 0xFF, 1, .invalidStart⟩⟩ }
        ("-v" :: arguments) = some (.report report') ∧
      report.exitCode = 0 ∧ report.stdout = Output.lines [7] ∧
      report'.exitCode = 0 ∧ report'.stdout = Output.lines [7] := by
  intro tree host arguments
  let content := "3,5,4,5,99".toUTF8.toList
  let settings : Settings := ⟨false, 6, [7], "/bin/./p"⟩
  have hfind : ∀ path content, host.find path = .file content →
      host.find (Path.ofString path).text = .file content :=
    fun path content => Tree.lookup_text_ofString
  have hfile : host.find "/bin/./p" = .file content := by
    apply Tree.lookup_eq_file_iff.mpr
    decide +kernel
  have hrequest :
      Request.ofArguments host.find arguments = .ok (.run settings) := by
    let given : Given := ⟨[⟨.memorySize, "6"⟩, ⟨.input, "7"⟩], ["/bin/./p"]⟩
    refine ofArguments_eq_run_iff.mpr ⟨given, ?_, ?_, ?_, ?_, rfl⟩
    · decide +kernel
    · decide
    · decide +kernel
    · simp only [given, Given.file, hfile]
      rfl
  let m := Machine.ofProgram [3, 5, 4, 5, 99] 6 (.script [.number 7])
    (.console "")
  have hends : (Machine.run {} 3 m).map Machine.stop? = some none := by
    decide +kernel
  obtain ⟨o, hrun, hstop⟩ := Option.map_eq_some_iff.mp hends
  obtain ⟨final, rfl⟩ : ∃ final, o = .ok () final := by
    cases o with
    | ok _ final => exact ⟨final, rfl⟩
    | error => cases hstop
  obtain ⟨report, hcall, _⟩ := exists_same_report hrequest
    (hfind _ _ hfile) rfl
    (show result 3 1 content 6 (.script [.number 7]) = some (0, "7\n") by
      decide +kernel)
  obtain ⟨found, _, hfound, hloadable, _, hreports⟩ :=
    call_refines_run host hfind (.ofText [] false) arguments settings hrequest
  obtain rfl : content = found := Lookup.file.inj (hfile.symm.trans hfound)
  obtain ⟨m', hloads⟩ := hloadable [3, 5, 4, 5, 99] (by decide +kernel)
    (by decide +kernel) (by decide +kernel)
  obtain rfl : m' = m := hloads.eq_ofProgram
  obtain ⟨_, heq, hsent, _, hhalted, _, _, _, hsame⟩ := hreports 3 _ hcall
  obtain rfl := Reply.report.inj heq
  obtain ⟨report', hcall', hcode, hstdout⟩ := hsame ("-v" :: arguments) true
    { stdin := ⟨[], .undecodable ⟨0, 0xFF, 1, .invalidStart⟩⟩ }
    (ofArguments_verbose hrequest) (by simp)
  have hexit : report.exitCode = 0 :=
    hhalted.mpr ⟨_, m, final, hloads, 3, hrun⟩
  have htext : report.stdout = Output.lines [7] := by
    rw [(hsent _ m hloads).2]
    decide +kernel
  exact ⟨report, report', hcall, hcall', hexit, htext, hcode.trans hexit,
    hstdout.trans htext⟩

end IntcodeMachine.Command
