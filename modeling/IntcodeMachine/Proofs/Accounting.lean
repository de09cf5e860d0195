import Mathlib.Data.List.Basic
import IntcodeMachine.Proofs.Conservation

/-!
Accounts of a run. A run is known by the instructions it decodes and by what
they find at their turns: the count is their number, the output is made of the
operands of the outputs, the base is the sum of the operands of the moves, the
script has lost an entry for each input that asked for one, and a cell holds
what the last instruction that stored into it has stored. Only instructions
that complete count, but for a malformed entry, which is lost all the same.
-/

namespace IntcodeMachine

namespace Opcode

/-- How an operation combines two operands, if it stores a result of them. -/
def combined? : Opcode → Option (Int → Int → Int)
  | .add => some fun a b => a + b
  | .multiply => some fun a b => a * b
  | .lessThan => some fun a b => if a < b then 1 else 0
  | .equals => some fun a b => if a = b then 1 else 0
  | _ => none

theorem Combines.ne_output {op : Opcode} {f : Int → Int → Int}
    (h : op.Combines f) : op ≠ .output := by
  rintro rfl
  cases h

theorem Combines.ne_adjustBase {op : Opcode} {f : Int → Int → Int}
    (h : op.Combines f) : op ≠ .adjustBase := by
  rintro rfl
  cases h

theorem Tests.ne_output {op : Opcode} {test : Int → Prop} (h : op.Tests test) :
    op ≠ .output := by
  rintro rfl
  cases h

theorem Tests.ne_adjustBase {op : Opcode} {test : Int → Prop}
    (h : op.Tests test) : op ≠ .adjustBase := by
  rintro rfl
  cases h

theorem Combines.combined?_eq {op : Opcode} {f : Int → Int → Int}
    (h : op.Combines f) : op.combined? = some f := by
  cases h <;> rfl

end Opcode

/-- A cell of a fresh memory holds its word of the program, or zero. -/
theorem Memory.get?_ofProgram {program : List Int} {size address : Int}
    (h : (ofProgram program size).InBounds address) :
    (ofProgram program size).get? address =
      some (program.getD address.toNat 0) := by
  obtain ⟨hnonneg, hlt⟩ := h
  rw [capacity_ofProgram] at hlt
  simp only [get?, if_pos hnonneg, ofProgram]
  by_cases hword : address.toNat < program.length
  · rw [Array.getElem?_append_left (by simpa using hword)]
    simp [hword]
  · have hzero : program.getD address.toNat 0 = 0 := by
      rw [List.getD_eq_getElem?_getD, List.getElem?_eq_none (by omega)]
      rfl
    rw [Array.getElem?_append_right (by simpa using hword),
      Array.getElem?_replicate, if_pos (by simp; omega), hzero]

namespace Turn

variable (t : Turn)

/-- The first operand of a completed instruction of the given operation. -/
def operand? (op : Opcode) (t : Turn) : Option Int :=
  if t.completed ∧ t.instruction.opcode = op then
    t.instruction.params.head? >>=
      Parameter.meant? t.before.memory t.before.base
  else none

/-- The cell that an instruction stores into and what it stores there, if it
completes: the result of two operands, or the number of an entry. -/
def result? : Option (Int × Int) :=
  match t.instruction.params with
  | [p, q, target] => do
      let f ← t.instruction.opcode.combined?
      let a ← p.meant? t.before.memory t.before.base
      let b ← q.meant? t.before.memory t.before.base
      let d ← target.named? t.before.base
      return (d, f a b)
  | [target] => do
      let entry ← t.taken?
      let v ← entry.value.toOption
      let d ← target.named? t.before.base
      return (d, v)
  | _ => none

/-- What a completed instruction has stored into a cell. -/
def storedAt? (address : Int) (t : Turn) : Option Int :=
  if t.completed then
    t.result?.bind fun (d, v) => if address = d then some v else none
  else none

/-- If the instruction completes, it has all the values it is accounted for
by. -/
def Evaluated : Prop :=
  t.completed = true →
    (t.instruction.opcode ∈ [.output, .adjustBase] →
      (t.operand? t.instruction.opcode).isSome = true) ∧
    (t.instruction.opcode ∈ [.add, .multiply, .input, .lessThan, .equals] →
      t.result?.isSome = true)

/-- The instruction is an input that takes an entry: its destination is a cell,
and it finds the script not empty. -/
def Takes : Prop :=
  t.before.Asks t.instruction.opcode t.instruction.params ∧
    t.before.input.entries ≠ []

instance : Decidable t.Takes :=
  inferInstanceAs (Decidable (_ ∧ _))

theorem isSome_taken? : t.taken?.isSome = decide t.Takes := by
  unfold taken? Machine.taken?
  split
  · next hasks =>
      cases hentries : t.before.input.entries <;> simp [Takes, hasks, hentries]
  · next hasks => simp [Takes, hasks]

end Turn

namespace Machine

variable {m next last : Machine} {turns later : List Turn} {o : Outcome}

/-- What the instructions of the given turns have made of a machine. -/
structure Accounts (m : Machine) (turns : List Turn) (last : Machine) :
    Prop where
  listed : ∀ t ∈ turns, t.Listed
  output : last.output.values.toList =
    m.output.values.toList ++ turns.filterMap (Turn.operand? .output)
  base : last.base =
    m.base + (turns.filterMap (Turn.operand? .adjustBase)).sum
  cells : ∀ address, last.memory.get? address =
    (turns.filterMap (Turn.storedAt? address)).getLast?.or
      (m.memory.get? address)

theorem Accounts.of_registers (m : Machine) (ip : Int) (status : Status)
    (input : Input) (journal : Array Event) :
    Accounts m [] { m with ip, status, input, journal } where
  listed := by simp
  output := (List.append_nil _).symm
  base := (Int.add_zero _).symm
  cells _ := rfl

theorem Accounts.trans (h : Accounts m turns next)
    (hlast : Accounts next later last) :
    Accounts m (turns ++ later) last where
  listed := List.forall_mem_append.mpr ⟨h.listed, hlast.listed⟩
  output := by
    rw [hlast.output, h.output, List.filterMap_append, List.append_assoc]
  base := by
    rw [hlast.base, h.base, List.filterMap_append, List.sum_append,
      Int.add_assoc]
  cells address := by
    rw [hlast.cells, h.cells, List.filterMap_append, List.getLast?_append,
      Option.or_assoc]

/-- An instruction that does not complete leaves nothing to account for but
itself. -/
theorem accounts_of_failed {i : Instruction}
    (hlisted : (⟨m, i, false⟩ : Turn).Listed) (input : Input) :
    Accounts m [⟨m, i, false⟩] { m.listed i with input } where
  listed := List.forall_mem_singleton.mpr hlisted
  output := (List.append_nil _).symm
  base := (Int.add_zero _).symm
  cells _ := rfl

section Completed

variable {i : Instruction} {op : Opcode} {params : List Parameter} {t : Turn}

theorem accounts_singleton (hlisted : t.Listed)
    (houtput : last.output.values.toList =
      m.output.values.toList ++ (t.operand? .output).toList)
    (hbase : last.base = m.base + (t.operand? .adjustBase).getD 0)
    (hcells : ∀ address, last.memory.get? address =
      (t.storedAt? address).or (m.memory.get? address)) :
    Accounts m [t] last where
  listed := List.forall_mem_singleton.mpr hlisted
  output := by
    rw [houtput, List.filterMap_cons]
    cases t.operand? .output <;> rfl
  base := by
    rw [hbase, List.filterMap_cons]
    cases t.operand? .adjustBase <;> simp
  cells address := by
    rw [hcells, List.filterMap_cons]
    cases t.storedAt? address <;> rfl

theorem operand?_of_ne {other : Opcode} (hop : t.instruction.opcode ≠ other) :
    t.operand? other = none :=
  if_neg fun h => hop h.2

theorem operand?_of_completed {p : Parameter} {v : Int}
    (hcompleted : t.completed = true) (hop : t.instruction.opcode = op)
    (hparams : t.instruction.params = [p])
    (hp : p.StandsFor t.before.memory t.before.base v) :
    t.operand? op = some v := by
  rw [Turn.operand?, if_pos ⟨hcompleted, hop⟩, hparams]
  exact Parameter.meant?_of_standsFor hp

theorem storedAt?_of_no_result (hresult : t.result? = none) (address : Int) :
    t.storedAt? address = none := by
  rw [Turn.storedAt?, hresult]
  simp

/-- The cells after a result has been stored are those before, but for one. -/
theorem get?_set_eq_or {memory : Memory} {d : Int} (hin : memory.InBounds d)
    (v address : Int) :
    (memory.set d v).get? address =
      (if address = d then some v else none).or (memory.get? address) := by
  rw [Memory.get?_set]
  by_cases haddress : address = d
  · rw [if_pos ⟨haddress, hin⟩, if_pos haddress]
    rfl
  · rw [if_neg (fun h => haddress h.1), if_neg haddress]
    rfl

theorem result?_of_combines {f : Int → Int → Int} {p q target : Parameter}
    {a b d : Int} (hop : t.instruction.opcode.Combines f)
    (hparams : t.instruction.params = [p, q, target])
    (hp : p.StandsFor t.before.memory t.before.base a)
    (hq : q.StandsFor t.before.memory t.before.base b)
    (hnames : target.Names t.before.base d) :
    t.result? = some (d, f a b) := by
  simp [Turn.result?, hparams, hop.combined?_eq,
    Parameter.meant?_of_standsFor hp, Parameter.meant?_of_standsFor hq,
    Parameter.named?_eq_some_iff.mpr hnames]

theorem result?_of_taken {target : Parameter} {entry : Entry} {d v : Int}
    (hparams : t.instruction.params = [target])
    (htaken : t.taken? = some entry) (hvalue : entry.value = .ok v)
    (hnames : target.Names t.before.base d) :
    t.result? = some (d, v) := by
  simp [Turn.result?, hparams, htaken, hvalue, Except.toOption,
    Parameter.named?_eq_some_iff.mpr hnames]

theorem result?_of_single {p : Parameter}
    (hparams : t.instruction.params = [p])
    (hop : t.instruction.opcode ≠ .input) : t.result? = none := by
  have htaken : t.taken? = none := if_neg fun h => hop h.1
  simp [Turn.result?, hparams, htaken]

theorem result?_of_tests {p q : Parameter}
    (hparams : t.instruction.params = [p, q]) : t.result? = none := by
  simp [Turn.result?, hparams]

/-- An input that names a cell takes the entry at the head of the script. -/
theorem taken?_of_names {target : Parameter} {entry : Entry}
    {queue : List Entry} {d : Int} (hop : t.instruction.opcode = .input)
    (hparams : t.instruction.params = [target])
    (hnames : target.Names t.before.base d)
    (hin : t.before.memory.InBounds d)
    (hinput : t.before.input = .script (entry :: queue)) :
    t.taken? = some entry := by
  have hasks : t.before.Asks t.instruction.opcode t.instruction.params := by
    refine ⟨hop, target, ?_, d, Parameter.named?_eq_some_iff.mpr hnames, hin⟩
    rw [hparams]
    rfl
  rw [Turn.taken?, taken?, if_pos hasks, hinput]
  rfl

/-- A turn without an operand to account for: its operation is no output and
no move of the base. -/
theorem accounts_of_result {result : Option (Int × Int)}
    (hlisted : t.Listed) (hcompleted : t.completed = true)
    (houtput : t.instruction.opcode ≠ .output)
    (hbase : t.instruction.opcode ≠ .adjustBase)
    (hsent : last.output = m.output) (hmoved : last.base = m.base)
    (hresult : t.result? = result)
    (hcells : ∀ address, last.memory.get? address =
      (result.bind fun (d, v) => if address = d then some v else none).or
        (m.memory.get? address)) :
    Accounts m [t] last := by
  apply accounts_singleton hlisted
  · rw [operand?_of_ne houtput, hsent]
    exact (List.append_nil _).symm
  · rw [operand?_of_ne hbase, hmoved]
    exact (Int.add_zero _).symm
  · intro address
    rw [hcells, Turn.storedAt?, if_pos hcompleted, hresult]

/-- A completed instruction stores into a cell, puts a number out, moves the
base, or does none of these. -/
theorem Execution.accounts (hop : i.opcode = op) (hparams : i.params = params)
    (hlisted : (⟨m, i, true⟩ : Turn).Listed)
    (h : Execution (m.listed i) op params (.ok () next)) :
    Accounts m [⟨m, i, true⟩] next := by
  cases h with
  | stored hcombines hnames hp hq hin =>
      rw [← hop] at hcombines
      exact accounts_of_result hlisted rfl hcombines.ne_output
        hcombines.ne_adjustBase rfl rfl
        (result?_of_combines hcombines hparams hp hq hnames)
        fun address => get?_set_eq_or hin _ address
  | accepted hnames hin hinput hvalue =>
      have htaken := taken?_of_names (t := ⟨m, i, true⟩) hop hparams hnames hin
        hinput
      exact accounts_of_result hlisted rfl (by simp [hop]) (by simp [hop]) rfl
        rfl (result?_of_taken hparams htaken hvalue hnames)
        fun address => get?_set_eq_or hin _ address
  | jumped htests =>
      rw [← hop] at htests
      exact accounts_of_result hlisted rfl htests.ne_output htests.ne_adjustBase
        rfl rfl (result?_of_tests hparams) fun _ => rfl
  | passed htests =>
      rw [← hop] at htests
      exact accounts_of_result hlisted rfl htests.ne_output htests.ne_adjustBase
        rfl rfl (result?_of_tests hparams) fun _ => rfl
  | sent hp houtput =>
      have hsent := operand?_of_completed (t := ⟨m, i, true⟩) rfl hop hparams hp
      have hcollected : m.output = .collected _ := houtput
      apply accounts_singleton hlisted
      · rw [hsent, hcollected]
        simp [Output.values]
      · rw [operand?_of_ne (by simp [hop])]
        exact (Int.add_zero _).symm
      · intro address
        rw [storedAt?_of_no_result
          (result?_of_single hparams (by simp [hop]))]
        rfl
  | rebased hp =>
      have hmoved := operand?_of_completed (t := ⟨m, i, true⟩) rfl hop hparams hp
      apply accounts_singleton hlisted
      · rw [operand?_of_ne (by simp [hop])]
        exact (List.append_nil _).symm
      · rw [hmoved]
        rfl
      · intro address
        rw [storedAt?_of_no_result
          (result?_of_single hparams (by simp [hop]))]
        rfl

theorem Execution.evaluated (hop : i.opcode = op) (hparams : i.params = params)
    (h : Execution (m.listed i) op params (.ok () next)) :
    (⟨m, i, true⟩ : Turn).Evaluated := by
  intro _
  cases h with
  | stored hcombines hnames hp hq hin =>
      rw [← hop] at hcombines
      have hresult := result?_of_combines (t := ⟨m, i, true⟩) hcombines hparams
        hp hq hnames
      simp [hresult, hcombines.ne_output, hcombines.ne_adjustBase]
  | accepted hnames hin hinput hvalue =>
      have htaken := taken?_of_names (t := ⟨m, i, true⟩) hop hparams hnames hin
        hinput
      have hresult := result?_of_taken hparams htaken hvalue hnames
      simp [hresult, hop]
  | jumped htests | passed htests =>
      cases htests <;> simp [hop]
  | sent hp | rebased hp =>
      have hvalue := operand?_of_completed (t := ⟨m, i, true⟩) rfl hop hparams hp
      simp [hop, hvalue]

end Completed

/-- The completed instructions of a run have all their values. -/
theorem evaluated_of_mem_turns {fuel : Nat} (hscripted : m.Scripted)
    {t : Turn} (h : t ∈ m.turns fuel) : t.Evaluated := by
  obtain ⟨hturn, n, hsteps⟩ := turn?_of_mem_turns h
  have hbefore := hsteps.scripted rfl hscripted
  obtain ⟨before, i, completed⟩ := t
  intro hcompleted
  cases hstep : step {} before with
  | ok _ next =>
      obtain ⟨htransition, _⟩ :=
        transition_of_step rfl hbefore hstep (by simp)
      cases htransition with
      | @executed i _ hencodes hposition hexecution =>
          rw [turn?_of_encodes hencodes hposition, hstep] at hturn
          cases hturn
          exact hexecution.evaluated rfl rfl hcompleted
  | error stop next =>
      unfold turn? at hturn
      split at hturn
      · rw [hstep] at hturn
        cases hturn
        cases hcompleted
      · cases hturn

/-- A step that no numeral stops is accounted for by its turn. -/
theorem accounts_step (hscripted : m.Scripted) (hstep : step {} m = o)
    (hwritten : ∀ next, o ≠ .error .tooManyDigits next) :
    Accounts m m.turn?.toList (ofOutcome o) := by
  obtain ⟨htransition, hwrites⟩ :=
    transition_of_step rfl hscripted hstep hwritten
  cases htransition with
  | undecodable hundecodable =>
      rw [turn?_of_undecodable hundecodable, ofOutcome, hundecodable.next_eq]
      exact .of_registers m _ m.status m.input m.journal
  | @executed i _ hencodes hposition hexecution =>
      have hlisted (completed : Bool) :
          (⟨m, i, completed⟩ : Turn).Listed := by
        intro n hn
        exact writes_default.mp
          (((writes_reported_iff hexecution).mp hwrites).1 n hn)
      rw [turn?_of_encodes hencodes hposition, hstep]
      cases o with
      | ok _ next => exact hexecution.accounts rfl rfl (hlisted true)
      | error stop next =>
          rcases hexecution.error_cases with ⟨rfl, _⟩ | ⟨_, _, _, _, rfl⟩
          · exact accounts_of_failed (hlisted false) m.input
          · exact accounts_of_failed (hlisted false) _

theorem turnByTurn_accounts :
    TurnByTurn fun m turns o =>
      (∀ next, o ≠ .error .tooManyDigits next) →
        Accounts m turns (ofOutcome o) where
  rest {m} _ _ := .of_registers m m.ip m.status m.input m.journal
  step hscripted hwritten := accounts_step hscripted rfl hwritten
  trans hfirst hlater hwritten := (hfirst (by simp)).trans (hlater hwritten)

theorem accounts_loop {fuel : Nat} (hscripted : m.Scripted)
    (h : loop {} fuel m = some o)
    (hwritten : ∀ next, o ≠ .error .tooManyDigits next) :
    Accounts m (m.turns fuel) (ofOutcome o) :=
  turnByTurn_accounts.loop hscripted h hwritten

theorem accounts_run {fuel : Nat} (hscripted : m.Scripted)
    (h : run {} fuel m = some o)
    (hwritten : ∀ final, o ≠ .error .tooManyDigits final) :
    Accounts m (m.turns fuel) (ofOutcome o) := by
  obtain ⟨before, hloop, rfl⟩ := Option.map_eq_some_iff.mp h
  obtain ⟨status, journal, _, hframe⟩ := finish_frame {} before
  have hbefore := accounts_loop hscripted hloop (by
    rintro next rfl
    exact hwritten next rfl)
  rw [hframe]
  exact ⟨hbefore.listed, hbefore.output, hbefore.base, hbefore.cells⟩

theorem filterMap_consumed?_of_listed (h : ∀ t ∈ turns, t.Listed) :
    turns.filterMap Turn.consumed? = turns.filterMap Turn.taken? :=
  List.filterMap_congr fun t ht => if_pos (h t ht)

/-- Accounts of a run that no numeral stops, by the instructions it decodes,
each with what it finds at its turn. Their number is the count. The output is
made of the operands of the completed outputs, in order, and the base is the
sum of the operands of the completed moves. The entries that inputs with a good
destination have found make up the start of the script, and there are as many
of them as such inputs. A cell holds what was stored there last, or else its
first word. -/
theorem run_accounts (program : List Int) (size : Int) (queue : List Entry) :
    let m := Machine.ofProgram program size (.script queue) (.collected #[])
    ∀ fuel o, run {} fuel m = some o →
      (∀ final, o ≠ .error .tooManyDigits final) →
      let turns := m.turns fuel
      let final := ofOutcome o
      (∀ t ∈ turns, t.Evaluated) ∧
      final.steps = turns.length ∧
      final.output =
        .collected (turns.filterMap (Turn.operand? .output)).toArray ∧
      final.base = (turns.filterMap (Turn.operand? .adjustBase)).sum ∧
      (∃ rest, final.input = .script rest ∧
        queue = turns.filterMap Turn.taken? ++ rest ∧
        queue.length = turns.countP (·.Takes) + rest.length) ∧
      ∀ address, m.memory.InBounds address →
        final.memory.get? address =
          some ((turns.filterMap (Turn.storedAt? address)).getLast?.getD
            (program.getD address.toNat 0)) := by
  intro m fuel o hrun hwritten turns final
  have hscripted : m.Scripted := ⟨⟨_, rfl⟩, ⟨_, rfl⟩⟩
  have haccounts : Accounts m turns final :=
    accounts_run hscripted hrun hwritten
  have hadvances := advances_run hscripted hrun
  obtain ⟨⟨rest, hrest⟩, values, hvalues⟩ := hadvances.scripted
  have hscript : queue = turns.filterMap Turn.taken? ++ rest := by
    have hentries := hadvances.script
    rw [List.append_nil, filterMap_consumed?_of_listed haccounts.listed, hrest]
      at hentries
    exact hentries
  have hevaluated (t : Turn) (ht : t ∈ turns) : t.Evaluated :=
    evaluated_of_mem_turns hscripted ht
  refine ⟨hevaluated, ?_, ?_, ?_, ⟨rest, hrest, hscript, ?_⟩, ?_⟩
  · rw [steps_of_run hscripted hrun]
    exact Nat.zero_add _
  · have houtput : values.toList =
        turns.filterMap (Turn.operand? .output) := by
      have hsent := haccounts.output
      rw [hvalues] at hsent
      exact hsent
    rw [hvalues, ← houtput]
  · rw [haccounts.base]
    exact Int.zero_add _
  · rw [hscript, List.length_append, List.length_filterMap_eq_countP]
    simp only [Turn.isSome_taken?]
  · intro address hin
    have hfirst : m.memory.get? address =
        some (program.getD address.toNat 0) :=
      Memory.get?_ofProgram hin
    rw [haccounts.cells, hfirst, Option.or_some]

/-- A program reads a number into a cell, repeats it, moves the base by it and
stores another number over it. -/
theorem run_accounts_overwritten_cell :
    let m := Machine.ofProgram [3, 11, 4, 11, 9, 11, 21101, 1, 2, 6, 99] 12
      (.script [.number 5, .line "x"]) (.collected #[])
    ∃ final, run {} 5 m = some (.ok () final) ∧
      final.steps = (m.turns 5).length ∧
      final.output =
        .collected ((m.turns 5).filterMap (Turn.operand? .output)).toArray ∧
      final.base = ((m.turns 5).filterMap (Turn.operand? .adjustBase)).sum ∧
      (∃ rest, final.input = .script rest ∧
        [.number 5, .line "x"] = (m.turns 5).filterMap Turn.taken? ++ rest) ∧
      final.memory.get? 11 =
        some (((m.turns 5).filterMap (Turn.storedAt? 11)).getLast?.getD 0) ∧
      (m.turns 5).filterMap (Turn.storedAt? 11) = [5, 3] := by
  intro m
  let final : Machine := { m with
    memory := ⟨#[3, 11, 4, 11, 9, 11, 21101, 1, 2, 6, 99, 3]⟩
    ip := 11
    base := 5
    status := .halted
    steps := 5
    input := .script [.line "x"]
    output := .collected #[5]
    journal := #[
      .executing 1 ⟨.input, [.position 11], 0, 0⟩,
      .stored 11 5,
      .executing 2 ⟨.output, [.position 11], 2, 0⟩,
      .executing 3 ⟨.adjustBase, [.position 11], 4, 0⟩,
      .rebased 5,
      .executing 4
        ⟨.add, [.immediate 1, .immediate 2, .relative 6], 6, 211⟩,
      .executing 5 ⟨.halt, [], 10, 0⟩,
      .halted 5] }
  have hrun : run {} 5 m = some (.ok () final) := by decide +kernel
  obtain ⟨_, hsteps, houtput, hbase, ⟨rest, hrest, hscript, _⟩, hcells⟩ :=
    run_accounts _ 12 [.number 5, .line "x"] 5 _ hrun (by simp)
  refine ⟨final, hrun, hsteps, houtput, hbase, ⟨rest, hrest, hscript⟩, ?_, ?_⟩
  · exact hcells 11 (by decide +kernel)
  · decide +kernel

end Machine

end IntcodeMachine
