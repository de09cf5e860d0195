import IntcodeMachine.Proofs.Accounting

/-!
A memory in the hands of a client, who makes any calls in any order and goes on
after those that fail. The memory keeps its length. A call fails exactly if its
address has no cell, and then it changes nothing. A read gives what the last
successful write has put into the cell, or else the first word of the cell: its
word of the program, or zero.
-/

namespace IntcodeMachine.Memory

/-- What a client can ask of a memory. A cell can be read and written by name
or as an entry of the memory, which comes to the same. -/
inductive Call where
  | length
  | check (address : Int)
  | read (address : Int)
  | get (address : Int)
  | write (address value : Int)
  | set (address value : Int)

variable {memory : Memory}

namespace Call

/-- The address that a call names. -/
def address? : Call → Option Int
  | length => none
  | check i | read i | get i | write i _ | set i _ => some i

/-- The value that a call wants to put into its cell. -/
def value? : Call → Option Int
  | length | check _ | read _ | get _ => none
  | write _ v | set _ v => some v

/-- What a call gives back, if it gives anything, and the memory after it. -/
def perform (memory : Memory) : Call → Except Fault (Option Int × Memory)
  | length => return (some memory.capacity, memory)
  | check i => do
      memory.check i
      return (some i, memory)
  | read i | get i => return (some (← memory.read i), memory)
  | write i v | set i v => return (none, ← memory.write i v)

/-- What a client gets from a call, and the memory that is left. A call that
fails leaves the memory that it was made on. -/
def outcome (memory : Memory) (call : Call) :
    Except Stop (Option Int) × Memory :=
  match call.perform memory with
  | .ok (answer, next) => (.ok answer, next)
  | .error f => (.error (({} : Reporting).stopOf f), memory)

def Fails (memory : Memory) (call : Call) : Prop :=
  ∃ stop, (call.outcome memory).1 = .error stop

/-- What a call puts into the cell at an address, if it does not fail. -/
def storedAt? (memory : Memory) (address : Int) (call : Call) : Option Int :=
  match (call.outcome memory).1 with
  | .ok _ => if call.address? = some address then call.value? else none
  | .error _ => none

variable {call : Call} {i v : Int}

/-- A call that names no cell is refused, and leaves all cells as they were. -/
theorem outcome_of_not_inBounds (hcall : call.address? = some i)
    (hout : ¬ memory.InBounds i) :
    call.outcome memory =
      (.error (({} : Reporting).stopOf (.outOfBounds i)), memory) := by
  have hcheck := check_of_not_inBounds hout
  have hread := read_eq_error_iff.mpr ⟨hout, rfl⟩
  cases call with
  | length => cases hcall
  | check j | read j | get j | write j v | set j v =>
      cases hcall
      simp only [outcome, perform, Memory.write, hcheck, hread]
      rfl

/-- A call that names a cell succeeds, and puts its value there if it has
one. -/
theorem outcome_of_inBounds (hcall : call.address? = some i)
    (hin : memory.InBounds i) :
    ∃ answer, call.outcome memory =
      (.ok answer, call.value?.elim memory (memory.set i)) := by
  have hcheck := check_of_inBounds hin
  obtain ⟨word, hword⟩ := exists_get? hin
  have hread := read_eq_ok_iff.mpr hword
  cases call with
  | length => cases hcall
  | check j | read j | get j | write j v | set j v =>
      cases hcall
      simp only [outcome, perform, Memory.write, hcheck, hread]
      exact ⟨_, rfl⟩

theorem outcome_of_get? {word : Int} (hcall : call ∈ [.read i, .get i])
    (hword : memory.get? i = some word) :
    call.outcome memory = (.ok (some word), memory) := by
  have hread := read_eq_ok_iff.mpr hword
  simp only [List.mem_cons, List.not_mem_nil, or_false] at hcall
  obtain rfl | rfl := hcall
  all_goals
    simp only [outcome, perform, hread]
    rfl

theorem fails_iff (hcall : call.address? = some i) :
    call.Fails memory ↔ ¬ memory.InBounds i := by
  constructor
  · rintro ⟨stop, hstop⟩ hin
    obtain ⟨answer, hanswer⟩ := outcome_of_inBounds hcall hin
    rw [hanswer] at hstop
    cases hstop
  · intro hout
    exact ⟨_, congrArg Prod.fst (outcome_of_not_inBounds hcall hout)⟩

/-- A call leaves the memory as it is and has stored nothing, or it has put a
value into one cell. -/
theorem outcome_cases (memory : Memory) (call : Call) :
    ((call.outcome memory).2 = memory ∧
      ∀ address, call.storedAt? memory address = none) ∨
    ∃ i v, memory.InBounds i ∧ (call.outcome memory).2 = memory.set i v ∧
      ∀ address, call.storedAt? memory address =
        if address = i then some v else none := by
  cases hcall : call.address? with
  | none =>
      cases call <;> cases hcall
      exact Or.inl ⟨rfl, fun _ => rfl⟩
  | some i =>
      by_cases hin : memory.InBounds i
      · obtain ⟨answer, hanswer⟩ := outcome_of_inBounds hcall hin
        simp only [storedAt?, hanswer, hcall, Option.some.injEq]
        cases call.value? with
        | none => exact Or.inl ⟨rfl, fun _ => ite_self _⟩
        | some v =>
            refine Or.inr ⟨i, v, hin, rfl, fun address => ?_⟩
            simp only [eq_comm]
      · have hrefused := outcome_of_not_inBounds hcall hin
        refine Or.inl ⟨congrArg Prod.snd hrefused, fun address => ?_⟩
        simp only [storedAt?, hrefused]

/-- One call keeps the number of cells. -/
theorem capacity_outcome (memory : Memory) (call : Call) :
    (call.outcome memory).2.capacity = memory.capacity := by
  rcases call.outcome_cases memory with ⟨hsame, _⟩ | ⟨i, v, _, hset, _⟩
  · rw [hsame]
  · rw [hset, capacity_set]

/-- After one call a cell holds what the call has stored there, or what it held
before. -/
theorem get?_outcome (memory : Memory) (call : Call) (address : Int) :
    (call.outcome memory).2.get? address =
      (call.storedAt? memory address).or (memory.get? address) := by
  rcases call.outcome_cases memory with
    ⟨hsame, hstored⟩ | ⟨i, v, hin, hset, hstored⟩
  · rw [hsame, hstored, Option.none_or]
  · rw [hset, hstored, Machine.get?_set_eq_or hin]

end Call

/-- The memory after the given calls, one after the other and whether they
failed or not. -/
def after (memory : Memory) (calls : List Call) : Memory :=
  calls.foldl (fun memory call => (call.outcome memory).2) memory

/-- What the successful ones of the given calls store at an address, in
order. -/
def storedAt (address : Int) : Memory → List Call → List Int
  | _, [] => []
  | memory, call :: later =>
      (call.storedAt? memory address).toList ++
        storedAt address (call.outcome memory).2 later

/-- Any calls keep the number of cells. -/
theorem capacity_after (memory : Memory) (calls : List Call) :
    (memory.after calls).capacity = memory.capacity := by
  induction calls generalizing memory with
  | nil => rfl
  | cons call later ih =>
      have hlater := ih (call.outcome memory).2
      rw [call.capacity_outcome] at hlater
      exact hlater

/-- After any calls a cell holds what was stored there last, or what it held
before all of them. -/
theorem get?_after (memory : Memory) (calls : List Call) (address : Int) :
    (memory.after calls).get? address =
      (memory.storedAt address calls).getLast?.or (memory.get? address) := by
  induction calls generalizing memory with
  | nil => rfl
  | cons call later ih =>
      have hfirst : (call.storedAt? memory address).toList.getLast? =
          call.storedAt? memory address := by
        cases call.storedAt? memory address <;> rfl
      calc ((call.outcome memory).2.after later).get? address
        _ = ((call.outcome memory).2.storedAt address later).getLast?.or
              ((call.outcome memory).2.get? address) := ih _
        _ = _ := by
          rw [call.get?_outcome, storedAt, List.getLast?_append, hfirst,
            Option.or_assoc]

/-- The addresses of cells after any calls are those below the larger of the
size and the length of the program. -/
theorem inBounds_after_iff {program : List Int} {size i : Int}
    {calls : List Call} :
    ((ofProgram program size).after calls).InBounds i ↔
      0 ≤ i ∧ i < max size program.length := by
  rw [InBounds, capacity_after, capacity_ofProgram]
  omega

/-- A memory is a bounds-checked store in which the last write wins. Whatever
calls a client has made on the memory of a program, failed ones among them, its
length is the larger of the size and the length of the program. A call with an
address fails exactly if the address is negative or not below the length; it
is refused with that address, and no cell changes. A read of another address
gives the value that was last stored there, or else its word of the program, or
zero beyond it. A write that does not fail puts its value into its cell and
changes no other. -/
theorem calls_last_write_wins (program : List Int) (size : Int)
    (calls : List Call) :
    let start := ofProgram program size
    let memory := start.after calls
    let length : Int := max size program.length
    Call.length.outcome memory = (.ok (some length), memory) ∧
    (∀ (call : Call) (i : Int), call.address? = some i →
      (call.Fails memory ↔ i < 0 ∨ length ≤ i) ∧
      (call.Fails memory → call.outcome memory =
        (.error (({} : Reporting).stopOf (.outOfBounds i)), memory))) ∧
    (∀ i : Int, 0 ≤ i → i < length → ∀ call ∈ [Call.read i, .get i],
      call.outcome memory =
        (.ok (some ((start.storedAt i calls).getLast?.getD
          (program.getD i.toNat 0))), memory)) ∧
    ∀ i v : Int, ∀ call ∈ [Call.write i v, .set i v],
      ¬ call.Fails memory →
        (call.outcome memory).2.get? i = some v ∧
        ∀ j ≠ i, (call.outcome memory).2.get? j = memory.get? j := by
  intro start memory length
  have hbounds (i : Int) : memory.InBounds i ↔ 0 ≤ i ∧ i < length :=
    inBounds_after_iff
  refine ⟨?_, ?_, ?_, ?_⟩
  · have hcapacity : (memory.capacity : Int) = length := by
      rw [capacity_after, capacity_ofProgram]
      omega
    rw [← hcapacity]
    rfl
  · intro call i hcall
    have hfails : call.Fails memory ↔ ¬ memory.InBounds i :=
      Call.fails_iff hcall
    refine ⟨?_, fun h => Call.outcome_of_not_inBounds hcall (hfails.mp h)⟩
    rw [hfails, hbounds]
    omega
  · intro i hnonneg hlt call hcall
    apply Call.outcome_of_get? hcall
    have hin : start.InBounds i := by
      have hmemory := (hbounds i).mpr ⟨hnonneg, hlt⟩
      rw [InBounds, capacity_after] at hmemory
      exact hmemory
    rw [get?_after, get?_ofProgram hin, Option.or_some]
  · intro i v call hcall hdone
    have hshape : call.address? = some i ∧ call.value? = some v := by
      simp only [List.mem_cons, List.not_mem_nil, or_false] at hcall
      obtain rfl | rfl := hcall
      all_goals exact ⟨rfl, rfl⟩
    obtain ⟨haddress, hvalue⟩ := hshape
    have hin : memory.InBounds i := by
      by_contra hout
      exact hdone ((Call.fails_iff haddress).mpr hout)
    obtain ⟨answer, hanswer⟩ := Call.outcome_of_inBounds haddress hin
    rw [hanswer, hvalue]
    refine ⟨?_, ?_⟩
    · exact (get?_set memory i v i).trans (if_pos ⟨rfl, hin⟩)
    · intro j hj
      exact (get?_set memory i v j).trans (if_neg fun h => hj h.1)

/-- A negative address names no cell from the end, and neither does the first
address past it. -/
theorem calls_last_write_wins_negative_address :
    let start := ofProgram [10, 20] 4
    let calls : List Call :=
      [.set 3 7, .write (-1) 5, .write 3 8, .set 4 1]
    let memory := start.after calls
    Call.length.outcome memory = (.ok (some 4), memory) ∧
    (Call.write (-1) 5).outcome memory =
      (.error (.fault (.outOfBounds (-1))), memory) ∧
    (Call.read 3).outcome memory = (.ok (some 8), memory) ∧
    (Call.get 1).outcome memory = (.ok (some 20), memory) ∧
    (Call.read 2).outcome memory = (.ok (some 0), memory) ∧
    ∀ j ≠ 1, ((Call.set 1 9).outcome memory).2.get? j = memory.get? j := by
  intro start calls memory
  obtain ⟨hlength, haddress, hread, hwrite⟩ :=
    calls_last_write_wins [10, 20] 4 calls
  have hset : ¬ (Call.set 1 9).Fails memory := by
    rw [(haddress (.set 1 9) 1 rfl).1]
    decide
  obtain ⟨hfails, hrefused⟩ := haddress (.write (-1) 5) (-1) rfl
  refine ⟨hlength, hrefused (hfails.mpr (by decide)), ?_, ?_, ?_, ?_⟩
  · exact hread 3 (by decide) (by decide) (.read 3) (by simp)
  · exact hread 1 (by decide) (by decide) (.get 1) (by simp)
  · exact hread 2 (by decide) (by decide) (.read 2) (by simp)
  · exact (hwrite 1 9 (.set 1 9) (by simp) hset).2

end IntcodeMachine.Memory
