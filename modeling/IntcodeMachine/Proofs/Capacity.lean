import IntcodeMachine.Proofs.Conservation
import IntcodeMachine.Proofs.LockStep

/-!
A run that fits in its memory is the same in a larger one. What a memory holds,
a wider memory holds too, so every rule but those about missing cells carries
over. A run that ends at a halt or at a fault which names no missing cell never
came to the end of its memory; in a wider memory it takes the same steps.
-/

namespace IntcodeMachine

namespace Memory

variable {memory : Memory} {extra : Nat} {address word : Int}

/-- The memory with more cells after its own, all of them zero. -/
def widened (extra : Nat) (memory : Memory) : Memory :=
  ⟨memory.cells ++ Array.replicate extra 0⟩

@[simp] theorem capacity_widened :
    (memory.widened extra).capacity = memory.capacity + extra := by
  simp [widened, capacity]

theorem inBounds_widened (h : memory.InBounds address) :
    (memory.widened extra).InBounds address := by
  obtain ⟨hnonneg, hlt⟩ := h
  refine ⟨hnonneg, ?_⟩
  rw [capacity_widened]
  omega

/-- The cells of a memory keep their words. -/
theorem get?_widened (h : memory.InBounds address) :
    (memory.widened extra).get? address = memory.get? address := by
  obtain ⟨hnonneg, hlt⟩ := h
  have hindex : address.toNat < memory.cells.size := by
    unfold capacity at hlt
    omega
  simp only [get?, widened, if_pos hnonneg]
  exact Array.getElem?_append_left hindex

theorem get?_widened_of_get? (h : memory.get? address = some word) :
    (memory.widened extra).get? address = some word := by
  rw [get?_widened (inBounds_of_get? h), h]

/-- The cells after them are zero. -/
theorem get?_widened_beyond (hle : (memory.capacity : Int) ≤ address)
    (hlt : address < (memory.widened extra).capacity) :
    (memory.widened extra).get? address = some 0 := by
  rw [capacity_widened] at hlt
  unfold capacity at hle hlt
  have hnonneg : 0 ≤ address := by omega
  simp only [get?, widened, if_pos hnonneg]
  rw [Array.getElem?_append_right (by omega), Array.getElem?_replicate,
    if_pos (by omega)]

theorem set_widened (h : memory.InBounds address) (value : Int) :
    (memory.widened extra).set address value =
      (memory.set address value).widened extra := by
  obtain ⟨hnonneg, hlt⟩ := h
  have hindex : address.toNat < memory.cells.size := by
    unfold capacity at hlt
    omega
  simp only [set, widened, if_pos hnonneg]
  rw [Array.setIfInBounds_append_left hindex]

/-- A larger size gives the memory of a program more cells after its own. -/
theorem ofProgram_widened (program : List Int) {size larger : Int}
    (hle : size ≤ larger) :
    ∃ extra, ofProgram program larger =
      (ofProgram program size).widened extra := by
  let zeros := size.toNat - program.length
  refine ⟨larger.toNat - program.length - zeros, ?_⟩
  have hsum : larger.toNat - program.length =
      zeros + (larger.toNat - program.length - zeros) := by
    omega
  simp only [ofProgram, widened]
  rw [hsum, ← Array.replicate_append_replicate, Array.append_assoc]
  simp [zeros]

theorem HoldsParameters.widened {modes : Int} {params : List Parameter}
    (h : memory.HoldsParameters address modes params) :
    (memory.widened extra).HoldsParameters address modes params := by
  intro index p hp
  obtain ⟨mode, htag, hcell, hdigit⟩ := h index p hp
  exact ⟨mode, htag, get?_widened_of_get? hcell, hdigit⟩

end Memory

theorem Encodes.widened {memory : Memory} {i : Instruction}
    (h : Encodes memory i) (extra : Nat) :
    Encodes (memory.widened extra) i where
  word := Memory.get?_widened_of_get? h.word
  modes := h.modes
  length := h.length
  params := h.params.widened

theorem Parameter.StandsFor.widened {memory : Memory} {base v : Int}
    {p : Parameter} (h : p.StandsFor memory base v) (extra : Nat) :
    p.StandsFor (memory.widened extra) base v := by
  cases h with
  | word => exact .word v
  | cell hnames hcell => exact .cell hnames (Memory.get?_widened_of_get? hcell)

namespace Machine

variable {m next last reached : Machine} {extra n : Nat} {o : Outcome}
  {f : Fault}

/-- The machine with more memory. -/
def widened (extra : Nat) (m : Machine) : Machine :=
  { m with memory := m.memory.widened extra }

/-- No cell was missing. -/
def Fitted (o : Outcome) : Prop :=
  ∀ address next, o ≠ .error (.fault (.outOfBounds address)) next

theorem Undecodable.widened (h : m.Undecodable f next)
    (hfitted : ∀ address, f ≠ .outOfBounds address) (extra : Nat) :
    (m.widened extra).Undecodable f (next.widened extra) := by
  cases h with
  | word => exact absurd rfl (hfitted _)
  | opcode hword hall => exact .opcode (Memory.get?_widened_of_get? hword) hall
  | parameter hmodes hword hindex hearlier hlacks =>
      refine .parameter hmodes (Memory.get?_widened_of_get? hword) hindex ?_ ?_
      · intro earlier hlt
        obtain ⟨hin, hdigit⟩ := hearlier earlier hlt
        exact ⟨Memory.inBounds_widened hin, hdigit⟩
      · cases hlacks with
        | cell => exact absurd rfl (hfitted _)
        | mode hin hdigit =>
            exact .mode (Memory.inBounds_widened hin) hdigit

theorem Refuses.widened {memory : Memory} {base : Int} {op : Opcode}
    {params : List Parameter} (h : Refuses memory base op params f)
    (hfitted : ∀ address, f ≠ .outOfBounds address) (extra : Nat) :
    Refuses (memory.widened extra) base op params f := by
  cases h with
  | resultImmediate hop => exact .resultImmediate hop
  | inputImmediate => exact .inputImmediate
  | firstOperand | secondOperand | resultCell | inputCell | outputOperand
  | testedOperand | jumpTarget | baseOperand => exact absurd rfl (hfitted _)

/-- What an operation does in a memory that is large enough for it, it does in
a wider one. -/
theorem Execution.widened {op : Opcode} {params : List Parameter}
    (h : Execution m op params o) (hfitted : Fitted o) (extra : Nat) :
    Execution (m.widened extra) op params
      (mapResult (Machine.widened extra) o) := by
  cases h with
  | refused hrefuses =>
      refine .refused (Refuses.widened hrefuses ?_ extra)
      rintro address rfl
      exact hfitted address _ rfl
  | stored hop hnames hp hq hin =>
      have hstored := Execution.stored (m := m.widened extra) hop hnames
        (hp.widened extra) (hq.widened extra) (Memory.inBounds_widened hin)
      simp only [Machine.widened, Memory.set_widened hin] at hstored
      exact hstored
  | accepted hnames hin hinput hvalue =>
      have haccepted := Execution.accepted (m := m.widened extra) hnames
        (Memory.inBounds_widened hin) hinput hvalue
      simp only [Machine.widened, Memory.set_widened hin] at haccepted
      exact haccepted
  | malformed hnames hin hinput hread =>
      exact .malformed hnames (Memory.inBounds_widened hin) hinput hread
  | exhausted hnames hin hinput =>
      exact .exhausted hnames (Memory.inBounds_widened hin) hinput
  | sent hp houtput => exact .sent (hp.widened extra) houtput
  | jumped hop hp htest hq =>
      exact .jumped hop (hp.widened extra) htest (hq.widened extra)
  | passed hop hp htest => exact .passed hop (hp.widened extra) htest
  | rebased hp => exact .rebased (hp.widened extra)
  | halted => exact .halted

theorem Transition.widened (h : Transition m o) (hfitted : Fitted o)
    (extra : Nat) :
    Transition (m.widened extra) (mapResult (Machine.widened extra) o) := by
  cases h with
  | undecodable hundecodable =>
      refine .undecodable (hundecodable.widened ?_ extra)
      rintro address rfl
      exact hfitted address _ rfl
  | executed hencodes hposition hexecution =>
      exact .executed (hencodes.widened extra) hposition
        (hexecution.widened hfitted extra)

theorem reported_widened (o : Outcome) :
    (m.widened extra).reported (mapResult (widened extra) o) =
      m.reported o := by
  cases o with
  | ok _ next => rfl
  | error stop next => cases stop <;> rfl

/-- A step that finds all its cells and writes all its texts is the same in a
wider memory. -/
theorem step_widened (hscripted : m.Scripted) (hstep : step {} m = o)
    (hfitted : Fitted o) (hwritten : ∀ next, o ≠ .error .tooManyDigits next) :
    step {} (m.widened extra) = mapResult (widened extra) o := by
  obtain ⟨htransition, hwrites⟩ :=
    transition_of_step rfl hscripted hstep hwritten
  apply step_of_transition rfl (htransition.widened hfitted extra)
  rw [reported_widened]
  exact hwrites

theorem keepsReports_widened (extra : Nat) : KeepsReports (widened extra) where
  ip _ := rfl
  base _ := rfl
  status _ := rfl
  steps _ := rfl
  noted _ _ := rfl
  ended _ _ := rfl

/-- More memory is in step with all that a loop reaches before it stops at an
error that names no missing cell. -/
theorem inStep_widened (hready : Ready m) {fuel : Nat} {stop : Stop}
    (hloop : loop {} fuel m = some (.error stop next))
    (hfitted : Fitted (.error stop next)) (hwritten : stop ≠ .tooManyDigits)
    (extra : Nat) (hsteps : Steps {} n m reached) :
    InStep {} {} (widened extra) reached := by
  have hscripted : reached.Scripted := (hready.steps hsteps).scripted
  obtain ⟨hactive, hstep⟩ := step_of_loop_error hloop hsteps
  constructor
  · constructor
    · intro _
      exact hactive
    · intro hactive
      obtain ⟨hrunning, hlt⟩ := hactive
      refine ⟨hrunning, ?_⟩
      simp only [widened, Memory.capacity_widened]
      omega
  · intro _
    rcases hstep with ⟨after, hstep⟩ | hstep
    · rw [hstep]
      exact step_widened hscripted hstep (by simp [Fitted]) (by simp)
    · rw [hstep]
      exact step_widened hscripted hstep hfitted (by simpa using hwritten)

/-- The memory never grows or shrinks. -/
theorem persists_capacity :
    Persists {} fun m next => next.memory.capacity = m.memory.capacity where
  refl _ := rfl
  trans hab hbc := hbc.trans hab
  step hscripted := (continues_step hscripted).capacity
  finish o := by
    obtain ⟨status, journal, _, hframe⟩ := finish_frame {} o
    rw [hframe]

/-- The second machine is the first with a larger memory: all else is the same,
the cells that both have are the same, and the others are zero. -/
structure Enlarges (room larger : Nat) (final wider : Machine) : Prop where
  ip : wider.ip = final.ip
  base : wider.base = final.base
  status : wider.status = final.status
  steps : wider.steps = final.steps
  input : wider.input = final.input
  output : wider.output = final.output
  journal : wider.journal = final.journal
  capacity : final.memory.capacity = room
  widerCapacity : wider.memory.capacity = larger
  cells : ∀ address : Int, 0 ≤ address → address < room →
    wider.memory.get? address = final.memory.get? address
  zeros : ∀ address : Int, room ≤ address → address < larger →
    wider.memory.get? address = some 0

theorem enlarges_widened {room larger : Nat}
    (hroom : m.memory.capacity = room) (hlarger : room + extra = larger) :
    Enlarges room larger m (m.widened extra) where
  ip := rfl
  base := rfl
  status := rfl
  steps := rfl
  input := rfl
  output := rfl
  journal := rfl
  capacity := hroom
  widerCapacity := by
    rw [← hlarger, ← hroom]
    exact Memory.capacity_widened
  cells address hnonneg hlt := by
    rw [← hroom] at hlt
    exact Memory.get?_widened ⟨hnonneg, hlt⟩
  zeros address hle hlt := by
    apply Memory.get?_widened_beyond
    · rw [hroom]
      exact hle
    · rw [Memory.capacity_widened, hroom, hlarger]
      exact hlt

/-- A run that stops at a halt or a fault without missing a cell does the same
in a wider memory. -/
theorem run_widened (hready : Ready m) {fuel : Nat} {stop : Stop}
    (hloop : loop {} fuel m = some (.error stop next))
    (hfitted : Fitted (.error stop next)) (hwritten : stop ≠ .tooManyDigits)
    (extra : Nat) :
    run {} fuel (m.widened extra) =
      (run {} fuel m).map (mapResult (widened extra)) := by
  apply run_map (keepsReports_widened extra)
  intro k reached hsteps
  exact inStep_widened hready hloop hfitted hwritten extra hsteps

/-- A run that returns after a halt took the step that halts. -/
theorem HaltedBy.exists_steps {final : Machine} {i : Instruction} {fuel : Nat}
    (h : HaltedBy m final i) (hready : Ready m)
    (hrun : run {} fuel m = some (.ok () final)) :
    ∃ n last next, Steps {} n m last ∧ Encodes last.memory i ∧
      i.position = last.ip ∧ i.opcode = .halt ∧
      step {} last = .error .halt next ∧
      final = noted { next with status := .halted } (.halted next.steps) ∧
      loop {} fuel m = some (.error .halt next) := by
  obtain ⟨n, last, next, hsteps, hencodes, hposition, hopcode, hstep, hfinal⟩ :=
    h
  refine ⟨n, last, next, hsteps, hencodes, hposition, hopcode, hstep, hfinal,
    ?_⟩
  obtain ⟨before, hloop, hfinish⟩ := Option.map_eq_some_iff.mp hrun
  have hfuel : n < fuel := lt_of_loop_of_steps hsteps hloop
  by_cases hactive : last.Active
  · exact loop_eq_some_iff.mpr
      ⟨n, hfuel, last, hsteps, .stopped hactive hstep⟩
  · have hend : loop {} fuel m = some (.ok () last) :=
      loop_eq_some_iff.mpr ⟨n, hfuel, last, hsteps, .inactive hactive⟩
    rw [hloop] at hend
    cases hend
    rw [finish_inactive (hready.steps hsteps).running, hfinal] at hfinish
    split at hfinish
    · have hback := congrArg (fun o => (ofOutcome o).journal.back?) hfinish
      simp [ofOutcome, noted] at hback
    · cases hfinish

/-- A run that halts does the same in a wider memory. -/
theorem HaltedBy.widened {final : Machine} {i : Instruction} {fuel : Nat}
    (h : HaltedBy m final i) (hready : Ready m)
    (hrun : run {} fuel m = some (.ok () final)) (extra : Nat) :
    run {} fuel (m.widened extra) = some (.ok () (final.widened extra)) ∧
      HaltedBy (m.widened extra) (final.widened extra) i := by
  obtain ⟨n, last, next, hsteps, hencodes, hposition, hopcode, hstep, rfl,
    hloop⟩ := h.exists_steps hready hrun
  have hfitted : Fitted (.error .halt next) := by simp [Fitted]
  have hinStep (k : Nat) (reached : Machine) (hk : Steps {} k m reached) :=
    inStep_widened hready hloop hfitted (by simp) extra hk
  constructor
  · rw [run_widened hready hloop hfitted (by simp) extra, hrun]
    rfl
  · refine ⟨n, last.widened extra, next.widened extra, ?_,
      hencodes.widened extra, hposition, hopcode, ?_, rfl⟩
    · exact hsteps.map fun k reached _ hk _ => hinStep k reached hk
    · have hactive := (step_of_loop_error hloop hsteps).1
      rw [(hinStep n last hsteps).step hactive, hstep]
      rfl

/-- A run that faults without missing a cell does the same in a wider
memory. -/
theorem run_fault_widened {final : Machine} {fuel : Nat} (hready : Ready m)
    (hrun : run {} fuel m = some (.error (.fault f) final))
    (hfault : ∀ address, f ≠ .outOfBounds address) (extra : Nat) :
    run {} fuel (m.widened extra) =
      some (.error (.fault f) (final.widened extra)) := by
  obtain ⟨before, hloop, hfinish⟩ := Option.map_eq_some_iff.mp hrun
  obtain ⟨next, rfl⟩ := fault_of_finish hfinish
  have hfitted : Fitted (.error (.fault f) next) := by
    rintro address _ heq
    cases heq
    exact hfault address rfl
  rw [run_widened hready hloop hfitted (by simp) extra, hrun]
  rfl

/-- More memory never changes a run that fitted. A run that ends at a halt, or
at a fault that names no missing cell, ends in the same way in every larger
memory: all but the memory is the same, and the cells that are added stay
zero. -/
theorem run_more_memory (program : List Int) (entries : List Entry)
    {size larger : Int} (hle : size ≤ larger) (fuel : Nat) :
    let m := Machine.ofProgram program size (.script entries) (.collected #[])
    let wide :=
      Machine.ofProgram program larger (.script entries) (.collected #[])
    let room := max size.toNat program.length
    let wideRoom := max larger.toNat program.length
    (∀ final i, run {} fuel m = some (.ok () final) → HaltedBy m final i →
      ∃ wider, run {} fuel wide = some (.ok () wider) ∧
        HaltedBy wide wider i ∧ Enlarges room wideRoom final wider) ∧
    ∀ f final, run {} fuel m = some (.error (.fault f) final) →
      (∀ address, f ≠ .outOfBounds address) →
      ∃ wider, run {} fuel wide = some (.error (.fault f) wider) ∧
        Enlarges room wideRoom final wider := by
  intro m wide room wideRoom
  obtain ⟨extra, hextra⟩ := Memory.ofProgram_widened program hle
  have hwide : wide = m.widened extra := congrArg (Machine.mk · ..) hextra
  have hready : Ready m := ⟨rfl, ⟨_, rfl⟩, ⟨_, rfl⟩⟩
  have hroom : m.memory.capacity = room := Memory.capacity_ofProgram ..
  have hwideRoom : room + extra = wideRoom := by
    calc
      room + extra = (m.memory.widened extra).capacity := by
        rw [Memory.capacity_widened, hroom]
      _ = wide.memory.capacity := by rw [hwide]; rfl
      _ = wideRoom := Memory.capacity_ofProgram ..
  rw [hwide]
  constructor
  · intro final i hrun hhalted
    obtain ⟨hwider, hhalts⟩ := hhalted.widened hready hrun extra
    have hcapacity : final.memory.capacity = m.memory.capacity :=
      persists_capacity.run rfl hready.scripted hrun
    exact ⟨_, hwider, hhalts,
      enlarges_widened (hcapacity.trans hroom) hwideRoom⟩
  · intro f final hrun hfault
    have hwider := run_fault_widened hready hrun hfault extra
    have hcapacity : final.memory.capacity = m.memory.capacity :=
      persists_capacity.run rfl hready.scripted hrun
    exact ⟨_, hwider, enlarges_widened (hcapacity.trans hroom) hwideRoom⟩

/-- A program that uses its last cell does not notice two cells more. -/
theorem run_more_memory_last_cell :
    let m := Machine.ofProgram [1101, 5, 6, 5, 99] 6 (.script [])
      (.collected #[])
    let wide := Machine.ofProgram [1101, 5, 6, 5, 99] 8 (.script [])
      (.collected #[])
    let final : Machine :=
      { memory := ⟨#[1101, 5, 6, 5, 99, 11]⟩
        ip := 5
        status := .halted
        steps := 2
        input := .script []
        output := .collected #[]
        journal := #[
          .executing 1
            ⟨.add, [.immediate 5, .immediate 6, .position 5], 0, 11⟩,
          .executing 2 ⟨.halt, [], 4, 0⟩,
          .halted 2] }
    run {} 2 m = some (.ok () final) ∧ ∃ i, HaltedBy m final i ∧
      ∃ wider, run {} 2 wide = some (.ok () wider) ∧
        HaltedBy wide wider i ∧ Enlarges 6 8 final wider := by
  intro m wide final
  have hrun : run {} 2 m = some (.ok () final) := by decide +kernel
  have hready : Ready m := ⟨rfl, ⟨_, rfl⟩, ⟨_, rfl⟩⟩
  obtain ⟨i, hhalted⟩ :=
    (halted_of_run hready hrun).2.resolve_left (by decide)
  have hle : (6 : Int) ≤ 8 := by decide
  have hlarger := run_more_memory [1101, 5, 6, 5, 99] [] hle 2
  exact ⟨hrun, i, hhalted, hlarger.1 final i hrun hhalted⟩

end Machine

end IntcodeMachine
