import IntcodeMachine.Proofs.Stepping

/-!
A step that fails changes nothing that it would have changed. Only the pointer
and the count have moved, by the phase in which the step failed, and a line
that holds no number is used up. The one exception is a step that is complete
but for the event that tells of it: a stored input or a moved base stays.
-/

namespace IntcodeMachine.Machine

variable {r : Reporting} {m next : Machine} {stop : Stop}

/-- The memory, the relative base, the status and the output are as before. -/
structure Keeps (m next : Machine) : Prop where
  memory : next.memory = m.memory
  base : next.base = m.base
  status : next.status = m.status
  output : next.output = m.output

/-- Where a failed step leaves the pointer and the count: a step that could not
be decoded is not counted and has moved past the first word at most. -/
def LeavesRegisters (m next : Machine) : Prop :=
  match decode {} m with
  | .error _ _ =>
      next.steps = m.steps ∧
        next.ip = if m.memory.InBounds m.ip then m.ip + 1 else m.ip
  | .ok i _ => next.steps = m.steps + 1 ∧ next.ip = m.ip + 1 + i.opcode.arity

/-- What a failed step leaves of the script: all of it, or all but a malformed
line at its head. -/
def LeavesScript (m : Machine) (stop : Stop) (next : Machine) : Prop :=
  (∃ text line queue, stop = .fault (.inputMalformed text) ∧
    m.input = .script (.line line :: queue) ∧ next.input = .script queue) ∨
  ((∀ text, stop ≠ .fault (.inputMalformed text)) ∧ next.input = m.input)

/-- The step is complete but for its last event, which cannot be written. -/
structure LastEventLost (m next : Machine) (event : Event) : Prop where
  complete : Transition m (.ok () (next.noted event))
  listed : ∀ i, Encodes m.memory i → i.position = m.ip →
    ∀ n ∈ (m.line i).numbers, Numeral.Fits Numeral.digitLimit n
  lost : ¬ ∀ n ∈ event.numbers, Numeral.Fits Numeral.digitLimit n

/-- An operation that fails has changed nothing but a script with a malformed
line at its head. -/
theorem Execution.error_cases {op : Opcode} {params : List Parameter}
    (h : Execution m op params (.error stop next)) :
    (next = m ∧ ∀ text, stop ≠ .fault (.inputMalformed text)) ∨
      ∃ line queue, m.input = .script (.line line :: queue) ∧
        stop = .fault
          (.inputMalformed (String.ofList (Text.trim line.toList))) ∧
        next = { m with input := .script queue } := by
  cases h with
  | refused hrefuses =>
      left
      refine ⟨rfl, ?_⟩
      intro text heq
      cases heq
      cases hrefuses
  | malformed hnames hin hinput hread =>
      exact Or.inr ⟨_, _, hinput, rfl, rfl⟩
  | exhausted hnames hin hinput =>
      left
      refine ⟨rfl, ?_⟩
      intro text heq
      cases heq
  | halted =>
      left
      refine ⟨rfl, ?_⟩
      intro text heq
      cases heq

theorem Undecodable.next_eq {f : Fault} (h : m.Undecodable f next) :
    next = { m with
      ip := if m.memory.InBounds m.ip then m.ip + 1 else m.ip } := by
  cases h with
  | word hout => rw [if_neg hout]
  | opcode hword _ => rw [if_pos (Memory.inBounds_of_get? hword)]
  | parameter _ hword _ _ _ => rw [if_pos (Memory.inBounds_of_get? hword)]

theorem Undecodable.ne_inputMalformed {f : Fault} (h : m.Undecodable f next)
    (text : String) : f ≠ .inputMalformed text := by
  rintro rfl
  cases h with
  | parameter _ _ _ _ hlacks => cases hlacks

theorem Transition.keeps (h : Transition m (.error stop next)) :
    Keeps m next := by
  cases h with
  | undecodable hundecodable =>
      rw [hundecodable.next_eq]
      exact ⟨rfl, rfl, rfl, rfl⟩
  | executed _ _ hexecution =>
      rcases hexecution.error_cases with ⟨rfl, _⟩ | ⟨_, _, _, _, rfl⟩
      · exact ⟨rfl, rfl, rfl, rfl⟩
      · exact ⟨rfl, rfl, rfl, rfl⟩

theorem leavesRegisters_of_undecodable {f : Fault}
    (h : m.Undecodable f next) : LeavesRegisters m next := by
  rw [LeavesRegisters, decode_eq_error_iff.mpr ⟨f, h, rfl⟩, h.next_eq]
  exact ⟨rfl, rfl⟩

theorem leavesRegisters_of_encodes {i : Instruction}
    (hencodes : Encodes m.memory i) (hposition : i.position = m.ip)
    (hsteps : next.steps = m.steps + 1)
    (hip : next.ip = m.ip + 1 + i.opcode.arity) : LeavesRegisters m next := by
  rw [LeavesRegisters, decode_eq_ok_iff.mpr ⟨hencodes, hposition, rfl⟩]
  exact ⟨hsteps, hip⟩

theorem Transition.leavesRegisters (h : Transition m (.error stop next)) :
    LeavesRegisters m next := by
  cases h with
  | undecodable hundecodable =>
      exact leavesRegisters_of_undecodable hundecodable
  | executed hencodes hposition hexecution =>
      apply leavesRegisters_of_encodes hencodes hposition
      · rcases hexecution.error_cases with ⟨rfl, _⟩ | ⟨_, _, _, _, rfl⟩ <;> rfl
      · rcases hexecution.error_cases with ⟨rfl, _⟩ | ⟨_, _, _, _, rfl⟩ <;> rfl

theorem Transition.leavesScript (h : Transition m (.error stop next)) :
    LeavesScript m stop next := by
  cases h with
  | undecodable hundecodable =>
      right
      constructor
      · intro text heq
        cases heq
        exact hundecodable.ne_inputMalformed text rfl
      · rw [hundecodable.next_eq]
  | executed _ _ hexecution =>
      rcases hexecution.error_cases with
        ⟨rfl, hne⟩ | ⟨line, queue, hinput, rfl, rfl⟩
      · exact Or.inr ⟨hne, rfl⟩
      · exact Or.inl ⟨_, line, queue, rfl, hinput, rfl⟩

/-- The effect that an operation has had when it lacks only its last event. -/
inductive FollowedUp (memory : Memory) (base : Int) (next : Machine) :
    Opcode → Event → Prop where
  | stored {d v : Int} : memory.InBounds d → next.memory = memory.set d v →
      FollowedUp memory base next .input (.stored d v)
  | rebased {v : Int} : next.base = base + v →
      FollowedUp memory base next .adjustBase (.rebased (base + v))

/-- Only a stored input and a moved base are told after the fact. -/
theorem Execution.followUp_cases {op : Opcode} {params : List Parameter}
    (h : Execution m op params (.ok () next))
    (hnot : ¬ ∀ n ∈ m.reported (.ok () next), r.Writes n) :
    next.ip = m.ip ∧ next.steps = m.steps ∧
      ∃ event, next = (untold (.ok () next)).noted event ∧
        FollowedUp m.memory m.base (untold (.ok () next)) op event ∧
        ¬ ∀ n ∈ event.numbers, r.Writes n := by
  cases h with
  | @accepted _ d v _ _ _ hin _ _ =>
      refine ⟨rfl, rfl, .stored d v, by rw [untold_noted], ?_, ?_⟩
      · rw [untold_noted]
        exact .stored hin rfl
      · simpa only [reported, numbersSince_noted] using hnot
  | @rebased _ v _ =>
      refine ⟨rfl, rfl, .rebased (m.base + v), by rw [untold_noted], ?_, ?_⟩
      · rw [untold_noted]
        exact .rebased rfl
      · simpa only [reported, numbersSince_noted] using hnot
  | stored | sent | jumped | passed =>
      simp [reported, numbersSince_of_journal_eq] at hnot

/-- A failed step is atomic. Whether it stops with a fault, at a halt or at a
numeral that is too long, all is as before but the pointer, the count and a
malformed line; only the loss of a last event comes after an effect. -/
theorem failed_step_atomic (hscripted : m.Scripted)
    (h : step {} m = .error stop next) :
    LeavesRegisters m next ∧
      ((Keeps m next ∧ LeavesScript m stop next) ∨
        (stop = .tooManyDigits ∧ ∃ i decoded event,
          decode {} m = .ok i decoded ∧
          FollowedUp m.memory m.base next i.opcode event ∧
          LastEventLost m next event)) := by
  have hlimited : LimitedStep {} m (.error stop next) := by
    rw [← h]
    exact limitedStep rfl hscripted
  cases hlimited with
  | told htransition _ =>
      refine ⟨htransition.leavesRegisters, Or.inl ?_⟩
      exact ⟨htransition.keeps, htransition.leavesScript⟩
  | @message f _ htransition _ hlost =>
      refine ⟨htransition.leavesRegisters, Or.inl ⟨htransition.keeps, ?_⟩⟩
      rcases htransition.leavesScript with
        ⟨text, _, _, heq, _, _⟩ | ⟨_, hinput⟩
      · cases heq
        simp [Fault.numbers] at hlost
      · exact Or.inr ⟨by simp, hinput⟩
  | line hencodes hposition _ =>
      refine ⟨leavesRegisters_of_encodes hencodes hposition rfl rfl, Or.inl ?_⟩
      exact ⟨⟨rfl, rfl, rfl, rfl⟩, Or.inr ⟨by simp, rfl⟩⟩
  | @followUp i done hencodes hposition hline hexecution hnot =>
      obtain ⟨hip, hsteps, event, hdone, hfollowed, hlost⟩ :=
        hexecution.followUp_cases hnot
      simp only [writes_default] at hline hlost
      refine ⟨leavesRegisters_of_encodes hencodes hposition hsteps hip,
        Or.inr ⟨rfl, i, { m with ip := m.ip + 1 + i.opcode.arity }, event, ?_,
          hfollowed, ?_, ?_, hlost⟩⟩
      · exact decode_eq_ok_iff.mpr ⟨hencodes, hposition, rfl⟩
      · rw [← hdone]
        exact .executed hencodes hposition hexecution
      · intro j hj hjposition
        rw [hj.unique hencodes (hjposition.trans hposition.symm)]
        exact hline

/-- A line without a number is used up, and nothing is stored. -/
theorem failed_step_atomic_malformed_line :
    let m := Machine.ofProgram [3, 0] 2 (.script [.line " x ", .number 5])
      (.collected #[7])
    let next := { m.listed ⟨.input, [.position 0], 0, 0⟩ with
      input := .script [.number 5] }
    m.Scripted ∧ step {} m = .error (.fault (.inputMalformed "x")) next ∧
      LeavesRegisters m next ∧ Keeps m next ∧
      LeavesScript m (.fault (.inputMalformed "x")) next := by
  intro m next
  have hscripted : m.Scripted := ⟨⟨_, rfl⟩, ⟨_, rfl⟩⟩
  have hstep : step {} m = .error (.fault (.inputMalformed "x")) next := by
    decide +kernel
  obtain ⟨hregisters, hkept⟩ := failed_step_atomic hscripted hstep
  exact ⟨hscripted, hstep, hregisters, hkept.resolve_right (by simp)⟩

end IntcodeMachine.Machine
