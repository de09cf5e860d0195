import IntcodeMachine.Fault

/-!
Memory of a fixed number of words. Every access is checked: an address below
zero or past the last cell is a fault that names it, and nothing changes.
-/

namespace IntcodeMachine

structure Memory where
  cells : Array Int
deriving DecidableEq

namespace Memory

/-- The capacity of a machine for which none is given, in words. -/
def defaultSize : Int := 4096

/-- A program at the start of the memory and zeros up to the given size. A
program that is longer than the size takes the room it needs. -/
def ofProgram (program : List Int) (size : Int) : Memory where
  cells :=
    program.toArray ++ Array.replicate (size.toNat - program.length) 0

/-- Why a memory cannot be had. -/
inductive AllocationError where
  | exhausted
  | unaddressable
deriving DecidableEq

def AllocationError.message : AllocationError → String
  | .exhausted => ""
  | .unaddressable => "cannot fit 'int' into an index-sized integer"

/-- The largest number of zeros that can be asked for. -/
def largestRequest : Int := 0x7FFFFFFFFFFFFFFF

/-- The memory of a program, if its zeros can be had. The host has room for the
given number of them. -/
def allocate (room : Nat) (program : List Int) (size : Int) :
    Except AllocationError Memory :=
  let zeros := size - program.length
  if largestRequest < zeros then .error .unaddressable
  else if room < zeros then .error .exhausted
  else .ok (ofProgram program size)

def capacity (memory : Memory) : Nat :=
  memory.cells.size

def InBounds (memory : Memory) (address : Int) : Prop :=
  0 ≤ address ∧ address < memory.capacity

instance (memory : Memory) (address : Int) :
    Decidable (memory.InBounds address) :=
  inferInstanceAs (Decidable (_ ∧ _))

/-- The word at an address, if there is such a cell. -/
def get? (memory : Memory) (address : Int) : Option Int :=
  if 0 ≤ address then memory.cells[address.toNat]? else none

/-- Puts a word into a cell; without such a cell nothing changes. -/
def set (memory : Memory) (address value : Int) : Memory :=
  if 0 ≤ address then ⟨memory.cells.setIfInBounds address.toNat value⟩
  else memory

/-- Refuses an address that has no cell. -/
def check (memory : Memory) (address : Int) : Except Fault Unit :=
  if memory.InBounds address then .ok () else .error (.outOfBounds address)

def read (memory : Memory) (address : Int) : Except Fault Int :=
  match memory.get? address with
  | some word => .ok word
  | none => .error (.outOfBounds address)

def write (memory : Memory) (address value : Int) : Except Fault Memory := do
  memory.check address
  return memory.set address value

/-- The memory of a program can be had exactly if there is room for its zeros,
and as many can be asked for. -/
theorem allocate_eq_ok_iff {room : Nat} {program : List Int} {size : Int}
    {memory : Memory} :
    allocate room program size = .ok memory ↔
      size ≤ program.length + largestRequest ∧ size ≤ program.length + room ∧
        memory = ofProgram program size := by
  simp only [allocate]
  split
  · simp
    omega
  · split
    · simp
      omega
    · simp only [Except.ok.injEq, eq_comm]
      constructor
      · intro h
        exact ⟨by omega, by omega, h⟩
      · rintro ⟨_, _, h⟩
        exact h

@[simp] theorem capacity_ofProgram (program : List Int) (size : Int) :
    (ofProgram program size).capacity = max size.toNat program.length := by
  simp [ofProgram, capacity]
  omega

@[simp] theorem capacity_set (memory : Memory) (address value : Int) :
    (memory.set address value).capacity = memory.capacity := by
  unfold set capacity
  split <;> simp

/-- Exactly the addresses in bounds have a word. -/
theorem isSome_get? {memory : Memory} {address : Int} :
    (memory.get? address).isSome = true ↔ memory.InBounds address := by
  unfold get? InBounds capacity
  split
  · simp
    omega
  · simp
    omega

/-- A cell holds the word that was put into it, and the others keep theirs. -/
theorem get?_set (memory : Memory) (address value i : Int) :
    (memory.set address value).get? i =
      if i = address ∧ memory.InBounds address then some value
      else memory.get? i := by
  unfold set get? InBounds capacity
  by_cases haddress : 0 ≤ address
  · by_cases hi : 0 ≤ i
    · simp only [haddress, hi, if_true, Array.getElem?_setIfInBounds]
      by_cases heq : i = address
      · subst heq
        by_cases hbound : i.toNat < memory.cells.size
        · simp [hbound, show i < memory.cells.size by omega]
        · simp [hbound, show ¬ i < memory.cells.size by omega]
      · simp [heq, show address.toNat ≠ i.toNat by omega]
    · simp [haddress, hi, show i ≠ address by omega]
  · simp [haddress]

theorem read_eq_ok_iff {memory : Memory} {address word : Int} :
    memory.read address = .ok word ↔ memory.get? address = some word := by
  unfold read
  cases memory.get? address <;> simp

theorem read_eq_error_iff {memory : Memory} {address : Int} {f : Fault} :
    memory.read address = .error f ↔
      ¬ memory.InBounds address ∧ f = .outOfBounds address := by
  rw [← isSome_get?]
  unfold read
  cases memory.get? address with
  | none => simp [eq_comm]
  | some word => simp

end Memory

end IntcodeMachine
