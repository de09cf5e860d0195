import IntcodeMachine.Numeral

/-!
Instructions: an operation and its parameters, the address of the word they
were decoded from, and the mode digits of that word. An operation is written as
a number; what is known of it stands in tables with these numbers as keys. A
parameter is a raw word and the mode in which it is meant; modes are written as
decimal digits above the opcode, lowest first.
-/

namespace IntcodeMachine

inductive Opcode where
  | add
  | multiply
  | input
  | output
  | jumpIfTrue
  | jumpIfFalse
  | lessThan
  | equals
  | adjustBase
  | halt
deriving DecidableEq

namespace Opcode

/-- Every operation, in the order of their numbers. -/
def all : List Opcode :=
  [.add, .multiply, .input, .output, .jumpIfTrue, .jumpIfFalse, .lessThan,
   .equals, .adjustBase, .halt]

/-- The number that stands for an operation in the two low digits of a word. -/
def code : Opcode → Int
  | .add => 1
  | .multiply => 2
  | .input => 3
  | .output => 4
  | .jumpIfTrue => 5
  | .jumpIfFalse => 6
  | .lessThan => 7
  | .equals => 8
  | .adjustBase => 9
  | .halt => 99

def ofCode? : Int → Option Opcode
  | 1 => some .add
  | 2 => some .multiply
  | 3 => some .input
  | 4 => some .output
  | 5 => some .jumpIfTrue
  | 6 => some .jumpIfFalse
  | 7 => some .lessThan
  | 8 => some .equals
  | 9 => some .adjustBase
  | 99 => some .halt
  | _ => none

/-- How many parameters follow the word of an operation, by its number. -/
def arities : List (Int × Nat) :=
  [(code .add, 3), (code .multiply, 3), (code .input, 1), (code .output, 1),
   (code .jumpIfTrue, 2), (code .jumpIfFalse, 2), (code .lessThan, 3),
   (code .equals, 3), (code .adjustBase, 1), (code .halt, 0)]

/-- The name of an operation in a trace, by its number. -/
def mnemonics : List (Int × String) :=
  [(code .add, "ADD"), (code .multiply, "MUL"), (code .input, "INPUT"),
   (code .output, "OUTPUT"), (code .jumpIfTrue, "JUMP-TRUE"),
   (code .jumpIfFalse, "JUMP-FALSE"), (code .lessThan, "LESSTHAN"),
   (code .equals, "EQUALS"), (code .adjustBase, "RELBASE"),
   (code .halt, "HALT")]

/-- The number of parameters of an operation, which has an entry. -/
def arity (op : Opcode) : Nat :=
  (arities.lookup op.code).getD 0

/-- The name of an operation, which has an entry. -/
def mnemonic (op : Opcode) : String :=
  (mnemonics.lookup op.code).getD ""

theorem lookup_arities (op : Opcode) :
    arities.lookup op.code = some op.arity := by
  cases op <;> rfl

theorem lookup_mnemonics (op : Opcode) :
    mnemonics.lookup op.code = some op.mnemonic := by
  cases op <;> rfl

@[simp] theorem ofCode?_code (op : Opcode) : ofCode? op.code = some op := by
  cases op <;> rfl

/-- A number stands for at most one operation, and for the one it is the code
of. -/
theorem ofCode?_eq_some_iff {n : Int} {op : Opcode} :
    ofCode? n = some op ↔ n = op.code := by
  constructor
  · intro h
    unfold ofCode? at h
    split at h <;> cases h <;> rfl
  · rintro rfl
    exact ofCode?_code op

end Opcode

/-- The opcode of a word is its truncated remainder by this number. -/
abbrev opcodeBase : Int := 100

/-- The number in the two low digits of a word. It has the sign of the word,
so that no negative word has the number of an operation. -/
def opcodeOf (word : Int) : Int :=
  word.tmod opcodeBase

/-- The digits of a word above its opcode. -/
def modesOf (word : Int) : Int :=
  word / opcodeBase

inductive Mode where
  | position
  | immediate
  | relative
deriving DecidableEq

/-- A raw word with the way it is meant: the address of a value, the value
itself, or an address counted from the relative base. A word may also be left
without a mode; then it names neither a value nor an address. -/
inductive Parameter where
  | position (value : Int)
  | immediate (value : Int)
  | relative (value : Int)
  | untagged (value : Int)
deriving DecidableEq

/-- One decimal digit per parameter. -/
abbrev modeBase : Int := 10

namespace Mode

def digit : Mode → Int
  | .position => 0
  | .immediate => 1
  | .relative => 2

def ofDigit? : Int → Option Mode
  | 0 => some .position
  | 1 => some .immediate
  | 2 => some .relative
  | _ => none

/-- Gives a raw word its mode. -/
def tag : Mode → Int → Parameter
  | .position => .position
  | .immediate => .immediate
  | .relative => .relative

@[simp] theorem ofDigit?_digit (m : Mode) : ofDigit? m.digit = some m := by
  cases m <;> rfl

theorem ofDigit?_eq_some_iff {n : Int} {m : Mode} :
    ofDigit? n = some m ↔ n = m.digit := by
  constructor
  · intro h
    unfold ofDigit? at h
    split at h <;> cases h <;> rfl
  · rintro rfl
    exact ofDigit?_digit m

end Mode

namespace Parameter

def value : Parameter → Int
  | .position v | .immediate v | .relative v | .untagged v => v

/-- The letter of a parameter's mode in a trace. -/
def letter : Parameter → String
  | .position _ => "P"
  | .immediate _ => "I"
  | .relative _ => "R"
  | .untagged _ => "?"

def text (p : Parameter) : String :=
  p.letter ++ "(" ++ Numeral.write p.value ++ ")"

@[simp] theorem value_tag (m : Mode) (v : Int) : (m.tag v).value = v := by
  cases m <;> rfl

end Parameter

structure Instruction where
  opcode : Opcode
  params : List Parameter
  position : Int
  modes : Int
deriving DecidableEq

/-- The text of an operation with its parameters. -/
def Opcode.textWith (op : Opcode) (params : List Parameter) : String :=
  op.mnemonic ++ " [" ++ ", ".intercalate (params.map Parameter.text) ++ "]"

namespace Instruction

def text (i : Instruction) : String :=
  i.opcode.textWith i.params

/-- The numbers whose numerals stand in the text. -/
def numbers (i : Instruction) : List Int :=
  i.params.map Parameter.value

/-- The word that an instruction was decoded from. -/
def word (i : Instruction) : Int :=
  i.opcode.code + opcodeBase * i.modes

end Instruction

end IntcodeMachine
