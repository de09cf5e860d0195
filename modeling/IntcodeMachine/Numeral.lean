import IntcodeMachine.Text.Characters

/-!
Decimal numerals as they are written and read. A numeral is written with a
minus sign for negative numbers, then the digits of the magnitude without
leading zeros; a report may refuse numbers whose numeral would be too long. It
is read with at most one sign and digits of any script, single underscores
allowed between two digits. Its length counts digits only, leading zeros
included.
-/

namespace IntcodeMachine.Numeral

open Text

/-- The longest numeral that can be read or written, in digits. -/
def digitLimit : Nat := 4300

/-- The complaints about a numeral beyond the limit start and end alike. -/
def limitExceeded : String :=
  "Exceeds the limit (" ++ toString digitLimit ++
    " digits) for integer string conversion"

def limitAdvice : String :=
  "; use sys.set_int_max_str_digits() to increase the limit"

/-- A number fits in a limit when its magnitude has no more digits. -/
def Fits (limit : Nat) (n : Int) : Prop :=
  n.natAbs < Nat.pow 10 limit

/-- Three bits are less than a decimal digit, so that few enough bits show that
a number fits. -/
theorem fits_of_log2_lt {limit : Nat} {n : Int}
    (h : n.natAbs.log2 < 3 * limit) : Fits limit n := by
  have hbits : Nat.pow 2 (n.natAbs.log2 + 1) ≤ Nat.pow 2 (3 * limit) :=
    Nat.pow_le_pow_right (by decide) h
  have hdigits : Nat.pow 2 (3 * limit) ≤ Nat.pow 10 limit := by
    rw [Nat.pow_eq, Nat.pow_mul]
    exact Nat.pow_le_pow_left (by decide) limit
  exact Nat.lt_of_lt_of_le Nat.lt_log2_self (Nat.le_trans hbits hdigits)

/-- Counts bits first: the power of ten is needed near the limit only. -/
instance (limit : Nat) (n : Int) : Decidable (Fits limit n) :=
  if h : n.natAbs.log2 < 3 * limit then .isTrue (fits_of_log2_lt h)
  else inferInstanceAs (Decidable (n.natAbs < Nat.pow 10 limit))

/-- The digits of a number without sign. -/
def digits (n : Nat) : List Char :=
  Nat.toDigits 10 n

def sign (n : Int) : List Char :=
  if n < 0 then ['-'] else []

/-- The numeral of a number. -/
def chars (n : Int) : List Char :=
  sign n ++ digits n.natAbs

def write (n : Int) : String :=
  String.ofList (chars n)

/-- The numeral with zeros after its sign, up to the given width. -/
def writePadded (width : Nat) (n : Int) : String :=
  String.ofList
    (sign n ++ (digits n.natAbs).leftpad (width - (sign n).length) '0')

/-- The numeral with spaces before it, up to the given width. -/
def writeAligned (width : Nat) (n : Int) : String :=
  String.ofList ((chars n).leftpad width ' ')

@[simp] theorem toList_write (n : Int) : (write n).toList = chars n := by
  simp [write]

/-- Takes the sign off a numeral and tells whether it is a minus. -/
def splitSign : List Char → Bool × List Char
  | '-' :: rest => (true, rest)
  | '+' :: rest => (false, rest)
  | text => (false, text)

/-- The value of a row of digits, most significant first. -/
def natOfDigits (values : List Nat) : Nat :=
  values.foldl (fun n d => 10 * n + d) 0

/-- The number of a sign and a row of digits. -/
def ofDigits (negative : Bool) (values : List Nat) : Int :=
  if negative then -(natOfDigits values : Int) else natOfDigits values

/-- The digits of a row in which single underscores may stand between two
digits. A row without digits is none. -/
def digitRow? : List Char → Option (List Nat)
  | [] => none
  | [c] => (digitValue? c).map ([·])
  | c :: '_' :: rest => do
      let d ← digitValue? c
      let ds ← digitRow? rest
      return d :: ds
  | c :: rest => do
      let d ← digitValue? c
      let ds ← digitRow? rest
      return d :: ds

/-- Reads a text that is a numeral and nothing else. -/
def read? (text : List Char) : Option Int := do
  let (negative, row) := splitSign text
  let values ← digitRow? row
  if values.length ≤ digitLimit then
    return ofDigits negative values
  else none

/-- The white space that may stand around a numeral on a command line: any
blank but the separators U+001C to U+001F. -/
def isMargin (c : Char) : Bool :=
  isBlank c && !inRanges [(0x1C, 0x1F)] c

/-- Reads a numeral given on a command line. -/
def readArgument? (text : String) : Option Int :=
  read? (trimBy isMargin text.toList)

end IntcodeMachine.Numeral
