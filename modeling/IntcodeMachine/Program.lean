import IntcodeMachine.Numeral
import IntcodeMachine.Text.Layout
import IntcodeMachine.Text.Quoted

/-!
Programs as texts. The literals of a program text are decimal numerals in plain
digits, separated by commas, with gaps before each of them. A text that is no
program is refused with the place where it stops being one, on a page whose
tabs have been expanded. A program is written with a comma between two of its
words.
-/

namespace IntcodeMachine.Program

open Text

section Literals

/-! Gaps are the space, the tab and the two characters of line ends. -/

def isGap (c : Char) : Bool :=
  c = ' ' || c = '\t' || c = '\n' || c = '\r'

def skipGaps (text : List Char) : List Char :=
  text.dropWhile isGap

/-- A numeral as it stands in a program text. -/
structure Literal where
  negative : Bool
  digits : List Char
deriving DecidableEq

namespace Literal

def value (l : Literal) : Int :=
  Numeral.ofDigits l.negative (l.digits.map fun c => c.toNat - '0'.toNat)

def TooLong (l : Literal) : Prop :=
  Numeral.digitLimit < l.digits.length

instance (l : Literal) : Decidable l.TooLong :=
  inferInstanceAs (Decidable (_ < _))

end Literal

/-- The literal at the start of a text and the text after it. It takes as many
digits as there are. -/
def literal? (text : List Char) : Option (Literal × List Char) :=
  let signed := Numeral.splitSign (skipGaps text)
  match signed.2.takeWhile Char.isDigit with
  | [] => none
  | digits => some (⟨signed.1, digits⟩, signed.2.dropWhile Char.isDigit)

/-- A comma and the literal after it. -/
def nextLiteral? (text : List Char) : Option (Literal × List Char) :=
  match skipGaps text with
  | ',' :: rest => literal? rest
  | _ => none

theorem length_dropWhile_le (p : Char → Bool) (text : List Char) :
    (text.dropWhile p).length ≤ text.length :=
  (List.dropWhile_sublist p).length_le

theorem length_splitSign_le (text : List Char) :
    (Numeral.splitSign text).2.length ≤ text.length := by
  unfold Numeral.splitSign
  split <;> simp

theorem length_literal?_le {text rest : List Char} {l : Literal}
    (h : literal? text = some (l, rest)) : rest.length ≤ text.length := by
  simp only [literal?] at h
  split at h
  · cases h
  · cases h
    have hrow := length_splitSign_le (skipGaps text)
    have hgaps := length_dropWhile_le isGap text
    have hrest := length_dropWhile_le Char.isDigit
      (Numeral.splitSign (skipGaps text)).2
    simp only [skipGaps] at hrow hrest ⊢
    omega

/-- A comma and a literal are taken off the text, so the rest is shorter. -/
theorem length_nextLiteral?_lt {text rest : List Char} {l : Literal}
    (h : nextLiteral? text = some (l, rest)) : rest.length < text.length := by
  unfold nextLiteral? at h
  split at h
  · next tail hgaps =>
      have htail := length_literal?_le h
      have hle := length_dropWhile_le isGap text
      simp only [skipGaps] at hgaps
      rw [hgaps] at hle
      simp only [List.length_cons] at hle
      omega
  · cases h

/-- All literals that follow, each after a comma, and the text after the last
of them. -/
def moreLiterals (text : List Char) : List Literal × List Char :=
  match h : nextLiteral? text with
  | none => ([], text)
  | some (l, rest) =>
      have := length_nextLiteral?_lt h
      let (ls, after) := moreLiterals rest
      (l :: ls, after)
termination_by text.length

/-- The longest list of literals at the start of a text, of at least one. -/
def literals? (text : List Char) : Option (List Literal × List Char) := do
  let (l, rest) ← literal? text
  let (ls, after) := moreLiterals rest
  return (l :: ls, after)

end Literals

/-- What a program text should have at some place. -/
inductive Expectation where
  | integer
  | endOfText
deriving DecidableEq

def Expectation.text : Expectation → String
  | .integer => "Re:('[+-]?[0-9]+')"
  | .endOfText => "end of text"

/-- Why a text is no program. -/
inductive ReadError where
  | empty
  | tooManyDigits (count : Nat)
  | malformed (expected : Expectation) (found : List Char) (place : Place)
deriving DecidableEq

def ReadError.message : ReadError → String
  | .empty => "Empty program"
  | .tooManyDigits count =>
      Numeral.limitExceeded ++ ": value has " ++ toString count ++
        " digits" ++ Numeral.limitAdvice
  | .malformed expected found place =>
      "Malformed program: Expected " ++ expected.text ++ ", found " ++
        String.ofList (halveBackslashes (quote found)) ++
        "  (at char " ++ toString place.offset ++ "), (line:" ++
        toString place.line ++ ", col:" ++ toString place.column ++ ")"

/-- The error of a page on which something else was expected where the given
rest starts. -/
def malformedAt (expected : Expectation) (page rest : List Char) : ReadError :=
  .malformed expected (leadingWord rest)
    (.after (page.take (page.length - rest.length)))

/-- Reads a page without tabs. A literal that is too long is refused before
the text after the last literal is looked at. -/
def readPage (page : List Char) : Except ReadError (List Int) :=
  match literals? page with
  | none => .error (malformedAt .integer page (skipGaps page))
  | some (ls, rest) =>
      match ls.find? (·.TooLong) with
      | some l => .error (.tooManyDigits l.digits.length)
      | none =>
          match skipGaps rest with
          | [] => .ok (ls.map Literal.value)
          | left => .error (malformedAt .endOfText page left)

/-- Reads a program. A text of blanks alone is an empty program, which is
refused as such. -/
def read (text : List Char) : Except ReadError (List Int) :=
  if text.all isBlank then .error .empty
  else readPage (expandTabs text)

/-- The words of a program in decimal, with a comma between two of them. -/
def render (program : List Int) : List Char :=
  [','].intercalate (program.map Numeral.chars)

end IntcodeMachine.Program
