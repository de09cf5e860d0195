/-!
Text on a page. A line feed ends a line; the other two line ends, the return
and the return with a line feed, are first made line feeds. Tab stops are eight
columns apart, and a place is named by its line and column, both counted from
one. Text that goes to no terminal is shown without the control sequences of
one.
-/

namespace IntcodeMachine.Text

/-- Makes every line end a line feed. -/
def unifyLineEnds : List Char → List Char
  | '\r' :: '\n' :: rest => '\n' :: unifyLineEnds rest
  | '\r' :: rest => '\n' :: unifyLineEnds rest
  | c :: rest => c :: unifyLineEnds rest
  | [] => []

/-- The first line of a text, with its line feed if it has one, and the text
after it. -/
def splitLine : List Char → List Char × List Char
  | [] => ([], [])
  | '\n' :: rest => (['\n'], rest)
  | c :: rest =>
      let (line, after) := splitLine rest
      (c :: line, after)

/-- The distance of two tab stops. -/
def tabStop : Nat := 8

/-- Puts spaces up to the next tab stop in place of each tab. The column goes
back to zero after a line feed or a return. -/
def expandTabsFrom : Nat → List Char → List Char
  | _, [] => []
  | column, '\t' :: rest =>
      let width := tabStop - column % tabStop
      List.replicate width ' ' ++ expandTabsFrom (column + width) rest
  | column, c :: rest =>
      c :: expandTabsFrom (if c = '\n' ∨ c = '\r' then 0 else column + 1) rest

def expandTabs (text : List Char) : List Char :=
  expandTabsFrom 0 text

/-- A place in a text. -/
structure Place where
  offset : Nat
  line : Nat
  column : Nat
deriving DecidableEq

/-- The place of the character that follows the given text. Lines are ended by
line feeds only. -/
def Place.after (before : List Char) : Place where
  offset := before.length
  line := before.count '\n' + 1
  column := (before.reverse.takeWhile (· ≠ '\n')).length + 1

section Controls

/-! A control sequence is an escape and an opening bracket, parameters,
intermediates and a final character. -/

def isParameterByte (c : Char) : Bool :=
  '0' ≤ c && c ≤ '?'

def isIntermediateByte (c : Char) : Bool :=
  ' ' ≤ c && c ≤ '/'

def isFinalByte (c : Char) : Bool :=
  '@' ≤ c && c ≤ '~'

/-- The length of the control sequence at the start of a text, or zero if none
starts there. -/
def controlLength : List Char → Nat
  | '\x1b' :: '[' :: rest =>
      let parameters := rest.takeWhile isParameterByte
      let rest := rest.dropWhile isParameterByte
      let intermediates := rest.takeWhile isIntermediateByte
      match rest.dropWhile isIntermediateByte with
      | c :: _ =>
          if isFinalByte c then parameters.length + intermediates.length + 3
          else 0
      | [] => 0
  | _ => 0

/-- The text without control sequences, after the given number of characters
have been left out. -/
def dropControlsFrom : Nat → List Char → List Char
  | _, [] => []
  | skipped + 1, _ :: rest => dropControlsFrom skipped rest
  | 0, c :: rest =>
      match controlLength (c :: rest) with
      | 0 => c :: dropControlsFrom 0 rest
      | length + 1 => dropControlsFrom length rest

/-- The text without control sequences. What is left is not looked at again. -/
def dropControls (text : List Char) : List Char :=
  dropControlsFrom 0 text

end Controls

end IntcodeMachine.Text
