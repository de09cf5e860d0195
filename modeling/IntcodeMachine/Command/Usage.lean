import IntcodeMachine.Numeral
import IntcodeMachine.Text.Layout
import IntcodeMachine.Text.Quoted

/-!
The command's own texts: its usage, its help, and what it says when it is
called in a way that it does not know. A name that it does not know may be a
misspelt one. How alike two words are is told by what they share: the longest
common piece is matched first, then the parts left and right of it in the same
way; the ratio of matched characters to all characters is the similarity.
-/

namespace IntcodeMachine.Text

/-- The number of characters on which two texts agree from their start. -/
def commonStart : List Char → List Char → Nat
  | a :: as, b :: bs => if a = b then commonStart as bs + 1 else 0
  | _, _ => 0

/-- A piece that two texts share: where it starts in each, and its length. -/
structure Piece where
  left : Nat
  right : Nat
  length : Nat

/-- All pieces that start at some pair of places, left places first. -/
def pieces (a b : List Char) : List Piece :=
  (List.range a.length).flatMap fun i =>
    (List.range b.length).map fun j =>
      ⟨i, j, commonStart (a.drop i) (b.drop j)⟩

/-- The longest piece; of several, the first. -/
def longestPiece (a b : List Char) : Piece :=
  (pieces a b).foldl (fun best p => if best.length < p.length then p else best)
    ⟨0, 0, 0⟩

/-- The number of characters matched, with at most the given number of pieces
along any chain of parts. -/
def matchedWithin : Nat → List Char → List Char → Nat
  | 0, _, _ => 0
  | fuel + 1, a, b =>
      let p := longestPiece a b
      if p.length = 0 then 0
      else
        matchedWithin fuel (a.take p.left) (b.take p.right) + p.length +
          matchedWithin fuel (a.drop (p.left + p.length))
            (b.drop (p.right + p.length))

/-- The number of characters matched. Every piece uses up a character of the
first text, so its length bounds the chain. -/
def matched (a b : List Char) : Nat :=
  matchedWithin (a.length + 1) a b

/-- At least three fifths of all characters: the given number of characters is
matched in each of two texts. -/
def mostOf (matched : Nat) (a b : List Char) : Bool :=
  3 * (a.length + b.length) ≤ 10 * matched

/-- Two texts are alike when most of their characters are matched. Texts of too
different lengths are not compared. -/
def alike (a b : List Char) : Bool :=
  mostOf (min a.length b.length) a b && mostOf (matched a b) a b

/-- The texts that are alike to a given one, the most similar first and of
equally similar ones the later in order. -/
def alikeFirst (texts : List String) (text : String) : List String :=
  let closer (a b : String) : Bool :=
    let left := matched a.toList text.toList * (b.length + text.length)
    let right := matched b.toList text.toList * (a.length + text.length)
    right < left || (left = right && b ≤ a)
  (texts.filter fun a => alike a.toList text.toList).mergeSort closer

end IntcodeMachine.Text

namespace IntcodeMachine.Command

open Text

def usage : String :=
  "Usage: intcode [OPTIONS] PROGRAM_FILENAME\n"

def helpText : String :=
  usage ++ "\n" ++
  "Options:\n" ++
  "  -v, --verbose                   Sets logging level to debug and traces\n" ++
  "                                  execution\n" ++
  "  -m, --memory-size INTEGER RANGE\n" ++
  "                                  Memory capacity in words  [default: 4096;\n" ++
  "                                  x>=1]\n" ++
  "  -i, --input INTEGER             Scripted input value, may be repeated; reads\n" ++
  "                                  stdin otherwise\n" ++
  "  --help                          Show this message and exit.\n"

/-- Why a call of the command is refused. -/
inductive UsageError where
  | noSuchOption (name : String) (alike : List String)
  | valueMissing (name : String)
  | valueUnexpected (name : String)
  | invalidSize (text : String)
  | sizeTooSmall (size : Int)
  | invalidInput (text : String)
  | argumentMissing
  | fileMissing (path : String)
  | fileIsDirectory (path : String)
  | extraArguments (arguments : List String)
deriving DecidableEq

namespace UsageError

/-- The hint after the name of an option that does not exist. -/
def suggestion : List String → String
  | [] => ""
  | [name] => " Did you mean " ++ quoted name ++ "?"
  | names =>
      " (Did you mean one of: " ++ ", ".intercalate (names.map quoted) ++ "?)"

def message : UsageError → String
  | .noSuchOption name alike =>
      "No such option " ++ quoted name ++ "." ++ suggestion alike
  | .valueMissing name => "Option " ++ quoted name ++ " requires an argument."
  | .valueUnexpected name =>
      "Option " ++ quoted name ++ " does not take a value."
  | .invalidSize text =>
      "Invalid value for '-m' / '--memory-size': " ++ quoted text ++
        " is not a valid integer range."
  | .sizeTooSmall size =>
      "Invalid value for '-m' / '--memory-size': " ++ Numeral.write size ++
        " is not in the range x>=1."
  | .invalidInput text =>
      "Invalid value for '-i' / '--input': " ++ quoted text ++
        " is not a valid integer."
  | .argumentMissing => "Missing argument 'PROGRAM_FILENAME'."
  | .fileMissing path =>
      "Invalid value for 'PROGRAM_FILENAME': File " ++ quoted path ++
        " does not exist."
  | .fileIsDirectory path =>
      "Invalid value for 'PROGRAM_FILENAME': File " ++ quoted path ++
        " is a directory."
  | .extraArguments [argument] =>
      "Got unexpected extra argument (" ++ argument ++ ")"
  | .extraArguments arguments =>
      "Got unexpected extra arguments (" ++ " ".intercalate arguments ++ ")"

/-- A wrong use of an option's value is reported without the usage. -/
def bare : UsageError → Bool
  | .valueMissing _ | .valueUnexpected _ => true
  | _ => false

/-- What is written about the error, without control sequences. -/
def report (e : UsageError) : String :=
  let hint := if e.bare then "" else usage ++ "Try 'intcode --help' for help.\n\n"
  let text := hint ++ "Error: " ++ e.message ++ "\n"
  String.ofList (dropControls text.toList)

end UsageError

end IntcodeMachine.Command
