/-!
Classes of characters. A class is a list of inclusive ranges of code points,
and membership is a scan of that list.
-/

namespace IntcodeMachine.Text

/-- A character belongs to a list of ranges when one of them holds its code
point, both ends included. -/
def inRanges (ranges : List (Nat × Nat)) (c : Char) : Bool :=
  ranges.any fun range => range.1 ≤ c.toNat && c.toNat ≤ range.2

theorem inRanges_iff {ranges : List (Nat × Nat)} {c : Char} :
    inRanges ranges c = true ↔
      ∃ range ∈ ranges, range.1 ≤ c.toNat ∧ c.toNat ≤ range.2 := by
  simp [inRanges]

section Blanks

/-! A blank is any of the twenty-nine characters that a standard of written
text counts as white space, the four separators U+001C to U+001F among them. -/

def blankRanges : List (Nat × Nat) :=
  [(0x9, 0xD), (0x1C, 0x20), (0x85, 0x85), (0xA0, 0xA0), (0x1680, 0x1680),
   (0x2000, 0x200A), (0x2028, 0x2029), (0x202F, 0x202F), (0x205F, 0x205F),
   (0x3000, 0x3000)]

def isBlank (c : Char) : Bool :=
  inRanges blankRanges c

/-- Drops the characters of a class from both ends of a text and keeps all
that stands between them. -/
def trimBy (skipped : Char → Bool) (text : List Char) : List Char :=
  ((text.dropWhile skipped).reverse.dropWhile skipped).reverse

/-- The text without blanks at its ends. -/
def trim (text : List Char) : List Char :=
  trimBy isBlank text

end Blanks

section Digits

/-! Every script that has decimal digits lists its ten digits in a row, from
zero to nine, so a script is known by its zero. -/

/-- The code points of the digit zero, in ascending order, as of version 14
of the character standard. -/
def zeroDigits : List Nat :=
  [0x30, 0x660, 0x6F0, 0x7C0, 0x966, 0x9E6, 0xA66, 0xAE6, 0xB66, 0xBE6,
   0xC66, 0xCE6, 0xD66, 0xDE6, 0xE50, 0xED0, 0xF20, 0x1040, 0x1090, 0x17E0,
   0x1810, 0x1946, 0x19D0, 0x1A80, 0x1A90, 0x1B50, 0x1BB0, 0x1C40, 0x1C50,
   0xA620, 0xA8D0, 0xA900, 0xA9D0, 0xA9F0, 0xAA50, 0xABF0, 0xFF10, 0x104A0,
   0x10D30, 0x11066, 0x110F0, 0x11136, 0x111D0, 0x112F0, 0x11450, 0x114D0,
   0x11650, 0x116C0, 0x11730, 0x118E0, 0x11950, 0x11C50, 0x11D50, 0x11DA0,
   0x16A60, 0x16AC0, 0x16B50, 0x1D7CE, 0x1D7D8, 0x1D7E2, 0x1D7EC, 0x1D7F6,
   0x1E140, 0x1E2F0, 0x1E950, 0x1FBF0]

/-- The value of a decimal digit of any script. -/
def digitValue? (c : Char) : Option Nat :=
  zeroDigits.findSome? fun first =>
    if first ≤ c.toNat ∧ c.toNat < first + 10 then some (c.toNat - first)
    else none

end Digits

section Words

/-! The characters that make up a word in a report on a text: letters and
digits of the Latin, Greek and Cyrillic blocks. Superscript digits belong to
them, combining marks do not. -/

def wordRanges : List (Nat × Nat) :=
  [(0x30, 0x39), (0x41, 0x5A), (0x61, 0x7A), (0xAA, 0xAA), (0xB2, 0xB3),
   (0xB5, 0xB5), (0xB9, 0xBA), (0xC0, 0xD6), (0xD8, 0xF6), (0xF8, 0x24F),
   (0x370, 0x374), (0x376, 0x377), (0x37A, 0x37D), (0x37F, 0x37F),
   (0x386, 0x386), (0x388, 0x38A), (0x38C, 0x38C), (0x38E, 0x3A1),
   (0x3A3, 0x3E1), (0x3F0, 0x3F5), (0x3F7, 0x481), (0x48A, 0x52F),
   (0x1C80, 0x1C88), (0x1D26, 0x1D2B), (0x1D5E, 0x1D5E), (0x1D60, 0x1D60),
   (0x1D66, 0x1D6A), (0x1D78, 0x1D78), (0x1F00, 0x1F15), (0x1F18, 0x1F1D),
   (0x1F20, 0x1F45), (0x1F48, 0x1F4D), (0x1F50, 0x1F57), (0x1F59, 0x1F59),
   (0x1F5B, 0x1F5B), (0x1F5D, 0x1F5D), (0x1F5F, 0x1F7D), (0x1F80, 0x1FB4),
   (0x1FB6, 0x1FBC), (0x1FBE, 0x1FBE), (0x1FC2, 0x1FC4), (0x1FC6, 0x1FCC),
   (0x1FD0, 0x1FD3), (0x1FD6, 0x1FDB), (0x1FE0, 0x1FEC), (0x1FF2, 0x1FF4),
   (0x1FF6, 0x1FFC), (0xA640, 0xA66E), (0xA67F, 0xA69D), (0xAB65, 0xAB65)]

def isWordCharacter (c : Char) : Bool :=
  inRanges wordRanges c

/-- The longest word that a report shows. -/
def longestWord : Nat := 16

/-- What a report shows of the text that starts at some place: a word of at
most `longestWord` characters, or one character where no word starts. -/
def leadingWord (text : List Char) : List Char :=
  match (text.take longestWord).takeWhile isWordCharacter with
  | [] => text.take 1
  | word => word

end Words

end IntcodeMachine.Text
