import IntcodeMachine.Text.Quoted

/-!
Strict decoding of UTF-8. A character is a byte below 0x80, or a lead byte and
one to three continuation bytes. The first continuation byte is held to the
range that excludes long forms, surrogates and code points that do not exist.
The decoder takes one byte at a time and carries the character that is not yet
complete.
-/

namespace IntcodeMachine.Text

/-- Why bytes are no text. -/
inductive DecodeReason where
  | invalidStart
  | invalidContinuation
  | unexpectedEnd
deriving DecidableEq

def DecodeReason.message : DecodeReason → String
  | .invalidStart => "invalid start byte"
  | .invalidContinuation => "invalid continuation byte"
  | .unexpectedEnd => "unexpected end of data"

/-- Bytes that are no text: where the broken character starts, its first byte,
and how many of its bytes belong together. -/
structure DecodeError where
  start : Nat
  first : Nat
  length : Nat
  reason : DecodeReason
deriving DecidableEq

def DecodeError.message (e : DecodeError) : String :=
  let broken :=
    if e.length ≤ 1 then
      "byte 0x" ++ String.ofList (hexadecimal 2 e.first) ++
        " in position " ++ toString e.start
    else
      "bytes in position " ++ toString e.start ++ "-" ++
        toString (e.start + e.length - 1)
  "'utf-8' codec can't decode " ++ broken ++ ": " ++ e.reason.message

/-- A character whose last bytes are still to come: its first byte, the number
of bytes taken and still needed, the range of the next one, and the bits of
the code point so far. -/
structure Pending where
  first : Nat
  taken : Nat
  needed : Nat
  low : Nat
  high : Nat
  bits : Nat
deriving DecidableEq

/-- What a lead byte opens. A byte that opens nothing is no lead byte. -/
def Pending.ofLead? (byte : Nat) : Option Pending :=
  if byte < 0xC2 then none
  else if byte < 0xE0 then some ⟨byte, 1, 1, 0x80, 0xBF, byte - 0xC0⟩
  else if byte = 0xE0 then some ⟨byte, 1, 2, 0xA0, 0xBF, 0⟩
  else if byte = 0xED then some ⟨byte, 1, 2, 0x80, 0x9F, 0xD⟩
  else if byte < 0xF0 then some ⟨byte, 1, 2, 0x80, 0xBF, byte - 0xE0⟩
  else if byte = 0xF0 then some ⟨byte, 1, 3, 0x90, 0xBF, 0⟩
  else if byte < 0xF4 then some ⟨byte, 1, 3, 0x80, 0xBF, byte - 0xF0⟩
  else if byte = 0xF4 then some ⟨byte, 1, 3, 0x80, 0x8F, 4⟩
  else none

/-- The code point after one more continuation byte. -/
def Pending.extend (p : Pending) (byte : Nat) : Nat :=
  p.bits * 64 + (byte - 0x80)

/-- The bytes of a broken character end right before the given offset. -/
def Pending.broken (p : Pending) (offset : Nat) (reason : DecodeReason) :
    DecodeError :=
  ⟨offset - p.taken, p.first, p.taken, reason⟩

/-- Decodes the bytes from the given offset on, after a character that may
still be incomplete. -/
def decodeFrom : Nat → Option Pending → List UInt8 →
    Except DecodeError (List Char)
  | _, none, [] => .ok []
  | offset, some p, [] => .error (p.broken offset .unexpectedEnd)
  | offset, none, byte :: rest =>
      if byte.toNat < 0x80 then
        (Char.ofNat byte.toNat :: ·) <$> decodeFrom (offset + 1) none rest
      else
        match Pending.ofLead? byte.toNat with
        | none => .error ⟨offset, byte.toNat, 1, .invalidStart⟩
        | some p => decodeFrom (offset + 1) (some p) rest
  | offset, some p, byte :: rest =>
      if byte.toNat < p.low ∨ p.high < byte.toNat then
        .error (p.broken offset .invalidContinuation)
      else if p.needed ≤ 1 then
        (Char.ofNat (p.extend byte.toNat) :: ·) <$>
          decodeFrom (offset + 1) none rest
      else
        decodeFrom (offset + 1)
          (some ⟨p.first, p.taken + 1, p.needed - 1, 0x80, 0xBF,
            p.extend byte.toNat⟩)
          rest

/-- The text that the bytes encode, or the first character that is broken. -/
def decodeUtf8 (bytes : List UInt8) : Except DecodeError (List Char) :=
  decodeFrom 0 none bytes

end IntcodeMachine.Text
