/-!
# Reading text from bytes

UTF-8, read so that no input is refused: where the bytes do not form a character, one replacement
character stands for as much of them as could have started one, and reading goes on behind that.
-/

namespace Machine86.Utf8

/-- A character that has begun: how many bytes it still needs, the range of the next one, and the
bits so far. -/
structure Pending where
  owed : Nat
  low : UInt8
  high : UInt8
  bits : Nat
  deriving Repr, DecidableEq

/-- What a byte means between characters. -/
inductive Lead
  | char (c : Char)
  | start (p : Pending)
  | refused
  deriving Repr, DecidableEq

/-- The class of a first byte. The narrow ranges of a second byte exclude long forms, surrogates
and what lies above the last code point. -/
def Lead.ofByte (b : UInt8) : Lead :=
  let n := b.toNat
  if n < 0x80 then char (Char.ofNat n)
  else if 0xc2 ≤ n ∧ n ≤ 0xdf then start ⟨0, 0x80, 0xbf, n - 0xc0⟩
  else if n = 0xe0 then start ⟨1, 0xa0, 0xbf, 0⟩
  else if n = 0xed then start ⟨1, 0x80, 0x9f, 0xd⟩
  else if 0xe1 ≤ n ∧ n ≤ 0xef then start ⟨1, 0x80, 0xbf, n - 0xe0⟩
  else if n = 0xf0 then start ⟨2, 0x90, 0xbf, 0⟩
  else if 0xf1 ≤ n ∧ n ≤ 0xf3 then start ⟨2, 0x80, 0xbf, n - 0xf0⟩
  else if n = 0xf4 then start ⟨2, 0x80, 0x8f, 4⟩
  else refused

/-- Stands for bytes that form no character. -/
def replacement : Char := '\ufffd'

/-- The characters of `bytes`, where `pending` is the character that has begun. -/
def decodeFrom : (pending : Option Pending) → List UInt8 → List Char
  | none, [] => []
  | some _, [] => [replacement]
  | some p, b :: rest =>
    if p.low ≤ b ∧ b ≤ p.high then
      let bits := 64 * p.bits + (b.toNat - 0x80)
      match p.owed with
      | 0 => Char.ofNat bits :: decodeFrom none rest
      | owed + 1 => decodeFrom (some ⟨owed, 0x80, 0xbf, bits⟩) rest
    else
      match Lead.ofByte b with
      | .char c => replacement :: c :: decodeFrom none rest
      | .start q => replacement :: decodeFrom (some q) rest
      | .refused => replacement :: replacement :: decodeFrom none rest
  | none, b :: rest =>
    match Lead.ofByte b with
    | .char c => c :: decodeFrom none rest
    | .start q => decodeFrom (some q) rest
    | .refused => replacement :: decodeFrom none rest

/-- The characters of some bytes, with replacements where there is none. -/
def decode (bytes : List UInt8) : List Char := decodeFrom none bytes

/-- The bytes of a text. -/
def encode (text : String) : List UInt8 := text.toUTF8.toList

end Machine86.Utf8
