import Machine86.Text.Blank
import Machine86.Text.Numeral
import Machine86.Text.Record

/-!
# The flags

A word of flag bits, of which two have a meaning: bit 6 says that a result was zero, bit 7 that its
top bit was set. The flags have three texts. `mark` runs the letters of the set flags together;
`text` separates them by bars and can be read back; `structureText` puts that into parentheses.
-/

namespace Machine86

structure Flags where
  bits : UInt16 := 0
  deriving Repr, DecidableEq

namespace Flags

def zeroBit : UInt16 := 0x40

def signBit : UInt16 := 0x80

/-- The bits that have a meaning. -/
def known : UInt16 := zeroBit ||| signBit

def zero (f : Flags) : Bool := f.bits &&& zeroBit != 0

def sign (f : Flags) : Bool := f.bits &&& signBit != 0

/-- The bits `mask` set or cleared, and all others as they are. -/
def put (f : Flags) (mask : UInt16) (value : Bool) : Flags :=
  ⟨if value then f.bits ||| mask else f.bits &&& ~~~mask⟩

/-- The flags after a result: whether it is zero, and its top bit. -/
def ofResult (f : Flags) (result : UInt16) : Flags :=
  (f.put zeroBit (result == 0)).put signBit (result > 0x7fff)

def mark (f : Flags) : String :=
  (if f.zero then "Z" else "") ++ (if f.sign then "S" else "")

/-- The names of the set flags and the bits without a name, as one number. -/
def names (f : Flags) : List String :=
  let rest := f.bits &&& ~~~known
  (if f.zero then ["Z"] else []) ++ (if f.sign then ["S"] else []) ++
    (if rest != 0 then [Numeral.prefixedHex rest.toNat] else [])

def text (f : Flags) : String := " | ".intercalate f.names

def structureText (f : Flags) : String :=
  Record.variant "Flags" (if f.bits = 0 then "0x0" else f.text)

/-- The bits that one piece of a text between bars stands for. -/
def bitsOfPiece? : List Char → Option UInt16
  | ['Z'] => some zeroBit
  | ['S'] => some signBit
  | '0' :: 'x' :: digits => (Numeral.unsigned? 16 UInt16.size digits).map UInt16.ofNat
  | _ => none

/-- The union of the bits of all pieces. -/
def bitsOfPieces? : List (List Char) → Option UInt16
  | [] => some 0
  | piece :: rest => do
    let bits ← bitsOfPiece? (Blank.trim piece)
    let others ← bitsOfPieces? rest
    return bits ||| others

/-- Reads flags: names and numbers separated by bars, with blanks around them; nothing but blanks
for no flags. -/
def ofText? (text : String) : Option Flags :=
  let chars := Blank.trim text.toList
  if chars.isEmpty then some {}
  else (bitsOfPieces? (chars.splitOn '|')).map Flags.mk

end Flags

end Machine86
