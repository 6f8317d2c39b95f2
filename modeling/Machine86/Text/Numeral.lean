/-!
# Numerals

Integers as text, in decimal and in hexadecimal with lower-case digits. A signed numeral has a
minus sign only where it is needed; `signedPlus` also marks the numbers that are not negative.
The readers accept what a user may type: an optional plus sign and at least one digit.
-/

namespace Machine86.Numeral

def decimal (n : Nat) : String := n.repr

def signed (i : Int) : String :=
  if i < 0 then "-" ++ decimal i.natAbs else decimal i.natAbs

/-- A numeral that always carries its sign; zero is `+0`. -/
def signedPlus (i : Int) : String :=
  if i < 0 then "-" ++ decimal i.natAbs else "+" ++ decimal i.natAbs

def hex (n : Nat) : String := String.ofList (Nat.toDigits 16 n)

/-- Hexadecimal digits filled up with zeros on the left to at least `width`. -/
def hexPadded (width n : Nat) : String :=
  let digits := Nat.toDigits 16 n
  String.ofList (List.replicate (width - digits.length) '0' ++ digits)

def prefixedHex (n : Nat) : String := "0x" ++ hex n

def byte (b : UInt8) : String := hexPadded 2 b.toNat

/-- A 16-bit address or value with all four of its digits. -/
def word (w : UInt16) : String := "0x" ++ hexPadded 4 w.toNat

def digitValue? (c : Char) : Option Nat :=
  if '0' ≤ c ∧ c ≤ '9' then some (c.toNat - '0'.toNat)
  else if 'a' ≤ c ∧ c ≤ 'f' then some (c.toNat - 'a'.toNat + 10)
  else if 'A' ≤ c ∧ c ≤ 'F' then some (c.toNat - 'A'.toNat + 10)
  else none

/-- The number that digits of `base` spell after `acc`. -/
def ofDigits? (base : Nat) : List Char → (acc : Nat) → Option Nat
  | [], acc => some acc
  | c :: rest, acc =>
    match digitValue? c with
    | some d => if d < base then ofDigits? base rest (acc * base + d) else none
    | none => none

/-- Reads an unsigned number below `bound`: one plus sign may stand before the digits. -/
def unsigned? (base bound : Nat) (text : List Char) : Option Nat :=
  let digits := match text with
    | '+' :: rest => rest
    | _ => text
  if digits.isEmpty then none
  else
    match ofDigits? base digits 0 with
    | some n => if n < bound then some n else none
    | none => none

end Machine86.Numeral
