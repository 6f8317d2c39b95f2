import Machine86.Text.Numeral

/-!
# Reading bytes in order

A `Reader` stands in a sequence of bytes: it knows how many bytes lie behind it and which lie
ahead. A read that wants more bytes than lie ahead fails, says so in an `OutOfBounds`, and leaves
the reader where it was.
-/

namespace Machine86

/-- A read that runs past the end: where it started, how many bytes it wanted, and how many bytes
there are in all. -/
structure OutOfBounds where
  position : Nat
  wanted : Nat
  length : Nat
  deriving Repr, DecidableEq

def OutOfBounds.message (e : OutOfBounds) : String :=
  "read of " ++ Numeral.decimal e.wanted ++ " byte(s) at offset " ++ Numeral.decimal e.position ++
    " runs past end of buffer (len " ++ Numeral.decimal e.length ++ ")"

structure Reader where
  position : Nat
  rest : List UInt8
  deriving Repr, DecidableEq

/-- A computation that reads bytes and may fail with an `ε`. The reader is known afterwards in
either case. -/
abbrev Reading (ε α : Type) := EStateM ε Reader α

namespace Reader

/-- A reader in front of all of `bytes`. -/
def ofBytes (bytes : List UInt8) : Reader := ⟨0, bytes⟩

def remaining (r : Reader) : Nat := r.rest.length

/-- The number of bytes behind and ahead. -/
def length (r : Reader) : Nat := r.position + r.remaining

def isAtEnd (r : Reader) : Bool := r.rest.isEmpty

/-- Up to `n` of the bytes ahead. -/
def peek (r : Reader) (n : Nat) : List UInt8 := r.rest.take n

/-- The failure of a read of `n` bytes here. -/
def outOfBounds (r : Reader) (n : Nat) : OutOfBounds := ⟨r.position, n, r.length⟩

end Reader

/-- Two bytes as a word, the low byte first. -/
def wordOfBytes (lo hi : UInt8) : UInt16 := hi.toUInt16 <<< 8 ||| lo.toUInt16

namespace Reading

def byte : Reading OutOfBounds UInt8 := fun r =>
  match r.rest with
  | b :: rest => .ok b ⟨r.position + 1, rest⟩
  | [] => .error (r.outOfBounds 1) r

/-- A byte as a two's complement number. -/
def signedByte : Reading OutOfBounds Int8 := UInt8.toInt8 <$> byte

/-- Two bytes, the low byte first. -/
def word : Reading OutOfBounds UInt16 := fun r =>
  match r.rest with
  | lo :: hi :: rest => .ok (wordOfBytes lo hi) ⟨r.position + 2, rest⟩
  | _ => .error (r.outOfBounds 2) r

/-- A word, or a byte with zeros above it where `wide` is false. -/
def immediate (wide : Bool) : Reading OutOfBounds UInt16 :=
  if wide then word else UInt8.toUInt16 <$> byte

end Reading

end Machine86
