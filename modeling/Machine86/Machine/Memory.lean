import Machine86.Text.Numeral
import Machine86.Text.Record

/-!
# Memory

A flat image of bytes from address 0 on. A loaded program stands at its start and zeros follow up
to the size asked for, which the sixteen-bit address space bounds.
-/

namespace Machine86

structure Memory where
  bytes : Array UInt8
  deriving Repr, DecidableEq

/-- A program of so many bytes is larger than the address space. -/
structure TooLarge where
  length : Nat
  deriving Repr, DecidableEq

def TooLarge.message (e : TooLarge) : String :=
  "program of " ++ Numeral.decimal e.length ++ " bytes does not fit the 64 KiB address space"

/-- The number of addresses. -/
def addressSpace : Nat := 0x10000

namespace Memory

def size (m : Memory) : Nat := m.bytes.size

def isEmpty (m : Memory) : Bool := m.bytes.isEmpty

def zeros (size : Nat) : Memory := ⟨Array.replicate size 0⟩

/-- A program and zeros after it, up to `minSize` bytes in all where the address space holds as
many. -/
def ofProgram (program : List UInt8) (minSize : Nat) : Except TooLarge Memory :=
  let length := program.length
  if addressSpace < length then .error ⟨length⟩
  else
    let padding := min minSize addressSpace - length
    .ok ⟨program.toArray ++ Array.replicate padding 0⟩

/-- The bytes from `start` up to and without `stop`, as far as there are any. -/
def slice (m : Memory) (start stop : Nat) : List UInt8 := (m.bytes.extract start stop).toList

def structureText (m : Memory) : String :=
  Record.record "LinearMemory" [("len", Numeral.decimal m.size)]

end Memory

end Machine86
