import Machine86.Instruction.Basic
import Machine86.Text.Numeral

/-!
# Operands

A register as an instruction sees it, or a place in memory given by a base and a displacement.
The text of an operand is the one that an assembler reads.
-/

namespace Machine86

/-- A view of the register file. A wide register is one of the eight words; a narrow one is a
half: 0 to 3 are the low bytes of the first four words and 4 to 7 their high bytes. -/
structure Register where
  index : Fin 8
  wide : Bool
  deriving Repr, DecidableEq

namespace Register

/-- The register that the low three bits of a field name. -/
def ofField (field : UInt8) (wide : Bool) : Register := ⟨Fin.ofNat 8 field.toNat, wide⟩

def word (index : Fin 8) : Register := ⟨index, true⟩

def ax : Register := word 0

def cx : Register := word 1

def dx : Register := word 2

def bx : Register := word 3

def sp : Register := word 4

def bp : Register := word 5

def si : Register := word 6

def di : Register := word 7

/-- The accumulator, `ax` or `al`. -/
def acc (wide : Bool) : Register := ⟨0, wide⟩

def wordNames : Vector String 8 := #v["ax", "cx", "dx", "bx", "sp", "bp", "si", "di"]

def byteNames : Vector String 8 := #v["al", "cl", "dl", "bl", "ah", "ch", "dh", "bh"]

def name (r : Register) : String :=
  if r.wide then wordNames.get r.index else byteNames.get r.index

end Register

/-- The sums of registers that an rm field names as the base of an address. -/
def baseNames : Vector String 8 :=
  #v["bx + si", "bx + di", "bp + si", "bp + di", "si", "di", "bp", "bx"]

/-- A register or a place in memory. Without a base the displacement is the address. -/
inductive Operand
  | register (r : Register)
  | memory (base : Option (Fin 8)) (disp : Int16)
  deriving Repr, DecidableEq

namespace Operand

def isMemory : Operand → Bool
  | register _ => false
  | memory _ _ => true

def register? : Operand → Option Register
  | register r => some r
  | memory _ _ => none

def direct (address : UInt16) : Operand := memory none address.toInt16

def text : Operand → String
  | register r => r.name
  | memory none disp => "[" ++ Numeral.decimal disp.toUInt16.toNat ++ "]"
  | memory (some base) disp =>
    let name := baseNames.get base
    if disp = 0 then "[" ++ name ++ "]"
    else if disp < 0 then "[" ++ name ++ " - " ++ Numeral.decimal disp.toInt.natAbs ++ "]"
    else "[" ++ name ++ " + " ++ Numeral.decimal disp.toInt.natAbs ++ "]"

end Operand

namespace ModRm

def operand (m : ModRm) (wide : Bool) : Operand :=
  if m.isRegister then .register (.ofField m.rm wide)
  else if m.isDirectAddress then .memory none m.disp
  else .memory (some (Fin.ofNat 8 m.rm.toNat)) m.disp

end ModRm

/-- Destination and source where one of them is the register of a reg field and the other is the
operand `rm`. -/
def destinationSource (reg : UInt8) (rm : Operand) (toReg wide : Bool) : Operand × Operand :=
  let register := .register (.ofField reg wide)
  if toReg then (register, rm) else (rm, register)

end Machine86
