import Machine86.Instruction.Basic

/-!
# The families of opcodes

The first byte of an instruction selects a family of encodings and carries some of its bits.
`Opcode.ofByte` is the table of the first bytes: a family, or why no instruction starts so.
-/

namespace Machine86

inductive Refusal
  | segmentMove
  | movExtension
  | arithExtension
  deriving Repr, DecidableEq

def Refusal.message : Refusal → String
  | segmentMove => "segment register moves are not supported"
  | movExtension => "mov immediate requires reg field 000"
  | arithExtension => "immediate group operation outside add/sub/cmp"

/-- The families of encodings with the bits that the first byte gives. -/
inductive Opcode
  | movRegMem (toReg wide : Bool)
  | movImmToReg (wide : Bool) (reg : UInt8)
  | movImmToRegMem (wide : Bool)
  | movAccMem (toMem wide : Bool)
  | arithImmToRegMem (signExtend wide : Bool)
  | arithRegMem (op : ArithOp) (toReg wide : Bool)
  | arithImmToAcc (op : ArithOp) (wide : Bool)
  | jump (opcode : UInt8)
  deriving Repr, DecidableEq

inductive OpcodeClass
  | family (op : Opcode)
  | refused (why : Refusal)
  | unknown
  deriving Repr, DecidableEq

namespace Opcode

def bit (b n : UInt8) : Bool := (b >>> n) &&& 1 == 1

/-- The class of a first byte. The patterns are `100010dw`, `1011wreg`, `1100011w`, `101000dw`,
`100000sw`, `00ooo0dw`, `00ooo10w`, `0111cccc` and `111000cc`. -/
def ofByte (b : UInt8) : OpcodeClass :=
  if b >>> 2 = 0x22 then .family (.movRegMem (bit b 1) (bit b 0))
  else if b = 0x8c ∨ b = 0x8e then .refused .segmentMove
  else if b >>> 4 = 0xb then .family (.movImmToReg (bit b 3) (b &&& 7))
  else if b >>> 1 = 0x63 then .family (.movImmToRegMem (bit b 0))
  else if b >>> 2 = 0x28 then .family (.movAccMem (bit b 1) (bit b 0))
  else if b >>> 2 = 0x20 then .family (.arithImmToRegMem (bit b 1) (bit b 0))
  else if b >>> 6 = 0 ∧ b &&& 6 ≠ 6 then
    match ArithOp.ofCode? ((b >>> 3) &&& 7) with
    | none => .unknown
    | some op =>
      if bit b 2 then .family (.arithImmToAcc op (bit b 0))
      else .family (.arithRegMem op (bit b 1) (bit b 0))
  else if b >>> 4 = 7 ∨ b >>> 2 = 0x38 then .family (.jump b)
  else .unknown

end Opcode

end Machine86
