import Machine86.Instruction.Opcode
import Machine86.Reader

/-!
# Decoding

`decode` reads one instruction. The first byte selects the family, and the family decides which
bytes follow: a mod-reg-rm byte with its displacement, an immediate, an address, a jump offset.
Reads and tests happen in the order of the bytes, so of two faults the earlier one is reported.

`decodeBody` is the decoder without the bytes that its errors show; these are the first four from
the start of the instruction, and `decode` adds them.
-/

namespace Machine86

/-- What stops the decoder, before the bytes are attached. -/
inductive Fault
  | outOfBounds (e : OutOfBounds)
  | unknown
  | refused (why : Refusal)
  deriving Repr, DecidableEq

inductive DecodeError
  | outOfBounds (e : OutOfBounds)
  | unknown (bytes : List UInt8)
  | invalid (bytes : List UInt8) (why : Refusal)
  deriving Repr, DecidableEq

namespace DecodeError

def showBytes (bytes : List UInt8) : String :=
  "[" ++ ", ".intercalate (bytes.map Numeral.byte) ++ "]"

def message : DecodeError → String
  | outOfBounds e => e.message
  | unknown bytes => "unknown instruction: " ++ showBytes bytes
  | invalid bytes why => "invalid instruction " ++ showBytes bytes ++ ": " ++ why.message

end DecodeError

/-- The error for a fault in an instruction that starts with `bytes`. -/
def Fault.toError (bytes : List UInt8) : Fault → DecodeError
  | .outOfBounds e => .outOfBounds e
  | .unknown => .unknown bytes
  | .refused why => .invalid bytes why

instance : MonadLift (Reading OutOfBounds) (Reading Fault) :=
  ⟨EStateM.adaptExcept .outOfBounds⟩

def readDisp (mode rm : UInt8) : Reading Fault Int16 :=
  if mode = 1 then return (← Reading.signedByte).toInt16
  else if mode = 2 ∨ mode = 0 ∧ rm = 6 then return (← Reading.word).toInt16
  else return 0

def readModRm : Reading Fault ModRm := do
  let b ← Reading.byte
  let mode := b >>> 6
  let rm := b &&& 7
  let disp ← readDisp mode rm
  return { mode, reg := (b >>> 3) &&& 7, rm, disp }

/-- The immediate of the arithmetic group: a byte that is extended by its sign, a word, or a
byte. -/
def readGroupImmediate (signExtend wide : Bool) : Reading Fault UInt16 :=
  if wide then
    if signExtend then return (← Reading.signedByte).toInt16.toUInt16
    else Reading.word
  else return (← Reading.byte).toUInt16

/-- What follows the first byte `b` of a family. -/
def Opcode.readOperands (b : UInt8) : Opcode → Reading Fault Instruction
  | movRegMem toReg wide => do
    let modRm ← readModRm
    return .mov { form := .regMem, toReg, wide, modRm, data := 0 }
  | movImmToReg wide reg => do
    let data ← Reading.immediate wide
    return .mov { form := .immToReg, toReg := false, wide, modRm := { reg }, data }
  | movImmToRegMem wide => do
    let modRm ← readModRm
    if modRm.reg = 0 then
      let data ← Reading.immediate wide
      return .mov { form := .immToRegMem, toReg := false, wide, modRm, data }
    else throw (.refused .movExtension)
  | movAccMem toMem wide => do
    let data ← Reading.word
    let form := if toMem then .accToMem else .memToAcc
    return .mov { form, toReg := false, wide, modRm := {}, data }
  | arithImmToRegMem signExtend wide => do
    let modRm ← readModRm
    match ArithOp.ofCode? modRm.reg with
    | none => throw (.refused .arithExtension)
    | some op =>
      let data ← readGroupImmediate signExtend wide
      return .arith
        { form := .immToRegMem, op, toReg := false, signExtend, wide, modRm, data, opcode := b }
  | arithRegMem op toReg wide => do
    let modRm ← readModRm
    return .arith
      { form := .regMem, op, toReg, signExtend := false, wide, modRm, data := 0, opcode := b }
  | arithImmToAcc op wide => do
    let data ← Reading.immediate wide
    return .arith
      { form := .immToAcc, op, toReg := false, signExtend := false, wide, modRm := {}, data,
        opcode := b }
  | jump opcode => do
    let inc ← Reading.signedByte
    return .jump { opcode, inc }

/-- What follows the first byte `b` of a class. -/
def OpcodeClass.readRest (b : UInt8) : OpcodeClass → Reading Fault Instruction
  | family op => op.readOperands b
  | refused why => throw (.refused why)
  | unknown => throw .unknown

def decodeBody : Reading Fault Instruction := do
  let b ← Reading.byte
  (Opcode.ofByte b).readRest b

def reportLength : Nat := 4

/-- One instruction. After an error the reader stands where reading stopped. -/
def decode : Reading DecodeError Instruction := fun r =>
  match decodeBody r with
  | .ok i r' => .ok i r'
  | .error fault r' => .error (fault.toError (r.peek reportLength)) r'

end Machine86
