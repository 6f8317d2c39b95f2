/-!
# Instructions

The instructions of the subset as their encodings lay them out: moves, the three arithmetic
operations add, sub and cmp, and the jumps that are relative to the instruction pointer. The
numbers in them keep the values that they came with, also those that no encoding holds; what an
instruction means is `Instruction.operation`.
-/

namespace Machine86

/-- The fields of a mod-reg-rm byte and the displacement after it. -/
structure ModRm where
  mode : UInt8 := 0
  reg : UInt8 := 0
  rm : UInt8 := 0
  disp : Int16 := 0
  deriving Repr, DecidableEq

namespace ModRm

def isRegister (m : ModRm) : Bool := m.mode == 3

/-- The displacement is an address of its own, without a base. -/
def isDirectAddress (m : ModRm) : Bool := m.mode == 0 && m.rm == 6

end ModRm

inductive MovForm
  | regMem
  | immToReg
  | immToRegMem
  | memToAcc
  | accToMem
  deriving Repr, DecidableEq

/-- A move. `toReg` tells whether the register is the destination of the form `regMem`; `data` is
an immediate value or an address. -/
structure Mov where
  form : MovForm
  toReg : Bool
  wide : Bool
  modRm : ModRm
  data : UInt16
  deriving Repr, DecidableEq

inductive ArithForm
  | regMem
  | immToRegMem
  | immToAcc
  deriving Repr, DecidableEq

inductive ArithOp
  | add
  | sub
  | cmp
  deriving Repr, DecidableEq

namespace ArithOp

def mnemonic : ArithOp → String
  | add => "add"
  | sub => "sub"
  | cmp => "cmp"

/-- The three bits that stand for the operation in an encoding. -/
def code : ArithOp → UInt8
  | add => 0
  | sub => 5
  | cmp => 7

def ofCode? (code : UInt8) : Option ArithOp :=
  if code = 0 then some add
  else if code = 5 then some sub
  else if code = 7 then some cmp
  else none

@[simp] theorem ofCode?_code (op : ArithOp) : ofCode? op.code = some op := by
  cases op <;> rfl

theorem ofCode?_eq_some {code : UInt8} {op : ArithOp} (h : ofCode? code = some op) :
    code = op.code := by
  unfold ofCode? at h
  grind [code]

end ArithOp

/-- An addition, a subtraction or a comparison. `signExtend` is the bit that makes a word of a
one-byte immediate. -/
structure Arith where
  form : ArithForm
  op : ArithOp
  toReg : Bool
  signExtend : Bool
  wide : Bool
  modRm : ModRm
  data : UInt16
  opcode : UInt8
  deriving Repr, DecidableEq

/-- The immediate was one byte that became a word. -/
def Arith.isSignExtended (a : Arith) : Bool := a.form == .immToRegMem && a.signExtend && a.wide

/-- A jump by `inc` bytes from the end of the instruction. -/
structure Jump where
  opcode : UInt8
  inc : Int8
  deriving Repr, DecidableEq

/-- One of the jumps that count or test cx. -/
def Jump.isLoop (j : Jump) : Bool := j.opcode >>> 2 == 0x38

inductive Instruction
  | mov (m : Mov)
  | arith (a : Arith)
  | jump (j : Jump)
  deriving Repr, DecidableEq

end Machine86
