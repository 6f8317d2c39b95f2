import Machine86.Instruction.Operand

/-!
# The meaning of an instruction

An `Operation` names the operands of an instruction, wherever its encoding keeps them. The text
of an instruction and its execution both go through it, so they agree on every operand.
-/

namespace Machine86

/-- The value that a move or an arithmetic operation takes: that of an operand, or a number. A
number counts modulo 2^16 and is printed as it stands. -/
inductive Source
  | operand (o : Operand)
  | number (n : Int)
  deriving Repr, DecidableEq

/-- What a jump depends on: one of the sixteen conditions on flags, or one of the four tests that
involve cx. -/
inductive Branch
  | onFlags (code : Fin 16)
  | onCount (code : Fin 4)
  deriving Repr, DecidableEq

namespace Branch

/-- The branch of an opcode. Every opcode that is no jump on flags counts as one of the tests of
cx, by its low two bits. -/
def ofOpcode (opcode : UInt8) : Branch :=
  if opcode >>> 4 = 7 then onFlags (Fin.ofNat 16 opcode.toNat)
  else onCount (Fin.ofNat 4 opcode.toNat)

def flagNames : Vector String 16 :=
  #v["jo", "jno", "jb", "jnb", "jz", "jnz", "jbe", "jnbe",
     "js", "jns", "jp", "jnp", "jl", "jnl", "jle", "jnle"]

def countNames : Vector String 4 := #v["loopnz", "loopz", "loop", "jcxz"]

def mnemonic : Branch → String
  | onFlags code => flagNames.get code
  | onCount code => countNames.get code

end Branch

inductive Operation
  | mov (dst : Operand) (src : Source) (wide : Bool)
  | arith (op : ArithOp) (dst : Operand) (src : Source) (wide : Bool)
  | jump (branch : Branch) (inc : Int8)
  deriving Repr, DecidableEq

namespace Mov

def operation (m : Mov) : Operation :=
  let rm := m.modRm.operand m.wide
  match m.form with
  | .regMem =>
    let (dst, src) := destinationSource m.modRm.reg rm m.toReg m.wide
    .mov dst (.operand src) m.wide
  | .immToReg => .mov (.register (.ofField m.modRm.reg m.wide)) (.number m.data.toNat) m.wide
  | .immToRegMem => .mov rm (.number m.data.toNat) m.wide
  | .memToAcc => .mov (.register (.acc m.wide)) (.operand (.direct m.data)) m.wide
  | .accToMem => .mov (.direct m.data) (.operand (.register (.acc m.wide))) m.wide

end Mov

namespace Arith

/-- The immediate: a negative number only where a byte was extended by its sign. -/
def number (a : Arith) : Int :=
  if a.isSignExtended then a.data.toInt16.toInt else a.data.toNat

def operation (a : Arith) : Operation :=
  let rm := a.modRm.operand a.wide
  match a.form with
  | .regMem =>
    let (dst, src) := destinationSource a.modRm.reg rm a.toReg a.wide
    .arith a.op dst (.operand src) a.wide
  | .immToRegMem => .arith a.op rm (.number a.number) a.wide
  | .immToAcc => .arith a.op (.register (.acc a.wide)) (.number a.number) a.wide

end Arith

namespace Jump

def operation (j : Jump) : Operation := .jump (.ofOpcode j.opcode) j.inc

end Jump

def Instruction.operation : Instruction → Operation
  | mov m => m.operation
  | arith a => a.operation
  | jump j => j.operation

end Machine86
