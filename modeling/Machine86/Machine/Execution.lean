import Machine86.Instruction.Operation
import Machine86.Instruction.Text
import Machine86.Machine.Basic

/-!
# Execution

What one instruction does to the machine once the pointer stands behind it. Registers and numbers
are the only operands that the machine works on: an operand in memory cuts the work short, and what
was written before it was met stays written. Arithmetic is done on words, with zeros above the bytes
of a narrow operand, and the flags follow the word. Of the jumps, the two on the zero flag are taken
or not; all others go on with the next instruction.
-/

namespace Machine86

namespace ArithOp

/-- The word that an operation computes. -/
def apply (op : ArithOp) (x y : UInt16) : UInt16 :=
  match op with
  | add => x + y
  | sub | cmp => x - y

/-- A comparison keeps its destination. -/
def writes : ArithOp → Bool
  | add | sub => true
  | cmp => false

end ArithOp

namespace Machine

/-- The register that an operand is, if it is one. -/
def expectRegister (o : Operand) : OptionT (StateM Machine) Register := liftOption o.register?

def execMov (a : Mov) : OptionT (StateM Machine) Unit :=
  match a.form with
  | .immToReg => modify (·.setReg (.ofField a.modRm.reg a.wide) a.data)
  | .immToRegMem => do
    let dst ← expectRegister (a.modRm.operand a.wide)
    modify (·.setReg dst a.data)
  | .regMem => do
    let (dst, src) := destinationSource a.modRm.reg (a.modRm.operand a.wide) a.toReg a.wide
    let dst ← expectRegister dst
    let src ← expectRegister src
    let value := (← get).reg src
    modify (·.setReg dst value)
  | .memToAcc | .accToMem => failure

/-- The register that an arithmetic operation works on, and the other word that it takes. -/
def arithOperands (a : Arith) : OptionT (StateM Machine) (Register × UInt16) :=
  match a.form with
  | .regMem => do
    let (dst, src) := destinationSource a.modRm.reg (a.modRm.operand a.wide) a.toReg a.wide
    let dst ← expectRegister dst
    let src ← expectRegister src
    return (dst, (← get).reg src)
  | .immToRegMem => do return (← expectRegister (a.modRm.operand a.wide), a.data)
  | .immToAcc => return (.acc a.wide, a.data)

def execArith (a : Arith) : OptionT (StateM Machine) Unit := do
  let (target, source) ← arithOperands a
  let result := a.op.apply ((← get).reg target) source
  if a.op.writes then modify (·.setReg target result)
  modify (·.setResultFlags result)

def execJump (j : Jump) : StateM Machine Unit := do
  let zero := (← get).flags.zero
  let taken := if j.opcode = 0x74 then zero else if j.opcode = 0x75 then !zero else false
  if taken then modify fun m => { m with ip := m.ip + j.inc.toInt16.toUInt16 }

def work : Instruction → OptionT (StateM Machine) Unit
  | .mov a => execMov a
  | .arith a => execArith a
  | .jump j => execJump j

/-- Does an instruction that stands at `address`. -/
def exec (i : Instruction) (address : UInt16) : EStateM Trap Machine Unit := fun m =>
  match (work i).run m with
  | (some (), m') => .ok () m'
  | (none, m') => .error (.unsupported address i.text) m'

end Machine

end Machine86
