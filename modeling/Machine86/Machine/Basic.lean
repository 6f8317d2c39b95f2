import Machine86.Instruction.Operand
import Machine86.Instruction.Decode
import Machine86.Machine.Flags
import Machine86.Machine.Memory

/-!
# The machine

Eight registers, the flags, the instruction pointer and the memory that holds the program. The run
is over when the pointer stands behind the program. A program may fill the whole address space, so
the pointer can also run past its last address and wrap around; the machine remembers that.
-/

namespace Machine86

structure Machine where
  regs : Vector UInt16 8
  flags : Flags
  ip : UInt16
  memory : Memory
  programSize : Nat
  /-- The pointer was moved past the last address. -/
  wrapped : Bool
  /-- The least size of the memory that was asked for. -/
  minMemory : Nat
  deriving Repr, DecidableEq

/-- Why a machine stops before the end of its program. -/
inductive Trap
  | decode (ip : UInt16) (source : DecodeError)
  | unsupported (ip : UInt16) (what : String)
  | stepLimit (steps : Nat)
  deriving Repr, DecidableEq

def Trap.message : Trap → String
  | decode ip source => "decode failed at ip " ++ Numeral.word ip ++ ": " ++ source.message
  | unsupported ip what => "unsupported instruction at ip " ++ Numeral.word ip ++ ": " ++ what
  | stepLimit steps => "step limit of " ++ Numeral.decimal steps ++ " reached"

/-- The least size of the memory where none is asked for. -/
def defaultMinMemory : Nat := 4096

namespace Machine

/-- The machine before its first step: all zeros, and the program in memory. -/
def load (program : List UInt8) (minMemory : Nat) : Except TooLarge Machine :=
  match Memory.ofProgram program minMemory with
  | .error e => .error e
  | .ok memory =>
    .ok { regs := Vector.replicate 8 0, flags := {}, ip := 0, memory,
          programSize := program.length, wrapped := false, minMemory }

/-- The pointer stands behind the program. -/
def isDone (m : Machine) : Bool := m.wrapped || m.programSize ≤ m.ip.toNat

def advance (m : Machine) (size : UInt16) : Machine :=
  { m with ip := m.ip + size
           wrapped := m.wrapped || addressSpace ≤ m.ip.toNat + size.toNat }

/-- The word that a register is or lies in. -/
def wordIndex (r : Register) : Fin 8 :=
  if r.wide then r.index else ⟨r.index.val % 4, by omega⟩

/-- The value of a register; a byte has zeros above it. -/
def reg (m : Machine) (r : Register) : UInt16 :=
  let word := m.regs.get (wordIndex r)
  if r.wide then word
  else if r.index.val < 4 then word &&& 0xff
  else word >>> 8

/-- A word after a write of `value` to the register `r` that it is or holds. A byte takes the low
half of the value and leaves the other half of the word alone. -/
def merge (r : Register) (word value : UInt16) : UInt16 :=
  if r.wide then value
  else if r.index.val < 4 then (word &&& 0xff00) ||| (value &&& 0xff)
  else (word &&& 0xff) ||| (value <<< (8 : UInt16))

def setReg (m : Machine) (r : Register) (value : UInt16) : Machine :=
  let i := wordIndex r
  { m with regs := m.regs.set i.val (merge r (m.regs.get i) value) i.isLt }

def setResultFlags (m : Machine) (result : UInt16) : Machine :=
  { m with flags := m.flags.ofResult result }

open Record in
def structureText (m : Machine) : String :=
  record "Cpu"
    [("regs", list (m.regs.toList.map fun w => Numeral.decimal w.toNat)),
     ("flags", m.flags.structureText), ("ip", Numeral.decimal m.ip.toNat),
     ("mem", m.memory.structureText), ("program_len", Numeral.decimal m.programSize),
     ("wrapped", truth m.wrapped),
     ("cfg", record "CpuConfig" [("min_mem_size", Numeral.decimal m.minMemory)])]

end Machine

end Machine86
