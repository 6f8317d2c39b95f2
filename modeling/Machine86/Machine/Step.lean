import Machine86.Machine.Execution
import Machine86.Machine.Snapshot

/-!
# Steps of the machine

`fetch` decodes the instruction at the pointer and changes nothing; `step` fetches, moves the
pointer behind the instruction and executes it. At the end of the program there is no instruction
to fetch.

No instruction has more than six bytes, so a fetch looks at six bytes of the program at most.
-/

namespace Machine86

/-- An instruction with the bytes that it was decoded from and their address. -/
structure Fetched where
  offset : UInt16
  bytes : List UInt8
  instruction : Instruction
  deriving Repr, DecidableEq

def Fetched.size (f : Fetched) : UInt16 := UInt16.ofNat f.bytes.length

/-- The length of the longest instruction: opcode, mod-reg-rm, displacement and immediate. -/
def longestInstruction : Nat := 6

namespace Machine

/-- The bytes of the program from the pointer on, as many as an instruction can have. -/
def window (m : Machine) : List UInt8 :=
  m.memory.slice m.ip.toNat (min m.programSize (m.ip.toNat + longestInstruction))

def fetch (m : Machine) : Except Trap (Option Fetched) :=
  if m.isDone then .ok none
  else
    let code := m.window
    match Machine86.decode (.ofBytes code) with
    | .ok instruction r =>
      .ok (some { offset := m.ip, bytes := code.take r.position, instruction })
    | .error source _ => .error (.decode m.ip source)

/-- Executes the instruction at the pointer, and says what it changed. -/
def step : EStateM Trap Machine (Option (Fetched × Trace)) := fun m =>
  match m.fetch with
  | .error trap => .error trap m
  | .ok none => .ok none m
  | .ok (some fetched) =>
    match exec fetched.instruction m.ip (m.advance fetched.size) with
    | .error trap m' => .error trap m'
    | .ok () m' => .ok (some (fetched, Trace.between m.snapshot m'.snapshot)) m'

def skip : EStateM Trap Machine (Option Fetched) := fun m =>
  match m.fetch with
  | .error trap => .error trap m
  | .ok none => .ok none m
  | .ok (some fetched) => .ok (some fetched) (m.advance fetched.size)

end Machine

end Machine86
