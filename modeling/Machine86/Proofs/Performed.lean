import Mathlib.Tactic.SplitIfs
import Machine86.Machine.Execution
import Machine86.Proofs.Encoding

/-!
# Execution, told by operations

An instruction is executed form by form, in a state that keeps what was written even where the work
is cut short. What comes of it depends on the operation alone: it is `Machine.perform?`, which
either has a machine for the operation or finds an operand in memory. So nothing was written where
the work was cut short (`Machine.exec_eq`).
-/

namespace Machine86

def Branch.taken (flags : Flags) : Branch → Bool
  | onFlags code => code.val = 4 && flags.zero || code.val = 5 && !flags.zero
  | onCount _ => false

namespace Machine

/-- The value of a source that is not in memory. -/
def source? (m : Machine) : Source → Option UInt16
  | .number n => some (UInt16.ofInt n)
  | .operand o => o.register?.map m.reg

/-- The machine after an operation; none where an operand is in memory. -/
def perform? (m : Machine) : Operation → Option Machine
  | .mov dst src _ => do
    let dst ← dst.register?
    let value ← m.source? src
    return m.setReg dst value
  | .arith op dst src _ => do
    let dst ← dst.register?
    let value ← m.source? src
    let result := op.apply (m.reg dst) value
    let written := if op.writes then m.setReg dst result else m
    return written.setResultFlags result
  | .jump branch inc =>
    some (if branch.taken m.flags then { m with ip := m.ip + inc.toInt16.toUInt16 } else m)

end Machine

theorem ofInt_toNat (w : UInt16) : UInt16.ofInt w.toNat = w := by
  have hlt := w.toNat_lt
  apply UInt16.toNat.inj
  rw [UInt16.ofInt, UInt16.toNat_ofNat']
  omega

theorem ofInt_toInt (w : UInt16) : UInt16.ofInt w.toInt16.toInt = w := by
  have hlt := w.toNat_lt
  have hcond := BitVec.toInt_eq_toNat_cond w.toBitVec
  rw [UInt16.toNat_toBitVec] at hcond
  apply UInt16.toNat.inj
  rw [UInt16.ofInt, UInt16.toNat_ofNat', show w.toInt16.toInt = w.toBitVec.toInt from rfl, hcond]
  split_ifs <;> omega

theorem Arith.ofInt_number (a : Arith) : UInt16.ofInt a.number = a.data := by
  unfold number
  split_ifs
  · exact ofInt_toInt _
  · exact ofInt_toNat _

namespace Branch

theorem ofOpcode_eq_jz_iff : ∀ opcode : UInt8, ofOpcode opcode = onFlags 4 ↔ opcode = 0x74 := by
  decide +kernel

theorem ofOpcode_eq_jnz_iff :
    ∀ opcode : UInt8, ofOpcode opcode = onFlags 5 ↔ opcode = 0x75 := by
  decide +kernel

theorem taken_iff (b : Branch) (flags : Flags) :
    b.taken flags = true ↔
      b = onFlags 4 ∧ flags.zero = true ∨ b = onFlags 5 ∧ flags.zero = false := by
  cases b with
  | onFlags code => simp [taken, Fin.ext_iff]
  | onCount code => simp [taken]

theorem taken_ofOpcode (opcode : UInt8) (flags : Flags) :
    (ofOpcode opcode).taken flags =
      if opcode = 0x74 then flags.zero else if opcode = 0x75 then !flags.zero else false := by
  rw [Bool.eq_iff_iff, taken_iff, ofOpcode_eq_jz_iff, ofOpcode_eq_jnz_iff]
  split_ifs with hjz hjnz
  · simp [hjz]
  · simp [hjnz]
  · simp [hjz, hjnz]

end Branch

namespace Machine

/-- Work goes on in the state that it has come to, and stops in it. -/
theorem run_bind {α β : Type} {x : OptionT (StateM Machine) α} {f : α → OptionT (StateM Machine) β}
    {m m' : Machine} {a : Option α} (h : x.run m = (a, m')) :
    (x >>= f).run m = a.elim (none, m') fun a => (f a).run m' := by
  rw [OptionT.run_bind]
  simp only [Option.elimM, bind, StateT.bind, h]
  cases a <;> rfl

/-- What work on an operation comes to, and the machine after it. -/
def performed (m : Machine) (op : Operation) : Option Unit × Machine :=
  (m.perform? op).elim (none, m) fun m' => (some (), m')

theorem run_execMov (a : Mov) (m : Machine) : (execMov a).run m = m.performed a.operation := by
  have hdata : UInt16.ofInt a.data.toNat = a.data := ofInt_toNat a.data
  unfold execMov Mov.operation performed
  cases a.form with
  | regMem =>
    dsimp only
    rcases destinationSource a.modRm.reg (a.modRm.operand a.wide) a.toReg a.wide with ⟨dst, src⟩
    cases dst <;> cases src <;> rfl
  | immToReg =>
    simp only [perform?, source?, hdata]
    rfl
  | immToRegMem =>
    dsimp only
    cases a.modRm.operand a.wide with
    | register r =>
      simp only [perform?, source?, hdata]
      rfl
    | memory base disp => rfl
  | memToAcc | accToMem => rfl

/-- The operands are looked up without a change to the machine. -/
theorem run_arithOperands (a : Arith) (m : Machine) :
    ∃ dst src, a.operation = .arith a.op dst src a.wide ∧
      (arithOperands a).run m = (do return (← dst.register?, ← m.source? src), m) := by
  unfold arithOperands Arith.operation
  cases a.form with
  | regMem =>
    dsimp only
    rcases destinationSource a.modRm.reg (a.modRm.operand a.wide) a.toReg a.wide with ⟨dst, src⟩
    refine ⟨dst, .operand src, rfl, ?_⟩
    cases dst <;> cases src <;> rfl
  | immToRegMem =>
    refine ⟨_, _, rfl, ?_⟩
    cases a.modRm.operand a.wide with
    | register r =>
      simp only [source?, a.ofInt_number]
      rfl
    | memory base disp => rfl
  | immToAcc =>
    refine ⟨_, _, rfl, ?_⟩
    simp only [source?, a.ofInt_number]
    rfl

theorem run_execArith (a : Arith) (m : Machine) :
    (execArith a).run m = m.performed a.operation := by
  obtain ⟨dst, src, hop, hrun⟩ := run_arithOperands a m
  rw [execArith, run_bind hrun, hop, performed, perform?]
  cases dst.register? with
  | none => rfl
  | some target =>
    cases m.source? src with
    | none => rfl
    | some value =>
      simp only [Option.bind_eq_bind, Option.bind_some]
      cases a.op.writes <;> rfl

theorem run_execJump (j : Jump) (m : Machine) :
    (work (.jump j)).run m = m.performed j.operation := by
  rw [performed, Jump.operation, perform?, Branch.taken_ofOpcode, Option.elim_some]
  show (some (), ((if _ then modify _ else pure () : StateM Machine Unit) m).2) = _
  cases (if j.opcode = 0x74 then m.flags.zero
    else if j.opcode = 0x75 then !m.flags.zero else false) <;> rfl

theorem run_work (i : Instruction) (m : Machine) : (work i).run m = m.performed i.operation := by
  cases i with
  | mov a => exact run_execMov a m
  | arith a => exact run_execArith a m
  | jump j => exact run_execJump j m

/-- Execution either has a machine for the operation, or leaves the machine as it was. -/
theorem exec_eq (i : Instruction) (address : UInt16) (m : Machine) :
    exec i address m =
      match m.perform? i.operation with
      | some m' => .ok () m'
      | none => .error (.unsupported address i.text) m := by
  rw [exec, run_work, performed]
  cases m.perform? i.operation <;> rfl

end Machine

end Machine86
