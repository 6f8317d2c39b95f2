import Machine86.Proofs.Loaded
import Machine86.Proofs.Views

/-!
# The effect of an instruction

What a step makes of a machine, read off the fields of the instruction and said in numbers: the
register that is written and the number it gets, the result that the flags follow, and how far a
jump goes (`Instruction.Effect`). An effect leaves no choice of the machine behind it
(`Instruction.Effect.unique`), and an instruction without an operand in memory has the effect on
every machine (`Instruction.exists_effect`).
-/

namespace Machine86

/-- The sum or the difference of two words. -/
def ArithOp.result (op : ArithOp) (x y : Nat) : Nat :=
  match op with
  | add => (x + y) % 0x10000
  | sub | cmp => (x + 0x10000 - y) % 0x10000

namespace Mov

def OnRegisters (a : Mov) : Prop :=
  match a.form with
  | .regMem | .immToRegMem => a.modRm.mode = 3
  | .immToReg => True
  | .memToAcc | .accToMem => False

/-- The register that a move writes. -/
def target (a : Mov) : Register :=
  match a.form with
  | .regMem => .ofField (if a.toReg then a.modRm.reg else a.modRm.rm) a.wide
  | .immToReg => .ofField a.modRm.reg a.wide
  | .immToRegMem => .ofField a.modRm.rm a.wide
  | .memToAcc | .accToMem => .acc a.wide

/-- The number that a move takes from a register or from its own bytes. -/
def value (a : Mov) (m : Machine) : Nat :=
  match a.form with
  | .regMem => m.view (.ofField (if a.toReg then a.modRm.rm else a.modRm.reg) a.wide)
  | .immToReg | .immToRegMem | .memToAcc | .accToMem => a.data.toNat

end Mov

namespace Arith

def OnRegisters (a : Arith) : Prop :=
  match a.form with
  | .regMem | .immToRegMem => a.modRm.mode = 3
  | .immToAcc => True

/-- The register whose number an operation takes on its left side. -/
def target (a : Arith) : Register :=
  match a.form with
  | .regMem => .ofField (if a.toReg then a.modRm.reg else a.modRm.rm) a.wide
  | .immToRegMem => .ofField a.modRm.rm a.wide
  | .immToAcc => .acc a.wide

def value (a : Arith) (m : Machine) : Nat :=
  match a.form with
  | .regMem => m.view (.ofField (if a.toReg then a.modRm.rm else a.modRm.reg) a.wide)
  | .immToRegMem | .immToAcc => a.data.toNat

def result (a : Arith) (m : Machine) : Nat := a.op.result (m.view a.target) (a.value m)

end Arith

/-- Of the jumps only jz and jnz are ever taken. -/
def Jump.Taken (j : Jump) (flags : Flags) : Prop :=
  j.opcode = 0x74 ∧ flags.zero = true ∨ j.opcode = 0x75 ∧ flags.zero = false

instance (j : Jump) (flags : Flags) : Decidable (j.Taken flags) :=
  inferInstanceAs (Decidable (_ ∨ _))

namespace Instruction

/-- None of the operands is in memory. -/
def OnRegisters : Instruction → Prop
  | mov a => a.OnRegisters
  | arith a => a.OnRegisters
  | jump _ => True

/-- The register that an instruction writes, and the number that it is given. -/
def write? (m : Machine) : Instruction → Option (Register × Nat)
  | mov a => some (a.target, a.value m)
  | arith a => if a.op = .cmp then none else some (a.target, a.result m)
  | jump _ => none

/-- The result that the flags follow. -/
def result? (m : Machine) : Instruction → Option Nat
  | mov _ | jump _ => none
  | arith a => some (a.result m)

/-- How far the pointer goes on from the end of an instruction. -/
def distance (m : Machine) : Instruction → Int
  | mov _ | arith _ => 0
  | jump j => if j.Taken m.flags then j.inc.toInt else 0

/-- What an instruction of `size` bytes makes of a machine. -/
structure Effect (i : Instruction) (size : Nat) (m m' : Machine) : Prop where
  written : ∀ r n, i.write? m = some (r, n) → m'.view r = n % r.capacity
  kept : ∀ h, (∀ r n, i.write? m = some (r, n) → h ∉ r.halves) → m'.half h = m.half h
  zero : ∀ n, i.result? m = some n → m'.flags.zero = decide (n = 0)
  sign : ∀ n, i.result? m = some n → m'.flags.sign = decide (0x7fff < n)
  flags : i.result? m = none → m'.flags = m.flags
  otherBits : ∀ k, k ≠ 6 → k ≠ 7 → m'.flags.bit k = m.flags.bit k
  ip : (m'.ip.toNat : Int) = (m.ip.toNat + size + i.distance m) % 0x10000
  wrapped : m'.wrapped = decide (0x10000 ≤ m.ip.toNat + size)
  memory : m'.memory = m.memory
  programSize : m'.programSize = m.programSize
  minMemory : m'.minMemory = m.minMemory

variable {i : Instruction} {size : Nat} {m m₁ m₂ : Machine}

namespace Effect

theorem regs_unique (h₁ : i.Effect size m m₁) (h₂ : i.Effect size m m₂) : m₁.regs = m₂.regs := by
  apply Machine.regs_eq_of_half_eq
  intro h
  by_cases hkept : ∀ r n, i.write? m = some (r, n) → h ∉ r.halves
  · rw [h₁.kept h hkept, h₂.kept h hkept]
  · push Not at hkept
    obtain ⟨r, n, hwrite, hmem⟩ := hkept
    have hview : m₁.view r = m₂.view r := by
      rw [h₁.written r n hwrite, h₂.written r n hwrite]
    exact Machine.half_eq_of_view_eq hview hmem

theorem flags_unique (h₁ : i.Effect size m m₁) (h₂ : i.Effect size m m₂) :
    m₁.flags = m₂.flags := by
  cases hresult : i.result? m with
  | none => rw [h₁.flags hresult, h₂.flags hresult]
  | some n =>
    apply Flags.eq_of_bit_eq
    intro k
    by_cases h6 : k = 6
    · rw [h6, ← Flags.zero_eq_bit, ← Flags.zero_eq_bit, h₁.zero n hresult, h₂.zero n hresult]
    · by_cases h7 : k = 7
      · rw [h7, ← Flags.sign_eq_bit, ← Flags.sign_eq_bit, h₁.sign n hresult, h₂.sign n hresult]
      · rw [h₁.otherBits k h6 h7, h₂.otherBits k h6 h7]

theorem unique (h₁ : i.Effect size m m₁) (h₂ : i.Effect size m m₂) : m₁ = m₂ := by
  have hregs := h₁.regs_unique h₂
  have hflags := h₁.flags_unique h₂
  have hip : m₁.ip = m₂.ip := by
    have h := h₁.ip.trans h₂.ip.symm
    exact UInt16.toNat.inj (Int.ofNat.inj h)
  have hwrapped := h₁.wrapped.trans h₂.wrapped.symm
  have hmemory := h₁.memory.trans h₂.memory.symm
  have hprogramSize := h₁.programSize.trans h₂.programSize.symm
  have hminMemory := h₁.minMemory.trans h₂.minMemory.symm
  cases m₁
  cases m₂
  rw [Machine.mk.injEq]
  exact ⟨hregs, hflags, hip, hmemory, hprogramSize, hwrapped, hminMemory⟩

end Effect

end Instruction

theorem toNat_add_inc (w : UInt16) (inc : Int8) :
    ((w + inc.toInt16.toUInt16).toNat : Int) = (w.toNat + inc.toInt) % 0x10000 := by
  have hinc : inc.toInt = inc.toInt16.toUInt16.toBitVec.toInt := (Int8.toInt_toInt16 inc).symm
  have hcond := BitVec.toInt_eq_toNat_cond inc.toInt16.toUInt16.toBitVec
  rw [UInt16.toNat_toBitVec] at hcond
  rw [UInt16.toNat_add, hinc, hcond]
  split_ifs <;> omega

theorem ArithOp.toNat_apply (op : ArithOp) (x y : UInt16) :
    (op.apply x y).toNat = op.result x.toNat y.toNat := by
  have hx := x.toNat_lt
  have hy := y.toNat_lt
  cases op with
  | add => rw [apply, result, UInt16.toNat_add]
  | sub | cmp =>
    rw [apply, result, UInt16.toNat_sub]
    omega

theorem ArithOp.writes_iff (op : ArithOp) : op.writes = true ↔ op ≠ cmp := by
  cases op <;> simp [writes]

theorem Jump.taken_ofOpcode_iff (j : Jump) (flags : Flags) :
    (Branch.ofOpcode j.opcode).taken flags = true ↔ j.Taken flags := by
  rw [Branch.taken_iff, Branch.ofOpcode_eq_jz_iff, Branch.ofOpcode_eq_jnz_iff, Taken]

theorem ModRm.operand_of_mode {modRm : ModRm} (h : modRm.mode = 3) (wide : Bool) :
    modRm.operand wide = .register (.ofField modRm.rm wide) := by
  simp [operand, isRegister, h]

theorem destinationSource_register (reg rm : UInt8) (toReg wide : Bool) :
    destinationSource reg (.register (.ofField rm wide)) toReg wide =
      (.register (.ofField (if toReg then reg else rm) wide),
        .register (.ofField (if toReg then rm else reg) wide)) := by
  cases toReg <;> rfl

theorem Mov.perform?_operation {a : Mov} (h : a.OnRegisters) (m : Machine) :
    ∃ v, v.toNat = a.value m ∧ m.perform? a.operation = some (m.setReg a.target v) := by
  unfold OnRegisters at h
  unfold operation target value
  cases hform : a.form with
  | regMem =>
    rw [hform] at h
    refine ⟨_, m.toNat_reg _, ?_⟩
    rw [ModRm.operand_of_mode h]
    dsimp only
    rw [destinationSource_register]
    rfl
  | immToReg =>
    refine ⟨.ofInt a.data.toNat, ?_, rfl⟩
    rw [ofInt_toNat]
  | immToRegMem =>
    rw [hform] at h
    refine ⟨.ofInt a.data.toNat, ?_, ?_⟩
    · rw [ofInt_toNat]
    · rw [ModRm.operand_of_mode h]
      rfl
  | memToAcc | accToMem =>
    rw [hform] at h
    exact h.elim

theorem Arith.exists_source {a : Arith} (h : a.OnRegisters) (m : Machine) :
    ∃ src v, a.operation = .arith a.op (.register a.target) src a.wide ∧
      m.source? src = some v ∧ v.toNat = a.value m := by
  unfold OnRegisters at h
  unfold operation target value
  cases hform : a.form with
  | regMem =>
    rw [hform] at h
    let r := Register.ofField (if a.toReg then a.modRm.rm else a.modRm.reg) a.wide
    refine ⟨.operand (.register r), m.reg r, ?_, rfl, m.toNat_reg r⟩
    rw [ModRm.operand_of_mode h]
    dsimp only
    rw [destinationSource_register]
  | immToRegMem =>
    rw [hform] at h
    refine ⟨.number a.number, .ofInt a.number, ?_, rfl, ?_⟩
    · rw [ModRm.operand_of_mode h]
    · rw [ofInt_number]
  | immToAcc =>
    refine ⟨.number a.number, .ofInt a.number, rfl, rfl, ?_⟩
    rw [ofInt_number]

theorem Arith.perform?_operation {a : Arith} (h : a.OnRegisters)
    (m : Machine) :
    ∃ v, v.toNat = a.result m ∧ m.perform? a.operation =
      some ((if a.op.writes then m.setReg a.target v else m).setResultFlags v) := by
  obtain ⟨src, v, hop, hsrc, hv⟩ := exists_source h m
  refine ⟨a.op.apply (m.reg a.target) v, ?_, ?_⟩
  · rw [ArithOp.toNat_apply, m.toNat_reg, hv, result]
  · rw [hop, Machine.perform?, hsrc]
    rfl

theorem Jump.perform?_operation (j : Jump) (m : Machine) :
    m.perform? j.operation =
      some (if j.Taken m.flags then { m with ip := m.ip + j.inc.toInt16.toUInt16 } else m) := by
  simp only [operation, Machine.perform?, j.taken_ofOpcode_iff]

section Advance

variable (m : Machine) (size : UInt16)

theorem Machine.advance_ip :
    ((m.advance size).ip.toNat : Int) = (m.ip.toNat + size.toNat : Int) % 0x10000 := by
  rw [advance, UInt16.toNat_add]
  omega

variable {m}

theorem Machine.advance_wrapped (hw : m.wrapped = false) :
    (m.advance size).wrapped = decide (0x10000 ≤ m.ip.toNat + size.toNat) := by
  rw [advance, hw, Bool.false_or, addressSpace]

end Advance

namespace Instruction

variable {m : Machine} (hw : m.wrapped = false) (size : UInt16)

include hw

theorem effect_mov (a : Mov) {v : UInt16} (hv : v.toNat = a.value m) :
    (mov a).Effect size.toNat m ((m.advance size).setReg a.target v) where
  written := by
    rintro r n ⟨⟩
    rw [Machine.view_setReg, hv]
  kept h hkept := by
    rw [Machine.half_setReg _ _ (hkept _ _ rfl)]
    rfl
  zero := nofun
  sign := nofun
  flags _ := rfl
  otherBits _ _ _ := rfl
  ip := by
    rw [distance, Int.add_zero]
    exact m.advance_ip size
  wrapped := Machine.advance_wrapped size hw
  memory := rfl
  programSize := rfl
  minMemory := rfl

theorem effect_arith (a : Arith) {v : UInt16} (hv : v.toNat = a.result m) :
    (arith a).Effect size.toNat m
      ((if a.op.writes then (m.advance size).setReg a.target v
        else m.advance size).setResultFlags v) where
  written r n hwrite := by
    rw [write?] at hwrite
    split_ifs at hwrite with hcmp
    obtain ⟨rfl, rfl⟩ := hwrite
    rw [if_pos (a.op.writes_iff.2 hcmp), ← hv]
    exact Machine.view_setReg _ _ _
  kept h hkept := by
    by_cases hcmp : a.op = .cmp
    · rw [if_neg fun hwrites => a.op.writes_iff.1 hwrites hcmp]
      rfl
    · rw [if_pos (a.op.writes_iff.2 hcmp)]
      exact Machine.half_setReg _ _ (hkept _ _ (if_neg hcmp)) v
  zero := by
    rintro n ⟨⟩
    rw [Machine.setResultFlags, Flags.zero_ofResult, hv]
  sign := by
    rintro n ⟨⟩
    rw [Machine.setResultFlags, Flags.sign_ofResult, hv]
  flags := nofun
  otherBits k h6 h7 := by
    rw [Machine.setResultFlags, Flags.bit_ofResult, if_neg h7, if_neg h6]
    split_ifs <;> rfl
  ip := by
    rw [distance, Int.add_zero, ← m.advance_ip size]
    split_ifs <;> rfl
  wrapped := by
    rw [← Machine.advance_wrapped size hw]
    split_ifs <;> rfl
  memory := by split_ifs <;> rfl
  programSize := by split_ifs <;> rfl
  minMemory := by split_ifs <;> rfl

theorem effect_jump (j : Jump) :
    (jump j).Effect size.toNat m
      (if j.Taken m.flags
        then { m.advance size with ip := (m.advance size).ip + j.inc.toInt16.toUInt16 }
        else m.advance size) where
  written := nofun
  kept h hkept := by split_ifs <;> rfl
  zero := nofun
  sign := nofun
  flags _ := by split_ifs <;> rfl
  otherBits _ _ _ := by split_ifs <;> rfl
  ip := by
    have hadvance := m.advance_ip size
    rw [distance]
    split_ifs with htaken
    · rw [toNat_add_inc, hadvance, Int.emod_add_emod]
    · rw [hadvance, Int.add_zero]
  wrapped := by
    rw [← Machine.advance_wrapped size hw]
    split_ifs <;> rfl
  memory := by split_ifs <;> rfl
  programSize := by split_ifs <;> rfl
  minMemory := by split_ifs <;> rfl

/-- An instruction without an operand in memory has its effect on every machine. -/
theorem exists_effect {i : Instruction} (hi : i.OnRegisters) :
    ∃ m', (m.advance size).perform? i.operation = some m' ∧ i.Effect size.toNat m m' := by
  cases i with
  | mov a =>
    obtain ⟨v, hv, hperform⟩ := Mov.perform?_operation hi (m.advance size)
    exact ⟨_, hperform, effect_mov hw size a hv⟩
  | arith a =>
    obtain ⟨v, hv, hperform⟩ := Arith.perform?_operation hi (m.advance size)
    exact ⟨_, hperform, effect_arith hw size a hv⟩
  | jump j => exact ⟨_, j.perform?_operation _, effect_jump hw size j⟩

end Instruction

variable {m : Machine} {i : Instruction} {r : Reader}

/-- A step at an instruction without an operand in memory goes to the one machine that its effect
allows. -/
theorem step_iff_effect (hdone : m.isDone = false) (hdecode : decode (.ofBytes m.code) = .ok i r)
    (hi : i.OnRegisters) :
    ∃ m', m.step = .ok (some (⟨m.ip, m.code.take r.position, i⟩,
        .between m.snapshot m'.snapshot)) m' ∧
      ∀ m'', i.Effect r.position m m'' ↔ m'' = m' := by
  have hfetch : m.fetch = .ok (some ⟨m.ip, m.code.take r.position, i⟩) := by
    rw [Machine.fetch_of_not_isDone hdone, hdecode, Machine.fetched]
  have hsize := Machine.toNat_size hfetch
  have hlength : (m.code.take r.position).length = r.position := by
    obtain ⟨-, -, hposition⟩ := decode_eq_ok_iff.1 hdecode
    obtain ⟨-, -, hbytes, -, -⟩ := Machine.fetch_eq_some_iff.1 hfetch
    dsimp only at hbytes
    rw [hbytes, hposition]
    exact (Nat.zero_add _).symm
  rw [hlength] at hsize
  obtain ⟨m', hperform, heffect⟩ := Instruction.exists_effect
    (Machine.wrapped_of_not_isDone hdone) (Fetched.size ⟨m.ip, m.code.take r.position, i⟩) hi
  rw [hsize] at heffect
  refine ⟨m', Machine.step_eq_some_iff.2 ⟨hfetch, hperform, rfl⟩, fun m'' => ⟨?_, ?_⟩⟩
  · intro h
    exact h.unique heffect
  · rintro rfl
    exact heffect

/-- In front of `add ah, al`, with 0x12 in ah and 0xff in al. -/
def Machine.beforeAdd : Machine where
  regs := #v[0x12ff, 0, 0, 0, 0, 0, 0, 0]
  flags := ⟨Flags.zeroBit⟩
  ip := 0
  memory := ⟨#[0x00, 0xc4]⟩
  programSize := 2
  wrapped := false
  minMemory := 0

theorem step_iff_effect_add :
    ∃ f t m', Machine.beforeAdd.step = .ok (some (f, t)) m' ∧ m'.view ⟨4, false⟩ = 0x11 ∧
      m'.view ⟨0, false⟩ = 0xff ∧ m'.flags.zero = false ∧ m'.ip.toNat = 2 := by
  have hdecode : decode (.ofBytes Machine.beforeAdd.code) =
      .ok (.arith ⟨.regMem, .add, false, false, false, ⟨3, 0, 4, 0⟩, 0, 0⟩) ⟨2, []⟩ := rfl
  obtain ⟨m', hstep, heffect⟩ := step_iff_effect (by rfl) hdecode (by rfl)
  have h := (heffect m').2 rfl
  refine ⟨_, _, m', hstep, h.written _ _ rfl, ?_, h.zero _ rfl, ?_⟩
  · exact h.kept (0, false) (by rintro r n ⟨⟩; decide)
  · exact Int.ofNat.inj h.ip

end Machine86
