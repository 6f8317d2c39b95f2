import Machine86.Proofs.Effect

/-!
# The flags after arithmetic on words and on bytes

Arithmetic is done on words, with zeros above a byte, and the flags follow the word; a register that
is a byte keeps the low half of it. For words the flags are those of the number that is written. For
bytes they are those of a number of sixteen bits, so the zero flag misses the one sum that leaves a
byte of zero behind a carry, and the sign flag is a borrow (`exec_arith_flags`).
-/

namespace Machine86

namespace Arith

/-- The result, cut to the width of the operands. -/
def narrowed (a : Arith) (m : Machine) : Nat := a.result m % a.target.capacity

/-- The flags are those of the result at the width of the operands: whether it is zero, and its top
bit, 15 of a word and 7 of a byte. -/
structure FlagsAtWidth (a : Arith) (m m' : Machine) : Prop where
  zero : m'.flags.zero = decide (a.narrowed m = 0)
  sign : m'.flags.sign = (a.narrowed m).testBit (if a.wide then 15 else 7)

/-- The flags are those of the word that two bytes with zeros above them give. A sum of 0x100 is
zero as a byte only; a word is negative just after a borrow. -/
structure FlagsOfBytes (a : Arith) (m m' : Machine) : Prop where
  zero : m'.flags.zero = true ↔
    a.narrowed m = 0 ∧ ¬ (a.op = .add ∧ m.view a.target + a.value m = 0x100)
  sign : m'.flags.sign = true ↔ a.op ≠ .add ∧ m.view a.target < a.value m

variable {a : Arith}

theorem capacity_target (a : Arith) : a.target.capacity = if a.wide then 0x10000 else 0x100 := by
  unfold target
  cases a.form <;> rfl

theorem value_lt_of_narrow (ha : a.WellFormed) (hwide : a.wide = false) (m : Machine) :
    a.value m < 0x100 := by
  obtain ⟨-, hdata, -⟩ := ha
  have hdata := UInt16.lt_iff_toNat_lt.1 (hdata hwide)
  unfold value
  cases a.form with
  | regMem =>
    refine Nat.lt_of_lt_of_eq (m.view_lt _) ?_
    rw [Register.capacity, Register.ofField, hwide]
    rfl
  | immToRegMem | immToAcc => exact hdata

theorem result_lt (a : Arith) (m : Machine) : a.result m < 0x10000 := by
  unfold result ArithOp.result
  cases a.op <;> exact Nat.mod_lt _ (by omega)

/-- The machine after an operation on registers: the target holds the result as far as it can, and
the flags follow the result. -/
theorem exec_eq_ok (ha : a.OnRegisters) (m : Machine) (address : UInt16) :
    ∃ m', Machine.exec (.arith a) address m = .ok () m' ∧
      (a.op ≠ .cmp → m'.view a.target = a.narrowed m) ∧
      m'.flags.zero = decide (a.result m = 0) ∧
      m'.flags.sign = decide (0x7fff < a.result m) := by
  obtain ⟨v, hv, hperform⟩ := perform?_operation ha m
  refine ⟨_, by rw [Machine.exec_eq, Instruction.operation, hperform], fun hcmp => ?_, ?_, ?_⟩
  · rw [if_pos (a.op.writes_iff.2 hcmp), narrowed, ← hv]
    exact m.view_setReg a.target v
  · rw [Machine.setResultFlags, Flags.zero_ofResult, hv]
  · rw [Machine.setResultFlags, Flags.sign_ofResult, hv]

theorem flagsAtWidth_of_wide {m m' : Machine} (hwide : a.wide = true)
    (hzero : m'.flags.zero = decide (a.result m = 0))
    (hsign : m'.flags.sign = decide (0x7fff < a.result m)) : a.FlagsAtWidth m m' := by
  have hnarrowed : a.narrowed m = a.result m := by
    rw [narrowed, capacity_target, if_pos hwide, Nat.mod_eq_of_lt (a.result_lt m)]
  refine ⟨by rw [hzero, hnarrowed], ?_⟩
  have hlt := a.result_lt m
  rw [hsign, hnarrowed, if_pos hwide, Nat.testBit_eq_decide_div_mod_eq, decide_eq_decide]
  omega

theorem flagsOfBytes_of_narrow {m m' : Machine} (ha : a.WellFormed) (hwide : a.wide = false)
    (hzero : m'.flags.zero = decide (a.result m = 0))
    (hsign : m'.flags.sign = decide (0x7fff < a.result m)) : a.FlagsOfBytes m m' := by
  have hcapacity : a.target.capacity = 0x100 := by
    rw [capacity_target, hwide]
    rfl
  have hview : m.view a.target < 0x100 := hcapacity ▸ m.view_lt a.target
  have hvalue := value_lt_of_narrow ha hwide m
  -- a sum of two bytes stays below 0x200; a difference leaves the bytes only by a borrow
  refine ⟨?_, ?_⟩
  · rw [hzero, decide_eq_true_iff, narrowed, hcapacity, result]
    cases a.op <;> simp [ArithOp.result] <;> omega
  · rw [hsign, decide_eq_true_iff, result]
    cases a.op <;> simp [ArithOp.result] <;> omega

end Arith

/-- After an addition, a subtraction or a comparison between words the flags are those of the
result; after one between bytes they are those of a result of sixteen bits. Either way a sum or a
difference is written as far as the target holds it. -/
theorem exec_arith_flags {a : Arith} {r r' : Reader} (hdecode : decode r = .ok (.arith a) r')
    (ha : a.OnRegisters) (m : Machine) (address : UInt16) :
    ∃ m', Machine.exec (.arith a) address m = .ok () m' ∧
      (a.op ≠ .cmp → m'.view a.target = a.narrowed m) ∧
      (a.wide = true → a.FlagsAtWidth m m') ∧
      (a.wide = false → a.FlagsOfBytes m m') := by
  obtain ⟨hwellFormed, -⟩ := decode_eq_ok_iff.1 hdecode
  obtain ⟨m', hexec, hview, hzero, hsign⟩ := Arith.exec_eq_ok ha m address
  exact ⟨m', hexec, hview, fun hwide => Arith.flagsAtWidth_of_wide hwide hzero hsign,
    fun hwide => Arith.flagsOfBytes_of_narrow hwellFormed hwide hzero hsign⟩

/-- With 0x80 in al, and about to add as much to it. -/
def Machine.highByte : Machine where
  regs := #v[0x80, 0, 0, 0, 0, 0, 0, 0]
  flags := {}
  ip := 2
  memory := ⟨#[0xb0, 0x80, 0x04, 0x80]⟩
  programSize := 4
  wrapped := false
  minMemory := 0

/-- An operation between al and a byte. -/
def Arith.onAl (op : ArithOp) (data : UInt16) : Arith where
  form := .immToAcc
  op := op
  toReg := false
  signExtend := false
  wide := false
  modRm := {}
  data := data
  opcode := op.code <<< 3 ||| 4

theorem exec_arith_flags_onAl :
    ∃ m', Machine.exec (.arith (.onAl .add 0x80)) 2 Machine.highByte = .ok () m' ∧
      m'.view (.acc false) = 0 ∧ m'.flags.zero = false ∧ m'.flags.sign = false := by
  have hdecode : decode (.ofBytes [0x04, 0x80]) = .ok (.arith (.onAl .add 0x80)) ⟨2, []⟩ := rfl
  obtain ⟨m', hexec, hview, -, hflags⟩ := exec_arith_flags hdecode trivial Machine.highByte 2
  have hflags := hflags rfl
  refine ⟨m', hexec, hview nofun, ?_, ?_⟩
  · exact Bool.eq_false_iff.2 fun h => (hflags.zero.1 h).2 ⟨rfl, rfl⟩
  · exact Bool.eq_false_iff.2 fun h => (hflags.sign.1 h).1 rfl

/-- The byte 0x80 twice leaves zero in al and no zero flag; the byte 0x80 less nothing leaves 0x80
in al and no sign flag. -/
theorem not_flagsAtWidth_onAl :
    (decode (.ofBytes [0x04, 0x80]) = .ok (.arith (.onAl .add 0x80)) ⟨2, []⟩ ∧
      (Arith.onAl .add 0x80).OnRegisters ∧
      ∃ m', Machine.exec (.arith (.onAl .add 0x80)) 2 Machine.highByte = .ok () m' ∧
        m'.view (.acc false) = 0 ∧ m'.flags.zero = false ∧
        ¬ (Arith.onAl .add 0x80).FlagsAtWidth Machine.highByte m') ∧
    decode (.ofBytes [0x2c, 0x00]) = .ok (.arith (.onAl .sub 0)) ⟨2, []⟩ ∧
      (Arith.onAl .sub 0).OnRegisters ∧
      ∃ m', Machine.exec (.arith (.onAl .sub 0)) 2 Machine.highByte = .ok () m' ∧
        m'.view (.acc false) = 0x80 ∧ m'.flags.sign = false ∧
        ¬ (Arith.onAl .sub 0).FlagsAtWidth Machine.highByte m' := by
  refine ⟨⟨rfl, trivial, _, rfl, rfl, rfl, fun h => ?_⟩,
    rfl, trivial, _, rfl, rfl, rfl, fun h => ?_⟩
  · exact absurd h.zero (by decide)
  · exact absurd h.sign (by decide)

end Machine86
