import Machine86.Instruction.Consuming
import Mathlib.Data.FinEnum

/-!
# The bytes of an instruction

`Instruction.encode` lays an instruction out as bytes: the byte of its family, then a mod-reg-rm
byte with its displacement, an immediate or an address. An encoding leaves no room for some values
of the fields; the instructions without such values are the `WellFormed` ones.

The table of first bytes is read in both directions: `Opcode.ofByte_eq_family_iff`.
-/

namespace Machine86

/-- A word as two bytes, the low byte first. -/
def wordBytes (w : UInt16) : List UInt8 := [w.toUInt8, (w >>> 8).toUInt8]

/-- An immediate as a word, or as its low byte where `wide` is false. -/
def immediateBytes (wide : Bool) (data : UInt16) : List UInt8 :=
  if wide then wordBytes data else [data.toUInt8]

theorem toNat_wordOfBytes (lo hi : UInt8) :
    (wordOfBytes lo hi).toNat = hi.toNat * 256 + lo.toNat := by
  have hlo : lo.toNat < 2 ^ 8 := lo.toNat_lt
  have hhi : hi.toNat < 2 ^ 8 := hi.toNat_lt
  have hshift : (hi.toUInt16 <<< (8 : UInt16)).toNat = hi.toNat <<< 8 := by
    simp only [UInt16.toNat_shiftLeft, UInt8.toNat_toUInt16, UInt16.reduceToNat, Nat.reduceMod,
      Nat.shiftLeft_eq]
    omega
  rw [wordOfBytes, UInt16.toNat_or, hshift, UInt8.toNat_toUInt16,
    ← Nat.shiftLeft_add_eq_or_of_lt hlo, Nat.shiftLeft_eq]

@[simp] theorem wordOfBytes_toUInt8 (w : UInt16) : wordOfBytes w.toUInt8 (w >>> 8).toUInt8 = w := by
  have hlt := w.toNat_lt
  apply UInt16.toNat.inj
  rw [toNat_wordOfBytes]
  simp [Nat.shiftRight_eq_div_pow]
  omega

@[simp] theorem wordBytes_wordOfBytes (lo hi : UInt8) :
    wordBytes (wordOfBytes lo hi) = [lo, hi] := by
  have hlo := lo.toNat_lt
  have hhi := hi.toNat_lt
  have h1 : (wordOfBytes lo hi).toUInt8 = lo := by
    apply UInt8.toNat.inj
    rw [UInt16.toNat_toUInt8, toNat_wordOfBytes]
    omega
  have h2 : (wordOfBytes lo hi >>> 8).toUInt8 = hi := by
    apply UInt8.toNat.inj
    rw [UInt16.toNat_toUInt8, UInt16.toNat_shiftRight, toNat_wordOfBytes]
    simp [Nat.shiftRight_eq_div_pow]
    omega
  rw [wordBytes, h1, h2]

@[simp] theorem length_wordBytes (w : UInt16) : (wordBytes w).length = 2 := rfl

theorem length_immediateBytes (wide : Bool) (data : UInt16) :
    1 ≤ (immediateBytes wide data).length ∧ (immediateBytes wide data).length ≤ 2 := by
  cases wide <;> simp [immediateBytes]

namespace ModRm

def byte (m : ModRm) : UInt8 := m.mode <<< 6 ||| m.reg <<< 3 ||| m.rm

/-- The bytes of the displacement: one, two or none, by the mode. -/
def dispBytes (m : ModRm) : List UInt8 :=
  if m.mode = 1 then [m.disp.toInt8.toUInt8]
  else if m.mode = 2 ∨ m.mode = 0 ∧ m.rm = 6 then wordBytes m.disp.toUInt16
  else []

def encode (m : ModRm) : List UInt8 := m.byte :: m.dispBytes

/-- The fields fit their bits, and the displacement fits the bytes that the mode gives it. -/
structure WellFormed (m : ModRm) : Prop where
  mode_lt : m.mode < 4
  reg_lt : m.reg < 8
  rm_lt : m.rm < 8
  disp_zero : m.mode = 3 ∨ m.mode = 0 ∧ m.rm ≠ 6 → m.disp = 0
  disp_byte : m.mode = 1 → -128 ≤ m.disp ∧ m.disp ≤ 127

theorem wellFormed_ofReg {reg : UInt8} (h : reg < 8) : WellFormed { reg } where
  mode_lt := (by decide : (0 : UInt8) < 4)
  reg_lt := h
  rm_lt := (by decide : (0 : UInt8) < 8)
  disp_zero := fun _ => rfl
  disp_byte := fun h => absurd h (by decide : ¬ (0 : UInt8) = 1)

theorem byte_fields : ∀ b : UInt8, b >>> 6 < 4 ∧ (b >>> 3) &&& 7 < 8 ∧ b &&& 7 < 8 ∧
    (b >>> 6) <<< 6 ||| ((b >>> 3) &&& 7) <<< 3 ||| (b &&& 7) = b := by
  decide +kernel

theorem fields_byte : ∀ mode : UInt8, mode < 4 → ∀ reg : UInt8, reg < 8 → ∀ rm : UInt8, rm < 8 →
    (mode <<< 6 ||| reg <<< 3 ||| rm) >>> 6 = mode ∧
      ((mode <<< 6 ||| reg <<< 3 ||| rm) >>> 3) &&& 7 = reg ∧
      (mode <<< 6 ||| reg <<< 3 ||| rm) &&& 7 = rm := by
  decide +kernel

theorem length_encode (m : ModRm) : 1 ≤ m.encode.length ∧ m.encode.length ≤ 3 := by
  unfold encode dispBytes
  split_ifs <;> simp

end ModRm

namespace Opcode

/-- Bit `n` of a byte, with this value. -/
def ofBit (value : Bool) (n : UInt8) : UInt8 := value.toUInt8 <<< n

def toByte : Opcode → UInt8
  | movRegMem toReg wide => 0x88 ||| ofBit toReg 1 ||| ofBit wide 0
  | movImmToReg wide reg => 0xb0 ||| ofBit wide 3 ||| reg
  | movImmToRegMem wide => 0xc6 ||| ofBit wide 0
  | movAccMem toMem wide => 0xa0 ||| ofBit toMem 1 ||| ofBit wide 0
  | arithImmToRegMem signExtend wide => 0x80 ||| ofBit signExtend 1 ||| ofBit wide 0
  | arithRegMem op toReg wide => op.code <<< 3 ||| ofBit toReg 1 ||| ofBit wide 0
  | arithImmToAcc op wide => op.code <<< 3 ||| 4 ||| ofBit wide 0
  | jump opcode => opcode

/-- The bits that a family takes over from its first byte are those of some first byte. -/
def Valid : Opcode → Prop
  | movImmToReg _ reg => reg < 8
  | jump opcode => 0x70 ≤ opcode ∧ opcode ≤ 0x7f ∨ 0xe0 ≤ opcode ∧ opcode ≤ 0xe3
  | _ => True

instance (op : Opcode) : Decidable op.Valid := by
  cases op <;> unfold Valid <;> infer_instance

end Opcode

def OpcodeClass.family? : OpcodeClass → Option Opcode
  | family op => some op
  | _ => none

namespace Opcode

theorem toByte_of_ofByte : ∀ b : UInt8, ∀ op ∈ (ofByte b).family?, op.Valid ∧ op.toByte = b := by
  decide +kernel

theorem ofByte_movImmToReg : ∀ wide : Bool, ∀ reg : UInt8, reg < 8 →
    ofByte (movImmToReg wide reg).toByte = .family (movImmToReg wide reg) := by
  decide +kernel

theorem ofByte_jump : ∀ b : UInt8, (jump b).Valid → ofByte b = .family (jump b) := by
  decide +kernel

theorem ofByte_toByte {op : Opcode} (h : op.Valid) : ofByte op.toByte = .family op := by
  cases op with
  | movRegMem toReg wide => cases toReg <;> cases wide <;> rfl
  | movImmToReg wide reg => exact ofByte_movImmToReg wide reg h
  | movImmToRegMem wide => cases wide <;> rfl
  | movAccMem toMem wide => cases toMem <;> cases wide <;> rfl
  | arithImmToRegMem signExtend wide => cases signExtend <;> cases wide <;> rfl
  | arithRegMem op toReg wide => cases op <;> cases toReg <;> cases wide <;> rfl
  | arithImmToAcc op wide => cases op <;> cases wide <;> rfl
  | jump opcode => exact ofByte_jump opcode h

/-- A first byte selects the family that it is the first byte of. -/
theorem ofByte_eq_family_iff {b : UInt8} {op : Opcode} :
    ofByte b = .family op ↔ op.Valid ∧ b = op.toByte := by
  refine ⟨?_, ?_⟩
  · intro h
    obtain ⟨hv, hb⟩ := toByte_of_ofByte b op (by simp [h, OpcodeClass.family?])
    exact ⟨hv, hb.symm⟩
  · rintro ⟨hv, rfl⟩
    exact ofByte_toByte hv

end Opcode

def Mov.family (m : Mov) : Opcode :=
  match m.form with
  | .regMem => .movRegMem m.toReg m.wide
  | .immToReg => .movImmToReg m.wide m.modRm.reg
  | .immToRegMem => .movImmToRegMem m.wide
  | .memToAcc => .movAccMem false m.wide
  | .accToMem => .movAccMem true m.wide

def Mov.operandBytes (m : Mov) : List UInt8 :=
  match m.form with
  | .regMem => m.modRm.encode
  | .immToReg => immediateBytes m.wide m.data
  | .immToRegMem => m.modRm.encode ++ immediateBytes m.wide m.data
  | .memToAcc | .accToMem => wordBytes m.data

/-- A move that an encoding holds. -/
def Mov.WellFormed (m : Mov) : Prop :=
  m.modRm.WellFormed ∧ (m.form ≠ .regMem → m.toReg = false) ∧
    match m.form with
    | .regMem => m.data = 0
    | .immToReg => m.modRm = { reg := m.modRm.reg } ∧ (m.wide = false → m.data < 0x100)
    | .immToRegMem => m.modRm.reg = 0 ∧ (m.wide = false → m.data < 0x100)
    | .memToAcc | .accToMem => m.modRm = {}

def Arith.family (a : Arith) : Opcode :=
  match a.form with
  | .regMem => .arithRegMem a.op a.toReg a.wide
  | .immToRegMem => .arithImmToRegMem a.signExtend a.wide
  | .immToAcc => .arithImmToAcc a.op a.wide

/-- The immediate of the group takes two bytes only where it is a word without sign extension. -/
def Arith.operandBytes (a : Arith) : List UInt8 :=
  match a.form with
  | .regMem => a.modRm.encode
  | .immToRegMem => a.modRm.encode ++ immediateBytes (a.wide && !a.signExtend) a.data
  | .immToAcc => immediateBytes a.wide a.data

def Arith.WellFormed (a : Arith) : Prop :=
  a.modRm.WellFormed ∧ (a.wide = false → a.data < 0x100) ∧
    match a.form with
    | .regMem =>
      a.signExtend = false ∧ a.data = 0 ∧
        a.opcode = a.op.code <<< 3 ||| Opcode.ofBit a.toReg 1 ||| Opcode.ofBit a.wide 0
    | .immToRegMem =>
      a.toReg = false ∧ a.modRm.reg = a.op.code ∧
        a.opcode = 0x80 ||| Opcode.ofBit a.signExtend 1 ||| Opcode.ofBit a.wide 0 ∧
        (a.signExtend = true → a.wide = true → ∃ b : Int8, a.data = b.toInt16.toUInt16)
    | .immToAcc =>
      a.toReg = false ∧ a.signExtend = false ∧ a.modRm = {} ∧
        a.opcode = a.op.code <<< 3 ||| 4 ||| Opcode.ofBit a.wide 0

def Jump.WellFormed (j : Jump) : Prop :=
  0x70 ≤ j.opcode ∧ j.opcode ≤ 0x7f ∨ 0xe0 ≤ j.opcode ∧ j.opcode ≤ 0xe3

namespace Instruction

def family : Instruction → Opcode
  | mov m => m.family
  | arith a => a.family
  | jump j => .jump j.opcode

def operandBytes : Instruction → List UInt8
  | mov m => m.operandBytes
  | arith a => a.operandBytes
  | jump j => [j.inc.toUInt8]

def encode (i : Instruction) : List UInt8 := i.family.toByte :: i.operandBytes

/-- Every field has a value that an encoding holds. -/
def WellFormed : Instruction → Prop
  | mov m => m.WellFormed
  | arith a => a.WellFormed
  | jump j => j.WellFormed

theorem length_operandBytes (i : Instruction) :
    1 ≤ i.operandBytes.length ∧ i.operandBytes.length ≤ 5 := by
  cases i with
  | mov m =>
    have hm := m.modRm.length_encode
    have hd := length_immediateBytes m.wide m.data
    cases hf : m.form <;> simp only [operandBytes, Mov.operandBytes, hf, List.length_append,
      length_wordBytes] <;> omega
  | arith a =>
    have hm := a.modRm.length_encode
    have hw := length_immediateBytes a.wide a.data
    have hg := length_immediateBytes (a.wide && !a.signExtend) a.data
    cases hf : a.form <;> simp only [operandBytes, Arith.operandBytes, hf, List.length_append] <;>
      omega
  | jump j => simp [operandBytes]

theorem length_encode (i : Instruction) : 2 ≤ i.encode.length ∧ i.encode.length ≤ 6 := by
  have h := i.length_operandBytes
  simp only [encode, List.length_cons]
  omega

end Instruction

end Machine86
