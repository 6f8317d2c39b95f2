import Machine86.Machine.Execution
import Mathlib.Tactic.SplitIfs

/-!
# Views of the registers and bits of the flags

A register of an instruction is a word of the machine, or a half of one. `Machine.view` is the
number that it holds and `Machine.half` the byte in one half of a word. A write gives the register
its number, cut to its width, and leaves every half alone that the register does not cover
(`Machine.view_setReg`, `Machine.half_setReg`). The words are no more than their halves, and the
flags no more than their bits.
-/

namespace Machine86

theorem toNat_and_high (w : UInt16) : (w &&& 0xff00).toNat = (w.toNat / 0x100) <<< 8 := by
  have hlt := w.toNat_lt
  apply Nat.eq_of_testBit_eq
  intro k
  rw [UInt16.toNat_and, show (0xff00 : UInt16).toNat = (2 ^ 8 - 1) <<< 8 from rfl,
    Nat.testBit_and, Nat.testBit_shiftLeft, Nat.testBit_shiftLeft, Nat.testBit_two_pow_sub_one,
    show 0x100 = 2 ^ 8 from rfl, Nat.testBit_div_two_pow]
  by_cases hk : 8 ≤ k
  · by_cases hk' : k < 16
    · simp [hk, show k - 8 < 8 by omega, Nat.sub_add_cancel hk]
    · have hzero : w.toNat.testBit k = false :=
        Nat.testBit_lt_two_pow (Nat.lt_of_lt_of_le hlt (Nat.pow_le_pow_right (by omega) (by omega)))
      simp [hk, Nat.sub_add_cancel hk, hzero]
  · simp [hk]

theorem toNat_and_low (w : UInt16) : (w &&& 0xff).toNat = w.toNat % 0x100 := by
  rw [UInt16.toNat_and, show (0xff : UInt16).toNat = 2 ^ 8 - 1 from rfl,
    Nat.and_two_pow_sub_one_eq_mod]

theorem get_eq_getElem {α : Type} {n : Nat} (xs : Vector α n) (i : Fin n) :
    xs.get i = xs[i.val] := rfl

namespace Register

/-- The halves that a register covers: the number of a word, and whether it is the high half. -/
def halves (r : Register) : List (Fin 8 × Bool) :=
  if r.wide then [(r.index, false), (r.index, true)]
  else if r.index.val < 4 then [(r.index, false)]
  else [(⟨r.index.val - 4, by omega⟩, true)]

/-- How many numbers a register can hold. -/
def capacity (r : Register) : Nat := if r.wide then 0x10000 else 0x100

end Register

namespace Machine

/-- One half of a word. -/
def half (m : Machine) (h : Fin 8 × Bool) : Nat :=
  if h.2 then (m.regs.get h.1).toNat / 0x100 else (m.regs.get h.1).toNat % 0x100

/-- The number that a register holds. -/
def view (m : Machine) (r : Register) : Nat :=
  if r.wide then (m.regs.get r.index).toNat
  else if r.index.val < 4 then m.half (r.index, false)
  else m.half (⟨r.index.val - 4, by omega⟩, true)

section WordIndex

variable {r : Register}

theorem wordIndex_of_wide (h : r.wide = true) : wordIndex r = r.index := by
  rw [wordIndex, if_pos h]

theorem wordIndex_of_low (h : ¬ r.wide = true) (hi : r.index.val < 4) :
    wordIndex r = r.index := by
  rw [wordIndex, if_neg h]
  exact Fin.ext (Nat.mod_eq_of_lt hi)

theorem wordIndex_of_high (h : ¬ r.wide = true) (hi : ¬ r.index.val < 4) :
    wordIndex r = ⟨r.index.val - 4, by omega⟩ := by
  rw [wordIndex, if_neg h]
  apply Fin.ext
  show r.index.val % 4 = r.index.val - 4
  omega

end WordIndex

variable (m : Machine) (r : Register)

theorem half_low (i : Fin 8) : m.half (i, false) = (m.regs.get i).toNat % 0x100 := rfl

theorem half_high (i : Fin 8) : m.half (i, true) = (m.regs.get i).toNat / 0x100 := rfl

theorem toNat_reg : (m.reg r).toNat = m.view r := by
  unfold reg view
  dsimp only
  split_ifs with hwide hi
  · rw [wordIndex_of_wide hwide]
  · rw [wordIndex_of_low hwide hi, toNat_and_low, half_low]
  · rw [wordIndex_of_high hwide hi, UInt16.toNat_shiftRight, Nat.shiftRight_eq_div_pow, half_high]
    rfl

theorem view_lt : m.view r < r.capacity := by
  have hword := fun i => (m.regs.get i).toNat_lt
  unfold view Register.capacity
  split_ifs with hwide hi
  · exact hword r.index
  · exact Nat.mod_lt _ (by omega)
  · have hlt := hword ⟨r.index.val - 4, by omega⟩
    rw [half_high]
    omega

theorem toNat_merge (word value : UInt16) :
    (merge r word value).toNat =
      if r.wide then value.toNat
      else if r.index.val < 4 then word.toNat / 0x100 * 0x100 + value.toNat % 0x100
      else value.toNat % 0x100 * 0x100 + word.toNat % 0x100 := by
  unfold merge
  split_ifs with hwide hi
  · rfl
  · have hlow : value.toNat % 0x100 < 2 ^ 8 := Nat.mod_lt _ (by omega)
    rw [UInt16.toNat_or, toNat_and_high, toNat_and_low, ← Nat.shiftLeft_add_eq_or_of_lt hlow,
      Nat.shiftLeft_eq]
  · have hlow : word.toNat % 0x100 < 2 ^ 8 := Nat.mod_lt _ (by omega)
    have hshift : (value <<< (8 : UInt16)).toNat = (value.toNat % 0x100) <<< 8 := by
      simp only [UInt16.toNat_shiftLeft, UInt16.reduceToNat, Nat.reduceMod, Nat.shiftLeft_eq]
      omega
    rw [UInt16.toNat_or, toNat_and_low, hshift, Nat.or_comm,
      ← Nat.shiftLeft_add_eq_or_of_lt hlow, Nat.shiftLeft_eq]

theorem get_setReg (value : UInt16) (i : Fin 8) :
    (m.setReg r value).regs.get i =
      if i = wordIndex r then merge r (m.regs.get i) value else m.regs.get i := by
  rw [setReg, get_eq_getElem, Vector.getElem_set]
  by_cases hi : i = wordIndex r
  · rw [if_pos (congrArg Fin.val hi.symm), if_pos hi, hi]
  · rw [if_neg fun h => hi (Fin.ext h.symm), if_neg hi, get_eq_getElem]

theorem view_setReg (value : UInt16) :
    (m.setReg r value).view r = value.toNat % r.capacity := by
  have hlt := value.toNat_lt
  unfold view Register.capacity
  split_ifs with hwide hi
  · rw [get_setReg, if_pos (wordIndex_of_wide hwide).symm, toNat_merge, if_pos hwide]
    omega
  · rw [half_low, get_setReg, if_pos (wordIndex_of_low hwide hi).symm, toNat_merge, if_neg hwide,
      if_pos hi]
    omega
  · rw [half_high, get_setReg, if_pos (wordIndex_of_high hwide hi).symm, toNat_merge,
      if_neg hwide, if_neg hi]
    omega

theorem half_setReg {h : Fin 8 × Bool} (hh : h ∉ r.halves) (value : UInt16) :
    (m.setReg r value).half h = m.half h := by
  obtain ⟨i, high⟩ := h
  have hword := (m.regs.get i).toNat_lt
  unfold half
  rw [get_setReg]
  by_cases hi : i = wordIndex r
  · rw [if_pos hi, toNat_merge]
    unfold Register.halves at hh
    by_cases hwide : r.wide = true
    · rw [wordIndex_of_wide hwide] at hi
      rw [if_pos hwide, hi] at hh
      cases high <;> simp at hh
    · rw [if_neg hwide] at hh ⊢
      by_cases h4 : r.index.val < 4
      · rw [wordIndex_of_low hwide h4] at hi
        rw [if_pos h4, hi, List.mem_singleton, Prod.mk.injEq, eq_self, true_and,
          Bool.not_eq_false] at hh
        rw [if_pos h4, if_pos hh, if_pos hh]
        omega
      · rw [wordIndex_of_high hwide h4] at hi
        rw [if_neg h4, hi, List.mem_singleton, Prod.mk.injEq, eq_self, true_and] at hh
        rw [if_neg h4, if_neg hh, if_neg hh]
        omega
  · rw [if_neg hi]

variable {m r}

/-- The number in a register determines the halves that it covers. -/
theorem half_eq_of_view_eq {m' : Machine} (hview : m.view r = m'.view r) {h : Fin 8 × Bool}
    (hh : h ∈ r.halves) : m.half h = m'.half h := by
  unfold Register.halves at hh
  unfold view at hview
  split_ifs at hh hview with hwide hi
  · simp only [List.mem_cons, List.not_mem_nil, or_false] at hh
    rcases hh with rfl | rfl <;> simp only [half, hview]
  · rw [List.mem_singleton] at hh
    rw [hh, hview]
  · rw [List.mem_singleton] at hh
    rw [hh, hview]

theorem regs_eq_of_half_eq {m' : Machine} (h : ∀ h, m.half h = m'.half h) :
    m.regs = m'.regs := by
  apply Vector.ext
  intro i hi
  apply UInt16.toNat.inj
  have hlow := h (⟨i, hi⟩, false)
  have hhigh := h (⟨i, hi⟩, true)
  simp only [half, Bool.false_eq_true, ↓reduceIte, get_eq_getElem] at hlow hhigh
  omega

end Machine

namespace Flags

/-- One bit of the flags. -/
def bit (f : Flags) (k : Nat) : Bool := f.bits.toBitVec.getLsbD k

theorem eq_of_bit_eq {f g : Flags} (h : ∀ k, f.bit k = g.bit k) : f = g := by
  obtain ⟨a⟩ := f
  obtain ⟨b⟩ := g
  have hbits : a.toBitVec = b.toBitVec := BitVec.eq_of_getLsbD_eq fun k _ => h k
  rw [UInt16.toBitVec_inj.1 hbits]

section Mask

variable (f : Flags) {mask : UInt16} {i : Nat} (hi : i < 16)
  (hmask : mask.toBitVec = BitVec.twoPow 16 i)

include hi hmask

theorem bit_put (value : Bool) (k : Nat) :
    (f.put mask value).bit k = if k = i then value else f.bit k := by
  unfold bit put
  by_cases hk : k < 16
  · cases value <;> by_cases hki : k = i <;> simp [hmask, hki, hi, hk]
  · have hki : k ≠ i := by omega
    rw [if_neg hki, BitVec.getLsbD_of_ge _ _ (by omega), BitVec.getLsbD_of_ge _ _ (by omega)]

theorem and_ne_zero_eq_bit : (f.bits &&& mask != 0) = f.bit i := by
  have hne : BitVec.twoPow 16 i ≠ 0#16 := by
    intro hzero
    have hbit := congrArg (BitVec.getLsbD · i) hzero
    simp [hi] at hbit
  rw [Bool.eq_iff_iff, bne_iff_ne, Ne, ← UInt16.toBitVec_inj, UInt16.toBitVec_and, hmask,
    BitVec.and_twoPow, bit]
  split_ifs with hb
  · simp [hb, hne]
  · simp [hb]

end Mask

theorem toBitVec_zeroBit : zeroBit.toBitVec = BitVec.twoPow 16 6 := rfl

theorem toBitVec_signBit : signBit.toBitVec = BitVec.twoPow 16 7 := rfl

theorem zero_eq_bit (f : Flags) : f.zero = f.bit 6 :=
  and_ne_zero_eq_bit f (by omega) toBitVec_zeroBit

theorem sign_eq_bit (f : Flags) : f.sign = f.bit 7 :=
  and_ne_zero_eq_bit f (by omega) toBitVec_signBit

theorem bit_ofResult (f : Flags) (result : UInt16) (k : Nat) :
    (f.ofResult result).bit k =
      if k = 7 then decide (0x7fff < result.toNat)
      else if k = 6 then decide (result.toNat = 0) else f.bit k := by
  have hsign : decide (result > 0x7fff) = decide (0x7fff < result.toNat) := rfl
  have hzero : (result == 0) = decide (result.toNat = 0) := by
    rw [Bool.eq_iff_iff, beq_iff_eq, decide_eq_true_iff, ← UInt16.toNat_inj]
    rfl
  rw [ofResult, bit_put _ (by omega) toBitVec_signBit, bit_put _ (by omega) toBitVec_zeroBit,
    hsign, hzero]

theorem zero_ofResult (f : Flags) (result : UInt16) :
    (f.ofResult result).zero = decide (result.toNat = 0) := by
  rw [zero_eq_bit, bit_ofResult]
  rfl

theorem sign_ofResult (f : Flags) (result : UInt16) :
    (f.ofResult result).sign = decide (0x7fff < result.toNat) := by
  rw [sign_eq_bit, bit_ofResult]
  rfl

/-- The bits without a meaning. -/
def rest (f : Flags) : UInt16 := f.bits &&& ~~~known

theorem bit_rest (f : Flags) (k : Nat) :
    f.rest.toBitVec.getLsbD k = if k = 6 ∨ k = 7 then false else f.bit k := by
  have hknown : known.toBitVec = BitVec.twoPow 16 6 ||| BitVec.twoPow 16 7 := rfl
  by_cases hk : k < 16
  · by_cases hkind : k = 6 ∨ k = 7
    · rcases hkind with rfl | rfl <;> simp [rest, hknown]
    · rw [not_or] at hkind
      simp [rest, bit, hknown, hkind, hk]
  · have hkind : ¬ (k = 6 ∨ k = 7) := by omega
    rw [if_neg hkind, bit, BitVec.getLsbD_of_ge _ _ (by omega), BitVec.getLsbD_of_ge _ _ (by omega)]

/-- Flags are their two named bits and the rest. -/
theorem eq_of_rest_eq {f g : Flags} (hzero : f.zero = g.zero) (hsign : f.sign = g.sign)
    (hrest : f.rest = g.rest) : f = g := by
  refine eq_of_bit_eq fun k => ?_
  by_cases h6 : k = 6
  · rw [h6, ← zero_eq_bit, ← zero_eq_bit, hzero]
  by_cases h7 : k = 7
  · rw [h7, ← sign_eq_bit, ← sign_eq_bit, hsign]
  have hkind : ¬ (k = 6 ∨ k = 7) := by simp [h6, h7]
  have hbit := congrArg (fun w : UInt16 => w.toBitVec.getLsbD k) hrest
  simpa only [bit_rest, if_neg hkind] using hbit

theorem rest_ofResult (f : Flags) (result : UInt16) : (f.ofResult result).rest = f.rest := by
  refine UInt16.toBitVec_inj.1 (BitVec.eq_of_getLsbD_eq fun k _ => ?_)
  rw [bit_rest, bit_rest, bit_ofResult]
  split_ifs <;> simp_all

end Flags

end Machine86
