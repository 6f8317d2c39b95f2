import Machine86.Proofs.Views

/-!
# Registers that share bits

Two registers are the same, or have no half in common, or one of them is a word and the other a byte
of it (`Register.aliasing_cases`). A write gives each half that its register covers one byte of the
value (`Machine.half_setReg_of_mem`) and leaves all other halves alone. So what a write shows
through any register, and what two writes come to, follows half by half: `setReg_aliasing`.
-/

namespace Machine86

namespace Register

variable {r q : Register}

/-- The two registers have no half in common. -/
def Apart (r q : Register) : Prop := ∀ h ∈ r.halves, h ∉ q.halves

/-- The byte of a value that a write to the register brings into a half that it covers. -/
def byteFor (r : Register) (value : UInt16) (h : Fin 8 × Bool) : Nat :=
  if r.wide ∧ h.2 then value.toNat / 0x100 else value.toNat % 0x100

theorem halves_word (i : Fin 8) : (word i).halves = [(i, false), (i, true)] := rfl

theorem halves_of_low {i : Fin 8} (hi : i.val < 4) : halves ⟨i, false⟩ = [(i, false)] := if_pos hi

theorem halves_of_high {i : Fin 8} (hi : ¬ i.val < 4) :
    halves ⟨i, false⟩ = [(⟨i.val - 4, by omega⟩, true)] := if_neg hi

theorem eq_word_of_wide (h : r.wide = true) : r = word r.index := by
  obtain ⟨i, wide⟩ := r
  cases h
  rfl

/-- A register is a word, or one half of a word. -/
theorem eq_word_or_halves_eq (r : Register) : (∃ i, r = word i) ∨ ∃ h, r.halves = [h] := by
  obtain ⟨i, wide⟩ := r
  cases wide with
  | true => exact .inl ⟨i, rfl⟩
  | false =>
    by_cases hi : i.val < 4
    · exact .inr ⟨_, halves_of_low hi⟩
    · exact .inr ⟨_, halves_of_high hi⟩

theorem not_wide_of_halves_eq {h : Fin 8 × Bool} (hr : r.halves = [h]) : r.wide = false := by
  cases hwide : r.wide with
  | false => rfl
  | true =>
    rw [eq_word_of_wide hwide, halves_word] at hr
    simp at hr

/-- A register is known by the halves that it covers. -/
theorem eq_of_halves_eq (h : r.halves = q.halves) : r = q := by
  obtain ⟨i, wide⟩ := r
  obtain ⟨j, wide'⟩ := q
  rw [mk.injEq, Fin.ext_iff]
  unfold halves at h
  split_ifs at h <;> simp_all
  -- two high bytes, whose numbers are not those of their words
  omega

/-- The same register, nothing in common, or a word and a byte of it. -/
theorem aliasing_cases (r q : Register) :
    r = q ∨ r.Apart q ∨ (∃ i high, r.halves = [(i, high)] ∧ q = word i) ∨
      ∃ i high, r = word i ∧ q.halves = [(i, high)] := by
  rcases r.eq_word_or_halves_eq with ⟨i, rfl⟩ | ⟨⟨i, high⟩, hr⟩ <;>
    rcases q.eq_word_or_halves_eq with ⟨j, rfl⟩ | ⟨⟨j, high'⟩, hq⟩
  · by_cases hij : i = j
    · exact .inl (congrArg word hij)
    · exact .inr (.inl (by simp [Apart, halves_word, hij]))
  · by_cases hij : i = j
    · exact .inr (.inr (.inr ⟨i, high', rfl, hij ▸ hq⟩))
    · exact .inr (.inl (by simp [Apart, halves_word, hq, hij]))
  · by_cases hij : i = j
    · exact .inr (.inr (.inl ⟨i, high, hr, hij ▸ rfl⟩))
    · exact .inr (.inl (by simp [Apart, halves_word, hr, hij]))
  · by_cases hhalf : (i, high) = (j, high')
    · exact .inl (eq_of_halves_eq (by rw [hr, hq, hhalf]))
    · exact .inr (.inl (by simpa [Apart, hr, hq] using hhalf))

end Register

namespace Machine

variable {m m' : Machine} {r q : Register}

theorem view_word (m : Machine) (i : Fin 8) :
    m.view (.word i) = m.half (i, true) * 0x100 + m.half (i, false) := by
  rw [half_low, half_high]
  show (m.regs.get i).toNat = _
  omega

theorem view_of_halves_eq {h : Fin 8 × Bool} (hr : r.halves = [h]) : m.view r = m.half h := by
  have hwide := Register.not_wide_of_halves_eq hr
  unfold Register.halves at hr
  unfold view
  rw [hwide, if_neg Bool.false_ne_true] at hr ⊢
  split_ifs at hr ⊢ with hi
  · rw [List.singleton_inj.1 hr]
  · rw [List.singleton_inj.1 hr]

/-- What a register holds is no more than its halves. -/
theorem view_eq_of_half_eq (h : ∀ h ∈ q.halves, m'.half h = m.half h) : m'.view q = m.view q := by
  rcases q.eq_word_or_halves_eq with ⟨i, rfl⟩ | ⟨b, hq⟩
  · rw [view_word, view_word, h _ (by simp [Register.halves_word]),
      h _ (by simp [Register.halves_word])]
  · rw [view_of_halves_eq hq, view_of_halves_eq hq, h b (by simp [hq])]

/-- Machines that differ in their registers at most are the same if their halves are. -/
theorem eq_of_half_eq (hregs : m' = { m with regs := m'.regs }) (h : ∀ h, m'.half h = m.half h) :
    m' = m := by
  rw [hregs, regs_eq_of_half_eq h]

/-- A write brings each half that its register covers one byte of the value. -/
theorem half_setReg_of_mem (m : Machine) {h : Fin 8 × Bool} (hh : h ∈ r.halves) (value : UInt16) :
    (m.setReg r value).half h = r.byteFor value h := by
  have hlt := value.toNat_lt
  have hview := m.view_setReg r value
  rcases r.eq_word_or_halves_eq with ⟨i, rfl⟩ | ⟨b, hr⟩
  · have hlow : (m.setReg (.word i) value).half (i, false) < 0x100 := Nat.mod_lt _ (by omega)
    rw [view_word, show (Register.word i).capacity = 0x10000 from rfl] at hview
    rw [Register.halves_word, List.mem_cons, List.mem_singleton] at hh
    rcases hh with rfl | rfl
    · rw [Register.byteFor, if_neg (by simp)]
      omega
    · rw [Register.byteFor, if_pos ⟨rfl, rfl⟩]
      omega
  · have hwide := Register.not_wide_of_halves_eq hr
    rw [hr, List.mem_singleton] at hh
    rw [view_of_halves_eq hr, Register.capacity, hwide, if_neg Bool.false_ne_true] at hview
    rw [hh, hview, Register.byteFor, hwide, if_neg (by simp)]

/-- The last write to a register is the one that stays. -/
theorem setReg_setReg (m : Machine) (r : Register) (value value' : UInt16) :
    (m.setReg r value).setReg r value' = m.setReg r value' := by
  refine eq_of_half_eq rfl fun h => ?_
  by_cases hr : h ∈ r.halves
  · rw [half_setReg_of_mem _ hr, half_setReg_of_mem _ hr]
  · rw [half_setReg _ _ hr, half_setReg _ _ hr, half_setReg _ _ hr]

theorem setReg_comm (m : Machine) (h : r.Apart q) (value value' : UInt16) :
    (m.setReg r value).setReg q value' = (m.setReg q value').setReg r value := by
  refine eq_of_half_eq rfl fun b => ?_
  by_cases hr : b ∈ r.halves
  · have hq : b ∉ q.halves := h b hr
    rw [half_setReg _ _ hq, half_setReg_of_mem _ hr, half_setReg_of_mem _ hr]
  · by_cases hq : b ∈ q.halves
    · rw [half_setReg_of_mem _ hq, half_setReg _ _ hr, half_setReg_of_mem _ hq]
    · rw [half_setReg _ _ hq, half_setReg _ _ hr, half_setReg _ _ hr, half_setReg _ _ hq]

theorem reg_setReg_of_apart (m : Machine) (h : r.Apart q) (value : UInt16) :
    (m.setReg r value).reg q = m.reg q := by
  apply UInt16.toNat.inj
  rw [toNat_reg, toNat_reg]
  exact view_eq_of_half_eq fun b hq => half_setReg m r (fun hr => h b hr hq) value

/-- A byte is written, and the word that it lies in is read. -/
theorem toNat_reg_setReg_byte (m : Machine) {i : Fin 8} {high : Bool}
    (hr : r.halves = [(i, high)]) (value : UInt16) :
    ((m.setReg r value).reg (.word i)).toNat =
      if high then value.toNat % 0x100 * 0x100 + (m.reg (.word i)).toNat % 0x100
      else (m.reg (.word i)).toNat / 0x100 * 0x100 + value.toNat % 0x100 := by
  have hwritten : (m.setReg r value).half (i, high) = value.toNat % 0x100 := by
    rw [half_setReg_of_mem m (by simp [hr]), Register.byteFor, Register.not_wide_of_halves_eq hr,
      if_neg (by simp)]
  have hkept : (m.setReg r value).half (i, !high) = m.half (i, !high) :=
    half_setReg m r (by simp [hr]) value
  have hlow : m.half (i, false) < 0x100 := Nat.mod_lt _ (by omega)
  rw [toNat_reg, toNat_reg, view_word, view_word]
  cases high with
  | false =>
    rw [hwritten, show (m.setReg r value).half (i, true) = _ from hkept, Bool.not_false,
      if_neg Bool.false_ne_true]
    omega
  | true =>
    rw [hwritten, show (m.setReg r value).half (i, false) = _ from hkept, Bool.not_true, if_pos rfl]
    omega

/-- A word is written, and a byte of it is read. -/
theorem toNat_reg_setReg_word (m : Machine) {i : Fin 8} {high : Bool}
    (hq : q.halves = [(i, high)]) (value : UInt16) :
    ((m.setReg (.word i) value).reg q).toNat =
      if high then value.toNat / 0x100 else value.toNat % 0x100 := by
  have hmem : (i, high) ∈ (Register.word i).halves := by cases high <;> simp [Register.halves_word]
  rw [toNat_reg, view_of_halves_eq hq, half_setReg_of_mem m hmem, Register.byteFor]
  cases high <;> rfl

end Machine

open Machine

/-- After a write `r` holds the value cut to its width, and a second write is the one that stays. A
register apart from `r` shows nothing of the write, and writes to the two can be made in either
order. A byte that is written appears in its half of the word, beside the old other half, and a word
that is written appears byte by byte in its halves. Two registers lie to each other in one of these
ways. -/
theorem setReg_aliasing (m : Machine) (r q : Register) (value value' : UInt16) :
    ((m.setReg r value).reg r).toNat = value.toNat % r.capacity ∧
      (m.setReg r value).setReg r value' = m.setReg r value' ∧
      (r.Apart q → (m.setReg r value).reg q = m.reg q ∧
        (m.setReg r value).setReg q value' = (m.setReg q value').setReg r value) ∧
      (∀ i high, r.halves = [(i, high)] → q = .word i → ((m.setReg r value).reg q).toNat =
        if high then value.toNat % 0x100 * 0x100 + (m.reg q).toNat % 0x100
        else (m.reg q).toNat / 0x100 * 0x100 + value.toNat % 0x100) ∧
      (∀ i high, r = .word i → q.halves = [(i, high)] → ((m.setReg r value).reg q).toNat =
        if high then value.toNat / 0x100 else value.toNat % 0x100) ∧
      (r = q ∨ r.Apart q ∨ (∃ i high, r.halves = [(i, high)] ∧ q = .word i) ∨
        ∃ i high, r = .word i ∧ q.halves = [(i, high)]) := by
  refine ⟨by rw [toNat_reg, view_setReg], setReg_setReg m r value value',
    fun h => ⟨reg_setReg_of_apart m h value, setReg_comm m h value value'⟩, ?_, ?_,
    Register.aliasing_cases r q⟩
  · rintro i high hr rfl
    exact toNat_reg_setReg_byte m hr value
  · rintro i high rfl hq
    exact toNat_reg_setReg_word m hq value

/-- With 0x1234 in ax and 0x5678 in bx. -/
def Machine.twoWords : Machine where
  regs := #v[0x1234, 0, 0, 0x5678, 0, 0, 0, 0]
  flags := {}
  ip := 0
  memory := ⟨#[]⟩
  programSize := 0
  wrapped := false
  minMemory := 0

def Register.ah : Register := .ofField 4 false

/-- The high byte of ax is a part of ax and no part of bx. -/
theorem setReg_aliasing_ah :
    (Register.ah.Apart .bx ∧ (Machine.twoWords.setReg .ah 0xabcd).reg .bx = 0x5678) ∧
      Register.ah.halves = [(0, true)] ∧
      ((Machine.twoWords.setReg .ah 0xabcd).reg .ax).toNat = 0xcd34 ∧
      ((Machine.twoWords.setReg .ax 0xabcd).reg .ah).toNat = 0xab := by
  have hhalves : Register.ah.halves = [(0, true)] := rfl
  have hapart : Register.ah.Apart .bx := by
    simp [Register.Apart, hhalves, Register.bx, Register.halves_word]
  have hold : (Machine.twoWords.reg .ax).toNat = 0x1234 := rfl
  obtain ⟨-, -, hbx, -⟩ := setReg_aliasing Machine.twoWords .ah .bx 0xabcd 0
  obtain ⟨-, -, -, hax, -⟩ := setReg_aliasing Machine.twoWords .ah .ax 0xabcd 0
  obtain ⟨-, -, -, -, hah, -⟩ := setReg_aliasing Machine.twoWords .ax .ah 0xabcd 0
  refine ⟨⟨hapart, (hbx hapart).1⟩, hhalves, ?_, hah 0 true rfl hhalves⟩
  rw [hax 0 true hhalves rfl, hold]
  rfl

end Machine86
