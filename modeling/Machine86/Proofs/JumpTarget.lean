import Mathlib.Data.List.SplitBy
import Machine86.Proofs.Branches
import Machine86.Proofs.Wording

/-!
# Where a jump goes, read off its text

Behind the mnemonic of a jump stands a sum, in which `$` is the address of the jump itself. Read as
an assembler reads it, the sum is the address behind the two bytes of the jump, moved by its
distance (`Jump.value?_text`). A step at a jump leaves the pointer at this address if the jump is
taken, and behind the jump if it is not, both modulo the size of the address space. The word in the
text tells which: of the twenty, jz is taken with the zero flag set and jnz with the zero flag
clear. The step does nothing else (`step_jump`).
-/

namespace Machine86

namespace Expression

def isSign (c : Char) : Bool := c == '+' || c == '-'

/-- The number that decimal digits spell, if there are any. -/
def natural? (digits : List Char) : Option Nat :=
  if digits ≠ [] ∧ digits.all Char.isDigit = true then some (Nat.ofDigitChars 10 digits 0) else none

/-- A number, with or without a sign before it. -/
def integer? : List Char → Option Int
  | '+' :: digits => (natural? digits).map Int.ofNat
  | '-' :: digits => (natural? digits).map fun n => -Int.ofNat n
  | digits => (natural? digits).map Int.ofNat

/-- The value of a term, where `$` stands for `here`. -/
def term? (here : Int) (term : List Char) : Option Int :=
  if term = ['$'] then some here else integer? term

/-- The terms of a sum. A sign begins a new one. -/
def terms (sum : List Char) : List (List Char) := sum.splitBy fun _ c => !isSign c

/-- The value of a sum, where all its terms have one. -/
def value? (here : Int) (sum : List Char) : Option Int :=
  ((terms sum).mapM (term? here)).map (List.foldl (· + ·) 0)

theorem natural?_decimal (n : Nat) : natural? (Numeral.decimal n).toList = some n := by
  have hne : (Numeral.decimal n).toList ≠ [] := by simp [Numeral.decimal]
  have hdigits : (Numeral.decimal n).toList.all Char.isDigit = true :=
    List.all_eq_true.2 (Numeral.digits_decimal n)
  rw [natural?, if_pos ⟨hne, hdigits⟩]
  simp [Numeral.decimal]

theorem toList_signedPlus (i : Int) : (Numeral.signedPlus i).toList =
    (if i < 0 then '-' else '+') :: (Numeral.decimal i.natAbs).toList := by
  rw [Numeral.signedPlus_eq, String.toList_append]
  split_ifs <;> rfl

/-- A number that is printed with its sign is read back. -/
theorem integer?_signedPlus (i : Int) : integer? (Numeral.signedPlus i).toList = some i := by
  rw [toList_signedPlus]
  split_ifs with hneg
  · rw [integer?, natural?_decimal, Option.map_some, Option.some.injEq]
    exact (Int.eq_neg_natAbs_of_nonpos (Int.le_of_lt hneg)).symm
  · rw [integer?, natural?_decimal, Option.map_some, Option.some.injEq]
    exact Int.natAbs_of_nonneg (Int.not_lt.1 hneg)

theorem isSign_of_isDigit {c : Char} (h : c.isDigit = true) : isSign c = false := by
  have hplus : c ≠ '+' := by
    rintro rfl
    cases h
  have hminus : c ≠ '-' := by
    rintro rfl
    cases h
  simp [isSign, hplus, hminus]

/-- Digits go on with the term that they stand in. -/
theorem terms_of_digits {c : Char} {digits : List Char} (h : ∀ d ∈ digits, d.isDigit = true) :
    terms (c :: digits) = [c :: digits] := by
  refine List.splitBy_of_isChain (List.cons_ne_nil c digits) ?_
  induction digits generalizing c with
  | nil => exact .singleton c
  | cons d digits ih =>
    obtain ⟨hd, hdigits⟩ := List.forall_mem_cons.1 h
    exact .cons_cons (by rw [isSign_of_isDigit hd, Bool.not_false]) (ih hdigits)

theorem terms_append_sign {sum rest : List Char} {c : Char} (hc : isSign c = true) :
    terms (sum ++ c :: rest) = terms sum ++ terms (c :: rest) :=
  List.splitBy_append_cons rest fun _ _ => by rw [hc, Bool.not_true]

/-- The sum behind the mnemonic of a jump has three terms. -/
theorem value?_distance (here i : Int) :
    value? here ("$+2" ++ Numeral.signedPlus i).toList = some (here + 2 + i) := by
  have hnumber := integer?_signedPlus i
  have hsign : isSign (if i < 0 then '-' else '+') = true := by split_ifs <;> rfl
  have hstart : "$+2".toList = ['$'] ++ ['+', '2'] := rfl
  have hterms : terms ("$+2" ++ Numeral.signedPlus i).toList =
      [['$'], ['+', '2'], (Numeral.signedPlus i).toList] := by
    rw [String.toList_append, toList_signedPlus, terms_append_sign hsign, hstart,
      terms_append_sign rfl, terms_of_digits (Numeral.digits_decimal _),
      terms_of_digits (by simp), terms_of_digits (by simp)]
    rfl
  have hne : (Numeral.signedPlus i).toList ≠ ['$'] := by
    rintro h
    rw [h] at hnumber
    cases hnumber
  rw [value?, hterms]
  have htwo : term? here ['+', '2'] = some 2 := rfl
  have hlast : term? here (Numeral.signedPlus i).toList = some i := by
    rw [term?, if_neg hne, hnumber]
  have hhere : term? here ['$'] = some here := rfl
  simp [hhere, htwo, hlast, Int.add_assoc]

end Expression

/-- What a line of assembly has behind its mnemonic. -/
def behindMnemonic (line : String) : List Char := (line.toList.dropWhile (· != ' ')).tail

theorem Operation.behindMnemonic_text (op : Operation) :
    behindMnemonic op.text = op.operandText.toList := by
  have hmnemonic : ∀ c ∈ op.mnemonic.toList, (c != ' ') = true := by
    intro c hc
    rw [bne_iff_ne]
    rintro rfl
    exact op.not_mem_mnemonic rfl hc
  rw [behindMnemonic, text_eq, String.toList_append, String.toList_append, List.append_assoc,
    List.dropWhile_append_of_pos hmnemonic]
  rfl

namespace Jump

/-- The sum in the text of a jump is the address behind it, moved by its distance. -/
theorem value?_text (j : Jump) (here : Int) :
    Expression.value? here (behindMnemonic (Instruction.jump j).text) =
      some (here + 2 + j.inc.toInt) := by
  rw [Instruction.text, Operation.behindMnemonic_text]
  exact Expression.value?_distance here j.inc.toInt

end Jump

/-- The first byte of a jump tells that the instruction is one. -/
theorem Instruction.exists_jump {i : Instruction} {b : UInt8} (hi : i.WellFormed)
    (hb : i.encode.head? = some b) (hjump : (Opcode.jump b).Valid) :
    ∃ inc, i = .jump ⟨b, inc⟩ := by
  have hfamily : i.family = .jump b := by
    have hfirst : i.family.toByte = b := by simpa [encode] using hb
    have hclass := Opcode.ofByte_toByte hi.valid_family
    rw [hfirst, Opcode.ofByte_jump b hjump, OpcodeClass.family.injEq] at hclass
    exact hclass.symm
  cases i with
  | mov m => cases hform : m.form <;> simp [family, Mov.family, hform] at hfamily
  | arith a => cases hform : a.form <;> simp [family, Arith.family, hform] at hfamily
  | jump j =>
    cases hfamily
    exact ⟨j.inc, rfl⟩

variable {m m' : Machine}

/-- A jump leaves everything but the pointer and its wrapping as it is. -/
theorem Jump.keeps_of_effect {j : Jump} {size : Nat} (h : (Instruction.jump j).Effect size m m') :
    m'.regs = m.regs ∧ m'.flags = m.flags ∧ m'.memory = m.memory :=
  ⟨Machine.regs_eq_of_half_eq fun half => h.kept half nofun, h.flags rfl, h.memory⟩

/-- The words that the jumps are written with, by their first bytes. -/
def Jump.words : List (UInt8 × String) :=
  [(0x70, "jo"), (0x71, "jno"), (0x72, "jb"), (0x73, "jnb"),
   (0x74, "jz"), (0x75, "jnz"), (0x76, "jbe"), (0x77, "jnbe"),
   (0x78, "js"), (0x79, "jns"), (0x7a, "jp"), (0x7b, "jnp"),
   (0x7c, "jl"), (0x7d, "jnl"), (0x7e, "jle"), (0x7f, "jnle"),
   (0xe0, "loopnz"), (0xe1, "loopz"), (0xe2, "loop"), (0xe3, "jcxz")]

theorem Jump.lookup_words : ∀ b : UInt8, 0x70 ≤ b ∧ b ≤ 0x7f ∨ 0xe0 ≤ b ∧ b ≤ 0xe3 →
    words.lookup b = some (Branch.ofOpcode b).mnemonic := by
  decide +kernel

namespace Branch

theorem mnemonic_ofOpcode_eq_jz_iff (b : UInt8) : (ofOpcode b).mnemonic = "jz" ↔ b = 0x74 := by
  have hjz : (onFlags 4).mnemonic = "jz" := rfl
  rw [← ofOpcode_eq_jz_iff, ← hjz]
  exact ⟨mnemonic_inj, congrArg mnemonic⟩

theorem mnemonic_ofOpcode_eq_jnz_iff (b : UInt8) : (ofOpcode b).mnemonic = "jnz" ↔ b = 0x75 := by
  have hjnz : (onFlags 5).mnemonic = "jnz" := rfl
  rw [← ofOpcode_eq_jnz_iff, ← hjnz]
  exact ⟨mnemonic_inj, congrArg mnemonic⟩

end Branch

/-- Each of the twenty jumps has its word, and goes where its text says if it is taken: jz with the
zero flag set, jnz with the zero flag clear, and no other. -/
theorem step_jump {f : Fetched} {b : UInt8} (hf : m.fetch = .ok (some f))
    (hb : f.bytes.head? = some b) (hjump : 0x70 ≤ b ∧ b ≤ 0x7f ∨ 0xe0 ≤ b ∧ b ≤ 0xe3) :
    ∃ (inc : Int8) (word number : String) (target : Int) (t : Trace) (m' : Machine),
      f.offset = m.ip ∧ f.bytes = [b, inc.toUInt8] ∧
      f.instruction.text = word ++ " $+2" ++ number ∧
      Jump.words.lookup b = some word ∧ (word = "jz" ↔ b = 0x74) ∧ (word = "jnz" ↔ b = 0x75) ∧
      Expression.integer? number.toList = some inc.toInt ∧
      Expression.value? f.offset.toNat (behindMnemonic f.instruction.text) = some target ∧
      target = f.offset.toNat + 2 + inc.toInt ∧
      m.step = .ok (some (f, t)) m' ∧
      (m'.ip.toNat : Int) =
        (if word = "jz" ∧ m.flags.zero = true ∨ word = "jnz" ∧ m.flags.zero = false
          then target else f.offset.toNat + 2) % 0x10000 ∧
      m'.regs = m.regs ∧ m'.flags = m.flags ∧ m'.memory = m.memory := by
  obtain ⟨-, hi, hbytes, -, hoffset⟩ := Machine.fetch_eq_some_iff.1 hf
  rw [hbytes] at hb
  obtain ⟨inc, hinstruction⟩ := Instruction.exists_jump hi hb hjump
  obtain ⟨m', hperform⟩ : ∃ m', (m.advance f.size).perform? f.instruction.operation = some m' := by
    rw [hinstruction]
    exact ⟨_, Jump.perform?_operation ⟨b, inc⟩ _⟩
  have hstep := Machine.step_eq_some_iff.2 ⟨hf, hperform, rfl⟩
  have heffect := Jump.effect_of_step hstep hinstruction
  have hip : (m'.ip.toNat : Int) = (m.ip.toNat + 2 +
      if b = 0x74 ∧ m.flags.zero = true ∨ b = 0x75 ∧ m.flags.zero = false then inc.toInt else 0) %
        0x10000 := heffect.ip
  have hjz := Branch.mnemonic_ofOpcode_eq_jz_iff b
  have hjnz := Branch.mnemonic_ofOpcode_eq_jnz_iff b
  refine ⟨inc, (Branch.ofOpcode b).mnemonic, Numeral.signedPlus inc.toInt,
    f.offset.toNat + 2 + inc.toInt, _, m', hoffset, ?_, ?_, Jump.lookup_words b hjump, hjz, hjnz,
    Expression.integer?_signedPlus _, ?_, rfl, hstep, ?_, Jump.keeps_of_effect heffect⟩
  · rw [hbytes, hinstruction]
    rfl
  · rw [hinstruction]
    rfl
  · rw [hinstruction]
    exact Jump.value?_text ⟨b, inc⟩ _
  · rw [hip, hoffset]
    simp only [hjz, hjnz]
    split_ifs
    · rfl
    · rw [Int.add_zero]

/-- In front of a jump backwards over the start of the address space. -/
def Machine.beforeJump : Machine where
  regs := Vector.replicate 8 0x1234
  flags := ⟨Flags.signBit⟩
  ip := 0
  memory := ⟨#[0x75, 0xfc]⟩
  programSize := 2
  wrapped := false
  minMemory := 0

theorem step_jump_backwards :
    ∃ t m', Machine.beforeJump.step = .ok (some (⟨0, [0x75, 0xfc], .jump ⟨0x75, -4⟩⟩, t)) m' ∧
      (Instruction.jump ⟨0x75, -4⟩).text = "jnz $+2-4" ∧ m'.ip.toNat = 0xfffe ∧
      m'.regs = Machine.beforeJump.regs := by
  have hf : Machine.beforeJump.fetch = .ok (some ⟨0, [0x75, 0xfc], .jump ⟨0x75, -4⟩⟩) := rfl
  obtain ⟨inc, word, number, target, t, m', -, hbytes, -, -, -, hjnz, -, -, htarget, hstep, hip,
    hregs, -⟩ := step_jump hf rfl (.inl (by decide))
  have hinc : inc = -4 := by
    have hbyte : inc.toUInt8 = 0xfc := by simpa using hbytes.symm
    rw [← Int8.toInt8_toUInt8 inc, hbyte]
    rfl
  rw [if_pos (.inr ⟨hjnz.2 rfl, rfl⟩), htarget, hinc] at hip
  exact ⟨t, m', hstep, rfl, Int.ofNat.inj hip, hregs⟩

end Machine86
