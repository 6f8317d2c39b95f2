import Machine86.Proofs.Wording

/-!
# What is in brackets is in memory

The text of an instruction has a bracket just where one of its operands is in memory
(`Operation.bracket_mem_text_iff`), and the machine refuses just the operations with such an operand
(`Machine.perform?_eq_none_iff`). So the text tells whether an instruction can be executed, for
every value of its fields (`exec_eq_error_iff_bracket`).
-/

namespace Machine86

namespace Operand

theorem bracket_mem_text_iff (o : Operand) : '[' ∈ o.text.toList ↔ o.isMemory = true := by
  cases o with
  | register r => exact iff_of_false (fun h => (r.name_chars _ h).2.2.2.2 rfl) Bool.false_ne_true
  | memory base disp => exact iff_of_true (mem_text_memory base disp) rfl

theorem register?_eq_none_iff (o : Operand) : o.register? = none ↔ o.isMemory = true := by
  cases o <;> simp [register?, isMemory]

end Operand

/-- The operands that a source or an operation names. -/
def Source.operands : Source → List Operand
  | operand o => [o]
  | number _ => []

def Operation.operands : Operation → List Operand
  | mov dst src _ | arith _ dst src _ => dst :: src.operands
  | jump _ _ => []

/-- Some operand is in memory. -/
def InMemory (os : List Operand) : Prop := ∃ o ∈ os, o.isMemory = true

theorem not_inMemory_nil : ¬ InMemory [] := by simp [InMemory]

theorem inMemory_singleton {o : Operand} : InMemory [o] ↔ o.isMemory = true := by
  simp [InMemory]

theorem inMemory_cons {o : Operand} {os : List Operand} :
    InMemory (o :: os) ↔ o.isMemory = true ∨ InMemory os := by
  rw [InMemory, List.exists_mem_cons_iff, InMemory]

theorem Source.bracket_mem_text_iff (s : Source) : '[' ∈ s.text.toList ↔ InMemory s.operands := by
  cases s with
  | operand o => rw [text, o.bracket_mem_text_iff, operands, inMemory_singleton]
  | number n =>
    refine iff_of_false (fun h => ?_) not_inMemory_nil
    rcases Numeral.mem_signed h with h | h <;> exact absurd h (by decide)

theorem bracket_not_mem_signedPlus (i : Int) : '[' ∉ (Numeral.signedPlus i).toList := by
  rw [Numeral.signedPlus_eq, String.toList_append, List.mem_append]
  rintro (h | h)
  · split_ifs at h <;> exact absurd h (by decide)
  · exact absurd (Numeral.digits_decimal _ _ h) (by decide)

namespace Operation

theorem bracket_mem_text_iff (op : Operation) : '[' ∈ op.text.toList ↔ InMemory op.operands := by
  -- everything around the operands has no bracket, so the operands are where it comes from
  have hmnemonic : '[' ∉ op.mnemonic.toList := op.not_mem_mnemonic rfl
  have hkeyword (k : Option Bool) : '[' ∉ (keywordText k).toList :=
    not_mem_keywordText k rfl (by decide)
  have hblank : '[' ∉ " ".toList := by decide
  have hcomma : '[' ∉ ", ".toList := by decide
  rw [text_eq]
  simp only [String.toList_append, List.mem_append, hmnemonic, hblank, false_or]
  cases op with
  | mov dst src wide | arith op dst src wide =>
    simp only [operandText, String.toList_append, List.mem_append, hcomma, hkeyword, or_false,
      false_or, dst.bracket_mem_text_iff, src.bracket_mem_text_iff, operands, inMemory_cons]
  | jump branch inc =>
    refine iff_of_false (fun h => ?_) not_inMemory_nil
    rw [operandText, String.toList_append, List.mem_append] at h
    exact h.elim (by decide) (bracket_not_mem_signedPlus _)

end Operation

namespace Machine

variable {m m' : Machine}

theorem source?_eq_none_iff {s : Source} : m.source? s = none ↔ InMemory s.operands := by
  cases s with
  | operand o =>
    rw [source?, Option.map_eq_none_iff, o.register?_eq_none_iff, Source.operands,
      inMemory_singleton]
  | number n => exact iff_of_false (Option.some_ne_none _) not_inMemory_nil

/-- An operation is refused just where an operand is in memory. -/
theorem perform?_eq_none_iff {op : Operation} : m.perform? op = none ↔ InMemory op.operands := by
  cases op with
  | mov dst src wide | arith op dst src wide =>
    rw [Operation.operands, inMemory_cons, ← dst.register?_eq_none_iff,
      ← source?_eq_none_iff (m := m), perform?]
    cases dst.register? <;> cases m.source? src <;> simp
  | jump branch inc => exact iff_of_false (Option.some_ne_none _) not_inMemory_nil

theorem exec_eq_error_iff {i : Instruction} {address : UInt16} {t : Trap} :
    exec i address m = .error t m' ↔
      InMemory i.operation.operands ∧ t = .unsupported address i.text ∧ m' = m := by
  rw [← perform?_eq_none_iff (m := m), exec_eq]
  cases m.perform? i.operation <;> simp [eq_comm]

end Machine

section OnRegisters

variable (m : ModRm) (wide : Bool)

theorem ModRm.mode_eq_three_iff : m.mode = 3 ↔ ¬ (m.operand wide).isMemory = true := by
  unfold operand isRegister
  split_ifs with h <;> simp_all [Operand.isMemory]

theorem not_inMemory_operand_iff : m.mode = 3 ↔ ¬ InMemory [m.operand wide] := by
  rw [m.mode_eq_three_iff wide, inMemory_singleton]

/-- The register of the reg field is never the operand in memory, on neither side. -/
theorem not_inMemory_destinationSource_iff (toReg : Bool) :
    let (dst, src) := destinationSource m.reg (m.operand wide) toReg wide
    m.mode = 3 ↔ ¬ InMemory [dst, src] := by
  rw [m.mode_eq_three_iff wide]
  cases toReg <;> simp [destinationSource, InMemory, Operand.isMemory]

theorem not_inMemory_register (r : Register) : ¬ InMemory [.register r] := by
  rw [inMemory_singleton]
  exact Bool.false_ne_true

theorem inMemory_of_mem {address : UInt16} {os : List Operand} (h : .direct address ∈ os) :
    InMemory os := ⟨_, h, rfl⟩

theorem Mov.onRegisters_iff (a : Mov) : a.OnRegisters ↔ ¬ InMemory a.operation.operands := by
  unfold OnRegisters operation
  cases a.form with
  | regMem => exact not_inMemory_destinationSource_iff a.modRm a.wide a.toReg
  | immToReg => exact iff_of_true trivial (not_inMemory_register _)
  | immToRegMem => exact not_inMemory_operand_iff a.modRm a.wide
  | memToAcc =>
    exact iff_of_false id (not_not_intro (inMemory_of_mem (.tail _ (.head _))))
  | accToMem => exact iff_of_false id (not_not_intro (inMemory_of_mem (.head _)))

theorem Arith.onRegisters_iff (a : Arith) : a.OnRegisters ↔ ¬ InMemory a.operation.operands := by
  unfold OnRegisters operation
  cases a.form with
  | regMem => exact not_inMemory_destinationSource_iff a.modRm a.wide a.toReg
  | immToRegMem => exact not_inMemory_operand_iff a.modRm a.wide
  | immToAcc => exact iff_of_true trivial (not_inMemory_register _)

/-- The fields of an instruction say whether an operand is in memory. -/
theorem Instruction.onRegisters_iff (i : Instruction) :
    i.OnRegisters ↔ ¬ InMemory i.operation.operands := by
  cases i with
  | mov a => exact a.onRegisters_iff
  | arith a => exact a.onRegisters_iff
  | jump j => exact iff_of_true trivial not_inMemory_nil

end OnRegisters

/-- An instruction fails just where its text has a bracket, with a trap that shows this text and the
address of the instruction. An operand has a bracket where the machine finds no register in it; by
the fields of the instruction, no operand has one where the mode is that of registers or there is no
mode. -/
theorem exec_eq_error_iff_bracket (i : Instruction) (address : UInt16) (m : Machine) :
    (∀ t m', Machine.exec i address m = .error t m' ↔
      '[' ∈ i.text.toList ∧ t = .unsupported address i.text ∧ m' = m) ∧
    (∀ o : Operand, '[' ∈ o.text.toList ↔ o.register? = none) ∧
    (i.OnRegisters ↔ '[' ∉ i.text.toList) := by
  refine ⟨fun t m' => ?_, fun o => ?_, ?_⟩
  · rw [Machine.exec_eq_error_iff, Instruction.text, Operation.bracket_mem_text_iff]
  · rw [o.bracket_mem_text_iff, o.register?_eq_none_iff]
  · rw [i.onRegisters_iff, Instruction.text, Operation.bracket_mem_text_iff]

end Machine86
