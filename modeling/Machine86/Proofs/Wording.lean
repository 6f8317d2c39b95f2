import Machine86.Proofs.Effect
import Machine86.Proofs.Texts

/-!
# The text of an instruction tells its operation

An operand and a source are known from their texts (`Operand.text_inj`, `Source.text_inj`). The
text of an operation is its mnemonic, a blank, and two parts around a comma; the keyword of the
width is the one thing that may stand before an operand, and it stands where no operand shows the
width. So instructions of one text have one operation, and the same is done for them on every
machine (`operation_of_text_eq`).
-/

namespace Machine86

theorem Branch.mnemonic_inj {b c : Branch} (h : b.mnemonic = c.mnemonic) : b = c := by
  cases b <;> cases c <;> rename_i x y <;> revert x y <;> decide

theorem ArithOp.mnemonic_inj {a b : ArithOp} (h : a.mnemonic = b.mnemonic) : a = b := by
  revert h
  cases a <;> cases b <;> decide

theorem ArithOp.all_isLower_mnemonic (op : ArithOp) :
    op.mnemonic.toList.all Char.isLower = true := by
  cases op <;> decide

theorem Branch.all_isLower_mnemonic (b : Branch) :
    b.mnemonic.toList.all Char.isLower = true := by
  cases b <;> rename_i code <;> revert code <;> decide

theorem ArithOp.mnemonic_ne_mov (op : ArithOp) : op.mnemonic ≠ "mov" := by
  cases op <;> decide

theorem Branch.mnemonic_ne_mov (b : Branch) : b.mnemonic ≠ "mov" := by
  cases b <;> rename_i code <;> revert code <;> decide

theorem Branch.mnemonic_ne_arith (b : Branch) (op : ArithOp) : b.mnemonic ≠ op.mnemonic := by
  cases op <;> cases b <;> rename_i code <;> revert code <;> decide

namespace Register

theorem name_inj {r s : Register} (h : r.name = s.name) : r = s := by
  obtain ⟨i, v⟩ := r
  obtain ⟨j, w⟩ := s
  revert i j v w
  decide

/-- Neither a digit nor a sign, a separator or a bracket is in the name of a register. -/
theorem name_chars (r : Register) :
    ∀ c ∈ r.name.toList, c.isDigit = false ∧ c ≠ '-' ∧ c ≠ ',' ∧ c ≠ ' ' ∧ c ≠ '[' := by
  have hall : (r.name.toList.all fun c => !c.isDigit && (c != '-' && (c != ',' &&
      (c != ' ' && c != '[')))) = true := by
    obtain ⟨i, v⟩ := r
    revert i v
    decide
  simpa using hall

theorem toList_name_ne_nil (r : Register) : r.name.toList ≠ [] := by
  obtain ⟨i, v⟩ := r
  revert i v
  decide

end Register

namespace Operand

/-- What joins a displacement to its base. -/
def link (disp : Int16) : String := if disp = 0 then "" else if disp < 0 then " - " else " + "

/-- The text of an address up to its number. -/
def frame : Option (Fin 8) → Int16 → String
  | none, _ => ""
  | some base, disp => baseNames.get base ++ link disp

/-- The number of an address: all of it, or the displacement without its sign if there is one. -/
def place : Option (Fin 8) → Int16 → String
  | none, disp => Numeral.decimal disp.toUInt16.toNat
  | some _, disp => if disp = 0 then "" else Numeral.decimal disp.toInt.natAbs

theorem text_memory (base : Option (Fin 8)) (disp : Int16) :
    (memory base disp).text = "[" ++ (frame base disp ++ place base disp) ++ "]" := by
  cases base with
  | none => simp only [text, frame, place, String.empty_append]
  | some base =>
    simp only [text, frame, place, link]
    split_ifs <;> simp only [String.append_assoc, String.append_empty]

theorem link_mem (disp : Int16) : link disp ∈ ["", " - ", " + "] := by
  unfold link
  split_ifs <;> decide

theorem baseNames_append_inj : ∀ s ∈ ["", " - ", " + "], ∀ t ∈ ["", " - ", " + "], ∀ b c,
    baseNames.get b ++ s = baseNames.get c ++ t → b = c ∧ s = t := by
  decide

theorem baseNames_append_ne : ∀ s ∈ ["", " - ", " + "], ∀ b, baseNames.get b ++ s ≠ "" := by
  decide

/-- Neither a digit nor a comma is in what stands before the number of an address. -/
theorem frame_chars (base : Option (Fin 8)) (disp : Int16) :
    ∀ c ∈ (frame base disp).toList, c.isDigit = false ∧ c ≠ ',' := by
  have hall : ((frame base disp).toList.all fun c => !c.isDigit && c != ',') = true := by
    cases base with
    | none => rfl
    | some base =>
      have hnames : ∀ s ∈ ["", " - ", " + "], ∀ b,
          ((baseNames.get b ++ s).toList.all fun c => !c.isDigit && c != ',') = true := by decide
      exact hnames _ (link_mem disp) base
  simpa using hall

theorem digits_place (base : Option (Fin 8)) (disp : Int16) : Digits (place base disp) := by
  cases base with
  | none => exact Numeral.digits_decimal _
  | some base =>
    simp only [place]
    split_ifs
    · simp [Digits]
    · exact Numeral.digits_decimal _

/-- The sign and the number that are written tell a displacement. -/
theorem disp_eq_of_link_eq {d e : Int16} {b c : Fin 8} (hlink : link d = link e)
    (hplace : place (some b) d = place (some c) e) : d = e := by
  have hsign : (d = 0 ↔ e = 0) ∧ (d < 0 ↔ e < 0) := by
    simp only [link] at hlink
    split_ifs at hlink <;> grind
  obtain ⟨hzero, hneg⟩ := hsign
  simp only [place, hzero] at hplace
  by_cases he : e = 0
  · rw [he, hzero.2 he]
  · rw [if_neg he, if_neg he] at hplace
    have hsize := Numeral.decimal_inj.1 hplace
    have htoInt : (0 : Int16).toInt = 0 := rfl
    rw [Int16.lt_iff_toInt_lt, Int16.lt_iff_toInt_lt, htoInt] at hneg
    apply Int16.toInt_inj.1
    omega

theorem memory_inj {b c : Option (Fin 8)} {d e : Int16} (hframe : frame b d = frame c e)
    (hplace : place b d = place c e) : memory b d = memory c e := by
  cases b with
  | none =>
    cases c with
    | none =>
      have hword := UInt16.toNat.inj (Numeral.decimal_inj.1 hplace)
      rw [← Int16.toInt16_toUInt16 d, hword, Int16.toInt16_toUInt16]
    | some c => exact absurd hframe.symm (baseNames_append_ne _ (link_mem e) c)
  | some b =>
    cases c with
    | none => exact absurd hframe (baseNames_append_ne _ (link_mem d) b)
    | some c =>
      obtain ⟨rfl, hlink⟩ := baseNames_append_inj _ (link_mem d) _ (link_mem e) b c hframe
      rw [disp_eq_of_link_eq hlink hplace]

theorem mem_text_memory (base : Option (Fin 8)) (disp : Int16) :
    '[' ∈ (memory base disp).text.toList := by
  simp [text_memory]

theorem text_register_ne_memory (r : Register) (base : Option (Fin 8)) (disp : Int16) :
    (register r).text ≠ (memory base disp).text := by
  intro h
  have hmem := mem_text_memory base disp
  rw [← h] at hmem
  exact (r.name_chars _ hmem).2.2.2.2 rfl

theorem text_inj {a b : Operand} (h : a.text = b.text) : a = b := by
  cases a with
  | register r =>
    cases b with
    | register s => rw [Register.name_inj h]
    | memory c e => exact absurd h (text_register_ne_memory r c e)
  | memory c d =>
    cases b with
    | register s => exact absurd h.symm (text_register_ne_memory s c d)
    | memory c' e =>
      rw [text_memory, text_memory, String.append_left_inj, String.append_right_inj] at h
      have hdigitless : ∀ b d, Digitless (frame b d) := fun b d x hx => (frame_chars b d x hx).1
      obtain ⟨hframe, hplace⟩ := eq_of_append_digits (hdigitless c d) (hdigitless c' e)
        (digits_place c d) (digits_place c' e) h
      exact memory_inj hframe hplace

theorem comma_not_mem_text (o : Operand) : ',' ∉ o.text.toList := by
  cases o with
  | register r => exact fun h => (r.name_chars _ h).2.2.1 rfl
  | memory base disp =>
    intro h
    rw [text_memory] at h
    simp only [String.toList_append, List.mem_append] at h
    rcases h with (h | h | h) | h
    · exact absurd h (by decide)
    · exact (frame_chars base disp _ h).2 rfl
    · exact absurd (digits_place base disp _ h) (by decide)
    · exact absurd h (by decide)

/-- No operand is written as a number. -/
theorem exists_mem_text (o : Operand) : ∃ c ∈ o.text.toList, c ≠ '-' ∧ c.isDigit = false := by
  cases o with
  | register r =>
    obtain ⟨c, hc⟩ := List.exists_mem_of_ne_nil _ r.toList_name_ne_nil
    obtain ⟨hdigit, hminus, -⟩ := r.name_chars c hc
    exact ⟨c, hc, hminus, hdigit⟩
  | memory base disp => exact ⟨'[', mem_text_memory base disp, by decide, by decide⟩

end Operand

namespace Source

def text : Source → String
  | operand o => o.text
  | number n => Numeral.signed n

theorem text_operand_ne_number (o : Operand) (n : Int) : o.text ≠ Numeral.signed n := by
  intro h
  obtain ⟨c, hc, hminus, hdigit⟩ := o.exists_mem_text
  rw [h] at hc
  rcases Numeral.mem_signed hc with rfl | hc
  · exact hminus rfl
  · rw [hdigit] at hc
    exact Bool.noConfusion hc

theorem text_inj {a b : Source} (h : a.text = b.text) : a = b := by
  cases a with
  | operand o =>
    cases b with
    | operand o' => rw [Operand.text_inj h]
    | number n => exact absurd h (text_operand_ne_number o n)
  | number m =>
    cases b with
    | operand o => exact absurd h.symm (text_operand_ne_number o m)
    | number n => rw [Numeral.signed_inj h]

end Source

/-- The keyword of a width, and the blank behind it. -/
def keywordText : Option Bool → String
  | none => ""
  | some wide => widthKeyword wide ++ " "

/-- No keyword can be the start of the text. -/
def Keywordless (s : String) : Prop := ' ' ∈ s.toList → s.toList.head? = some '['

theorem Operand.keywordless_text (o : Operand) : Keywordless o.text := by
  cases o with
  | register r => exact fun h => absurd rfl (r.name_chars _ h).2.2.2.1
  | memory base disp =>
    intro _
    rw [text_memory]
    simp

theorem Source.keywordless_text (s : Source) : Keywordless s.text := by
  cases s with
  | operand o => exact o.keywordless_text
  | number n =>
    intro h
    rcases Numeral.mem_signed h with h | h
    · exact absurd h (by decide)
    · exact absurd h (by decide)

theorem not_keywordless_append (wide : Bool) (s : String) :
    ¬ Keywordless (keywordText (some wide) ++ s) := by
  intro h
  cases wide <;> simp [Keywordless, keywordText, widthKeyword] at h

theorem keywordText_append_inj {k l : Option Bool} {s t : String} (hs : Keywordless s)
    (ht : Keywordless t) (h : keywordText k ++ s = keywordText l ++ t) : k = l ∧ s = t := by
  cases k with
  | none =>
    cases l with
    | none => simpa [keywordText] using h
    | some w =>
      rw [keywordText, String.empty_append] at h
      exact absurd (h ▸ hs) (not_keywordless_append w t)
  | some v =>
    cases l with
    | none =>
      rw [keywordText.eq_1, String.empty_append] at h
      exact absurd (h ▸ ht) (not_keywordless_append v s)
    | some w =>
      have hne : ∀ s t, keywordText (some true) ++ s ≠ keywordText (some false) ++ t := by
        intro s t h
        simpa [keywordText, widthKeyword] using congrArg String.toList h
      cases v <;> cases w
      · exact ⟨rfl, by simpa using h⟩
      · exact absurd h.symm (hne _ _)
      · exact absurd h (hne _ _)
      · exact ⟨rfl, by simpa using h⟩

namespace Operation

/-- The width that is written out: only with a number for a place in memory. -/
def keyword? (dst : Operand) (src : Source) (wide : Bool) : Option Bool :=
  match dst, src with
  | .memory .., .number _ => some wide
  | _, _ => none

/-- The width that can be seen of two operands and a keyword. -/
def shownWidth? (dst : Operand) (src : Source) (keyword : Option Bool) : Option Bool :=
  match dst, src with
  | .register r, _ | .memory .., .operand (.register r) => some r.wide
  | .memory .., .operand (.memory ..) | .memory .., .number _ => keyword

/-- The text shows the width. -/
def ShowsWidth : Operation → Prop
  | mov dst src wide | arith _ dst src wide =>
    shownWidth? dst src (keyword? dst src wide) = some wide
  | jump _ _ => True

def mnemonic : Operation → String
  | mov _ _ _ => "mov"
  | arith op _ _ _ => op.mnemonic
  | jump branch _ => branch.mnemonic

/-- What is written behind the mnemonic. -/
def operandText : Operation → String
  | mov dst src wide => dst.text ++ ", " ++ (keywordText (keyword? dst src wide) ++ src.text)
  | arith _ dst src wide => keywordText (keyword? dst src wide) ++ dst.text ++ ", " ++ src.text
  | jump _ inc => "$+2" ++ Numeral.signedPlus inc.toInt

theorem text_eq (op : Operation) : op.text = op.mnemonic ++ " " ++ op.operandText := by
  have hmov : "mov " = "mov" ++ " " := rfl
  have hjump : " $+2" = " " ++ "$+2" := rfl
  cases op with
  | mov dst src wide =>
    cases src <;> cases dst <;>
      simp [text, movText, mnemonic, operandText, keyword?, keywordText, Source.text,
        Operand.isMemory, hmov, String.append_assoc]
  | arith op dst src wide =>
    cases src <;> cases dst <;>
      simp [text, arithText, mnemonic, operandText, keyword?, keywordText, Source.text,
        Operand.isMemory, String.append_assoc]
  | jump branch inc =>
    simp only [text, mnemonic, operandText, hjump, String.append_assoc]

theorem all_isLower_mnemonic (op : Operation) : op.mnemonic.toList.all Char.isLower = true := by
  cases op with
  | mov dst src wide => exact (by decide : "mov".toList.all Char.isLower = true)
  | arith op dst src wide => exact op.all_isLower_mnemonic
  | jump branch inc => exact branch.all_isLower_mnemonic

theorem not_mem_mnemonic (op : Operation) {c : Char} (hc : c.isLower = false) :
    c ∉ op.mnemonic.toList := by
  intro h
  rw [List.all_eq_true.1 op.all_isLower_mnemonic c h] at hc
  cases hc

theorem not_mem_keywordText (k : Option Bool) {c : Char} (hlower : c.isLower = false)
    (hblank : c ≠ ' ') : c ∉ (keywordText k).toList := by
  have hall : (keywordText k).toList.all (fun c => c.isLower || c == ' ') = true := by
    rcases k with _ | _ | _ <;> decide
  intro h
  have hc := List.all_eq_true.1 hall c h
  rw [hlower, Bool.false_or, beq_iff_eq] at hc
  exact hblank hc

theorem mov_inj {dst dst' : Operand} {src src' : Source} {wide wide' : Bool}
    (h : (mov dst src wide).operandText = (mov dst' src' wide').operandText) :
    dst = dst' ∧ src = src' ∧ keyword? dst src wide = keyword? dst' src' wide' := by
  obtain ⟨hdst, hrest⟩ :=
    eq_of_append_separator rfl dst.comma_not_mem_text dst'.comma_not_mem_text h
  obtain ⟨hkeyword, hsrc⟩ :=
    keywordText_append_inj src.keywordless_text src'.keywordless_text hrest
  exact ⟨Operand.text_inj hdst, Source.text_inj hsrc, hkeyword⟩

theorem arith_inj {op op' : ArithOp} {dst dst' : Operand} {src src' : Source}
    {wide wide' : Bool}
    (h : (arith op dst src wide).operandText = (arith op' dst' src' wide').operandText) :
    dst = dst' ∧ src = src' ∧ keyword? dst src wide = keyword? dst' src' wide' := by
  have hcomma : ∀ k (o : Operand), ',' ∉ (keywordText k ++ o.text).toList := by
    intro k o hmem
    rw [String.toList_append, List.mem_append] at hmem
    exact hmem.elim (not_mem_keywordText k rfl (by decide)) o.comma_not_mem_text
  obtain ⟨hleft, hsrc⟩ := eq_of_append_separator rfl (hcomma _ dst) (hcomma _ dst') h
  obtain ⟨hkeyword, hdst⟩ :=
    keywordText_append_inj dst.keywordless_text dst'.keywordless_text hleft
  exact ⟨Operand.text_inj hdst, Source.text_inj hsrc, hkeyword⟩

theorem wide_eq_of_shown {dst : Operand} {src : Source} {wide wide' : Bool}
    (h : shownWidth? dst src (keyword? dst src wide) = some wide)
    (h' : shownWidth? dst src (keyword? dst src wide') = some wide')
    (hkeyword : keyword? dst src wide = keyword? dst src wide') : wide = wide' := by
  rw [hkeyword, h'] at h
  exact (Option.some.inj h).symm

/-- Operations that show their widths are told apart by their texts. -/
theorem eq_of_text_eq {a b : Operation} (ha : a.ShowsWidth) (hb : b.ShowsWidth)
    (h : a.text = b.text) : a = b := by
  rw [text_eq, text_eq] at h
  obtain ⟨hmnemonic, hrest⟩ :=
    eq_of_append_separator rfl (a.not_mem_mnemonic rfl) (b.not_mem_mnemonic rfl) h
  cases a with
  | mov dst src wide =>
    cases b with
    | mov dst' src' wide' =>
      obtain ⟨rfl, rfl, hkeyword⟩ := mov_inj hrest
      rw [wide_eq_of_shown ha hb hkeyword]
    | arith op' dst' src' wide' => exact absurd hmnemonic.symm op'.mnemonic_ne_mov
    | jump branch' inc' => exact absurd hmnemonic.symm branch'.mnemonic_ne_mov
  | arith op dst src wide =>
    cases b with
    | mov dst' src' wide' => exact absurd hmnemonic op.mnemonic_ne_mov
    | arith op' dst' src' wide' =>
      obtain ⟨rfl, rfl, hkeyword⟩ := arith_inj hrest
      rw [ArithOp.mnemonic_inj hmnemonic, wide_eq_of_shown ha hb hkeyword]
    | jump branch' inc' => exact absurd hmnemonic.symm (branch'.mnemonic_ne_arith op)
  | jump branch inc =>
    cases b with
    | mov dst' src' wide' => exact absurd hmnemonic branch.mnemonic_ne_mov
    | arith op' dst' src' wide' => exact absurd hmnemonic (branch.mnemonic_ne_arith op')
    | jump branch' inc' =>
      have hinc := Numeral.signedPlus_inj (String.append_right_inj _ |>.1 hrest)
      rw [Branch.mnemonic_inj hmnemonic, Int8.toInt_inj.1 hinc]

end Operation

theorem ModRm.operand_eq (m : ModRm) (wide : Bool) :
    m.operand wide = .register (.ofField m.rm wide) ∨
      ∃ base disp, m.operand wide = .memory base disp := by
  unfold operand
  split_ifs
  · exact .inl rfl
  · exact .inr ⟨_, _, rfl⟩
  · exact .inr ⟨_, _, rfl⟩

open Operation

theorem shownWidth_destinationSource (m : ModRm) (reg : UInt8) (toReg wide : Bool) :
    let (dst, src) := destinationSource reg (m.operand wide) toReg wide
    shownWidth? dst (.operand src) (keyword? dst (.operand src) wide) = some wide := by
  rcases m.operand_eq wide with h | ⟨base, disp, h⟩ <;> rw [h] <;> cases toReg <;> rfl

theorem shownWidth_number (m : ModRm) (n : Int) (wide : Bool) :
    shownWidth? (m.operand wide) (.number n) (keyword? (m.operand wide) (.number n) wide) =
      some wide := by
  rcases m.operand_eq wide with h | ⟨base, disp, h⟩ <;> rw [h] <;> rfl

namespace Instruction

theorem showsWidth_operation (i : Instruction) : i.operation.ShowsWidth := by
  cases i with
  | mov m =>
    simp only [operation, Mov.operation]
    cases m.form with
    | regMem => exact shownWidth_destinationSource m.modRm m.modRm.reg m.toReg m.wide
    | immToReg => rfl
    | immToRegMem => exact shownWidth_number m.modRm _ m.wide
    | memToAcc => rfl
    | accToMem => rfl
  | arith a =>
    simp only [operation, Arith.operation]
    cases a.form with
    | regMem => exact shownWidth_destinationSource a.modRm a.modRm.reg a.toReg a.wide
    | immToRegMem => exact shownWidth_number a.modRm _ a.wide
    | immToAcc => rfl
  | jump j => trivial

/-- The width bit of an instruction that has one. -/
def wide? : Instruction → Option Bool
  | mov m => some m.wide
  | arith a => some a.wide
  | jump _ => none

/-- The immediate value of an instruction that has one. -/
def immediate? : Instruction → Option UInt16
  | mov m =>
    match m.form with
    | .immToReg | .immToRegMem => some m.data
    | .regMem | .memToAcc | .accToMem => none
  | arith a =>
    match a.form with
    | .immToRegMem | .immToAcc => some a.data
    | .regMem => none
  | jump _ => none

end Instruction

namespace Operation

def wide? : Operation → Option Bool
  | mov _ _ wide | arith _ _ _ wide => some wide
  | jump _ _ => none

def immediate? : Operation → Option UInt16
  | mov _ (.number n) _ | arith _ _ (.number n) _ => some (.ofInt n)
  | mov _ (.operand _) _ | arith _ _ (.operand _) _ | jump _ _ => none

end Operation

namespace Instruction

theorem wide?_operation (i : Instruction) : i.operation.wide? = i.wide? := by
  cases i with
  | mov m => cases hf : m.form <;> simp only [operation, Mov.operation, hf] <;> rfl
  | arith a => cases hf : a.form <;> simp only [operation, Arith.operation, hf] <;> rfl
  | jump j => rfl

theorem immediate?_operation (i : Instruction) : i.operation.immediate? = i.immediate? := by
  cases i with
  | mov m =>
    cases hf : m.form <;>
      simp [operation, Mov.operation, Operation.immediate?, immediate?, hf, ofInt_toNat]
  | arith a =>
    cases hf : a.form <;>
      simp [operation, Arith.operation, Operation.immediate?, immediate?, hf, a.ofInt_number]
  | jump j => rfl

theorem exec_congr {i j : Instruction} (hoperation : i.operation = j.operation)
    (htext : i.text = j.text) (address : UInt16) :
    Machine.exec i address = Machine.exec j address := by
  funext m
  rw [Machine.exec_eq, Machine.exec_eq, hoperation, htext]

end Instruction

/-- Instructions of the same text have the same mnemonic, operands, width, immediate value and jump
offset, and do the same to every machine. -/
theorem operation_of_text_eq {i j : Instruction} (h : i.text = j.text) :
    i.operation = j.operation ∧ i.wide? = j.wide? ∧ i.immediate? = j.immediate? ∧
      ∀ address m, Machine.exec i address m = Machine.exec j address m := by
  have hoperation := eq_of_text_eq i.showsWidth_operation j.showsWidth_operation h
  refine ⟨hoperation, ?_, ?_, fun address m => ?_⟩
  · rw [← i.wide?_operation, hoperation, j.wide?_operation]
  · rw [← i.immediate?_operation, hoperation, j.immediate?_operation]
  · rw [Instruction.exec_congr hoperation h]

/-- `sub al, 5` in the short form, and as one of the group with a register number of four bits. -/
theorem operation_of_text_eq_sub :
    let i : Instruction := .arith
      { form := .immToAcc, op := .sub, toReg := false, signExtend := false, wide := false,
        modRm := {}, data := 5, opcode := 0x2c }
    let j : Instruction := .arith
      { form := .immToRegMem, op := .sub, toReg := true, signExtend := true, wide := false,
        modRm := { mode := 3, reg := 1, rm := 8, disp := 7 }, data := 5, opcode := 0 }
    i.text = j.text ∧ i.operation = j.operation ∧ i.wide? = j.wide? ∧
      i.immediate? = j.immediate? ∧
      ∀ address m, Machine.exec i address m = Machine.exec j address m := by
  intro i j
  have h : i.text = j.text := rfl
  exact ⟨h, operation_of_text_eq h⟩

end Machine86
