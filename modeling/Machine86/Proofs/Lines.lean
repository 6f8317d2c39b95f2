import Machine86.Instruction.Disassembly
import Machine86.Proofs.Wording

/-!
# The lines of a listing

The text of an instruction is written with few characters, and a line break is none of them
(`Instruction.assembly_text`). So the lines of a listing are the texts that it was put together
from, one for each instruction: a listing has as many line breaks as lines (`count_linesText`), and
its lines can be read back (`linesOf_linesText`).
-/

namespace Machine86

/-- The characters that assembly is written with. -/
def isAssemblyChar (c : Char) : Bool := c.isDigit || c.isLower || " ,[]+-$".toList.contains c

/-- A text in the characters of assembly alone. -/
def Assembly (s : String) : Prop := s.toList.all isAssemblyChar = true

instance (s : String) : Decidable (Assembly s) := inferInstanceAs (Decidable (_ = true))

section Assembly

variable {s t : String}

theorem assembly_append : Assembly (s ++ t) ↔ Assembly s ∧ Assembly t := by
  simp only [Assembly, String.toList_append, List.all_append, Bool.and_eq_true]

theorem Assembly.not_mem (h : Assembly s) {c : Char} (hc : isAssemblyChar c = false) :
    c ∉ s.toList := by
  intro hmem
  rw [List.all_eq_true.1 h c hmem] at hc
  cases hc

theorem Digits.assembly (h : Digits s) : Assembly s := by
  refine List.all_eq_true.2 fun c hc => ?_
  rw [isAssemblyChar, h c hc]
  rfl

theorem Numeral.assembly_decimal (n : Nat) : Assembly (decimal n) := (digits_decimal n).assembly

theorem Numeral.assembly_signed (i : Int) : Assembly (signed i) := by
  rw [signed_eq, assembly_append]
  refine ⟨?_, assembly_decimal _⟩
  split_ifs <;> decide

theorem Numeral.assembly_signedPlus (i : Int) : Assembly (signedPlus i) := by
  rw [signedPlus_eq, assembly_append]
  refine ⟨?_, assembly_decimal _⟩
  split_ifs <;> decide

theorem Register.assembly_name (r : Register) : Assembly r.name := by
  obtain ⟨i, v⟩ := r
  revert i v
  decide

theorem Operand.assembly_frame (base : Option (Fin 8)) (disp : Int16) :
    Assembly (frame base disp) := by
  cases base with
  | none => exact (by decide : Assembly "")
  | some base =>
    have hnames : ∀ s ∈ ["", " - ", " + "], ∀ b, Assembly (baseNames.get b ++ s) := by decide
    exact hnames _ (link_mem disp) base

theorem Operand.assembly_text (o : Operand) : Assembly o.text := by
  cases o with
  | register r => exact r.assembly_name
  | memory base disp =>
    rw [text_memory, assembly_append, assembly_append, assembly_append]
    exact ⟨⟨by decide, assembly_frame base disp, (digits_place base disp).assembly⟩, by decide⟩

theorem Source.assembly_text (s : Source) : Assembly s.text := by
  cases s with
  | operand o => exact o.assembly_text
  | number n => exact Numeral.assembly_signed n

theorem assembly_keywordText (keyword : Option Bool) : Assembly (keywordText keyword) := by
  rcases keyword with _ | _ | _ <;> decide

namespace Operation

theorem assembly_mnemonic (op : Operation) : Assembly op.mnemonic := by
  refine List.all_eq_true.2 fun c hc => ?_
  rw [isAssemblyChar, List.all_eq_true.1 op.all_isLower_mnemonic c hc, Bool.or_true, Bool.true_or]

theorem assembly_operandText (op : Operation) : Assembly op.operandText := by
  have hcomma : Assembly ", " := by decide
  cases op with
  | mov dst src wide =>
    rw [operandText, assembly_append, assembly_append, assembly_append]
    exact ⟨⟨dst.assembly_text, hcomma⟩, assembly_keywordText _, src.assembly_text⟩
  | arith op dst src wide =>
    rw [operandText, assembly_append, assembly_append, assembly_append]
    exact ⟨⟨⟨assembly_keywordText _, dst.assembly_text⟩, hcomma⟩, src.assembly_text⟩
  | jump branch inc =>
    rw [operandText, assembly_append]
    exact ⟨by decide, Numeral.assembly_signedPlus _⟩

theorem assembly_text (op : Operation) : Assembly op.text := by
  rw [text_eq, assembly_append, assembly_append]
  exact ⟨⟨op.assembly_mnemonic, by decide⟩, op.assembly_operandText⟩

end Operation

theorem Instruction.assembly_text (i : Instruction) : Assembly i.text := i.operation.assembly_text

end Assembly

/-- Some lines, each with its line break. -/
def linesText (lines : List String) : String := String.join (lines.map (· ++ "\n"))

section Lines

variable {lines lines' : List String}

theorem foldl_lines (text : String) (lines : List String) :
    lines.foldl (fun text line => text ++ line ++ "\n") text = text ++ linesText lines := by
  induction lines generalizing text with
  | nil => simp [linesText]
  | cons line lines ih =>
    rw [List.foldl_cons, ih, linesText, linesText, List.map_cons, String.join_cons]
    simp only [String.append_assoc]

theorem listingOf_eq (lines : List String) : listingOf lines = listingHeader ++ linesText lines :=
  foldl_lines listingHeader lines

theorem listingOf_append (lines lines' : List String) :
    listingOf (lines ++ lines') = listingOf lines ++ linesText lines' := by
  rw [listingOf, List.foldl_append, foldl_lines]
  rfl

theorem linesText_cons (line : String) (lines : List String) :
    linesText (line :: lines) = line ++ "\n" ++ linesText lines := by
  rw [linesText, List.map_cons, String.join_cons, linesText]

theorem linesText_append (lines lines' : List String) :
    linesText (lines ++ lines') = linesText lines ++ linesText lines' := by
  rw [linesText, List.map_append, String.join_append, linesText, linesText]

/-- There are as many line breaks as lines, where no line has one inside. -/
theorem count_linesText (h : ∀ line ∈ lines, '\n' ∉ line.toList) :
    (linesText lines).toList.count '\n' = lines.length := by
  induction lines with
  | nil => rfl
  | cons line lines ih =>
    obtain ⟨hline, hlines⟩ := List.forall_mem_cons.1 h
    rw [linesText, List.map_cons, String.join_cons, String.toList_append, String.toList_append,
      List.count_append, List.count_append, List.count_eq_zero.2 hline, ← linesText, ih hlines,
      List.length_cons, Nat.zero_add, Nat.add_comm]
    rfl

/-- The lines of a text, each without its line break. What stands behind the last line break is no
line. -/
def linesOf (text : String) : List String :=
  ((text.toList.splitOn '\n').map String.ofList).dropLast

theorem toList_linesText (lines : List String) :
    (linesText lines).toList = ['\n'].intercalate (lines.map String.toList ++ [[]]) := by
  induction lines with
  | nil => rfl
  | cons line lines ih =>
    rw [linesText, List.map_cons, String.join_cons, ← linesText, String.toList_append, ih]
    cases lines <;> simp

theorem linesOf_linesText (h : ∀ line ∈ lines, '\n' ∉ line.toList) :
    linesOf (linesText lines) = lines := by
  have hpieces : ∀ piece ∈ lines.map String.toList ++ [[]], '\n' ∉ piece := by
    intro piece hpiece
    rw [List.mem_append, List.mem_map, List.mem_singleton] at hpiece
    rcases hpiece with ⟨line, hline, rfl⟩ | rfl
    · exact h line hline
    · exact List.not_mem_nil
  rw [linesOf, toList_linesText, List.splitOn_intercalate '\n' hpieces (by simp)]
  simp

end Lines

end Machine86
