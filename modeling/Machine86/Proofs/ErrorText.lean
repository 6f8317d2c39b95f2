import Machine86.Command.Basic
import Machine86.Proofs.Places
import Machine86.Proofs.Rendering

/-!
# What a failed command says

The report of a chain of errors starts with the outermost message. Below it stand the causes, each
with all its lines, behind an indentation or the number of the cause (`ErrorChain.tells_report`).
The traps that stop a run are told on one line each, a decode trap with its cause on another
(`Trap.report_within`).
-/

namespace Machine86

section Lines

theorem linesOf_append_break (s : String) :
    linesOf (s ++ "\n") = (s.toList.splitOn '\n').map String.ofList := by
  have hbreak : (s ++ "\n").toList = s.toList ++ '\n' :: [] := String.toList_append
  rw [linesOf, hbreak, List.splitOn_append_cons_self, List.splitOn_nil, List.map_append,
    List.map_singleton, List.dropLast_concat]

theorem linesText_linesOf (s : String) : linesText (linesOf (s ++ "\n")) = s ++ "\n" := by
  have hpieces : (s.toList.splitOn '\n').map (String.toList ∘ String.ofList) ++ [[]] =
      (s.toList ++ '\n' :: []).splitOn '\n' := by
    simp [List.splitOn_append_cons_self, Function.comp_def]
  rw [← String.toList_inj, toList_linesText, linesOf_append_break, List.map_map, hpieces,
    List.intercalate_splitOn, String.toList_append]
  rfl

theorem oneLine_of_mem_linesOf {s line : String} (h : line ∈ linesOf (s ++ "\n")) :
    OneLine line := by
  rw [linesOf_append_break, List.mem_map] at h
  obtain ⟨piece, hpiece, rfl⟩ := h
  rw [OneLine, String.toList_ofList]
  exact not_mem_of_mem_splitOn hpiece

/-- Lines with line breaks between them, and one behind the last. -/
theorem intercalate_append_break {lines : List String} (h : lines ≠ []) :
    "\n".intercalate lines ++ "\n" = linesText lines := by
  induction lines with
  | nil => exact absurd rfl h
  | cons line lines ih =>
    cases lines with
    | nil => simp [linesText]
    | cons next lines =>
      rw [String.intercalate_cons_cons, linesText_cons, ← ih (List.cons_ne_nil next lines),
        String.append_assoc]

end Lines

namespace ErrorChain

section Indent

variable {indent s t : String}

theorem indentRest_append :
    indentRest indent (s ++ t) = indentRest indent s ++ indentRest indent t := by
  simp only [indentRest, String.toList_append, List.flatMap_append, String.ofList_append]

theorem indentRest_break : indentRest indent "\n" = "\n" ++ indent := by
  rw [← String.toList_inj]
  simp [indentRest]

theorem indentRest_of_oneLine (h : OneLine s) : indentRest indent s = s := by
  have hchars : ∀ c ∈ s.toList, (if c = '\n' then '\n' :: indent.toList else [c]) = [c] := by
    intro c hc
    rw [if_neg]
    rintro rfl
    exact h hc
  rw [indentRest, List.flatMap_congr hchars, List.flatMap_singleton', String.ofList_toList]

theorem indent_append_indentRest {lines : List String} (h : ∀ line ∈ lines, OneLine line) :
    indent ++ indentRest indent (linesText lines) =
      linesText (lines.map (indent ++ ·)) ++ indent := by
  induction lines with
  | nil => simp [linesText, indentRest]
  | cons line lines ih =>
    obtain ⟨hline, hlines⟩ := List.forall_mem_cons.1 h
    rw [linesText_cons, indentRest_append, indentRest_append, indentRest_of_oneLine hline,
      indentRest_break, List.map_cons, linesText_cons]
    simp only [String.append_assoc, ih hlines]

/-- A message after an indentation of all its lines but the first. -/
theorem indentRest_append_break {line : String} {lines : List String} (hline : OneLine line)
    (hlines : ∀ line ∈ lines, OneLine line) (h : s ++ "\n" = linesText (line :: lines)) :
    indentRest indent s ++ "\n" = linesText (line :: lines.map (indent ++ ·)) := by
  have hfirst : indentRest indent (linesText (line :: lines)) =
      line ++ "\n" ++ (indent ++ indentRest indent (linesText lines)) := by
    rw [linesText_cons, indentRest_append, indentRest_append, indentRest_of_oneLine hline,
      indentRest_break]
    simp only [String.append_assoc]
  have hindented := congrArg (indentRest indent) h
  rw [indentRest_append, indentRest_break, hfirst, indent_append_indentRest hlines] at hindented
  simp only [← String.append_assoc, String.append_left_inj] at hindented
  rw [hindented, linesText_cons]

end Indent

/-- The lines of a message, each behind an indentation. -/
def Indented (message : String) (shown : List String) : Prop :=
  List.Forall₂ (fun line shown => ∃ indent, shown = indent ++ line)
    (linesOf (message ++ "\n")) shown

/-- A text tells a chain of errors: the outermost message, and below it the causes in their order,
with all their lines. -/
def Tells (text : String) (c : ErrorChain) : Prop :=
  ∃ causes, List.Forall₂ Indented c.causes causes ∧
    text = "Error: " ++ c.message ++ "\n" ++
      if c.causes.isEmpty then "" else "\nCaused by:\n" ++ linesText causes.flatten

/-- Whatever stands before the first line of a message and before the others, its lines are there. -/
theorem exists_indented (first indent message : String) :
    ∃ shown, Indented message shown ∧
      first ++ indentRest indent message ++ "\n" = linesText shown := by
  have hlines : ∀ line ∈ linesOf (message ++ "\n"), OneLine line :=
    fun line => oneLine_of_mem_linesOf
  have htext := linesText_linesOf message
  unfold Indented
  rcases hsplit : linesOf (message ++ "\n") with _ | ⟨line, lines⟩
  · rw [linesOf_append_break, List.map_eq_nil_iff] at hsplit
    exact absurd hsplit (List.splitOn_ne_nil _ _)
  rw [hsplit] at hlines htext
  obtain ⟨hline, hrest⟩ := List.forall_mem_cons.1 hlines
  refine ⟨(first ++ line) :: lines.map (indent ++ ·), .cons ⟨first, rfl⟩ ?_, ?_⟩
  · exact List.forall₂_map_right_iff.2 (List.forall₂_same.2 fun other _ => ⟨indent, rfl⟩)
  · have hindented : indentRest indent message ++ "\n" = _ :=
      indentRest_append_break hline hrest htext.symm
    rw [linesText_cons] at hindented ⊢
    simp only [String.append_assoc, hindented]

/-- A message behind something, and with its lines indented. -/
def Marked (message shown : String) : Prop :=
  ∃ first indent, shown = first ++ indentRest indent message

theorem marked_causeLines (causes : List String) :
    List.Forall₂ Marked causes (causeLines causes) := by
  have hnumbered : ∀ (causes : List String) (n : Nat),
      List.Forall₂ Marked causes ((causes.zipIdx n).map fun p => numbered p.1 p.2) := by
    intro causes
    induction causes with
    | nil => exact fun n => .nil
    | cons cause causes ih => exact fun n => .cons ⟨_, _, rfl⟩ (ih (n + 1))
  rcases causes with _ | ⟨cause, _ | ⟨next, causes⟩⟩
  · exact .nil
  · exact .cons ⟨_, _, rfl⟩ .nil
  · exact hnumbered _ 0

theorem exists_flatten_of_marked {causes shown : List String}
    (h : List.Forall₂ Marked causes shown) :
    ∃ lines, List.Forall₂ Indented causes lines ∧ linesText shown = linesText lines.flatten := by
  induction h with
  | nil => exact ⟨[], .nil, rfl⟩
  | cons hmarked _ ih =>
    obtain ⟨first, indent, rfl⟩ := hmarked
    obtain ⟨rest, hrest, htext⟩ := ih
    obtain ⟨lines, hlines, hfirst⟩ := exists_indented first indent _
    refine ⟨lines :: rest, .cons hlines hrest, ?_⟩
    rw [linesText_cons, List.flatten_cons, linesText_append, htext, ← hfirst]

/-- The report of a chain tells it. -/
theorem tells_report (c : ErrorChain) : Tells c.report c := by
  have hmarked := marked_causeLines c.causes
  obtain ⟨lines, hlines, htext⟩ := exists_flatten_of_marked hmarked
  refine ⟨lines, hlines, ?_⟩
  unfold report
  rcases hcauses : c.causes with _ | ⟨cause, causes⟩
  · simp
  · have hne : causeLines c.causes ≠ [] := by
      intro hnil
      rw [hnil, hcauses] at hmarked
      cases hmarked
    have hbreak : "\n\nCaused by:\n" = "\n" ++ "\nCaused by:\n" := rfl
    rw [← htext, ← intercalate_append_break hne, hcauses, hbreak]
    simp only [List.isEmpty_cons, Bool.false_eq_true, ↓reduceIte, String.append_assoc]

end ErrorChain

section Messages

theorem OutOfBounds.oneLine_message (e : OutOfBounds) : OneLine e.message := by
  have hdecimal : ∀ n, OneLine (Numeral.decimal n) := Numeral.oneLine_decimal
  have hread : OneLine "read of " := by decide +kernel
  have hat : OneLine " byte(s) at offset " := by decide +kernel
  have hpast : OneLine " runs past end of buffer (len " := by decide +kernel
  have hend : OneLine ")" := by decide +kernel
  exact (((((hread.append (hdecimal _)).append hat).append (hdecimal _)).append hpast).append
    (hdecimal _)).append hend

namespace DecodeError

theorem oneLine_showBytes (bytes : List UInt8) : OneLine (showBytes bytes) := by
  have hbytes : ∀ s ∈ bytes.map Numeral.byte, OneLine s :=
    List.forall_mem_map.2 fun b _ => Numeral.not_mem_hexPadded rfl
  have hopen : OneLine "[" := by decide
  have hclose : OneLine "]" := by decide
  exact (hopen.append (oneLine_intercalate (by decide) hbytes)).append hclose

theorem oneLine_message (e : DecodeError) : OneLine e.message := by
  cases e with
  | outOfBounds e => exact e.oneLine_message
  | unknown bytes =>
    have hunknown : OneLine "unknown instruction: " := by decide +kernel
    exact hunknown.append (oneLine_showBytes bytes)
  | invalid bytes why =>
    have hinvalid : OneLine "invalid instruction " := by decide +kernel
    have hwhy : OneLine why.message := by cases why <;> decide +kernel
    have hcolon : OneLine ": " := by decide
    exact ((hinvalid.append (oneLine_showBytes bytes)).append hcolon).append hwhy

end DecodeError

end Messages

namespace ErrorChain

variable {outer cause next : String}

theorem report_of_one (h : OneLine cause) :
    report ⟨outer, [cause]⟩ =
      "Error: " ++ outer ++ "\n\nCaused by:\n" ++ ("    " ++ cause ++ "\n") := by
  rw [report, causeLines, indentRest_of_oneLine h, String.intercalate_singleton]
  simp only [List.isEmpty_cons, Bool.false_eq_true, ↓reduceIte, String.append_assoc]

theorem report_of_two (h : OneLine cause) (hnext : OneLine next) :
    report ⟨outer, [cause, next]⟩ = "Error: " ++ outer ++ "\n\nCaused by:\n" ++
      ("    0: " ++ cause ++ "\n" ++ ("    1: " ++ next ++ "\n")) := by
  have hlines : causeLines [cause, next] = ["    0: " ++ cause, "    1: " ++ next] := by
    have hcauses : causeLines [cause, next] = [numbered cause 0, numbered next 1] := rfl
    rw [hcauses, numbered, numbered, indentRest_of_oneLine h, indentRest_of_oneLine hnext]
    rfl
  rw [report, hlines, String.intercalate_cons_cons, String.intercalate_singleton]
  simp only [List.isEmpty_cons, Bool.false_eq_true, ↓reduceIte, String.append_assoc]

end ErrorChain

theorem TooLarge.report_message (n : Nat) :
    ErrorChain.report ⟨TooLarge.message ⟨n⟩, []⟩ = "Error: program of " ++ Numeral.decimal n ++
      " bytes does not fit the 64 KiB address space\n" := by
  have hpieces : ErrorChain.report ⟨TooLarge.message ⟨n⟩, []⟩ =
      ("Error: " ++ "program of ") ++ Numeral.decimal n ++
        (" bytes does not fit the 64 KiB address space" ++ "\n") := by
    simp only [ErrorChain.report, TooLarge.message, List.isEmpty_nil, ↓reduceIte,
      String.append_empty, String.append_assoc]
  exact hpieces

namespace Trap

/-- What is told of a trap below the failure that it causes. -/
def account : Trap → String
  | decode ip source =>
    let message := "decode failed at ip " ++ Numeral.word ip ++ ": " ++ source.message
    "    0: " ++ message ++ "\n" ++ ("    1: " ++ source.message ++ "\n")
  | unsupported ip what =>
    let message := "unsupported instruction at ip " ++ Numeral.word ip ++ ": " ++ what
    "    " ++ message ++ "\n"
  | stepLimit steps =>
    let message := "step limit of " ++ Numeral.decimal steps ++ " reached"
    "    " ++ message ++ "\n"

/-- The instruction that a trap names, if it names one, is on one line. -/
def Plain (t : Trap) : Prop := ∀ ip what, t = .unsupported ip what → OneLine what

theorem Plain.oneLine_message {t : Trap} (h : t.Plain) : OneLine t.message := by
  have hword : ∀ ip, OneLine (Numeral.word ip) := fun ip => Numeral.not_mem_word rfl
  have hcolon : OneLine ": " := by decide
  cases t with
  | decode ip source =>
    have hdecode : OneLine "decode failed at ip " := by decide +kernel
    exact ((hdecode.append (hword ip)).append hcolon).append source.oneLine_message
  | unsupported ip what =>
    have hunsupported : OneLine "unsupported instruction at ip " := by decide +kernel
    exact ((hunsupported.append (hword ip)).append hcolon).append (h ip what rfl)
  | stepLimit steps =>
    have hlimit : OneLine "step limit of " := by decide +kernel
    have hreached : OneLine " reached" := by decide
    exact (hlimit.append (Numeral.oneLine_decimal steps)).append hreached

/-- What is told of a failure that such a trap causes. -/
theorem report_within {t : Trap} (h : t.Plain) (outer : String) :
    (t.chain.within outer).report = "Error: " ++ outer ++ "\n\nCaused by:\n" ++ t.account := by
  have hmessage := h.oneLine_message
  cases t with
  | decode ip source => exact ErrorChain.report_of_two hmessage source.oneLine_message
  | unsupported ip what => exact ErrorChain.report_of_one hmessage
  | stepLimit steps => exact ErrorChain.report_of_one hmessage

end Trap

end Machine86
