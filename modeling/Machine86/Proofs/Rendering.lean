import Machine86.Proofs.Replay
import Machine86.Proofs.TraceText

/-!
# A rendered listing tells its run

A rendered listing has a header, for each step its line of assembly with the trace behind a
semicolon, and perhaps a comment line before it; behind a blank line stands the dump of the last
state. No line of assembly starts with a semicolon or has one in it, so the assembly can be taken
out of the listing again, and nothing else is lost either: two completed runs with the same
rendered listing made steps with the same texts and traces and ended in the same state
(`render_tells`).
-/

namespace Machine86

/-- A text without line breaks. -/
def OneLine (s : String) : Prop := '\n' ∉ s.toList

instance (s : String) : Decidable (OneLine s) := inferInstanceAs (Decidable (¬ _))

section OneLine

variable {s t : String}

theorem oneLine_append : OneLine (s ++ t) ↔ OneLine s ∧ OneLine t := by
  simp only [OneLine, String.toList_append, List.mem_append, not_or]

theorem OneLine.append (hs : OneLine s) (ht : OneLine t) : OneLine (s ++ t) :=
  oneLine_append.2 ⟨hs, ht⟩

theorem Assembly.oneLine (h : Assembly s) : OneLine s := h.not_mem rfl

theorem Word.oneLine (h : Word s) : OneLine s := h.not_mem rfl

theorem oneLine_intercalate {separator : String} {items : List String} (hs : OneLine separator)
    (hitems : ∀ item ∈ items, OneLine item) : OneLine (separator.intercalate items) := by
  induction items with
  | nil => exact (by decide : OneLine "")
  | cons item items ih =>
    obtain ⟨hitem, hitems⟩ := List.forall_mem_cons.1 hitems
    have hrest := ih hitems
    unfold OneLine at *
    cases items with
    | nil => simpa using hitem
    | cons next items =>
      rw [String.toList_intercalate] at hrest ⊢
      rw [List.map_cons, List.map_cons, List.intercalate_cons_cons, ← List.map_cons,
        List.mem_append, List.mem_append, not_or, not_or]
      exact ⟨⟨hitem, hs⟩, hrest⟩

theorem oneLine_record {name : String} {fields : List (String × String)} (hname : OneLine name)
    (hfields : ∀ f ∈ fields, OneLine f.1 ∧ OneLine f.2) : OneLine (Record.record name fields) := by
  simp only [Record.record, oneLine_append]
  refine ⟨⟨⟨hname, by decide⟩, oneLine_intercalate (by decide) ?_⟩, by decide⟩
  refine List.forall_mem_map.2 fun f hf => ?_
  obtain ⟨hfield, hvalue⟩ := hfields f hf
  exact oneLine_append.2 ⟨oneLine_append.2 ⟨hfield, by decide⟩, hvalue⟩

theorem oneLine_variant {name value : String} (hname : OneLine name) (hvalue : OneLine value) :
    OneLine (Record.variant name value) := by
  simp only [Record.variant, oneLine_append]
  exact ⟨⟨⟨hname, by decide⟩, hvalue⟩, by decide⟩

end OneLine

section Structure

theorem Record.oneLine_truth (b : Bool) : OneLine (Record.truth b) := by
  cases b <;> decide

theorem Numeral.oneLine_decimal (n : Nat) : OneLine (decimal n) := (assembly_decimal n).oneLine

theorem Numeral.oneLine_signed (i : Int) : OneLine (signed i) := (assembly_signed i).oneLine

open Numeral Record

theorem ModRm.oneLine_structureText (m : ModRm) : OneLine m.structureText := by
  refine oneLine_record (by decide) ?_
  simp only [List.forall_mem_cons, oneLine_decimal, oneLine_signed]
  decide

theorem Mov.oneLine_structureText (m : Mov) : OneLine m.structureText := by
  have hform : OneLine m.form.tag := by cases m.form <;> decide
  refine oneLine_record (by decide) ?_
  simp only [List.forall_mem_cons, oneLine_decimal, oneLine_truth, hform,
    m.modRm.oneLine_structureText]
  decide

theorem Arith.oneLine_structureText (a : Arith) : OneLine a.structureText := by
  have hform : OneLine a.form.tag := by cases a.form <;> decide
  have hop : OneLine a.op.tag := by cases a.op <;> decide
  refine oneLine_record (by decide) ?_
  simp only [List.forall_mem_cons, oneLine_decimal, oneLine_truth, hform, hop,
    a.modRm.oneLine_structureText]
  decide

theorem Jump.oneLine_structureText (j : Jump) : OneLine j.structureText := by
  refine oneLine_record (by decide) ?_
  simp only [List.forall_mem_cons, oneLine_decimal, oneLine_signed]
  decide

theorem Instruction.oneLine_structureText (i : Instruction) : OneLine i.structureText := by
  cases i with
  | mov m => exact oneLine_variant (by decide) m.oneLine_structureText
  | arith a => exact oneLine_variant (by decide) a.oneLine_structureText
  | jump j => exact oneLine_variant (by decide) j.oneLine_structureText

theorem Trace.oneLine_text (t : Trace) : OneLine t.text := by
  have htext : t.text = " ".intercalate t.words := by
    rw [← String.toList_inj, toList_text, String.toList_intercalate]
    rfl
  rw [htext]
  exact oneLine_intercalate (by decide) fun w hw => (t.word_of_mem_words w hw).oneLine

end Structure

section Comments

/-- A line that starts with a semicolon. -/
def isComment (line : String) : Bool := line.toList.head? == some ';'

/-- The characters before the first blank that a semicolon follows. -/
def beforeComment : List Char → List Char
  | [] => []
  | c :: rest => if c = ' ' ∧ rest.head? = some ';' then [] else c :: beforeComment rest

def withoutComment (line : String) : String := String.ofList (beforeComment line.toList)

/-- The assembly in a rendered listing: no comment lines, the other lines up to the blank one, and
of these what stands before a comment. -/
def assemblyOf (rendered : String) : String :=
  linesText ((((linesOf rendered).filter (!isComment ·)).takeWhile (· != "")).map withoutComment)

theorem beforeComment_of_not_mem {s : List Char} (hs : ';' ∉ s) : beforeComment s = s := by
  induction s with
  | nil => rfl
  | cons c s ih =>
    rw [List.mem_cons, not_or] at hs
    have hhead : ¬ (c = ' ' ∧ s.head? = some ';') := by
      rintro ⟨-, hhead⟩
      exact hs.2 (List.mem_of_mem_head? hhead)
    rw [beforeComment, if_neg hhead, ih hs.2]

theorem beforeComment_append {s : List Char} (hs : ';' ∉ s) (rest : List Char) :
    beforeComment (s ++ ' ' :: ';' :: rest) = s := by
  induction s with
  | nil => exact if_pos ⟨rfl, rfl⟩
  | cons c s ih =>
    rw [List.mem_cons, not_or] at hs
    have hhead : ¬ (c = ' ' ∧ (s ++ ' ' :: ';' :: rest).head? = some ';') := by
      rintro ⟨-, hhead⟩
      cases s with
      | nil => cases hhead
      | cons d s => exact hs.2 (List.mem_of_mem_head? hhead)
    rw [List.cons_append, beforeComment, if_neg hhead, ih hs.2]

end Comments

theorem Instruction.toList_text_ne_nil (i : Instruction) : i.text.toList ≠ [] := by
  rw [text, Operation.text_eq]
  simp

namespace Step

variable {s s' : Step} {shown : Config}

/-- A step as runs make it: its text is that of its instruction, and its trace is legible. -/
structure Made (s : Step) : Prop where
  text : s.text = s.instruction.text
  trace : ∀ t ∈ s.trace, t.Legible

/-- What stands behind the assembly of a step. -/
def comment (s : Step) : String :=
  match s.trace with
  | none => ""
  | some t => " ; " ++ t.text

def line (s : Step) : String := s.text ++ s.comment

/-- The lines of a step: its structure as a comment if that is asked for, and its own. -/
def lines (shown : Config) (s : Step) : List String :=
  (if shown.debug then ["; " ++ s.instruction.structureText] else []) ++ [s.line]

theorem render_eq (shown : Config) (s : Step) : s.render shown =
    (if shown.debug then "; " ++ s.instruction.structureText ++ "\n" else "") ++ s.line := by
  rw [render, line, comment]
  cases s.trace <;> simp only [String.append_assoc]

theorem linesText_lines (shown : Config) (s : Step) :
    linesText (s.lines shown) = s.render shown ++ "\n" := by
  rw [render_eq, lines]
  split_ifs
  · simp only [linesText, List.cons_append, List.nil_append, List.map_cons, List.map_nil,
      String.join_cons, String.join_nil, String.append_empty, String.append_assoc]
  · simp only [linesText, List.nil_append, List.map_cons, List.map_nil, String.join_cons,
      String.join_nil, String.append_empty, String.empty_append]

theorem Made.assembly (hs : s.Made) : Assembly s.text := hs.text ▸ s.instruction.assembly_text

theorem oneLine_comment (s : Step) : OneLine s.comment := by
  unfold comment
  cases s.trace with
  | none => exact (by decide : OneLine "")
  | some t => exact oneLine_append.2 ⟨by decide, t.oneLine_text⟩

theorem Made.oneLine_line (hs : s.Made) : OneLine s.line :=
  oneLine_append.2 ⟨hs.assembly.oneLine, s.oneLine_comment⟩

theorem Made.oneLine (hs : s.Made) : ∀ line ∈ s.lines shown, OneLine line := by
  have hstructure : OneLine ("; " ++ s.instruction.structureText) :=
    oneLine_append.2 ⟨by decide, s.instruction.oneLine_structureText⟩
  unfold lines
  split_ifs <;> simp [hstructure, hs.oneLine_line]

/-- The first character of a line of assembly. -/
theorem Made.exists_head (hs : s.Made) : ∃ c rest, s.line.toList = c :: rest ∧ c ≠ ';' := by
  obtain ⟨c, rest, htext⟩ := List.exists_cons_of_ne_nil s.instruction.toList_text_ne_nil
  rw [← hs.text] at htext
  refine ⟨c, rest ++ s.comment.toList, ?_, ?_⟩
  · rw [line, String.toList_append, htext, List.cons_append]
  · rintro rfl
    refine hs.assembly.not_mem rfl (htext ▸ List.mem_cons_self)

theorem Made.isComment_line (hs : s.Made) : isComment s.line = false := by
  obtain ⟨c, rest, hline, hc⟩ := hs.exists_head
  simp [isComment, hline, hc]

theorem Made.filter_lines (hs : s.Made) : (s.lines shown).filter (!isComment ·) = [s.line] := by
  have hstructure : isComment ("; " ++ s.instruction.structureText) = true := by
    simp [isComment]
  unfold lines
  split_ifs <;> simp [hstructure, hs.isComment_line]

theorem Made.line_ne (hs : s.Made) : s.line ≠ "" := by
  obtain ⟨c, rest, hline, -⟩ := hs.exists_head
  rintro h
  rw [h] at hline
  cases hline

theorem Made.lines_ne (hs : s.Made) : ∀ line ∈ s.lines shown, line ≠ "" := by
  have hstructure : "; " ++ s.instruction.structureText ≠ "" := by
    rw [Ne, ← String.toList_inj]
    simp
  unfold lines
  split_ifs <;> simp [hstructure, hs.line_ne]

theorem Made.withoutComment_line (hs : s.Made) : withoutComment s.line = s.text := by
  have htext : ';' ∉ s.text.toList := hs.assembly.not_mem rfl
  rw [withoutComment, ← String.toList_inj, String.toList_ofList, line, comment]
  cases s.trace with
  | none => rw [String.append_empty, beforeComment_of_not_mem htext]
  | some t =>
    have hcomment : (s.text ++ (" ; " ++ t.text)).toList =
        s.text.toList ++ ' ' :: ';' :: (" " ++ t.text).toList := by
      simp
    rw [hcomment, beforeComment_append htext]

theorem Made.trace_eq_of_comment_eq (hs : s.Made) (hs' : s'.Made) (h : s.comment = s'.comment) :
    s.trace = s'.trace := by
  have hne : ∀ t : Trace, "" ≠ " ; " ++ t.text := by
    intro t h
    have hlist := congrArg String.toList h
    simp at hlist
  unfold comment at h
  cases ht : s.trace with
  | none =>
    cases ht' : s'.trace with
    | none => rfl
    | some t' =>
      rw [ht, ht'] at h
      exact absurd h (hne t')
  | some t =>
    cases ht' : s'.trace with
    | none =>
      rw [ht, ht'] at h
      exact absurd h.symm (hne t)
    | some t' =>
      rw [ht, ht'] at h
      have htext := String.append_right_inj _ |>.1 h
      rw [Trace.text_inj (hs.trace t ht) (hs'.trace t' ht') htext]

/-- The line of a step tells its text and its trace. -/
theorem Made.line_inj (hs : s.Made) (hs' : s'.Made) (h : s.line = s'.line) :
    (s.text, s.trace) = (s'.text, s'.trace) := by
  have htext : s.text = s'.text := by
    rw [← hs.withoutComment_line, h, hs'.withoutComment_line]
  rw [line, line, htext, String.append_right_inj] at h
  rw [htext, hs.trace_eq_of_comment_eq hs' h]

end Step

namespace Listing

variable {l l' : Listing} {shown : Config}

/-- The lines of a listing up to the blank one. -/
def codeLines (shown : Config) (l : Listing) : List String :=
  "bits 16" :: l.steps.flatMap (Step.lines shown)

/-- The lines of a listing from the blank one on, which stands before the last state. -/
def stateLines (l : Listing) : List String :=
  match l.finalState with
  | none => []
  | some s => "" :: s.dumpLines

/-- A listing as completed runs make it. -/
structure Made (l : Listing) : Prop where
  steps : ∀ s ∈ l.steps, s.Made
  finalState : ∀ s ∈ l.finalState, s.flags.rest = 0

theorem linesText_codeLines (shown : Config) (l : Listing) :
    linesText (l.codeLines shown) = listingOf (l.steps.map (·.render shown)) := by
  have hsteps : linesText (l.steps.flatMap (Step.lines shown)) =
      linesText (l.steps.map (·.render shown)) := by
    induction l.steps with
    | nil => rfl
    | cons s steps ih =>
      rw [List.flatMap_cons, linesText_append, Step.linesText_lines, ih, List.map_cons,
        linesText_cons]
  rw [listingOf_eq, codeLines, linesText_cons, hsteps]
  rfl

theorem render_eq (shown : Config) (l : Listing) :
    l.render shown = linesText (l.codeLines shown ++ l.stateLines) := by
  rw [linesText_append, linesText_codeLines, render, stateLines]
  cases l.finalState with
  | none => rfl
  | some s =>
    dsimp only
    rw [Snapshot.dump_eq, linesText_cons, String.empty_append]

theorem oneLine_stateLines (l : Listing) : ∀ line ∈ l.stateLines, OneLine line := by
  unfold stateLines
  cases l.finalState with
  | none => simp
  | some s => exact List.forall_mem_cons.2 ⟨by decide, s.oneLine_of_mem_dumpLines⟩

theorem Made.linesOf_render (hl : l.Made) :
    linesOf (l.render shown) = l.codeLines shown ++ l.stateLines := by
  have hcode : ∀ line ∈ l.codeLines shown, OneLine line := by
    refine List.forall_mem_cons.2 ⟨by decide, List.forall_mem_flatMap.2 fun s hs => ?_⟩
    exact (hl.steps s hs).oneLine
  rw [render_eq, linesOf_linesText]
  exact List.forall_mem_append.2 ⟨hcode, l.oneLine_stateLines⟩

/-- The blank line is the first of its kind. -/
theorem Made.codeLines_ne (hl : l.Made) : ∀ line ∈ l.codeLines shown, (line != "") = true := by
  simp only [bne_iff_ne]
  refine List.forall_mem_cons.2 ⟨by decide, List.forall_mem_flatMap.2 fun s hs => ?_⟩
  exact (hl.steps s hs).lines_ne

theorem head_stateLines (l : Listing) : ∀ line ∈ l.stateLines.head?, (line != "") = false := by
  unfold stateLines
  cases l.finalState with
  | none => simp
  | some s => simp

theorem Made.filter_codeLines (hl : l.Made) :
    (l.codeLines shown).filter (!isComment ·) = "bits 16" :: l.steps.map Step.line := by
  have hsteps : ∀ steps : List Step, (∀ s ∈ steps, s.Made) →
      (steps.flatMap (Step.lines shown)).filter (!isComment ·) = steps.map Step.line := by
    intro steps hmade
    rw [List.filter_flatMap, List.map_eq_flatMap]
    exact List.flatMap_congr fun s hs => (hmade s hs).filter_lines
  have hheader : isComment "bits 16" = false := by decide
  rw [codeLines, List.filter_cons_of_pos (by simp [hheader]), hsteps _ hl.steps]

theorem Made.assemblyOf_render (hl : l.Made) : assemblyOf (l.render shown) = l.asmText := by
  have hkept : ((linesOf (l.render shown)).filter (!isComment ·)).takeWhile (· != "") =
      "bits 16" :: l.steps.map Step.line := by
    have hlines : ∀ line ∈ "bits 16" :: l.steps.map Step.line, (line != "") = true := by
      simp only [bne_iff_ne]
      exact List.forall_mem_cons.2
        ⟨by decide, List.forall_mem_map.2 fun s hs => (hl.steps s hs).line_ne⟩
    have hblank : ∀ line ∈ (l.stateLines.filter (!isComment ·)).head?, (line != "") = false := by
      unfold stateLines
      cases l.finalState with
      | none => simp
      | some s => simp [isComment]
    rw [hl.linesOf_render, List.filter_append, hl.filter_codeLines,
      takeWhile_append_of_all hlines hblank]
  have htexts : (l.steps.map Step.line).map withoutComment = l.steps.map Step.text := by
    rw [List.map_map]
    exact List.map_congr_left fun s hs => (hl.steps s hs).withoutComment_line
  have hheader : withoutComment "bits 16" = "bits 16" := by decide
  rw [assemblyOf, hkept, List.map_cons, htexts, hheader, linesText_cons, asmText, listingOf_eq]
  rfl

theorem Made.linesOf_asmText (hl : l.Made) :
    linesOf l.asmText = "bits 16" :: l.steps.map Step.text := by
  have htext : l.asmText = linesText ("bits 16" :: l.steps.map Step.text) := by
    rw [asmText, listingOf_eq, linesText_cons]
    rfl
  rw [htext, linesOf_linesText]
  refine List.forall_mem_cons.2 ⟨by decide, List.forall_mem_map.2 fun s hs => ?_⟩
  exact (hl.steps s hs).assembly.oneLine

theorem Made.finalState_eq_of_stateLines_eq (hl : l.Made) (hl' : l'.Made)
    (h : l.stateLines = l'.stateLines) : l.finalState = l'.finalState := by
  unfold stateLines at h
  cases hs : l.finalState with
  | none =>
    cases hs' : l'.finalState with
    | none => rfl
    | some s' => simp [hs, hs'] at h
  | some s =>
    cases hs' : l'.finalState with
    | none => simp [hs, hs'] at h
    | some s' =>
      rw [hs, hs', List.cons.injEq] at h
      rw [Snapshot.dumpLines_inj (hl.finalState s hs) (hl'.finalState s' hs') h.2]

theorem Made.render_inj (hl : l.Made) (hl' : l'.Made) (h : l.render shown = l'.render shown) :
    l.steps.map (fun s => (s.text, s.trace)) = l'.steps.map (fun s => (s.text, s.trace)) ∧
      l.finalState = l'.finalState := by
  have hlines := congrArg linesOf h
  rw [hl.linesOf_render, hl'.linesOf_render] at hlines
  obtain ⟨hcode, hstate⟩ := eq_of_append_span hl.codeLines_ne hl'.codeLines_ne l.head_stateLines
    l'.head_stateLines hlines
  refine ⟨?_, hl.finalState_eq_of_stateLines_eq hl' hstate⟩
  have hkept := congrArg (List.filter (!isComment ·)) hcode
  rw [hl.filter_codeLines, hl'.filter_codeLines, List.cons.injEq] at hkept
  exact map_eq_map_of_told
    (fun s hs s' hs' => (hl.steps s hs).line_inj (hl'.steps s' hs')) hkept.2

end Listing

namespace Machine

variable {execute : Bool} {m m' : Machine} {s : Step} {steps : List Step}

/-- No operation touches the bits of the flags without a meaning. -/
theorem rest_perform? {op : Operation} (h : m.perform? op = some m') :
    m'.flags.rest = m.flags.rest := by
  cases op with
  | mov dst src wide =>
    simp only [perform?, Option.bind_eq_bind, Option.bind_eq_some_iff] at h
    obtain ⟨r, -, value, -, h⟩ := h
    cases h
    rfl
  | arith op dst src wide =>
    simp only [perform?, Option.bind_eq_bind, Option.bind_eq_some_iff] at h
    obtain ⟨r, -, value, -, h⟩ := h
    cases h
    rw [setResultFlags, Flags.rest_ofResult]
    split_ifs <;> rfl
  | jump branch inc =>
    simp only [perform?, Option.some.injEq] at h
    subst h
    split_ifs <;> rfl

theorem rest_of_take (h : Machine.take execute m = .ok (some s) m') :
    m'.flags.rest = m.flags.rest := by
  obtain ⟨f, -, h⟩ := take_eq_some_iff.1 h
  split_ifs at h
  · have hperform := rest_perform? h.1
    exact hperform
  · rw [h.1]
    rfl

theorem legible_between {before after : Snapshot} (hbefore : before.flags.rest = 0)
    (hafter : after.flags.rest = 0) : (Trace.between before after).Legible where
  regs c hc := Trace.index_lt_of_mem_between hc
  flags p hp := by
    rw [Trace.between] at hp
    split_ifs at hp
    · cases hp
    · cases hp
      exact ⟨hbefore, hafter⟩

theorem made_of_take (h : Machine.take execute m = .ok (some s) m') (hm : m.flags.rest = 0) :
    s.Made := by
  have hm' : m'.flags.rest = 0 := (rest_of_take h).trans hm
  obtain ⟨f, -, h⟩ := take_eq_some_iff.1 h
  split_ifs at h
  · obtain ⟨-, rfl⟩ := h
    refine ⟨rfl, ?_⟩
    rintro t ⟨⟩
    exact legible_between hm hm'
  · obtain ⟨-, rfl⟩ := h
    exact ⟨rfl, by rintro t ⟨⟩⟩

theorem Takes.made (h : m.Takes execute steps m') (hm : m.flags.rest = 0) :
    (∀ s ∈ steps, s.Made) ∧ m'.flags.rest = 0 := by
  induction h with
  | nil => exact ⟨by simp, hm⟩
  | cons ht _ ih =>
    obtain ⟨hsteps, hlast⟩ := ih ((rest_of_take ht).trans hm)
    exact ⟨List.forall_mem_cons.2 ⟨made_of_take ht hm, hsteps⟩, hlast⟩

end Machine

theorem made_of_run {program : List UInt8} {config : Config} {l : Listing}
    (h : run program config = .ok l) : l.Made := by
  obtain ⟨m₀, m, hload, htakes, -, -, hfinal⟩ := run_eq_ok_iff.1 h
  obtain ⟨memory, -, rfl⟩ := Machine.load_eq_ok_iff.1 hload
  have hrest : ({} : Flags).rest = 0 := by decide
  obtain ⟨hsteps, hlast⟩ := htakes.made hrest
  refine ⟨hsteps, fun s hs => ?_⟩
  rw [hfinal] at hs
  split_ifs at hs
  · cases hs
    exact hlast
  · cases hs

/-- The rendered listing of a completed run loses nothing. The assembly can be taken out of it
again, a header and one line for each step. And another completed run that is rendered alike made
as many steps, with the same texts and the same traces, and ended in the same state. -/
theorem render_tells {program program' : List UInt8} {config config' : Config} {l l' : Listing}
    (h : run program config = .ok l) (h' : run program' config' = .ok l') (shown : Config) :
    assemblyOf (l.render shown) = l.asmText ∧
    linesOf l.asmText = "bits 16" :: l.steps.map Step.text ∧
    (l.render shown = l'.render shown → l.steps.length = l'.steps.length ∧
      l.steps.map Step.text = l'.steps.map Step.text ∧
      l.steps.map Step.trace = l'.steps.map Step.trace ∧ l.finalState = l'.finalState) := by
  have hl := made_of_run h
  refine ⟨hl.assemblyOf_render, hl.linesOf_asmText, fun hrender => ?_⟩
  obtain ⟨hsteps, hfinal⟩ := hl.render_inj (made_of_run h') hrender
  refine ⟨?_, ?_, ?_, hfinal⟩
  · simpa using congrArg List.length hsteps
  · simpa [Function.comp_def] using congrArg (List.map Prod.fst) hsteps
  · simpa [Function.comp_def] using congrArg (List.map Prod.snd) hsteps

def movClTwelve : Instruction := .mov ⟨.immToReg, false, false, ⟨0, 1, 0, 0⟩, 12⟩

/-- The two instructions that subtract cx from ax. -/
def subAxCx (toReg : Bool) : Instruction :=
  .arith ⟨.regMem, .sub, toReg, false, true, if toReg then ⟨3, 0, 1, 0⟩ else ⟨3, 1, 0, 0⟩, 0,
    if toReg then 0x2b else 0x29⟩

/-- The move of a number to a register that is 0, and the subtraction of it from another. -/
def subtractTwelve (toReg : Bool) : List UInt8 := movClTwelve.encode ++ (subAxCx toReg).encode

def subtractTwelveListing (toReg : Bool) : Listing where
  steps :=
    [.ofFetched ⟨0, movClTwelve.encode, movClTwelve⟩ (some ⟨[⟨1, 0, 12⟩], (0, 2), none⟩),
     .ofFetched ⟨2, (subAxCx toReg).encode, subAxCx toReg⟩
       (some ⟨[⟨0, 0, 0xfff4⟩], (2, 4), some ({}, ⟨0x80⟩)⟩)]
  finalState := some ⟨#v[0xfff4, 12, 0, 0, 0, 0, 0, 0], ⟨0x80⟩, 4⟩

theorem run_subtractTwelve (toReg : Bool) {config : Config} (hexecute : config.execute = true)
    (hmax : 2 ≤ config.maxSteps) :
    run (subtractTwelve toReg) config = .ok (subtractTwelveListing toReg) := by
  obtain ⟨memory, hmemory⟩ : ∃ memory,
      Memory.ofProgram (subtractTwelve toReg) defaultMinMemory = .ok memory := by
    cases toReg <;> exact ⟨_, rfl⟩
  let state (ax cx : UInt16) (flags : Flags) (ip : UInt16) : Machine :=
    ⟨#v[ax, cx, 0, 0, 0, 0, 0, 0], flags, ip, memory, 4, false, defaultMinMemory⟩
  have hload : Machine.load (subtractTwelve toReg) defaultMinMemory = .ok (state 0 0 {} 0) := by
    refine Machine.load_eq_ok_iff.2 ⟨memory, hmemory, ?_⟩
    cases toReg <;> rfl
  have hm := Machine.loaded_of_load hload
  have hdecodeMov : decode (.ofBytes (subtractTwelve toReg)) =
      .ok movClTwelve ⟨2, (subAxCx toReg).encode⟩ := by cases toReg <;> rfl
  have hperformMov : (state 0 0 {} 2).perform? movClTwelve.operation = some (state 0 12 {} 2) := by
    have hcx : Machine.merge (Register.ofField 1 false) 0 12 = 12 := by decide
    have h : (state 0 0 {} 2).perform? movClTwelve.operation =
        some (state 0 (Machine.merge (Register.ofField 1 false) 0 12) {} 2) := rfl
    rw [h, hcx]
  have hmov : Machine.take true (state 0 0 {} 0) = .ok _ (state 0 12 {} 2) :=
    hm.take_of_decode rfl hdecodeMov hperformMov
  have hdecodeSub : decode (.ofBytes (subAxCx toReg).encode) = .ok (subAxCx toReg) ⟨2, []⟩ := by
    cases toReg <;> rfl
  have hperformSub : ((state 0 12 {} 2).advance (.ofNat (subAxCx toReg).encode.length)).perform?
      (subAxCx toReg).operation = some (state 0xfff4 12 ⟨0x80⟩ 4) := by
    have hresult : (0 : UInt16) - 12 = 0xfff4 := rfl
    have hflags : ({} : Flags).ofResult 0xfff4 = ⟨0x80⟩ := rfl
    have h : (state 0 12 {} 4).perform? (subAxCx toReg).operation =
        some (state (0 - 12) 12 (({} : Flags).ofResult (0 - 12)) 4) := by cases toReg <;> rfl
    rw [← hflags, ← hresult, ← h]
    cases toReg <;> rfl
  have hsub : Machine.take true (state 0 12 {} 2) = .ok _ (state 0xfff4 12 ⟨0x80⟩ 4) :=
    (hm.take hmov).take_of_decode rfl hdecodeSub hperformSub
  have htraceMov : Trace.between (state 0 0 {} 0).snapshot (state 0 12 {} 2).snapshot =
      ⟨[⟨1, 0, 12⟩], (0, 2), none⟩ := rfl
  have htraceSub : Trace.between (state 0 12 {} 2).snapshot (state 0xfff4 12 ⟨0x80⟩ 4).snapshot =
      ⟨[⟨0, 0, 0xfff4⟩], (2, 4), some ({}, ⟨0x80⟩)⟩ := rfl
  rw [htraceMov] at hmov
  rw [htraceSub] at hsub
  have hdone : (state 0xfff4 12 ⟨0x80⟩ 4).isDone = true := rfl
  refine run_eq_ok_iff.2 ⟨_, _, hload, ?_, hdone, hmax, ?_⟩
  · rw [hexecute]
    exact .cons hmov (.cons hsub (.nil _))
  · rw [hexecute]
    rfl

/-- The listings of the two subtractions look alike and have other bytes in them. -/
theorem render_tells_subtractTwelve :
    let l := subtractTwelveListing false
    let l' := subtractTwelveListing true
    let shown : Config := { execute := true }
    run [0xb1, 0x0c, 0x29, 0xc8] shown = .ok l ∧ run [0xb1, 0x0c, 0x2b, 0xc1] shown = .ok l' ∧
      l.steps.map Step.bytes ≠ l'.steps.map Step.bytes ∧ l.render shown = l'.render shown ∧
      assemblyOf (l.render shown) = l.asmText ∧
      l.steps.map Step.text = l'.steps.map Step.text ∧
      l.steps.map Step.trace = l'.steps.map Step.trace ∧ l.finalState = l'.finalState := by
  intro l l' shown
  have htext : (subAxCx false).text = (subAxCx true).text := rfl
  have hrender : l.render shown = l'.render shown := by
    simp only [l, l', subtractTwelveListing, Step.ofFetched, Listing.render, List.map_cons,
      List.map_nil, Step.render, shown, htext, Bool.false_eq_true, ↓reduceIte]
  have hrun : run [0xb1, 0x0c, 0x29, 0xc8] shown = .ok l :=
    run_subtractTwelve false rfl (by decide)
  have hrun' : run [0xb1, 0x0c, 0x2b, 0xc1] shown = .ok l' :=
    run_subtractTwelve true rfl (by decide)
  obtain ⟨hassembly, -, htells⟩ := render_tells hrun hrun' shown
  obtain ⟨-, htexts, htraces, hfinal⟩ := htells hrender
  exact ⟨hrun, hrun', by decide, hrender, hassembly, htexts, htraces, hfinal⟩

end Machine86
