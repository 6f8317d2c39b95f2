import Machine86.Machine.Snapshot
import Machine86.Proofs.Lines
import Machine86.Proofs.Views

/-!
# Traces and dumps tell what they show

The text of a trace is words with blanks between them. Each word says what changed and gives the
value before and after; the word of the pointer comes behind those of the registers, and that of
the flags behind it. So the text tells the trace (`Trace.text_inj`), where its registers exist and
its flags have no bits besides the two that are written. A dump has a row for each register that is
not zero, and the registers without a row are the others: its lines tell the snapshot
(`Snapshot.dumpLines_inj`).
-/

namespace Machine86

/-- Where lists look the same through `f`, they do so through whatever `f` tells of their items. -/
theorem map_eq_map_of_told {α β γ : Type} {f : α → β} {g : α → γ} {as bs : List α}
    (htold : ∀ a ∈ as, ∀ b ∈ bs, f a = f b → g a = g b) (h : as.map f = bs.map f) :
    as.map g = bs.map g := by
  induction as generalizing bs with
  | nil =>
    rw [List.map_nil, eq_comm, List.map_eq_nil_iff] at h
    rw [h]
  | cons a as ih =>
    cases bs with
    | nil => cases h
    | cons b bs =>
      rw [List.map_cons, List.map_cons, List.cons.injEq] at h
      have hrest := ih (fun a ha b hb => htold a (.tail _ ha) b (.tail _ hb)) h.2
      rw [List.map_cons, List.map_cons, hrest, htold a (.head _) b (.head _) h.1]

/-- The characters of the words in a trace. -/
def isWordChar (c : Char) : Bool :=
  Numeral.isNumberChar c || c.isLower || "ZS:->".toList.contains c

/-- A text in the characters of words alone. -/
def Word (s : String) : Prop := s.toList.all isWordChar = true

instance (s : String) : Decidable (Word s) := inferInstanceAs (Decidable (_ = true))

theorem word_append {s t : String} : Word (s ++ t) ↔ Word s ∧ Word t := by
  simp only [Word, String.toList_append, List.all_append, Bool.and_eq_true]

theorem Word.not_mem {s : String} (h : Word s) {c : Char} (hc : isWordChar c = false) :
    c ∉ s.toList := by
  intro hmem
  rw [List.all_eq_true.1 h c hmem] at hc
  cases hc

theorem Numeral.word_prefixedHex (n : Nat) : Word (prefixedHex n) := by
  refine List.all_eq_true.2 fun c hc => ?_
  rw [isWordChar, isNumberChar_of_mem_prefixedHex hc]
  rfl

theorem Flags.word_mark (f : Flags) : Word f.mark := by
  unfold mark
  cases f.zero <;> cases f.sign <;> decide

theorem Register.word_name (r : Register) : Word r.name := by
  obtain ⟨i, v⟩ := r
  revert i v
  decide

section Changes

/-- One word of a trace: what changed, and the value before and after. -/
def changeText (what old new : String) : String := what ++ ":" ++ (old ++ "->" ++ new)

theorem changeText_inj {what what' old old' new new' : String} (hwhat : ':' ∉ what.toList)
    (hwhat' : ':' ∉ what'.toList) (hold : '-' ∉ old.toList) (hold' : '-' ∉ old'.toList)
    (h : changeText what old new = changeText what' old' new') :
    what = what' ∧ old = old' ∧ new = new' := by
  obtain ⟨rfl, hvalues⟩ := eq_of_append_separator rfl hwhat hwhat' h
  exact ⟨rfl, eq_of_append_separator rfl hold hold' hvalues⟩

theorem word_changeText {what old new : String} (hwhat : Word what) (hold : Word old)
    (hnew : Word new) : Word (changeText what old new) := by
  simp only [changeText, word_append]
  exact ⟨⟨hwhat, by decide⟩, ⟨hold, by decide⟩, hnew⟩

/-- What a word of a trace is about. -/
def subject (word : String) : List Char := word.toList.takeWhile (· != ':')

theorem subject_changeText {what old new : String} (hwhat : ':' ∉ what.toList) :
    subject (changeText what old new) = what.toList := by
  have htext : (changeText what old new).toList =
      what.toList ++ ':' :: (old ++ "->" ++ new).toList := by
    simp [changeText]
  rw [subject, htext, takeWhile_append_separator hwhat]

end Changes

namespace Flags

theorem mark_inj {f g : Flags} (hf : f.rest = 0) (hg : g.rest = 0) (h : f.mark = g.mark) :
    f = g := by
  have hbits : f.zero = g.zero ∧ f.sign = g.sign := by
    unfold mark at h
    revert h
    cases f.zero <;> cases f.sign <;> cases g.zero <;> cases g.sign <;> decide
  exact eq_of_rest_eq hbits.1 hbits.2 (hf.trans hg.symm)

theorem minus_not_mem_mark (f : Flags) : '-' ∉ f.mark.toList := by
  unfold mark
  cases f.zero <;> cases f.sign <;> decide

end Flags

theorem colon_not_mem_registerName (index : UInt8) : ':' ∉ (registerName index).toList :=
  (Register.assembly_name _).not_mem rfl

theorem registerName_ne_ip (index : UInt8) : registerName index ≠ "ip" := by
  have hall : ∀ r : Register, r.name ≠ "ip" := by
    rintro ⟨i, v⟩
    revert i v
    decide
  exact hall _

namespace RegChange

open Numeral

/-- The word of a register in a trace. -/
def word (c : RegChange) : String :=
  changeText (registerName c.index) (prefixedHex c.old.toNat) (prefixedHex c.new.toNat)

theorem text_eq_word (c : RegChange) : c.text = c.word ++ " " := by
  simp only [text, word, changeText, String.append_assoc]

theorem word_inj {c d : RegChange} (hc : c.index.toNat < 8) (hd : d.index.toNat < 8)
    (h : c.word = d.word) : c = d := by
  obtain ⟨hname, hold, hnew⟩ := changeText_inj (colon_not_mem_registerName _)
    (colon_not_mem_registerName _) (not_mem_prefixedHex rfl) (not_mem_prefixedHex rfl) h
  obtain ⟨i, old, new⟩ := c
  obtain ⟨j, old', new'⟩ := d
  have hindex : i.toNat % 8 = j.toNat % 8 :=
    congrArg (fun r : Register => r.index.val) (Register.name_inj hname)
  rw [Nat.mod_eq_of_lt hc, Nat.mod_eq_of_lt hd] at hindex
  obtain rfl := UInt8.toNat.inj hindex
  obtain rfl := UInt16.toNat.inj (prefixedHex_inj hold)
  obtain rfl := UInt16.toNat.inj (prefixedHex_inj hnew)
  rfl

end RegChange

namespace Trace

open Numeral

/-- A trace as runs make it: its registers exist, and its flags have no bits without a meaning. -/
structure Legible (t : Trace) : Prop where
  regs : ∀ c ∈ t.regs, c.index.toNat < 8
  flags : ∀ p ∈ t.flags, p.1.rest = 0 ∧ p.2.rest = 0

def ipWord (t : Trace) : String :=
  changeText "ip" (prefixedHex t.ip.1.toNat) (prefixedHex t.ip.2.toNat)

def flagsWord (p : Flags × Flags) : String := changeText "flags" p.1.mark p.2.mark

/-- The words of a trace: those of the registers, the one of the pointer, and the one of the flags
if they changed. -/
def words (t : Trace) : List String :=
  t.regs.map RegChange.word ++ t.ipWord :: (t.flags.map flagsWord).toList

theorem join_append_intercalate (cs : List RegChange) (w : String) (ws : List String) :
    (String.join (cs.map RegChange.text)).toList ++ [' '].intercalate ((w :: ws).map String.toList) =
      [' '].intercalate ((cs.map RegChange.word ++ w :: ws).map String.toList) := by
  induction cs with
  | nil => simp
  | cons c cs ih =>
    rw [List.map_cons, String.join_cons, String.toList_append, List.append_assoc, ih,
      RegChange.text_eq_word]
    cases cs <;> simp

theorem toList_text (t : Trace) : t.text.toList = [' '].intercalate (t.words.map String.toList) := by
  rw [words, ← join_append_intercalate, text]
  cases t.flags <;> simp [ipWord, flagsWord, changeText]

theorem word_of_mem_words (t : Trace) : ∀ w ∈ t.words, Word w := by
  have hchange : ∀ c : RegChange, Word c.word := fun c =>
    word_changeText (Register.word_name _) (word_prefixedHex _) (word_prefixedHex _)
  have hip : Word t.ipWord := word_changeText (by decide) (word_prefixedHex _) (word_prefixedHex _)
  have hflags : ∀ p, Word (flagsWord p) := fun p =>
    word_changeText (by decide) (Flags.word_mark _) (Flags.word_mark _)
  intro w hw
  rw [words, List.mem_append, List.mem_cons, List.mem_map, Option.mem_toList,
    Option.map_eq_some_iff] at hw
  rcases hw with ⟨c, -, rfl⟩ | rfl | ⟨p, -, rfl⟩
  · exact hchange c
  · exact hip
  · exact hflags p

theorem splitOn_text (t : Trace) : t.text.toList.splitOn ' ' = t.words.map String.toList := by
  have hblank : ∀ w ∈ t.words.map String.toList, ' ' ∉ w := by
    intro cs hcs
    obtain ⟨w, hw, rfl⟩ := List.mem_map.1 hcs
    exact (t.word_of_mem_words w hw).not_mem rfl
  rw [toList_text, List.splitOn_intercalate ' ' hblank (by simp [words])]

theorem flagsWord_inj {p q : Flags × Flags} (hp : p.1.rest = 0 ∧ p.2.rest = 0)
    (hq : q.1.rest = 0 ∧ q.2.rest = 0) (h : flagsWord p = flagsWord q) : p = q := by
  obtain ⟨-, hold, hnew⟩ := changeText_inj (by decide) (by decide) (Flags.minus_not_mem_mark _)
    (Flags.minus_not_mem_mark _) h
  exact Prod.ext (Flags.mark_inj hp.1 hq.1 hold) (Flags.mark_inj hp.2 hq.2 hnew)

/-- The word of the pointer is the first that is about no register. -/
theorem words_inj {t t' : Trace} (ht : t.Legible) (ht' : t'.Legible) (h : t.words = t'.words) :
    t = t' := by
  have hregs : ∀ cs : List RegChange, ∀ w ∈ cs.map RegChange.word,
      (subject w != "ip".toList) = true := by
    intro cs w hw
    obtain ⟨c, -, rfl⟩ := List.mem_map.1 hw
    rw [RegChange.word, subject_changeText (colon_not_mem_registerName _), bne_iff_ne]
    exact fun h => registerName_ne_ip c.index (String.toList_inj.1 h)
  have hip : ∀ (t : Trace) (rest : List String), ∀ w ∈ (t.ipWord :: rest).head?,
      (subject w != "ip".toList) = false := by
    rintro t rest w ⟨⟩
    rw [ipWord, subject_changeText (by decide)]
    rfl
  obtain ⟨hwords, hrest⟩ :=
    eq_of_append_span (hregs t.regs) (hregs t'.regs) (hip t _) (hip t' _) h
  rw [List.cons.injEq] at hrest
  have hregs := map_eq_map_of_told
    (fun c hc d hd => RegChange.word_inj (ht.regs c hc) (ht'.regs d hd)) hwords
  rw [List.map_id_fun', id, id] at hregs
  obtain ⟨-, hold, hnew⟩ := changeText_inj (by decide) (by decide) (not_mem_prefixedHex rfl)
    (not_mem_prefixedHex rfl) hrest.1
  have hip := Prod.ext (UInt16.toNat.inj (prefixedHex_inj hold))
    (UInt16.toNat.inj (prefixedHex_inj hnew))
  have hflags : t.flags = t'.flags := by
    have hlist := hrest.2
    cases hf : t.flags with
    | none =>
      cases hf' : t'.flags with
      | none => rfl
      | some q => simp [hf, hf'] at hlist
    | some p =>
      cases hf' : t'.flags with
      | none => simp [hf, hf'] at hlist
      | some q =>
        rw [hf, hf', Option.map_some, Option.map_some, Option.toList_some, Option.toList_some,
          List.cons.injEq] at hlist
        rw [flagsWord_inj (ht.flags p hf) (ht'.flags q hf') hlist.1]
  obtain ⟨regs, ip, flags⟩ := t
  obtain ⟨regs', ip', flags'⟩ := t'
  simp only at hregs hip hflags
  rw [hregs, hip, hflags]

/-- The text of a trace tells the trace. -/
theorem text_inj {t t' : Trace} (ht : t.Legible) (ht' : t'.Legible) (h : t.text = t'.text) :
    t = t' := by
  have hsplit := congrArg (fun s : String => s.toList.splitOn ' ') h
  simp only [splitOn_text] at hsplit
  exact words_inj ht ht' (List.map_inj_right (fun _ _ => String.toList_inj.1) |>.1 hsplit)

end Trace

namespace Snapshot

open Numeral

/-- A row of a dump, which is a line without its line break. -/
def dumpRow (name : String) (value : UInt16) : String :=
  "  " ++ (name ++ ": " ++ (word value ++ " " ++ ("(" ++ decimal value.toNat ++ ")")))

theorem dumpLine_eq (name : String) (value : UInt16) :
    dumpLine name value = dumpRow name value ++ "\n" := by
  simp only [dumpLine, dumpRow, String.append_assoc]
  rfl

theorem dumpRow_inj {name name' : String} {value value' : UInt16} (hname : ':' ∉ name.toList)
    (hname' : ':' ∉ name'.toList) (h : dumpRow name value = dumpRow name' value') :
    name = name' ∧ value = value' := by
  rw [dumpRow, dumpRow, String.append_right_inj] at h
  obtain ⟨hnames, hrest⟩ := eq_of_append_separator rfl hname hname' h
  obtain ⟨hvalues, -⟩ := eq_of_append_separator rfl (not_mem_word rfl) (not_mem_word rfl) hrest
  exact ⟨hnames, word_inj hvalues⟩

/-- The registers with a row in the dump, and their values. -/
def rows (s : Snapshot) : List (Register × UInt16) :=
  (dumpOrder.filter fun r => s.regs.get r.index != 0).map fun r => (r, s.regs.get r.index)

theorem mem_rows {s : Snapshot} {r : Register} {value : UInt16} :
    (r, value) ∈ s.rows ↔ r ∈ dumpOrder ∧ value ≠ 0 ∧ s.regs.get r.index = value := by
  simp only [rows, List.mem_map, List.mem_filter, bne_iff_ne, Prod.mk.injEq]
  refine ⟨?_, ?_⟩
  · rintro ⟨r', ⟨hr, hne⟩, rfl, rfl⟩
    exact ⟨hr, hne, rfl⟩
  · rintro ⟨hr, hne, rfl⟩
    exact ⟨r, ⟨hr, hne⟩, rfl, rfl⟩

/-- A register without a row is zero. -/
theorem regs_eq_of_rows_eq {s s' : Snapshot} (h : s.rows = s'.rows) : s.regs = s'.regs := by
  have hevery : ∀ i, ∃ r ∈ dumpOrder, r.index = i := by decide
  apply Vector.ext
  intro i hi
  obtain ⟨r, hr, hindex⟩ := hevery ⟨i, hi⟩
  have hvalue : s.regs.get r.index = s'.regs.get r.index := by
    by_cases hzero : s.regs.get r.index = 0
    · by_contra hne
      rw [hzero] at hne
      have hmem := mem_rows.2 ⟨hr, Ne.symm hne, rfl⟩
      rw [← h, mem_rows, hzero] at hmem
      exact hne hmem.2.2
    · have hmem := mem_rows.2 ⟨hr, hzero, rfl⟩
      rw [h, mem_rows] at hmem
      exact hmem.2.2.symm
  rw [hindex] at hvalue
  exact hvalue

def dumpLines (s : Snapshot) : List String :=
  "Final registers:" :: (s.rows.map (fun row => dumpRow row.1.name row.2) ++
    [dumpRow "ip" s.ip, "Flags: " ++ s.flags.mark])

theorem dumpRegs_eq (s : Snapshot) : s.dumpRegs =
    "Final registers:\n" ++ linesText (s.rows.map fun row => dumpRow row.1.name row.2) ++
      (dumpRow "ip" s.ip ++ "\n") := by
  have hrows : (dumpOrder.filter fun r => s.regs.get r.index != 0).map
      (fun r => dumpLine r.name (s.regs.get r.index)) =
      (s.rows.map fun row => dumpRow row.1.name row.2).map (· ++ "\n") := by
    rw [rows, List.map_map, List.map_map]
    exact List.map_congr_left fun r _ => dumpLine_eq _ _
  unfold dumpRegs
  dsimp only
  rw [hrows, dumpLine_eq, linesText]

theorem dump_eq (s : Snapshot) : s.dump = linesText s.dumpLines := by
  rw [dump, dumpRegs_eq, dumpFlags, dumpLines]
  simp only [linesText, List.map_cons, List.map_append, List.map_nil, String.join_cons,
    String.join_append, String.join_nil, String.append_empty, String.append_assoc]
  rfl

theorem dumpRow_not_mem {name : String} (hname : '\n' ∉ name.toList) (value : UInt16) :
    '\n' ∉ (dumpRow name value).toList := by
  have hword : '\n' ∉ (word value).toList := not_mem_word rfl
  have hdecimal : '\n' ∉ (decimal value.toNat).toList := (assembly_decimal _).not_mem rfl
  simp [dumpRow, hname, hword, hdecimal]

theorem oneLine_of_mem_dumpLines (s : Snapshot) : ∀ line ∈ s.dumpLines, '\n' ∉ line.toList := by
  have hmark : '\n' ∉ s.flags.mark.toList := (Flags.word_mark _).not_mem rfl
  simp only [dumpLines, List.forall_mem_cons, List.forall_mem_append, List.forall_mem_map]
  refine ⟨by decide, fun row _ => ?_, ?_, ?_, by simp⟩
  · exact dumpRow_not_mem ((Register.assembly_name _).not_mem rfl) _
  · exact dumpRow_not_mem (by decide) _
  · simp [hmark]

theorem dumpLines_inj {s s' : Snapshot} (hs : s.flags.rest = 0) (hs' : s'.flags.rest = 0)
    (h : s.dumpLines = s'.dumpLines) : s = s' := by
  rw [dumpLines, dumpLines, List.cons.injEq] at h
  obtain ⟨hrows, hlast⟩ := List.append_inj' h.2 (by simp)
  have hrows := map_eq_map_of_told (fun row _ row' _ heq => by
    obtain ⟨hname, hvalue⟩ := dumpRow_inj ((Register.assembly_name _).not_mem rfl)
      ((Register.assembly_name _).not_mem rfl) heq
    exact Prod.ext (Register.name_inj hname) hvalue) hrows
  rw [List.map_id_fun', id, id] at hrows
  simp only [List.cons.injEq, String.append_right_inj, and_true] at hlast
  obtain ⟨-, hip⟩ := dumpRow_inj (by decide) (by decide) hlast.1
  have hregs := regs_eq_of_rows_eq hrows
  have hflags := Flags.mark_inj hs hs' hlast.2
  obtain ⟨regs, flags, ip⟩ := s
  obtain ⟨regs', flags', ip'⟩ := s'
  simp only at hregs hflags hip
  rw [hregs, hflags, hip]

end Snapshot

end Machine86
