import Machine86.Proofs.JsonText
import Machine86.Proofs.Views
import Machine86.Report.Basic
import Mathlib.Data.List.Basic

/-!
# What a report in JSON tells

The JSON of an instruction, a trace, a step or a listing has all of its fields, each in a form that
tells it: numbers as numbers, flags by the names and the number of their bits (`Flags.text_inj`),
and what may be missing as null, which is the form of nothing else there. Since a JSON text tells
its value, two reports of one text agree in the input, in every field of the listing, and in how the
check went (`Report.jsonText_eq_iff`).
-/

namespace Machine86

theorem Json.ofNat_injective : Function.Injective Json.ofNat := by
  intro m n h
  exact Int.ofNat.inj (Json.number.inj h)

theorem Json.ofOption_injective {α : Type} {write : α → Json} (hwrite : Function.Injective write)
    (hnull : ∀ a, write a ≠ .null) : Function.Injective (Json.ofOption write) := by
  intro a b h
  cases a with
  | none =>
    cases b with
    | none => rfl
    | some b => exact absurd h.symm (hnull b)
  | some a =>
    cases b with
    | none => exact absurd h (hnull a)
    | some b => rw [hwrite h]

theorem Json.ofOption_comp {α β : Type} (write : β → Json) (f : α → β) (a : Option α) :
    Json.ofOption (fun a => write (f a)) a = Json.ofOption write (a.map f) := by
  cases a <;> rfl

section Instructions

theorem ModRm.toJson_injective : Function.Injective ModRm.toJson := by
  rintro ⟨mode, reg, rm, disp⟩ ⟨mode', reg', rm', disp'⟩ h
  simpa [toJson, Json.ofNat_injective.eq_iff, UInt8.toNat_inj, Int16.toInt_inj] using h

theorem MovForm.tag_injective : Function.Injective MovForm.tag := by
  intro a b
  cases a <;> cases b <;> decide

theorem ArithForm.tag_injective : Function.Injective ArithForm.tag := by
  intro a b
  cases a <;> cases b <;> decide

theorem ArithOp.tag_injective : Function.Injective ArithOp.tag := by
  intro a b
  cases a <;> cases b <;> decide

theorem Mov.toJson_injective : Function.Injective Mov.toJson := by
  rintro ⟨form, toReg, wide, modRm, data⟩ ⟨form', toReg', wide', modRm', data'⟩ h
  simpa [toJson, Json.ofNat_injective.eq_iff, MovForm.tag_injective.eq_iff,
    ModRm.toJson_injective.eq_iff, UInt16.toNat_inj] using h

theorem Arith.toJson_injective : Function.Injective Arith.toJson := by
  rintro ⟨form, op, toReg, signExtend, wide, modRm, data, opcode⟩
    ⟨form', op', toReg', signExtend', wide', modRm', data', opcode'⟩ h
  simpa [toJson, Json.ofNat_injective.eq_iff, ArithForm.tag_injective.eq_iff,
    ArithOp.tag_injective.eq_iff, ModRm.toJson_injective.eq_iff, UInt16.toNat_inj,
    UInt8.toNat_inj] using h

theorem Jump.toJson_injective : Function.Injective Jump.toJson := by
  rintro ⟨opcode, inc⟩ ⟨opcode', inc'⟩ h
  simpa [toJson, Json.ofNat_injective.eq_iff, UInt8.toNat_inj, Int8.toInt_inj] using h

theorem Instruction.toJson_injective : Function.Injective Instruction.toJson := by
  intro i j h
  cases i <;> cases j <;>
    simp_all [toJson, Mov.toJson_injective.eq_iff, Arith.toJson_injective.eq_iff,
      Jump.toJson_injective.eq_iff]

end Instructions

namespace Flags

/-- The text of flags shows by its letters which of the two are set. -/
theorem mem_text (f : Flags) :
    ('Z' ∈ f.text.toList ↔ f.zero = true) ∧ ('S' ∈ f.text.toList ↔ f.sign = true) := by
  have hZ : 'Z' ∉ (Numeral.prefixedHex f.rest.toNat).toList :=
    Numeral.not_mem_prefixedHex (by decide)
  have hS : 'S' ∉ (Numeral.prefixedHex f.rest.toNat).toList :=
    Numeral.not_mem_prefixedHex (by decide)
  rw [text, names, ← rest]
  cases f.zero <;> cases f.sign <;> by_cases hrest : f.rest = 0 <;> simp [hrest, hZ, hS]

/-- What is left of the text of flags without letters, bars and blanks is the number of the other
bits. -/
theorem filter_text (f : Flags) : f.text.toList.filter Numeral.isNumberChar =
    if f.rest = 0 then [] else (Numeral.prefixedHex f.rest.toNat).toList := by
  have hnumber : (Numeral.prefixedHex f.rest.toNat).toList.filter Numeral.isNumberChar =
      (Numeral.prefixedHex f.rest.toNat).toList :=
    List.filter_eq_self.2 fun c hc => Numeral.isNumberChar_of_mem_prefixedHex hc
  have hother : Numeral.isNumberChar 'Z' = false ∧ Numeral.isNumberChar 'S' = false ∧
      Numeral.isNumberChar ' ' = false ∧ Numeral.isNumberChar '|' = false := by decide
  rw [text, names, ← rest]
  cases f.zero <;> cases f.sign <;> by_cases hrest : f.rest = 0 <;> simp [hrest, hnumber, hother]

theorem text_inj {f g : Flags} (h : f.text = g.text) : f = g := by
  have hzero : f.zero = g.zero := by
    rw [Bool.eq_iff_iff, ← f.mem_text.1, ← g.mem_text.1, h]
  have hsign : f.sign = g.sign := by
    rw [Bool.eq_iff_iff, ← f.mem_text.2, ← g.mem_text.2, h]
  have hnumber := f.filter_text
  rw [h, g.filter_text] at hnumber
  refine eq_of_rest_eq hzero hsign ?_
  split_ifs at hnumber with hg hf hf
  · rw [hf, hg]
  · simp [Numeral.toList_prefixedHex] at hnumber
  · simp [Numeral.toList_prefixedHex] at hnumber
  · have hrest := Numeral.prefixedHex_inj (String.toList_inj.1 hnumber)
    exact (UInt16.toNat.inj hrest).symm

theorem text_injective : Function.Injective Flags.text := fun _ _ => text_inj

end Flags

section Listings

theorem RegChange.toJson_injective : Function.Injective RegChange.toJson := by
  rintro ⟨index, old, new⟩ ⟨index', old', new'⟩ h
  simpa [toJson, Json.ofNat_injective.eq_iff, UInt8.toNat_inj, UInt16.toNat_inj] using h

/-- The form of flags before and after a step. -/
theorem flagsPair_injective : Function.Injective fun (p : Flags × Flags) =>
    Json.array [.string p.1.text, .string p.2.text] := by
  rintro ⟨old, new⟩ ⟨old', new'⟩ h
  simpa [Flags.text_injective.eq_iff] using h

theorem Trace.toJson_injective : Function.Injective Trace.toJson := by
  rintro ⟨regs, ip, flags⟩ ⟨regs', ip', flags'⟩ h
  have hflags := Json.ofOption_injective flagsPair_injective (fun _ => by simp)
  have hregs := List.map_injective_iff.2 RegChange.toJson_injective
  simpa [toJson, hflags.eq_iff, hregs.eq_iff, Json.ofNat_injective.eq_iff, UInt16.toNat_inj,
    Prod.ext_iff] using h

theorem Snapshot.toJson_injective : Function.Injective Snapshot.toJson := by
  rintro ⟨regs, flags, ip⟩ ⟨regs', flags', ip'⟩ h
  have hword : Function.Injective fun w : UInt16 => Json.ofNat w.toNat :=
    Json.ofNat_injective.comp fun _ _ => UInt16.toNat.inj
  have hregs := List.map_injective_iff.2 hword
  simpa [toJson, hregs.eq_iff, Vector.toList_inj, Flags.text_injective.eq_iff,
    Json.ofNat_injective.eq_iff, UInt16.toNat_inj] using h

theorem Step.toJson_injective : Function.Injective Step.toJson := by
  rintro ⟨offset, bytes, instruction, text, trace⟩ ⟨offset', bytes', instruction', text', trace'⟩ h
  have hbyte : Function.Injective fun b : UInt8 => Json.ofNat b.toNat :=
    Json.ofNat_injective.comp fun _ _ => UInt8.toNat.inj
  have hbytes := List.map_injective_iff.2 hbyte
  have htrace := Json.ofOption_injective Trace.toJson_injective (fun _ => by simp [Trace.toJson])
  simpa [toJson, hbytes.eq_iff, htrace.eq_iff, Instruction.toJson_injective.eq_iff,
    Json.ofNat_injective.eq_iff, UInt16.toNat_inj] using h

theorem Listing.toJson_injective : Function.Injective Listing.toJson := by
  rintro ⟨steps, finalState⟩ ⟨steps', finalState'⟩ h
  have hsteps := List.map_injective_iff.2 Step.toJson_injective
  have hfinal :=
    Json.ofOption_injective Snapshot.toJson_injective (fun _ => by simp [Snapshot.toJson])
  simpa [toJson, hsteps.eq_iff, hfinal.eq_iff] using h

end Listings

section Checks

theorem Verdict.tag_injective : Function.Injective Verdict.tag := by
  intro a b
  cases a <;> cases b <;> decide

theorem Verification.toJson_injective : Function.Injective Verification.toJson := by
  rintro ⟨asmPath, binPath, verdict⟩ ⟨asmPath', binPath', verdict'⟩ h
  simpa [toJson, Verdict.tag_injective.eq_iff] using h

/-- Two checks that went the same: neither was made, or both were finished with the same files and
verdict, or both failed with the same message. -/
inductive Check.Same : Check → Check → Prop
  | absent : Same absent absent
  | finished (v : Verification) : Same (finished v) (finished v)
  | failed {why why' : ErrorChain} (h : why.oneLine = why'.oneLine) :
    Same (failed why) (failed why')

theorem Check.same_iff {c d : Check} : c.Same d ↔ c.verification? = d.verification? ∧
    c.failure?.map ErrorChain.oneLine = d.failure?.map ErrorChain.oneLine := by
  refine ⟨?_, fun ⟨hfinished, hfailed⟩ => ?_⟩
  · rintro (_ | v | h)
    · exact ⟨rfl, rfl⟩
    · exact ⟨rfl, rfl⟩
    · exact ⟨rfl, congrArg some h⟩
  · cases c <;> cases d <;> cases hfinished
    · exact .absent
    · cases hfailed
    · exact .finished _
    · cases hfailed
    · exact .failed (Option.some.inj hfailed)

end Checks

theorem Report.toJson_eq_iff {r r' : Report} : r.toJson = r'.toJson ↔
    r.input = r'.input ∧ r.listing = r'.listing ∧ r.check.Same r'.check := by
  have hfinished := Json.ofOption_injective Verification.toJson_injective
    (fun _ => by simp [Verification.toJson])
  have hfailed : Function.Injective (Json.ofOption .string) :=
    Json.ofOption_injective (fun _ _ => Json.string.inj) (fun _ => by simp)
  simp [toJson, Json.ofOption_comp _ ErrorChain.oneLine, Check.same_iff,
    Listing.toJson_injective.eq_iff, hfinished.eq_iff, hfailed.eq_iff]

/-- Reports have the same text in JSON just where they have the same input, the same listing in
every field, and checks that went the same. -/
theorem Report.jsonText_eq_iff {r r' : Report} : r.jsonText = r'.jsonText ↔
    r.input = r'.input ∧ r.listing = r'.listing ∧ r.check.Same r'.check := by
  rw [← toJson_eq_iff, jsonText, jsonText, String.append_left_inj]
  exact ⟨Json.pretty_inj, congrArg Json.pretty⟩

end Machine86
