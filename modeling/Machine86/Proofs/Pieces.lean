import Machine86.Proofs.Lines
import Machine86.Proofs.LinearSweep

/-!
# Disassembly works piece by piece

Where the instructions of one buffer end with its last byte, what stands behind that buffer is
disassembled as if it stood alone (`Decodes.ofBytes_append`). So a buffer can be disassembled just
where it is cut into encodings of instructions, which is possible in one way at most
(`Splitting.unique`), and its listing has a line for each piece (`disassemble_piecewise`).
-/

namespace Machine86

section Decodes

variable {r r' r'' s t : Reader} {i : Instruction} {is js : List Instruction}

theorem Reader.Passes.append {bytes : List UInt8} (h : r.Passes bytes r') (tail : List UInt8) :
    (r.append tail).Passes bytes (r'.append tail) := by
  obtain ⟨hrest, hposition⟩ := h
  refine ⟨?_, hposition⟩
  rw [Reader.append, hrest, List.append_assoc]
  rfl

/-- An instruction that was decoded does not depend on what stands behind it. -/
theorem decode_append_of_ok (h : decode r = .ok i r') (tail : List UInt8) :
    decode (r.append tail) = .ok i (r'.append tail) := by
  obtain ⟨hi, hpass⟩ := decode_eq_ok_iff.1 h
  exact decode_eq_ok_iff.2 ⟨hi, hpass.append tail⟩

theorem decode_shift_of_ok (h : decode r = .ok i r') (n : Nat) :
    decode (r.shift n) = .ok i (r'.shift n) := by
  rw [decode_shift, h]
  rfl

theorem decode_shift_of_error {e : DecodeError} (h : decode r = .error e r') (n : Nat) :
    decode (r.shift n) = .error (e.shift n) (r'.shift n) := by
  rw [decode_shift, h]
  rfl

namespace Decodes

theorem trans (h : Decodes r is r') (h' : Decodes r' js r'') : Decodes r (is ++ js) r'' := by
  induction h with
  | nil => exact h'
  | cons h _ ih => exact .cons h (ih h')

theorem append (h : Decodes r is r') (tail : List UInt8) :
    Decodes (r.append tail) is (r'.append tail) := by
  induction h with
  | nil => exact .nil _
  | cons h _ ih => exact .cons (decode_append_of_ok h tail) ih

theorem shift (h : Decodes r is r') (n : Nat) : Decodes (r.shift n) is (r'.shift n) := by
  induction h with
  | nil => exact .nil _
  | cons h _ ih => exact .cons (decode_shift_of_ok h n) ih

/-- A buffer is decoded to its end in one way. -/
theorem unique (h : Decodes r is s) (hs : s.isAtEnd = true) (h' : Decodes r js t)
    (ht : t.isAtEnd = true) : is = js := by
  induction h generalizing js with
  | nil r =>
    cases h' with
    | nil => rfl
    | cons hd _ =>
      rw [isAtEnd_of_decode hd] at hs
      cases hs
  | cons hd _ ih =>
    cases h' with
    | nil =>
      rw [isAtEnd_of_decode hd] at ht
      cases ht
    | cons hd' h' =>
      rw [hd] at hd'
      cases hd'
      rw [ih hs h']

theorem wellFormed (h : Decodes r is r') : ∀ i ∈ is, i.WellFormed := by
  induction h with
  | nil => exact List.forall_mem_nil _
  | cons h _ ih => exact List.forall_mem_cons.2 ⟨(decode_eq_ok_iff.1 h).1, ih⟩

variable {a b : List UInt8}

theorem flatMap_encode (h : Decodes (.ofBytes a) is r) (hend : r.isAtEnd = true) :
    is.flatMap Instruction.encode = a := by
  have hrest := h.passes.1
  rw [List.isEmpty_iff.1 hend, List.append_nil] at hrest
  exact hrest.symm

theorem eq_of_isAtEnd (h : Decodes (.ofBytes a) is r) (hend : r.isAtEnd = true) :
    r = ⟨a.length, []⟩ := by
  obtain ⟨hrest, hposition⟩ := h.passes
  rw [List.isEmpty_iff.1 hend, List.append_nil] at hrest
  rw [← hrest, Reader.ofBytes, Nat.zero_add] at hposition
  rw [← hposition, ← List.isEmpty_iff.1 hend]

/-- Behind a buffer that is decoded to its end, another one is decoded as it is alone. -/
theorem ofBytes_append (ha : Decodes (.ofBytes a) is r) (hend : r.isAtEnd = true)
    (hb : Decodes (.ofBytes b) js s) :
    Decodes (.ofBytes (a ++ b)) (is ++ js) (s.shift a.length) := by
  have hbehind : r.append b = (Reader.ofBytes b).shift a.length := by
    rw [ha.eq_of_isAtEnd hend, Reader.shift, Reader.ofBytes, Nat.zero_add]
    rfl
  have hfirst := ha.append b
  rw [hbehind] at hfirst
  exact hfirst.trans (hb.shift a.length)

end Decodes

end Decodes

section Disassembly

variable {a b : List UInt8} {text : String} {e : DecodeError}

theorem disassemble_eq_ok_iff : disassemble a = .ok text ↔
    ∃ is r, Decodes (.ofBytes a) is r ∧ r.isAtEnd = true ∧
      text = listingOf (is.map Instruction.text) := by
  refine ⟨fun h => ?_, ?_⟩
  · obtain ⟨is, r, hdecodes, hend | ⟨hend, e, r', he⟩⟩ := exists_decodes (.ofBytes a)
    · rw [disassemble_of_decodes hdecodes hend] at h
      cases h
      exact ⟨is, r, hdecodes, hend, rfl⟩
    · rw [disassemble_of_error hdecodes hend he] at h
      cases h
  · rintro ⟨is, r, hdecodes, hend, rfl⟩
    exact disassemble_of_decodes hdecodes hend

theorem disassemble_eq_error_iff : disassemble a = .error e ↔
    ∃ is r r', Decodes (.ofBytes a) is r ∧ r.isAtEnd = false ∧ decode r = .error e r' := by
  refine ⟨fun h => ?_, ?_⟩
  · obtain ⟨is, r, hdecodes, hend | ⟨hend, e', r', he⟩⟩ := exists_decodes (.ofBytes a)
    · rw [disassemble_of_decodes hdecodes hend] at h
      cases h
    · rw [disassemble_of_error hdecodes hend he] at h
      cases h
      exact ⟨is, r, r', hdecodes, hend, he⟩
  · rintro ⟨is, r, r', hdecodes, hend, he⟩
    exact disassemble_of_error hdecodes hend he

theorem disassemble_append_of_ok {rest : String} (ha : disassemble a = .ok text)
    (hb : disassemble b = .ok (listingHeader ++ rest)) :
    disassemble (a ++ b) = .ok (text ++ rest) := by
  obtain ⟨is, r, hdecodes, hend, rfl⟩ := disassemble_eq_ok_iff.1 ha
  obtain ⟨js, s, hdecodes', hend', hrest⟩ := disassemble_eq_ok_iff.1 hb
  rw [listingOf_eq, String.append_right_inj] at hrest
  refine disassemble_eq_ok_iff.2 ⟨is ++ js, _, hdecodes.ofBytes_append hend hdecodes', hend', ?_⟩
  rw [List.map_append, listingOf_append, hrest]

theorem disassemble_append_of_error (ha : disassemble a = .ok text)
    (hb : disassemble b = .error e) : disassemble (a ++ b) = .error (e.shift a.length) := by
  obtain ⟨is, r, hdecodes, hend, -⟩ := disassemble_eq_ok_iff.1 ha
  obtain ⟨js, s, s', hdecodes', hend', he⟩ := disassemble_eq_error_iff.1 hb
  exact disassemble_eq_error_iff.2 ⟨is ++ js, _, _, hdecodes.ofBytes_append hend hdecodes', hend',
    decode_shift_of_error he a.length⟩

/-- The listing of a buffer starts with the header. -/
theorem exists_lines_of_disassemble (ha : disassemble a = .ok text) :
    ∃ rest, text = listingHeader ++ rest := by
  obtain ⟨is, r, -, -, rfl⟩ := disassemble_eq_ok_iff.1 ha
  exact ⟨_, listingOf_eq _⟩

end Disassembly

/-- The bytes are one instruction from the first of them to the last. -/
def Encodes (piece : List UInt8) (i : Instruction) : Prop :=
  decode (.ofBytes piece) = .ok i ⟨piece.length, []⟩

theorem encodes_iff {piece : List UInt8} {i : Instruction} :
    Encodes piece i ↔ i.WellFormed ∧ piece = i.encode := by
  rw [Encodes, decode_eq_ok_iff, Reader.Passes, Reader.ofBytes, List.append_nil, Nat.zero_add]
  refine ⟨fun h => ⟨h.1, h.2.1⟩, ?_⟩
  rintro ⟨hi, rfl⟩
  exact ⟨hi, rfl, rfl⟩

/-- A buffer cut into pieces, each of them an instruction. -/
structure Splitting (bytes : List UInt8) (pieces : List (List UInt8)) : Prop where
  flatten : pieces.flatten = bytes
  encodes : ∀ piece ∈ pieces, ∃ i, Encodes piece i

theorem Decodes.splitting {bytes : List UInt8} {is : List Instruction} {r : Reader}
    (h : Decodes (.ofBytes bytes) is r) (hend : r.isAtEnd = true) :
    Splitting bytes (is.map Instruction.encode) where
  flatten := by rw [← List.flatMap_def, h.flatMap_encode hend]
  encodes := by
    intro piece hpiece
    obtain ⟨i, hi, rfl⟩ := List.mem_map.1 hpiece
    exact ⟨i, encodes_iff.2 ⟨h.wellFormed i hi, rfl⟩⟩

namespace Splitting

variable {bytes : List UInt8} {pieces pieces' : List (List UInt8)}

theorem exists_decodes (h : Splitting bytes pieces) :
    ∃ is r, Decodes (.ofBytes bytes) is r ∧ r.isAtEnd = true ∧
      pieces = is.map Instruction.encode := by
  obtain ⟨rfl, h⟩ := h
  induction pieces with
  | nil => exact ⟨[], _, .nil _, rfl, rfl⟩
  | cons piece pieces ih =>
    obtain ⟨⟨i, hi⟩, hpieces⟩ := List.forall_mem_cons.1 h
    obtain ⟨is, r, hdecodes, hend, hencode⟩ := ih hpieces
    -- the first piece is a buffer that ends with its instruction, and the others stand behind it
    have hfirst : Decodes (.ofBytes piece) [i] ⟨piece.length, []⟩ := .cons hi (.nil _)
    refine ⟨i :: is, _, hfirst.ofBytes_append rfl hdecodes, hend, ?_⟩
    rw [List.map_cons, ← hencode, ← (encodes_iff.1 hi).2]

theorem unique (h : Splitting bytes pieces) (h' : Splitting bytes pieces') : pieces = pieces' := by
  obtain ⟨is, r, hdecodes, hend, rfl⟩ := h.exists_decodes
  obtain ⟨js, s, hdecodes', hend', rfl⟩ := h'.exists_decodes
  rw [hdecodes.unique hend hdecodes' hend']

theorem two_mul_length_le (h : Splitting bytes pieces) : 2 * pieces.length ≤ bytes.length := by
  obtain ⟨is, r, hdecodes, hend, rfl⟩ := h.exists_decodes
  have hlength := length_flatMap_encode is
  rwa [hdecodes.flatMap_encode hend, ← is.length_map Instruction.encode] at hlength

/-- The listing of a buffer has a line for each of its pieces, and no line breaks but theirs and
that of the header. -/
theorem exists_lines (h : Splitting bytes pieces) :
    ∃ lines, disassemble bytes = .ok (listingHeader ++ linesText lines) ∧
      List.Forall₂ (fun piece line => ∃ i, Encodes piece i ∧ line = i.text) pieces lines ∧
      (listingHeader ++ linesText lines).toList.count '\n' = 1 + pieces.length := by
  obtain ⟨is, r, hdecodes, hend, rfl⟩ := h.exists_decodes
  refine ⟨is.map Instruction.text, ?_, ?_, ?_⟩
  · rw [disassemble_of_decodes hdecodes hend, listingOf_eq]
  · rw [List.forall₂_map_left_iff, List.forall₂_map_right_iff, List.forall₂_same]
    exact fun i hi => ⟨i, encodes_iff.2 ⟨hdecodes.wellFormed i hi, rfl⟩, rfl⟩
  · have hbreaks : ∀ line ∈ is.map Instruction.text, '\n' ∉ line.toList := by
      intro line hline
      obtain ⟨i, -, rfl⟩ := List.mem_map.1 hline
      exact i.assembly_text.not_mem rfl
    have hheader : listingHeader.toList.count '\n' = 1 := rfl
    rw [String.toList_append, List.count_append, count_linesText hbreaks, hheader,
      List.length_map, List.length_map]

end Splitting

theorem exists_splitting_iff {bytes : List UInt8} :
    (∃ pieces, Splitting bytes pieces) ↔ ∃ text, disassemble bytes = .ok text := by
  refine ⟨?_, ?_⟩
  · rintro ⟨pieces, h⟩
    obtain ⟨lines, hlines, -⟩ := h.exists_lines
    exact ⟨_, hlines⟩
  · rintro ⟨text, h⟩
    obtain ⟨is, r, hdecodes, hend, -⟩ := disassemble_eq_ok_iff.1 h
    exact ⟨_, hdecodes.splitting hend⟩

/-- Decoding a buffer ends, after half as many instructions as it has bytes at most. -/
theorem disassemble_ends (bytes : List UInt8) :
    ∃ is r, Decodes (.ofBytes bytes) is r ∧ 2 * is.length ≤ bytes.length ∧
      (r.isAtEnd = true ∧ disassemble bytes = .ok (listingOf (is.map Instruction.text)) ∨
        r.isAtEnd = false ∧ ∃ e r', decode r = .error e r' ∧ disassemble bytes = .error e) := by
  obtain ⟨is, r, hdecodes, hend⟩ := exists_decodes (.ofBytes bytes)
  have hlength := congrArg List.length hdecodes.passes.1
  rw [List.length_append] at hlength
  have hcount : 2 * is.length ≤ (Reader.ofBytes bytes).rest.length :=
    hlength ▸ Nat.le_add_right_of_le (length_flatMap_encode is)
  refine ⟨is, r, hdecodes, hcount, ?_⟩
  rcases hend with hend | ⟨hend, e, r', he⟩
  · exact .inl ⟨hend, disassemble_of_decodes hdecodes hend⟩
  · exact .inr ⟨hend, e, r', he, disassemble_of_error hdecodes hend he⟩

/-- Disassembly ends on every buffer. Behind a buffer that can be listed it goes on as if the rest
stood alone: the lines of the rest follow, or its error, with the places in it counted from the
start of both. A buffer can be listed just where it can be cut into instructions; there is one way
to cut it, and the listing has a line for each piece. -/
theorem disassemble_piecewise :
    (∀ bytes, ∃ is r, Decodes (.ofBytes bytes) is r ∧ 2 * is.length ≤ bytes.length ∧
      (r.isAtEnd = true ∧ disassemble bytes = .ok (listingOf (is.map Instruction.text)) ∨
        r.isAtEnd = false ∧ ∃ e r', decode r = .error e r' ∧ disassemble bytes = .error e)) ∧
    (∀ a b text, disassemble a = .ok text →
      ((∃ t, disassemble (a ++ b) = .ok t) ↔ ∃ t, disassemble b = .ok t) ∧
      (∀ t, disassemble b = .ok t →
        ∃ rest, t = listingHeader ++ rest ∧ disassemble (a ++ b) = .ok (text ++ rest)) ∧
      ∀ e, disassemble b = .error e → disassemble (a ++ b) = .error (e.shift a.length)) ∧
    ∀ bytes,
      ((∃ text, disassemble bytes = .ok text) ↔ ∃ pieces, Splitting bytes pieces) ∧
      (∀ pieces pieces', Splitting bytes pieces → Splitting bytes pieces' → pieces = pieces') ∧
      ∀ pieces, Splitting bytes pieces → 2 * pieces.length ≤ bytes.length ∧
        ∃ lines, disassemble bytes = .ok (listingHeader ++ linesText lines) ∧
          List.Forall₂ (fun piece line => ∃ i, Encodes piece i ∧ line = i.text) pieces lines ∧
          (listingHeader ++ linesText lines).toList.count '\n' = 1 + pieces.length := by
  refine ⟨disassemble_ends, fun a b text ha => ?_, fun bytes => ?_⟩
  · have hok : ∀ t, disassemble b = .ok t →
        ∃ rest, t = listingHeader ++ rest ∧ disassemble (a ++ b) = .ok (text ++ rest) := by
      intro t ht
      obtain ⟨rest, rfl⟩ := exists_lines_of_disassemble ht
      exact ⟨rest, rfl, disassemble_append_of_ok ha ht⟩
    refine ⟨⟨fun ⟨t, ht⟩ => ?_, fun ⟨t, ht⟩ => ?_⟩, hok,
      fun e he => disassemble_append_of_error ha he⟩
    · cases hb : disassemble b with
      | ok t => exact ⟨t, rfl⟩
      | error e =>
        rw [disassemble_append_of_error ha hb] at ht
        cases ht
    · obtain ⟨rest, -, hrest⟩ := hok t ht
      exact ⟨_, hrest⟩
  · exact ⟨exists_splitting_iff.symm, fun _ _ h h' => h.unique h',
      fun _ h => ⟨h.two_mul_length_le, h.exists_lines⟩⟩

/-- Behind a move, another one, and the first two bytes of one that has three. -/
theorem disassemble_piecewise_mov :
    let mov : List UInt8 := [0x89, 0xd9]
    let short : List UInt8 := [0xb8, 0x01]
    (∃ text, disassemble mov = .ok text) ∧ disassemble short = .error (.outOfBounds ⟨1, 2, 2⟩) ∧
      disassemble (mov ++ short) = .error (.outOfBounds ⟨3, 2, 4⟩) ∧
      Splitting (mov ++ mov) [mov, mov] ∧
      ∀ pieces, Splitting (mov ++ mov) pieces → pieces = [mov, mov] := by
  intro mov short
  obtain ⟨-, happend, hcut⟩ := disassemble_piecewise
  obtain ⟨i, hmov⟩ : ∃ i, Encodes mov i := ⟨_, rfl⟩
  obtain ⟨text, htext⟩ : ∃ text, disassemble mov = .ok text :=
    ⟨_, disassemble_of_decodes (.cons hmov (.nil _)) rfl⟩
  have hshort : disassemble short = .error (.outOfBounds ⟨1, 2, 2⟩) :=
    disassemble_of_error (.nil _) rfl rfl
  have hboth : Splitting (mov ++ mov) [mov, mov] := by
    refine ⟨rfl, fun piece hpiece => ⟨i, ?_⟩⟩
    rcases List.mem_pair.1 hpiece with rfl | rfl <;> exact hmov
  exact ⟨⟨text, htext⟩, hshort, (happend mov short text htext).2.2 _ hshort, hboth,
    fun pieces h => (hcut _).2.1 _ _ h hboth⟩

end Machine86
