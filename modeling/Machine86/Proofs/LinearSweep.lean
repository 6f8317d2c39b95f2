import Machine86.Proofs.Steps

/-!
# Listing a program is disassembling it

A run that does not execute passes over the program from its start to its end, as the disassembler
does with the same bytes in a buffer. The two agree on every program that fits the address space
(`run_iff_disassemble`).
-/

namespace Machine86

/-- The instructions are decoded one after the other, from the first reader to the second. -/
inductive Decodes : Reader → List Instruction → Reader → Prop
  | nil (r : Reader) : Decodes r [] r
  | cons {r r' r'' : Reader} {i : Instruction} {is : List Instruction}
    (h : decode r = .ok i r') (hs : Decodes r' is r'') : Decodes r (i :: is) r''

section Disassembly

variable {r r' : Reader} {i : Instruction} {is : List Instruction}

theorem isAtEnd_of_decode (h : decode r = .ok i r') : r.isAtEnd = false := by
  have hshort := decode_shorter h
  cases hr : r.rest with
  | nil => simp [hr] at hshort
  | cons b rest => simp [Reader.isAtEnd, hr]

theorem decodeAll_of_isAtEnd (h : r.isAtEnd = true) (done : Array Instruction) :
    decodeAll r done = .ok done := by
  rw [decodeAll, if_pos h]

theorem decodeAll_of_ok (h : decode r = .ok i r') (done : Array Instruction) :
    decodeAll r done = decodeAll r' (done.push i) := by
  rw [decodeAll, if_neg (by simp [isAtEnd_of_decode h])]
  split
  · rename_i j s hj
    rw [h] at hj
    cases hj
    rfl
  · rename_i e s he
    rw [h] at he
    cases he

theorem decodeAll_of_error {e : DecodeError} (hr : r.isAtEnd = false) (h : decode r = .error e r')
    (done : Array Instruction) : decodeAll r done = .error e := by
  rw [decodeAll, if_neg (by simp [hr])]
  split
  · rename_i j s hj
    rw [h] at hj
    cases hj
  · rename_i e' s he
    rw [h] at he
    cases he
    rfl

theorem Decodes.decodeAll (h : Decodes r is r') (done : Array Instruction) :
    decodeAll r done = Machine86.decodeAll r' (done ++ is.toArray) := by
  induction h generalizing done with
  | nil => simp
  | cons h _ ih =>
    rw [decodeAll_of_ok h, ih]
    simp

theorem Decodes.passes (h : Decodes r is r') : r.Passes (is.flatMap Instruction.encode) r' := by
  induction h with
  | nil r => exact Reader.passes_nil_iff.2 rfl
  | cons h _ ih => exact Reader.passes_append_iff.2 ⟨_, (decode_eq_ok_iff.1 h).2, ih⟩

theorem length_flatMap_encode (is : List Instruction) :
    2 * is.length ≤ (is.flatMap Instruction.encode).length := by
  induction is with
  | nil => simp
  | cons i is ih =>
    have h := i.length_encode
    rw [List.flatMap_cons, List.length_append, List.length_cons]
    omega

/-- Decoding goes on up to the end or up to an error. -/
theorem exists_decodes (r : Reader) : ∃ is r', Decodes r is r' ∧
    (r'.isAtEnd = true ∨ r'.isAtEnd = false ∧ ∃ e r'', decode r' = .error e r'') := by
  induction hn : r.rest.length using Nat.strong_induction_on generalizing r with
  | _ n ih =>
    by_cases hr : r.isAtEnd = true
    · exact ⟨[], r, .nil r, .inl hr⟩
    rw [Bool.not_eq_true] at hr
    cases hd : decode r with
    | ok i r' =>
      obtain ⟨is, r'', hs, hend⟩ := ih _ (hn ▸ decode_shorter hd) r' rfl
      exact ⟨i :: is, r'', .cons hd hs, hend⟩
    | error e r' => exact ⟨[], r, .nil r, .inr ⟨hr, e, r', hd⟩⟩

end Disassembly

/-- The steps lie side by side from the address `start` on, and their bytes are `bytes`. -/
structure Tiling (start : Nat) (steps : List Step) (bytes : List UInt8) : Prop where
  first : ∀ s ∈ steps.head?, s.offset.toNat = start
  next : steps.IsChain fun s t => t.offset.toNat = s.offset.toNat + s.bytes.length
  bytes_eq : steps.flatMap Step.bytes = bytes

theorem Tiling.cons {s : Step} {steps : List Step} {bytes : List UInt8}
    (h : Tiling (s.offset.toNat + s.bytes.length) steps bytes) :
    Tiling s.offset.toNat (s :: steps) (s.bytes ++ bytes) where
  first := by simp
  next := List.isChain_cons.2 ⟨h.first, h.next⟩
  bytes_eq := by rw [List.flatMap_cons, h.bytes_eq]

namespace Machine

/-- The number of bytes behind the pointer, all of them where it wrapped around. -/
def place (m : Machine) : Nat := if m.wrapped then addressSpace else m.ip.toNat

theorem place_of_not_isDone {m : Machine} (h : m.isDone = false) : m.place = m.ip.toNat := by
  rw [place, wrapped_of_not_isDone h]
  rfl

namespace Loaded

variable {program : List UInt8} {m : Machine}

theorem isDone_iff_place (h : m.Loaded program) : m.isDone = true ↔ program.length ≤ m.place := by
  simp only [isDone, h.programSize, place, Bool.or_eq_true, decide_eq_true_eq]
  split_ifs with hw
  · simp [hw, h.wrapped hw]
  · simp [hw]

theorem place_advance (h : m.Loaded program) {f : Fetched} (hf : m.fetch = .ok (some f)) :
    (m.advance f.size).place = m.place + f.bytes.length := by
  obtain ⟨hw, hip⟩ := h.isDone_eq_false_iff.1 (fetch_eq_some_iff.1 hf).1
  have hinside := (h.of_fetch hf).2
  have hle := h.length_le
  simp only [place, Machine.advance, hw, Bool.false_or, decide_eq_true_eq, toNat_size hf,
    UInt16.toNat_add, addressSpace] at *
  simp only [Bool.false_eq_true, ↓reduceIte]
  split_ifs <;> omega

/-- A machine that does not execute takes the instructions that are decoded from the program, one
after the other. -/
theorem takes_of_decodes (hm : m.Loaded program) {r r' : Reader} {is : List Instruction}
    (h : Decodes r is r') (hr : r.rest = program.drop r.position) (hplace : m.place = r.position) :
    ∃ steps m', m.Takes false steps m' ∧ m'.place = r'.position ∧
      r'.rest = program.drop r'.position ∧ steps.map Step.text = is.map Instruction.text ∧
      Tiling r.position steps (is.flatMap Instruction.encode) := by
  induction h generalizing m with
  | nil r => exact ⟨[], m, .nil m, hplace, hr, rfl, ⟨by simp, by simp, rfl⟩⟩
  | @cons r r' r'' i is h _ ih =>
    obtain ⟨hi, hrest, hposition⟩ := decode_eq_ok_iff.1 h
    have hd : m.isDone = false := by
      have hlen := decode_shorter h
      rw [hr, List.length_drop] at hlen
      rw [← Bool.not_eq_true, hm.isDone_iff_place, hplace]
      omega
    have hip := place_of_not_isDone hd
    have hf : m.fetch = .ok (some ⟨m.ip, i.encode, i⟩) := by
      refine fetch_eq_some_iff.2 ⟨hd, hi, rfl, ?_, rfl⟩
      rw [hm.code_eq, ← hip, hplace, ← hr, hrest]
      exact List.prefix_append _ _
    have hr' : r'.rest = program.drop r'.position := by
      rw [hposition, ← List.drop_drop, ← hr, hrest, List.drop_left]
    obtain ⟨steps, m', hs, hplace', hr'', htext, htile⟩ := ih (hm.advance hf) hr'
      (by rw [hm.place_advance hf, hplace, hposition])
    refine ⟨_, m', .cons (take_eq_some_iff.2 ⟨_, hf, rfl, rfl⟩) hs, hplace', hr'', ?_, ?_⟩
    · simp [htext, Step.ofFetched]
    · rw [← hplace, hip]
      refine Tiling.cons (s := .ofFetched ⟨m.ip, i.encode, i⟩ none) ?_
      simp only [Step.ofFetched]
      rw [← hip, hplace, ← hposition]
      exact htile

end Loaded

end Machine

section Listing

variable {program : List UInt8} {config : Config} {is : List Instruction} {r : Reader}

theorem disassemble_of_decodes (h : Decodes (.ofBytes program) is r) (hend : r.isAtEnd = true) :
    disassemble program = .ok (listingOf (is.map Instruction.text)) := by
  rw [disassemble, h.decodeAll, decodeAll_of_isAtEnd hend]
  simp

theorem disassemble_of_error (h : Decodes (.ofBytes program) is r) (hend : r.isAtEnd = false)
    {e : DecodeError} {r' : Reader} (he : decode r = .error e r') :
    disassemble program = .error e := by
  rw [disassemble, h.decodeAll, decodeAll_of_error hend he]

theorem run_of_decodes (hlen : program.length ≤ addressSpace) (hexecute : config.execute = false)
    (h : Decodes (.ofBytes program) is r) (hend : r.isAtEnd = true)
    (hsteps : is.length ≤ config.maxSteps) :
    ∃ steps, run program config = .ok ⟨steps, none⟩ ∧
      steps.map Step.text = is.map Instruction.text ∧ Tiling 0 steps program := by
  obtain ⟨m, hload, hip, hwrapped, -, -⟩ := Machine.exists_load hlen defaultMinMemory
  have hm := Machine.loaded_of_load hload
  obtain ⟨steps, m', htakes, hplace, hr, htext, htile⟩ :=
    hm.takes_of_decodes h rfl (by simp [Machine.place, hip, hwrapped, Reader.ofBytes])
  have hrest : r.rest = [] := List.isEmpty_iff.1 hend
  have hdone : m'.isDone = true := by
    rw [(htakes.loaded hm).isDone_iff_place, hplace, ← List.drop_eq_nil_iff, ← hr, hrest]
  have hcount : steps.length = is.length := by simpa using congrArg List.length htext
  obtain ⟨left, hleft⟩ := Nat.exists_eq_add_of_le (hcount ▸ hsteps)
  rw [← hexecute] at htakes
  have hfinish := Run.finishFrom_of_takes htakes left #[]
  rw [← hleft, Run.finishFrom_of_isDone hdone] at hfinish
  have hbytes := h.passes.1
  rw [hrest, List.append_nil] at hbytes
  refine ⟨steps, ?_, htext, ?_⟩
  · simp [run_of_load hload, hfinish, Progress.listing, hexecute]
  · simpa [Reader.ofBytes, ← hbytes] using htile

theorem run_of_decodes_error (hlen : program.length ≤ addressSpace)
    (hexecute : config.execute = false) (h : Decodes (.ofBytes program) is r)
    (hend : r.isAtEnd = false) {e : DecodeError} {r' : Reader} (he : decode r = .error e r')
    (hsteps : is.length < config.maxSteps) :
    ∃ ip source, run program config = .error (.trap (.decode ip source)) ∧
      e = source.shift ip.toNat ∧ r.position = ip.toNat := by
  obtain ⟨m, hload, hip, hwrapped, -, -⟩ := Machine.exists_load hlen defaultMinMemory
  have hm := Machine.loaded_of_load hload
  obtain ⟨steps, m', htakes, hplace, hr, htext, -⟩ :=
    hm.takes_of_decodes h rfl (by simp [Machine.place, hip, hwrapped, Reader.ofBytes])
  have hm' := htakes.loaded hm
  have hdone : m'.isDone = false := by
    rw [← Bool.not_eq_true, hm'.isDone_iff_place, hplace, ← List.drop_eq_nil_iff, ← hr]
    simpa [Reader.isAtEnd] using hend
  have hposition : r.position = m'.ip.toNat := by
    rw [← hplace, Machine.place_of_not_isDone hdone]
  have hshift : r = (Reader.ofBytes m'.code).shift m'.ip.toNat := by
    rw [hm'.code_eq, ← hposition, ← hr]
    simp [Reader.shift, Reader.ofBytes]
  rw [hshift, decode_shift] at he
  cases hd : decode (.ofBytes m'.code) with
  | ok i s => simp [hd, Reading.mapOutcome] at he
  | error source s =>
    simp only [hd, Reading.mapOutcome, EStateM.Result.error.injEq] at he
    have htrap := Machine.take_of_fetch_error
      (Machine.fetch_eq_error_iff.2 ⟨hdone, source, s, hd, rfl⟩) config.execute
    have hcount : steps.length = is.length := by simpa using congrArg List.length htext
    obtain ⟨left, hleft⟩ := Nat.exists_eq_add_of_lt (hcount ▸ hsteps)
    rw [← hexecute] at htakes
    have hfinish := Run.finishFrom_of_takes htakes (left + 1) #[]
    rw [← Nat.add_assoc, ← hleft, Run.finishFrom_of_trap htrap] at hfinish
    exact ⟨m'.ip, source, by simp [run_of_load hload, hfinish], he.1.symm, hposition⟩

end Listing

/-- A program is listed without execution if and only if it can be disassembled, and the listing is
the disassembly. Where the disassembly fails, the run stops at the same instruction and by the same
error, with the places in it counted from that instruction. -/
theorem run_iff_disassemble {program : List UInt8} {config : Config}
    (hlen : program.length ≤ addressSpace) (hexecute : config.execute = false)
    (hsteps : (program.length + 1) / 2 ≤ config.maxSteps) :
    ((∃ l, run program config = .ok l) ↔ ∃ text, disassemble program = .ok text) ∧
    (∀ l, run program config = .ok l →
      disassemble program = .ok l.asmText ∧ l.finalState = none ∧ Tiling 0 l.steps program) ∧
    ∀ e, disassemble program = .error e →
      ∃ ip source, run program config = .error (.trap (.decode ip source)) ∧
        e = source.shift ip.toNat ∧
        ∃ is r r', Decodes (.ofBytes program) is r ∧ r.position = ip.toNat ∧
          decode r = .error e r' := by
  obtain ⟨is, r, hdecodes, hend⟩ := exists_decodes (.ofBytes program)
  have hlength := congrArg List.length hdecodes.passes.1
  rw [List.length_append] at hlength
  change program.length = _ at hlength
  have hcount := length_flatMap_encode is
  rcases hend with hend | ⟨hend, e, r', he⟩
  · have hdis := disassemble_of_decodes hdecodes hend
    obtain ⟨steps, hrun, htext, htile⟩ := run_of_decodes hlen hexecute hdecodes hend (by omega)
    refine ⟨⟨fun _ => ⟨_, hdis⟩, fun _ => ⟨_, hrun⟩⟩, fun l hl => ?_, fun e he => ?_⟩
    · rw [hrun] at hl
      cases hl
      exact ⟨by rw [hdis, Listing.asmText, htext], rfl, htile⟩
    · rw [hdis] at he
      cases he
  · have hdis := disassemble_of_error hdecodes hend he
    have hrest : 0 < r.rest.length := by
      simpa [Reader.isAtEnd, List.length_pos_iff] using hend
    obtain ⟨ip, source, hrun, hshift, hip⟩ :=
      run_of_decodes_error hlen hexecute hdecodes hend he (by omega)
    refine ⟨⟨fun ⟨l, hl⟩ => ?_, fun ⟨text, htext⟩ => ?_⟩, fun l hl => ?_, fun e' he' => ?_⟩
    · rw [hrun] at hl
      cases hl
    · rw [hdis] at htext
      cases htext
    · rw [hrun] at hl
      cases hl
    · rw [hdis] at he'
      cases he'
      exact ⟨ip, source, hrun, hshift, is, r, r', hdecodes, hip, he⟩

/-- A move and the first two bytes of one that has three. -/
theorem run_iff_disassemble_truncated :
    let program : List UInt8 := [0x89, 0xd9, 0xb8, 0x01]
    let config : Config := { maxSteps := 2 }
    program.length ≤ addressSpace ∧ config.execute = false ∧
      (program.length + 1) / 2 ≤ config.maxSteps ∧
      disassemble program = .error (.outOfBounds ⟨3, 2, 4⟩) ∧
      ∃ ip source, run program config = .error (.trap (.decode ip source)) ∧
        .outOfBounds ⟨3, 2, 4⟩ = source.shift ip.toNat ∧
        ∃ is r r', Decodes (.ofBytes program) is r ∧ r.position = ip.toNat ∧
          decode r = .error (.outOfBounds ⟨3, 2, 4⟩) r' := by
  intro program config
  have hmov : decode (.ofBytes program) = .ok
      (.mov { form := .regMem, toReg := false, wide := true,
              modRm := { mode := 3, reg := 3, rm := 1, disp := 0 }, data := 0 })
      ⟨2, [0xb8, 0x01]⟩ := rfl
  have hdis : disassemble program = .error (.outOfBounds ⟨3, 2, 4⟩) :=
    disassemble_of_error (.cons hmov (.nil _)) rfl rfl
  have hlen : program.length ≤ addressSpace := by decide
  exact ⟨hlen, rfl, by decide, hdis, (run_iff_disassemble hlen rfl (by decide)).2.2 _ hdis⟩

end Machine86
