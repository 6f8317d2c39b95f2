import Machine86.Command.Basic
import Machine86.Proofs.LinearSweep
import Machine86.Proofs.Replay

/-!
# What a check assembles

A check hands the text of the run's listing to the assembler and compares the code that comes back
with the program. Without execution that listing is the disassembly of the program. With execution
it has the instructions in the order in which they were performed, some of them again and others
not at all, and it is the disassembly just where the run keeps to the straight line through the
program (`checked_listing`).
-/

namespace Machine86

/-- The pointer goes on behind the instruction, where that was performed. -/
def Step.GoesOn (s : Step) : Prop := ∀ t ∈ s.trace, t.ip.2 = s.offset + .ofNat s.bytes.length

/-- A step leaves the straight line through a program of this length at most where it is the last
one and its instruction ends the program. -/
structure StraightLine (length : Nat) (steps : List Step) : Prop where
  goesOn : ∀ s ∈ steps.dropLast, s.GoesOn
  last : ∀ s ∈ steps.getLast?, s.offset.toNat + s.bytes.length < length → s.GoesOn

section StraightLine

variable {length : Nat} {s : Step} {steps : List Step}

theorem straightLine_of_forall (h : ∀ s ∈ steps, s.GoesOn) : StraightLine length steps where
  goesOn s hs := h s (List.dropLast_subset steps hs)
  last s hs _ := h s (List.mem_of_getLast? hs)

theorem straightLine_cons_iff : StraightLine length (s :: steps) ↔
    (s.GoesOn ∨ steps = [] ∧ length ≤ s.offset.toNat + s.bytes.length) ∧
      StraightLine length steps := by
  cases steps with
  | nil =>
    refine ⟨fun h => ⟨?_, by simp, by simp⟩, fun h => ⟨by simp, fun s' hs' hlt => ?_⟩⟩
    · by_cases hend : s.offset.toNat + s.bytes.length < length
      · exact .inl (h.last s rfl hend)
      · exact .inr ⟨rfl, Nat.le_of_not_lt hend⟩
    · cases hs'
      exact h.1.resolve_right fun hend => Nat.not_lt_of_le hend.2 hlt
  | cons s' steps =>
    refine ⟨fun h => ⟨.inl (h.goesOn s (by simp)), ?_, ?_⟩, fun ⟨hs, h⟩ => ⟨?_, ?_⟩⟩
    · exact fun t ht => h.goesOn t (by simp [ht])
    · exact fun t ht => h.last t (by simpa using ht)
    · intro t ht
      rw [List.dropLast_cons_cons, List.mem_cons] at ht
      rcases ht with rfl | ht
      · exact hs.resolve_right (by simp)
      · exact h.goesOn t ht
    · exact fun t ht => h.last t (by simpa using ht)

end StraightLine

namespace Machine

variable {program : List UInt8} {execute : Bool} {m m' : Machine} {s : Step} {steps : List Step}

theorem place_of_load {minMemory : Nat} (h : load program minMemory = .ok m) : m.place = 0 := by
  obtain ⟨memory, -, rfl⟩ := load_eq_ok_iff.1 h
  rfl

/-- The trace of a step ends with the pointer of the machine after it. -/
theorem trace_ip_of_take (h : take execute m = .ok (some s) m') :
    ∀ t ∈ s.trace, t.ip.2 = m'.ip := by
  intro t ht
  obtain ⟨f, -, h⟩ := take_eq_some_iff.1 h
  split_ifs at h
  · rw [h.2] at ht
    cases ht
    rfl
  · rw [h.2] at ht
    cases ht

/-- The machine with other registers and flags. -/
def withValues (regs : Vector UInt16 8) (flags : Flags) (m : Machine) : Machine :=
  { m with regs, flags }

theorem place_withValues (regs : Vector UInt16 8) (flags : Flags) :
    (m.withValues regs flags).place = m.place := rfl

/-- A step that goes on behind its instruction changes registers and flags besides. -/
theorem eq_advance_of_goesOn {f : Fetched} (hf : m.fetch = .ok (some f))
    (ht : take true m = .ok (some s) m') (hs : s.GoesOn) :
    m' = (m.advance f.size).withValues m'.regs m'.flags := by
  obtain ⟨-, -, -, -, hoffset⟩ := fetch_eq_some_iff.1 hf
  obtain ⟨g, hg, hperform, rfl⟩ := take_eq_some_iff.1 ht
  rw [hf] at hg
  cases hg
  have hip : m'.ip = (m.advance f.size).ip := by
    have hnext : m'.ip = f.offset + .ofNat f.bytes.length := hs _ rfl
    rw [hnext, hoffset]
    rfl
  rw [eq_of_perform? hperform, hip]
  rfl

namespace Loaded

theorem withValues (hm : m.Loaded program) (regs : Vector UInt16 8) (flags : Flags) :
    (m.withValues regs flags).Loaded program :=
  ⟨hm.memory, hm.programSize, hm.wrapped⟩

theorem place_of_goesOn (hm : m.Loaded program) (h : Machine.take execute m = .ok (some s) m')
    (hs : s.GoesOn) : m'.place = m.place + s.bytes.length := by
  obtain ⟨f, hf, ht⟩ := take_eq_some_iff.1 h
  have hplace := hm.place_advance hf
  cases execute with
  | true =>
    rw [eq_advance_of_goesOn hf h hs, place_withValues, hplace, ht.2]
    rfl
  | false =>
    rw [ht.1, hplace, ht.2]
    rfl

/-- A step is at the instruction that is decoded from the program at its place. -/
theorem decode_of_take (hm : m.Loaded program) (h : Machine.take execute m = .ok (some s) m') :
    ∃ i, s.text = i.text ∧ s.offset.toNat = m.place ∧
      s.bytes ++ program.drop (m.place + s.bytes.length) = program.drop m.place ∧
      decode ⟨m.place, program.drop m.place⟩ =
        .ok i ⟨m.place + s.bytes.length, program.drop (m.place + s.bytes.length)⟩ := by
  obtain ⟨f, trace, hf, rfl⟩ := exists_fetched_of_take h
  obtain ⟨hdone, hi, hencode, -, -⟩ := fetch_eq_some_iff.1 hf
  have hplace := place_of_not_isDone hdone
  obtain ⟨rest, hrest⟩ := (hm.of_fetch hf).1
  rw [← hplace] at hrest
  have hdrop : program.drop (m.place + f.bytes.length) = rest := by
    rw [← List.drop_drop, ← hrest, List.drop_left]
  refine ⟨f.instruction, rfl, by rw [offset_of_take h, hplace], ?_, ?_⟩
  · rw [Step.ofFetched, hdrop, hrest]
  · rw [Step.ofFetched, hdrop, ← hrest, hencode]
    exact decode_encode hi _ _

/-- A run that keeps to the straight line passes over the program as the disassembler does. -/
theorem decodes_of_straightLine (hm : m.Loaded program) (h : m.Takes execute steps m')
    (hdone : m'.isDone = true) (hline : StraightLine program.length steps) :
    ∃ is r, Decodes ⟨m.place, program.drop m.place⟩ is r ∧ r.isAtEnd = true ∧
      steps.map Step.text = is.map Instruction.text ∧
      Tiling m.place steps (program.drop m.place) := by
  induction h with
  | nil m =>
    have hend : program.drop m.place = [] := List.drop_eq_nil_iff.2 (hm.isDone_iff_place.1 hdone)
    refine ⟨[], _, .nil _, ?_, rfl, ?_⟩
    · rw [Reader.isAtEnd, hend]
      rfl
    · rw [hend]
      exact ⟨by simp, by simp, rfl⟩
  | @cons m m₁ m' s steps ht hs ih =>
    obtain ⟨hgoes, hline⟩ := straightLine_cons_iff.1 hline
    obtain ⟨i, htext, hoffset, hbytes, hdecode⟩ := hm.decode_of_take ht
    -- The rest of the run passes over what stands behind this instruction.
    have hrest : ∃ is r, Decodes ⟨m.place + s.bytes.length,
          program.drop (m.place + s.bytes.length)⟩ is r ∧ r.isAtEnd = true ∧
        steps.map Step.text = is.map Instruction.text ∧
        Tiling (m.place + s.bytes.length) steps
          (program.drop (m.place + s.bytes.length)) := by
      rcases hgoes with hgoes | ⟨rfl, hend⟩
      · rw [← hm.place_of_goesOn ht hgoes]
        exact ih (hm.take ht) hdone hline
      · rw [hoffset] at hend
        rw [List.drop_eq_nil_iff.2 hend]
        exact ⟨[], _, .nil _, rfl, rfl, by simp, by simp, rfl⟩
    obtain ⟨is, r, hdecodes, hend, htexts, htiling⟩ := hrest
    refine ⟨i :: is, r, .cons hdecode hdecodes, hend, by simp [htext, htexts], ?_⟩
    rw [← hoffset] at htiling ⊢
    rw [hoffset, ← hbytes, ← hoffset]
    exact htiling.cons

end Loaded

/-- Where the steps of a run lie side by side up to the end of the program, the run kept to the
straight line. -/
theorem Takes.straightLine_of_tiling {start length : Nat} {bytes : List UInt8}
    (h : m.Takes execute steps m') (htiling : Tiling start steps bytes)
    (hlength : start + bytes.length = length) : StraightLine length steps := by
  induction h generalizing start bytes with
  | nil => exact straightLine_of_forall (by simp)
  | @cons m m₁ m' s steps ht hs ih =>
    have hstart : s.offset.toNat = start := htiling.first s rfl
    obtain ⟨hnext, hchain⟩ := List.isChain_cons.1 htiling.next
    have hbytes := congrArg List.length htiling.bytes_eq
    rw [List.flatMap_cons, List.length_append] at hbytes
    refine straightLine_cons_iff.2 ⟨?_, ih ⟨hnext, hchain, rfl⟩ (by omega)⟩
    cases hsteps : steps.head? with
    | none =>
      rw [List.head?_eq_none_iff] at hsteps
      subst hsteps
      refine .inr ⟨rfl, ?_⟩
      rw [List.flatMap_nil, List.length_nil] at hbytes
      omega
    | some s' =>
      refine .inl fun t htrace => UInt16.toNat.inj ?_
      have hlt := s'.offset.toNat_lt
      have hoffset := hnext s' hsteps
      rw [trace_ip_of_take ht t htrace, ← hs.offset_of_head s' hsteps, hoffset, UInt16.toNat_add,
        UInt16.toNat_ofNat']
      omega

theorem Takes.straightLine_of_not_execute {length : Nat} (h : m.Takes false steps m') :
    StraightLine length steps := by
  refine straightLine_of_forall ?_
  induction h with
  | nil => simp
  | cons ht _ ih =>
    obtain ⟨f, -, -, rfl⟩ := take_eq_some_iff.1 ht
    refine List.forall_mem_cons.2 ⟨fun t htrace => ?_, ih⟩
    cases htrace

end Machine

/-- What the command makes of an attempt to verify. -/
def Check.ofResult : Except CheckError Verification → Check
  | .ok v => .finished v
  | .error e => .failed e.chain

theorem Options.check_eq {o : Options} {p : Progress} (hcheck : o.config.check = true)
    (htrap : p.trap = none) (program : List UInt8) {m : Type → Type} [Monad m] [LawfulMonad m]
    [Host m] : (o.check program p : m Check) = Check.ofResult <$>
      verifyListing o.input program (p.listing o.config).asmText o.checkDir := by
  rw [Options.check, hcheck, htrap, ← bind_pure_comp]
  refine bind_congr fun result => ?_
  cases result <;> rfl

/-- A move and a branch to the instruction behind it, that is to the end of the program. -/
def branchOn : List UInt8 := [0x89, 0xd9, 0x75, 0x00]

theorem takes_branchOn :
    ∃ m₀ s s' m, Machine.load branchOn defaultMinMemory = .ok m₀ ∧ m₀.Takes true [s, s'] m ∧
      m.isDone = true ∧ ∀ step ∈ [s, s'], step.GoesOn := by
  obtain ⟨memory, hmemory⟩ : ∃ memory, Memory.ofProgram branchOn defaultMinMemory = .ok memory :=
    ⟨_, rfl⟩
  let state (regs : Vector UInt16 8) (ip : UInt16) : Machine :=
    ⟨regs, {}, ip, memory, 4, false, defaultMinMemory⟩
  have hload : Machine.load branchOn defaultMinMemory = .ok (state (Vector.replicate 8 0) 0) :=
    Machine.load_eq_ok_iff.2 ⟨memory, hmemory, rfl⟩
  have hm := Machine.loaded_of_load hload
  obtain ⟨regs, hregs⟩ : ∃ regs, (state (Vector.replicate 8 0) 2).perform?
      (.mov (.register .cx) (.operand (.register .bx)) true) = some (state regs 2) := ⟨_, rfl⟩
  have hmov : Machine.take true (state (Vector.replicate 8 0) 0) = .ok _ (state regs 2) :=
    hm.take_of_decode rfl rfl hregs
  have hbranch : (state regs 4).perform? (Jump.operation ⟨0x75, 0⟩) = some (state regs 4) := by
    have hzero : ({} : Flags).zero = false := rfl
    rw [Jump.perform?_operation, if_pos (.inr ⟨rfl, hzero⟩)]
    rfl
  have hjump : Machine.take true (state regs 2) = .ok _ (state regs 4) :=
    (hm.take hmov).take_of_decode rfl rfl hbranch
  refine ⟨_, _, _, _, hload, .cons hmov (.cons hjump (.nil _)), rfl, ?_⟩
  simp only [List.forall_mem_cons]
  refine ⟨?_, ?_, by simp⟩
  · rintro t ⟨⟩
    rfl
  · rintro t ⟨⟩
    rfl

/-- The command with the two switches on the file `p.bin`. -/
def execAndCheck : Options where
  input := "p.bin"
  config := { execute := true, check := true }
  skip := 0
  len := none
  format := .text
  out := none
  checkDir := "."

/-- A check hands on the listing of the run. That listing covers the program just where the run
keeps to the straight line, as a run without execution always does, and then it is the disassembly
of the program. -/
theorem checked_listing {o : Options} {program : List UInt8} {r : Run}
    (hstart : Run.start program o.config defaultMinMemory = .ok r)
    (hcheck : o.config.check = true) (htrap : r.finish.trap = none) :
    let l := r.finish.listing o.config
    (∀ (m : Type → Type) [Monad m] [LawfulMonad m] [Host m],
      (o.check program r.finish : m Check) =
        Check.ofResult <$> verifyListing o.input program l.asmText o.checkDir) ∧
    (Tiling 0 l.steps program ↔ StraightLine program.length l.steps) ∧
    (o.config.execute = false ∨ StraightLine program.length l.steps →
      l.steps.flatMap Step.bytes = program ∧ disassemble program = .ok l.asmText) := by
  intro l
  obtain ⟨m₀, hload, rfl⟩ := Run.start_eq_ok_iff.1 hstart
  obtain ⟨htakes, hdone, -⟩ := Run.takes_of_finishFrom htrap
  have hplace := Machine.place_of_load hload
  have hdecodes := fun hline =>
    (Machine.loaded_of_load hload).decodes_of_straightLine htakes hdone hline
  rw [hplace, List.drop_zero] at hdecodes
  refine ⟨fun m => Options.check_eq hcheck htrap program, ⟨fun htiling => ?_, fun hline => ?_⟩,
    fun hline => ?_⟩
  · exact htakes.straightLine_of_tiling htiling (Nat.zero_add _)
  · obtain ⟨-, -, -, -, -, htiling⟩ := hdecodes hline
    exact htiling
  · have hline : StraightLine program.length l.steps := by
      rcases hline with hexecute | hline
      · rw [hexecute] at htakes
        exact htakes.straightLine_of_not_execute
      · exact hline
    obtain ⟨is, r, hdecodes, hend, htexts, htiling⟩ := hdecodes hline
    refine ⟨htiling.bytes_eq, ?_⟩
    rw [disassemble_of_decodes hdecodes hend, ← htexts]
    rfl

/-- The check of the program with a move and a branch to its end. -/
theorem checked_listing_branch_on :
    let program : List UInt8 := [0x89, 0xd9, 0x75, 0x00]
    let o := execAndCheck
    ∃ r, Run.start program o.config defaultMinMemory = .ok r ∧ o.config.check = true ∧
      r.finish.trap = none ∧ o.config.execute = true ∧
      (r.finish.listing o.config).steps.flatMap Step.bytes = program ∧
      disassemble program = .ok (r.finish.listing o.config).asmText := by
  intro program o
  obtain ⟨m₀, s, s', m, hload, htakes, hdone, hline⟩ := takes_branchOn
  have hstart : Run.start program o.config defaultMinMemory = .ok ⟨m₀, o.config, 1000000⟩ :=
    Run.start_eq_ok_iff.2 ⟨m₀, hload, rfl⟩
  have hfinish : (⟨m₀, o.config, 1000000⟩ : Run).finish = ⟨[s, s'], m, none⟩ :=
    Run.finish_eq_iff.2 ⟨htakes, hdone, by simp⟩
  have htrap : (⟨m₀, o.config, 1000000⟩ : Run).finish.trap = none := by rw [hfinish]
  obtain ⟨-, -, hcovers⟩ := checked_listing hstart rfl htrap
  refine ⟨_, hstart, rfl, htrap, rfl, hcovers (.inr (straightLine_of_forall ?_))⟩
  rw [hfinish]
  exact hline

/-- A check with execution hands on a listing without the instruction that a branch skips. -/
theorem checked_listing_branchOver :
    let o := execAndCheck
    ∃ r, Run.start branchOver o.config defaultMinMemory = .ok r ∧ o.config.check = true ∧
      r.finish.trap = none ∧
      (r.finish.listing o.config).steps.flatMap Step.bytes = [0x75, 0x02, 0x29, 0xc0] ∧
      (r.finish.listing o.config).steps.flatMap Step.bytes ≠ branchOver := by
  intro o
  obtain ⟨m₀, s, s', m, hload, htakes, hdone, -, -, hs, -, hs'⟩ := takes_branchOver
  have hfinish : (⟨m₀, o.config, 1000000⟩ : Run).finish = ⟨[s, s'], m, none⟩ :=
    Run.finish_eq_iff.2 ⟨htakes, hdone, by simp⟩
  refine ⟨⟨m₀, o.config, 1000000⟩, Run.start_eq_ok_iff.2 ⟨m₀, hload, rfl⟩, rfl, ?_⟩
  have hbytes : [s, s'].flatMap Step.bytes = [0x75, 0x02, 0x29, 0xc0] := by simp [hs, hs']
  rw [hfinish]
  refine ⟨rfl, hbytes, ?_⟩
  rw [Progress.listing, hbytes]
  decide

end Machine86
