import Machine86.Proofs.Steps

/-!
# What holds of every machine that can be reached

A call takes the next instruction, executed or passed over, and may end in a trap; the machine that
it leaves can be called again. A call either passes an instruction that was fetched or changes
nothing (`Machine.after_cases`). So whatever the calls were, the memory is the one that was loaded,
and the pointer has wrapped around just where one of them passed the last byte of the address space
(`reachable_machine`).
-/

namespace Machine86

/-- What a computation brings, and the state that it leaves in either case. -/
def outcome {ε σ α : Type} : EStateM.Result ε σ α → Except ε α × σ
  | .ok a s => (.ok a, s)
  | .error e s => (.error e, s)

theorem outcome_map {ε σ α β : Type} (x : EStateM ε σ α) (f : α → β) {s : σ} :
    (outcome ((f <$> x) s)).2 = (outcome (x s)).2 := by
  simp only [Functor.map, EStateM.map]
  cases x s <;> rfl

/-- The image of a program is the program and zeros behind it, up to the size that was asked for as
far as there are addresses. -/
theorem Memory.ofProgram_eq_ok {program : List UInt8} {minSize : Nat} {memory : Memory}
    (h : ofProgram program minSize = .ok memory) :
    memory.bytes.toList = program ++ List.replicate (memory.size - program.length) 0 ∧
      memory.size = max program.length (min minSize addressSpace) ∧
      memory.size ≤ addressSpace := by
  unfold ofProgram at h
  dsimp only at h
  split_ifs at h with hlen
  cases h
  simp only [size, Array.size_append, List.size_toArray, Array.size_replicate, Array.toList_append,
    Array.toList_replicate, Nat.add_sub_cancel_left, true_and]
  omega

namespace Machine

/-- The machine after one call, of `step` or of `skip`, also where the call ends in a trap. -/
def after (m : Machine) (execute : Bool) : Machine :=
  if execute then (outcome m.step).2 else (outcome m.skip).2

/-- The machine after some calls, each of them with or without execution. -/
def afterAll (m : Machine) (calls : List Bool) : Machine := calls.foldl after m

variable {program : List UInt8} {m : Machine} {f : Fetched}

theorem afterAll_cons (execute : Bool) (calls : List Bool) :
    m.afterAll (execute :: calls) = (m.after execute).afterAll calls := rfl

theorem afterAll_append (calls more : List Bool) :
    m.afterAll (calls ++ more) = (m.afterAll calls).afterAll more := List.foldl_append

theorem outcome_take (m : Machine) (execute : Bool) :
    (outcome (take execute m)).2 = m.after execute := by
  cases execute with
  | true => exact outcome_map step _
  | false => exact outcome_map skip _

/-- A call changes nothing, or passes the instruction that it fetches; then registers, flags and the
pointer are all that changes besides, also where the instruction cannot be executed. -/
theorem after_cases (m : Machine) (execute : Bool) :
    (∀ f, m.fetch ≠ .ok (some f)) ∧ m.after execute = m ∨
      ∃ f, m.fetch = .ok (some f) ∧ ∃ regs flags ip,
        m.after execute = { m.advance f.size with regs, flags, ip } := by
  rw [← outcome_take]
  rcases ht : take execute m with ⟨_ | s, m'⟩ | ⟨t, m'⟩
  · have hdone := isDone_of_take ht
    rw [take_of_isDone hdone] at ht
    cases ht
    exact .inl ⟨by simp [fetch_eq_none_iff.2 hdone], rfl⟩
  · obtain ⟨f, hf, ht⟩ := take_eq_some_iff.1 ht
    refine .inr ⟨f, hf, m'.regs, m'.flags, m'.ip, ?_⟩
    split_ifs at ht
    · exact eq_of_perform? ht.1
    · rw [ht.1, outcome]
  · rw [take_eq_error_iff] at ht
    have hfetch (hf : m.fetch = .error t) : ∀ f, m.fetch ≠ .ok (some f) := by simp [hf]
    split_ifs at ht
    · obtain ⟨hf, rfl⟩ | ⟨f, hf, -, -, rfl⟩ := step_eq_error_iff.1 ht
      · exact .inl ⟨hfetch hf, rfl⟩
      · exact .inr ⟨f, hf, _, _, _, rfl⟩
    · obtain ⟨hf, rfl⟩ := skip_eq_error_iff.1 ht
      exact .inl ⟨hfetch hf, rfl⟩

theorem after_of_isDone (h : m.isDone = true) (execute : Bool) : m.after execute = m := by
  rw [← outcome_take, take_of_isDone h, outcome]

theorem afterAll_of_isDone (h : m.isDone = true) (calls : List Bool) : m.afterAll calls = m := by
  induction calls with
  | nil => rfl
  | cons execute calls ih => rw [afterAll_cons, after_of_isDone h, ih]

theorem memory_after (m : Machine) (execute : Bool) : (m.after execute).memory = m.memory := by
  obtain ⟨-, hafter⟩ | ⟨f, -, regs, flags, ip, hafter⟩ := after_cases m execute
  · rw [hafter]
  · rw [hafter]
    rfl

theorem memory_afterAll (m : Machine) (calls : List Bool) :
    (m.afterAll calls).memory = m.memory := by
  induction calls generalizing m with
  | nil => rfl
  | cons execute calls ih => rw [afterAll_cons, ih, memory_after]

/-- Some instruction ends with the last byte of the address space, and a call passes it. -/
def PassesLast (m : Machine) (calls : List Bool) : Prop :=
  ∃ done execute rest f, calls = done ++ execute :: rest ∧
    (m.afterAll done).fetch = .ok (some f) ∧ f.offset.toNat + f.size.toNat = addressSpace

theorem passesLast_cons_iff {execute : Bool} {calls : List Bool} :
    m.PassesLast (execute :: calls) ↔
      (∃ f, m.fetch = .ok (some f) ∧ f.offset.toNat + f.size.toNat = addressSpace) ∨
        (m.after execute).PassesLast calls := by
  refine ⟨?_, ?_⟩
  · rintro ⟨done, execute', rest, f, hcalls, hf, hend⟩
    cases done with
    | nil => exact .inl ⟨f, hf, hend⟩
    | cons first done =>
      cases hcalls
      exact .inr ⟨done, execute', rest, f, rfl, hf, hend⟩
  · rintro (⟨f, hf, hend⟩ | ⟨done, execute', rest, f, rfl, hf, hend⟩)
    · exact ⟨[], execute, calls, f, rfl, hf, hend⟩
    · exact ⟨execute :: done, execute', rest, f, rfl, hf, hend⟩

namespace Loaded

theorem after (h : m.Loaded program) (execute : Bool) : (m.after execute).Loaded program := by
  obtain ⟨-, hafter⟩ | ⟨f, hf, regs, flags, ip, hafter⟩ := after_cases m execute
  · rw [hafter]
    exact h
  · have hpassed := h.advance hf
    rw [hafter]
    exact ⟨hpassed.memory, hpassed.programSize, hpassed.wrapped⟩

theorem afterAll (h : m.Loaded program) (calls : List Bool) :
    (m.afterAll calls).Loaded program := by
  induction calls generalizing m with
  | nil => exact h
  | cons execute calls ih => exact ih (h.after execute)

theorem fetched_inside (h : m.Loaded program) (hf : m.fetch = .ok (some f)) :
    f.offset.toNat + f.size.toNat ≤ program.length ∧
      f.bytes = (program.drop f.offset.toNat).take f.size.toNat := by
  obtain ⟨hbytes, hinside⟩ := h.of_fetch hf
  obtain ⟨-, -, -, -, hoffset⟩ := fetch_eq_some_iff.1 hf
  rw [hoffset, toNat_size hf]
  exact ⟨hinside, List.prefix_iff_eq_take.1 hbytes⟩

theorem wrapped_after_iff (h : m.Loaded program) (execute : Bool) :
    (m.after execute).wrapped = true ↔ m.wrapped = true ∨
      ∃ f, m.fetch = .ok (some f) ∧ f.offset.toNat + f.size.toNat = addressSpace := by
  obtain ⟨hf, hafter⟩ | ⟨f, hf, regs, flags, ip, hafter⟩ := after_cases m execute
  · rw [hafter]
    refine ⟨.inl, ?_⟩
    rintro (hwrapped | ⟨f, hf', -⟩)
    · exact hwrapped
    · exact absurd hf' (hf f)
  · obtain ⟨hdone, -, -, -, hoffset⟩ := fetch_eq_some_iff.1 hf
    have hwrapped := wrapped_of_not_isDone hdone
    -- the end of the instruction lies in the program, so it cannot be behind the address space
    have hinside := (h.fetched_inside hf).1
    have hle := h.length_le
    have hpassed : (m.advance f.size).wrapped = true ↔
        addressSpace ≤ f.offset.toNat + f.size.toNat := by
      rw [Machine.advance, hwrapped, Bool.false_or, decide_eq_true_iff, hoffset]
    rw [hafter, hpassed, hwrapped]
    refine ⟨fun hend => .inr ⟨f, hf, by omega⟩, ?_⟩
    rintro (hfalse | ⟨g, hg, hend⟩)
    · cases hfalse
    · rw [hf] at hg
      cases hg
      omega

theorem wrapped_afterAll_iff (h : m.Loaded program) (calls : List Bool) :
    (m.afterAll calls).wrapped = true ↔ m.wrapped = true ∨ m.PassesLast calls := by
  induction calls generalizing m with
  | nil =>
    refine ⟨.inl, ?_⟩
    rintro (hwrapped | ⟨done, execute, rest, f, hnil, -⟩)
    · exact hwrapped
    · cases done <;> cases hnil
  | cons execute calls ih =>
    rw [afterAll_cons, ih (h.after execute), h.wrapped_after_iff, passesLast_cons_iff, or_assoc]

end Loaded

theorem memory_of_load {minMemory : Nat} (h : load program minMemory = .ok m) :
    Memory.ofProgram program minMemory = .ok m.memory ∧ m.wrapped = false := by
  obtain ⟨memory, hmemory, rfl⟩ := load_eq_ok_iff.1 h
  exact ⟨hmemory, rfl⟩

end Machine

open Machine

/-- Whatever calls a loaded machine went through: its memory is the program and zeros; the pointer
has wrapped around only behind the last byte of a program that fills the address space, and a call
passed the instruction there; an instruction that is fetched lies in the program with all its bytes;
and at the end of the program every further call finds nothing and changes nothing. -/
theorem reachable_machine {program : List UInt8} {minMemory : Nat} {m₀ : Machine}
    (hload : load program minMemory = .ok m₀) (calls : List Bool) :
    let m := m₀.afterAll calls
    (m.memory.bytes.toList = program ++ List.replicate (m.memory.size - program.length) 0 ∧
      m.memory.size = max program.length (min minMemory addressSpace) ∧
      m.memory.size ≤ addressSpace) ∧
    (m.wrapped = true → program.length = addressSpace ∧ m₀.PassesLast calls) ∧
    (∀ f, m.fetch = .ok (some f) → f.offset.toNat + f.size.toNat ≤ program.length ∧
      f.bytes = (program.drop f.offset.toNat).take f.size.toNat) ∧
    (m.isDone = true → m.fetch = .ok none ∧ m.step = .ok none m ∧ m.skip = .ok none m ∧
      ∀ more, m₀.afterAll (calls ++ more) = m) := by
  intro m
  obtain ⟨hmemory, hwrapped₀⟩ := memory_of_load hload
  have hm₀ := loaded_of_load hload
  have hm : m.Loaded program := hm₀.afterAll calls
  refine ⟨?_, fun hwrapped => ⟨hm.wrapped hwrapped, ?_⟩, fun f hf => hm.fetched_inside hf,
    fun hdone => ?_⟩
  · rw [← memory_afterAll m₀ calls] at hmemory
    exact Memory.ofProgram_eq_ok hmemory
  · refine ((hm₀.wrapped_afterAll_iff calls).1 hwrapped).resolve_left fun h => ?_
    rw [hwrapped₀] at h
    cases h
  · have hfetch := fetch_eq_none_iff.2 hdone
    refine ⟨hfetch, ?_, ?_, fun more => ?_⟩
    · simp only [step, hfetch]
    · simp only [skip, hfetch]
    · rw [afterAll_append, afterAll_of_isDone hdone]

/-- One move in a memory of three bytes, and any calls after it was executed. -/
theorem reachable_machine_mov :
    ∃ m₀, load [0x89, 0xd9] 3 = .ok m₀ ∧
      (m₀.afterAll [true]).memory.bytes.toList = [0x89, 0xd9, 0] ∧
      (m₀.afterAll [true]).isDone = true ∧
      ∀ more, m₀.afterAll ([true] ++ more) = m₀.afterAll [true] := by
  obtain ⟨m₀, hload⟩ : ∃ m₀, load [0x89, 0xd9] 3 = .ok m₀ := ⟨_, rfl⟩
  obtain ⟨⟨hbytes, hsize, -⟩, -, -, hforever⟩ := reachable_machine hload [true]
  have hdone : (m₀.afterAll [true]).isDone = true := by
    cases hload
    rfl
  rw [hsize] at hbytes
  exact ⟨m₀, hload, hbytes, hdone, (hforever hdone).2.2.2⟩

end Machine86
