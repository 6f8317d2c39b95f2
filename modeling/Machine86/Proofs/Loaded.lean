import Machine86.Proofs.Performed
import Machine86.Proofs.Relocation
import Machine86.Proofs.RoundTrip
import Machine86.Run.Finish

/-!
# The program in memory

A fetch decodes the bytes of the program from the pointer on, as if it looked at all of them
(`Machine.fetch_eq`). While a machine runs, the program stays where it was loaded
(`Machine.Loaded`), an instruction that is fetched lies wholly inside it, and the pointer wraps
around only behind the last byte of a program that fills the address space.
-/

namespace Machine86

namespace Machine

/-- The bytes of the program from the pointer on. -/
def code (m : Machine) : List UInt8 := m.memory.slice m.ip.toNat m.programSize

theorem window_eq (m : Machine) : m.window = m.code.take longestInstruction := by
  simp only [window, code, Memory.slice, Array.toList_extract, List.extract_eq_take_drop,
    List.take_take]
  congr 1
  omega

theorem wrapped_of_not_isDone {m : Machine} (h : m.isDone = false) : m.wrapped = false := by
  rw [isDone, Bool.or_eq_false_iff] at h
  exact h.1

/-- What a fetch makes of the decoder's outcome. -/
def fetched (ip : UInt16) (bytes : List UInt8) :
    EStateM.Result DecodeError Reader Instruction → Except Trap (Option Fetched)
  | .ok instruction r => .ok (some { offset := ip, bytes := bytes.take r.position, instruction })
  | .error source _ => .error (.decode ip source)

theorem fetch_of_not_isDone {m : Machine} (h : m.isDone = false) :
    m.fetch = fetched m.ip m.code (decode (.ofBytes m.code)) := by
  have hfetch : m.fetch = fetched m.ip m.window (decode (.ofBytes m.window)) := by
    simp only [fetch, h, Bool.false_eq_true, ↓reduceIte]
    cases decode (.ofBytes m.window) <;> rfl
  rw [hfetch, window_eq]
  by_cases hlen : m.code.length ≤ longestInstruction
  · rw [List.take_of_length_le hlen]
  · have hrest : 6 ≤ (Reader.ofBytes (m.code.take longestInstruction)).remaining := by
      simp only [Reader.remaining, Reader.ofBytes, List.length_take, longestInstruction] at *
      omega
    have happend := decode_append (m.code.drop longestInstruction) hrest
    have hcode : (Reader.ofBytes (m.code.take longestInstruction)).append
        (m.code.drop longestInstruction) = .ofBytes m.code := by
      simp [Reader.append, Reader.ofBytes]
    rw [hcode] at happend
    rw [happend]
    cases hd : decode (.ofBytes (m.code.take longestInstruction)) with
    | ok i r =>
      obtain ⟨-, -, hposition⟩ := decode_eq_ok_iff.1 hd
      have hlong := i.length_encode
      have hle : r.position ≤ longestInstruction := by
        simp only [hposition, Reader.ofBytes, longestInstruction]
        omega
      simp only [fetched, Reading.mapOutcome, Reader.append, List.take_take, min_eq_left hle]
    | error e r => rfl

/-- An instruction is fetched where the pointer stands in front of its bytes. -/
theorem fetch_eq_some_iff {m : Machine} {f : Fetched} :
    m.fetch = .ok (some f) ↔
      m.isDone = false ∧ f.instruction.WellFormed ∧ f.bytes = f.instruction.encode ∧
        f.bytes <+: m.code ∧ f.offset = m.ip := by
  by_cases hd : m.isDone = true
  · simp [fetch_eq_none_iff.2 hd, hd]
  rw [Bool.not_eq_true] at hd
  rw [fetch_of_not_isDone hd]
  refine ⟨?_, ?_⟩
  · intro h
    cases hdec : decode (.ofBytes m.code) with
    | error e r => simp [hdec, fetched] at h
    | ok i r =>
      obtain ⟨hi, hrest, hposition⟩ := decode_eq_ok_iff.1 hdec
      simp only [hdec, fetched, Except.ok.injEq, Option.some.injEq] at h
      subst h
      simp only [Reader.ofBytes, Nat.zero_add] at hrest hposition
      have hbytes : m.code.take r.position = i.encode := by
        rw [hrest, hposition, List.take_left]
      exact ⟨hd, hi, hbytes, List.take_prefix _ _, rfl⟩
  · rintro ⟨-, hi, hbytes, ⟨rest, hcode⟩, hoffset⟩
    have hdec := decode_encode hi 0 rest
    rw [← hcode, hbytes, Reader.ofBytes, hdec, fetched, Nat.zero_add, List.take_left, ← hbytes,
      ← hoffset]

theorem fetch_eq_error_iff {m : Machine} {t : Trap} :
    m.fetch = .error t ↔
      m.isDone = false ∧ ∃ e r, decode (.ofBytes m.code) = .error e r ∧ t = .decode m.ip e := by
  by_cases hd : m.isDone = true
  · simp [fetch_eq_none_iff.2 hd, hd]
  rw [Bool.not_eq_true] at hd
  rw [fetch_of_not_isDone hd]
  cases decode (.ofBytes m.code) <;> simp [fetched, hd, eq_comm]

/-- The program lies at the start of the memory as it was loaded, with zeros behind it. -/
structure Loaded (program : List UInt8) (m : Machine) : Prop where
  memory : Memory.ofProgram program m.minMemory = .ok m.memory
  programSize : m.programSize = program.length
  wrapped : m.wrapped = true → program.length = addressSpace

/-- A loaded machine starts from zeros, with the image of the program in its memory. -/
theorem load_eq_ok_iff {program : List UInt8} {minMemory : Nat} {m : Machine} :
    load program minMemory = .ok m ↔ ∃ memory, Memory.ofProgram program minMemory = .ok memory ∧
      m = { regs := Vector.replicate 8 0, flags := {}, ip := 0, memory,
            programSize := program.length, wrapped := false, minMemory } := by
  unfold load
  cases Memory.ofProgram program minMemory with
  | error e => simp
  | ok memory => simp [eq_comm]

theorem loaded_of_load {program : List UInt8} {minMemory : Nat} {m : Machine}
    (h : load program minMemory = .ok m) : m.Loaded program := by
  obtain ⟨memory, hmemory, rfl⟩ := load_eq_ok_iff.1 h
  exact ⟨hmemory, rfl, Bool.noConfusion⟩

theorem exists_load {program : List UInt8} (h : program.length ≤ addressSpace) (minMemory : Nat) :
    ∃ m, load program minMemory = .ok m ∧ m.ip = 0 ∧ m.wrapped = false ∧
      m.regs = Vector.replicate 8 0 ∧ m.flags = {} := by
  have hlen : ¬ addressSpace < program.length := by omega
  simp [load, Memory.ofProgram, hlen]

namespace Loaded

variable {program : List UInt8} {m m' : Machine}

theorem length_le (h : m.Loaded program) : program.length ≤ addressSpace := by
  have hmemory := h.memory
  unfold Memory.ofProgram at hmemory
  dsimp only at hmemory
  split_ifs at hmemory with hlen
  omega

theorem code_eq (h : m.Loaded program) : m.code = program.drop m.ip.toNat := by
  have hmemory := h.memory
  unfold Memory.ofProgram at hmemory
  dsimp only at hmemory
  split_ifs at hmemory
  simp only [Except.ok.injEq] at hmemory
  simp only [code, ← hmemory, h.programSize, Memory.slice, Array.toList_extract,
    List.extract_eq_take_drop, Array.toList_append]
  rw [← List.drop_take, List.take_left]

theorem isDone_eq_false_iff (h : m.Loaded program) :
    m.isDone = false ↔ m.wrapped = false ∧ m.ip.toNat < program.length := by
  simp [isDone, h.programSize]

/-- An instruction that is fetched lies wholly inside the program. -/
theorem of_fetch (h : m.Loaded program) {f : Fetched} (hf : m.fetch = .ok (some f)) :
    f.bytes <+: program.drop m.ip.toNat ∧ m.ip.toNat + f.bytes.length ≤ program.length := by
  obtain ⟨hd, -, -, hpre, -⟩ := fetch_eq_some_iff.1 hf
  rw [h.code_eq] at hpre
  have hlen := hpre.length_le
  have hip := (h.isDone_eq_false_iff.1 hd).2
  rw [List.length_drop] at hlen
  exact ⟨hpre, by omega⟩

end Loaded

theorem toNat_size {m : Machine} {f : Fetched} (hf : m.fetch = .ok (some f)) :
    f.size.toNat = f.bytes.length := by
  obtain ⟨-, -, hbytes, -, -⟩ := fetch_eq_some_iff.1 hf
  have hlong := f.instruction.length_encode
  rw [Fetched.size, UInt16.toNat_ofNat', hbytes, Nat.mod_eq_of_lt]
  omega

theorem Loaded.advance {program : List UInt8} {m : Machine} (h : m.Loaded program) {f : Fetched}
    (hf : m.fetch = .ok (some f)) : (m.advance f.size).Loaded program where
  memory := h.memory
  programSize := h.programSize
  wrapped := by
    intro hw
    have hinside := (h.of_fetch hf).2
    have hle := h.length_le
    have hd := h.isDone_eq_false_iff.1 (fetch_eq_some_iff.1 hf).1
    simp only [Machine.advance, hd.1, Bool.false_or, decide_eq_true_eq, toNat_size hf] at hw
    omega

/-- Only registers, flags and pointer change when an operation is performed. -/
theorem eq_of_perform? {m m' : Machine} {op : Operation} (h : m.perform? op = some m') :
    m' = { m with regs := m'.regs, flags := m'.flags, ip := m'.ip } := by
  cases op with
  | mov dst src wide =>
    simp only [Machine.perform?, Option.bind_eq_bind, Option.bind_eq_some_iff] at h
    obtain ⟨r, -, value, -, h⟩ := h
    cases h
    rfl
  | arith op dst src wide =>
    simp only [Machine.perform?, Option.bind_eq_bind, Option.bind_eq_some_iff] at h
    obtain ⟨r, -, value, -, h⟩ := h
    cases h
    split_ifs <;> rfl
  | jump branch inc =>
    simp only [Machine.perform?, Option.some.injEq] at h
    subst h
    split_ifs <;> rfl

theorem Loaded.perform? {program : List UInt8} {m m' : Machine} (h : m.Loaded program)
    {op : Operation} (hp : m.perform? op = some m') : m'.Loaded program := by
  rw [eq_of_perform? hp]
  exact ⟨h.memory, h.programSize, h.wrapped⟩

theorem step_eq_some_iff {m m' : Machine} {f : Fetched} {t : Trace} :
    m.step = .ok (some (f, t)) m' ↔
      m.fetch = .ok (some f) ∧ (m.advance f.size).perform? f.instruction.operation = some m' ∧
        t = .between m.snapshot m'.snapshot := by
  unfold step
  rcases m.fetch with e | _ | g
  · simp
  · simp
  · dsimp only
    rw [exec_eq]
    cases hp : (m.advance g.size).perform? g.instruction.operation with
    | none =>
      simp only [reduceCtorEq, Except.ok.injEq, Option.some.injEq, false_iff]
      rintro ⟨rfl, hp', -⟩
      simp [hp] at hp'
    | some m'' =>
      simp only [EStateM.Result.ok.injEq, Option.some.injEq, Prod.mk.injEq, Except.ok.injEq]
      refine ⟨?_, ?_⟩
      · rintro ⟨⟨rfl, rfl⟩, rfl⟩
        exact ⟨rfl, hp, rfl⟩
      · rintro ⟨rfl, hp', rfl⟩
        rw [hp, Option.some.injEq] at hp'
        subst hp'
        exact ⟨⟨rfl, rfl⟩, rfl⟩

theorem skip_eq_some_iff {m m' : Machine} {f : Fetched} :
    m.skip = .ok (some f) m' ↔ m.fetch = .ok (some f) ∧ m' = m.advance f.size := by
  unfold skip
  rcases m.fetch with e | _ | g
  · simp
  · simp
  · simp only [EStateM.Result.ok.injEq, Option.some.injEq, Except.ok.injEq]
    refine ⟨?_, ?_⟩
    · rintro ⟨rfl, rfl⟩
      exact ⟨rfl, rfl⟩
    · rintro ⟨rfl, rfl⟩
      exact ⟨rfl, rfl⟩

/-- A step of a run is an instruction that was fetched; it was performed if the run executes. -/
theorem take_eq_some_iff {execute : Bool} {m m' : Machine} {s : Step} :
    take execute m = .ok (some s) m' ↔ ∃ f, m.fetch = .ok (some f) ∧
      if execute then
        (m.advance f.size).perform? f.instruction.operation = some m' ∧
          s = .ofFetched f (some (.between m.snapshot m'.snapshot))
      else m' = m.advance f.size ∧ s = .ofFetched f none := by
  cases execute with
  | true =>
    simp only [Machine.take, ↓reduceIte, map_eq_ok_iff, Option.map_eq_some_iff]
    refine ⟨?_, ?_⟩
    · rintro ⟨_, hstep, ⟨f, t⟩, rfl, rfl⟩
      obtain ⟨hf, hp, rfl⟩ := step_eq_some_iff.1 hstep
      exact ⟨f, hf, hp, rfl⟩
    · rintro ⟨f, hf, hp, rfl⟩
      exact ⟨_, step_eq_some_iff.2 ⟨hf, hp, rfl⟩, _, rfl, rfl⟩
  | false =>
    simp only [Machine.take, Bool.false_eq_true, ↓reduceIte, map_eq_ok_iff, Option.map_eq_some_iff]
    refine ⟨?_, ?_⟩
    · rintro ⟨_, hskip, f, rfl, rfl⟩
      obtain ⟨hf, rfl⟩ := skip_eq_some_iff.1 hskip
      exact ⟨f, hf, rfl, rfl⟩
    · rintro ⟨f, hf, rfl, rfl⟩
      exact ⟨_, skip_eq_some_iff.2 ⟨hf, rfl⟩, f, rfl, rfl⟩

/-- A step fails where nothing can be fetched, and then changes nothing, or at an instruction that
cannot be performed, behind which it leaves the pointer. -/
theorem step_eq_error_iff {m m' : Machine} {t : Trap} :
    m.step = .error t m' ↔
      m.fetch = .error t ∧ m' = m ∨ ∃ f, m.fetch = .ok (some f) ∧
        (m.advance f.size).perform? f.instruction.operation = none ∧
        t = .unsupported m.ip f.instruction.text ∧ m' = m.advance f.size := by
  unfold step
  rcases m.fetch with e | _ | f
  · simp [eq_comm]
  · simp
  · dsimp only
    rw [exec_eq]
    cases hp : (m.advance f.size).perform? f.instruction.operation <;> simp [hp, eq_comm]

theorem skip_eq_error_iff {m m' : Machine} {t : Trap} :
    m.skip = .error t m' ↔ m.fetch = .error t ∧ m' = m := by
  unfold skip
  rcases m.fetch with e | _ | f <;> simp [eq_comm]

theorem take_eq_error_iff {execute : Bool} {m m' : Machine} {t : Trap} :
    take execute m = .error t m' ↔
      if execute then m.step = .error t m' else m.skip = .error t m' := by
  cases execute <;> simp only [Machine.take, Bool.false_eq_true, ↓reduceIte, map_eq_error_iff]

theorem take_of_fetch_error {m : Machine} {t : Trap} (h : m.fetch = .error t) (execute : Bool) :
    take execute m = .error t m := by
  rw [take_eq_error_iff]
  split_ifs
  · exact step_eq_error_iff.2 (.inl ⟨h, rfl⟩)
  · exact skip_eq_error_iff.2 ⟨h, rfl⟩

theorem Loaded.take {program : List UInt8} {execute : Bool} {m m' : Machine} {s : Step}
    (h : m.Loaded program) (ht : Machine.take execute m = .ok (some s) m') :
    m'.Loaded program := by
  obtain ⟨f, hf, ht⟩ := take_eq_some_iff.1 ht
  cases execute with
  | true => exact (h.advance hf).perform? ht.1
  | false =>
    rw [ht.1]
    exact h.advance hf

end Machine

end Machine86
