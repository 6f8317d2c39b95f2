import Machine86.Proofs.Reachable

/-!
# The memory behind the program is never seen

A machine reads its memory only where it fetches an instruction, so with another memory that gives
it the same instruction it does the same (`Machine.take_withMemory`). Every fetch ends with the
program, so the zeros behind it make no difference, however many there are
(`observe_eq_of_minMemory`).
-/

namespace Machine86

/-- The same result or error, with another state. -/
def mapState {ε σ α : Type} (g : σ → σ) : EStateM.Result ε σ α → EStateM.Result ε σ α
  | .ok a s => .ok a (g s)
  | .error e s => .error e (g s)

theorem outcome_mapState {ε σ α : Type} (g : σ → σ) (x : EStateM.Result ε σ α) :
    outcome (mapState g x) = ((outcome x).1, g (outcome x).2) := by
  cases x <;> rfl

theorem map_eq_mapState {ε σ α β : Type} {g : σ → σ} {x : EStateM ε σ α} {s : σ} (f : α → β)
    (h : x (g s) = mapState g (x s)) : (f <$> x) (g s) = mapState g ((f <$> x) s) := by
  simp only [Functor.map, EStateM.map, h]
  cases x s <;> rfl

namespace Machine

/-- The machine with another memory. -/
def withMemory (memory : Memory) (minMemory : Nat) (m : Machine) : Machine :=
  { m with memory, minMemory }

section WithMemory

variable {memory : Memory} {minMemory : Nat} {m : Machine}

theorem advance_withMemory (size : UInt16) :
    (m.withMemory memory minMemory).advance size =
      (m.advance size).withMemory memory minMemory := rfl

theorem source?_withMemory (src : Source) :
    (m.withMemory memory minMemory).source? src = m.source? src := by
  cases src <;> rfl

theorem perform?_withMemory (op : Operation) :
    (m.withMemory memory minMemory).perform? op =
      (m.perform? op).map (withMemory memory minMemory) := by
  cases op with
  | mov dst src wide =>
    simp only [perform?, source?_withMemory]
    cases dst.register? <;> cases m.source? src <;> rfl
  | arith op dst src wide =>
    simp only [perform?, source?_withMemory]
    cases dst.register? <;> cases m.source? src <;> cases op <;> rfl
  | jump branch inc =>
    have hflags : (m.withMemory memory minMemory).flags = m.flags := rfl
    simp only [perform?, Option.map_some, Option.some.injEq, hflags]
    split_ifs <;> rfl

theorem exec_withMemory (i : Instruction) (address : UInt16) :
    exec i address (m.withMemory memory minMemory) =
      mapState (withMemory memory minMemory) (exec i address m) := by
  simp only [exec_eq, perform?_withMemory]
  cases m.perform? i.operation <;> rfl

variable (hfetch : (m.withMemory memory minMemory).fetch = m.fetch)

include hfetch

theorem step_withMemory :
    step (m.withMemory memory minMemory) = mapState (withMemory memory minMemory) m.step := by
  simp only [step, hfetch, advance_withMemory, exec_withMemory]
  rcases m.fetch with t | _ | f
  · rfl
  · rfl
  · have hip : (m.withMemory memory minMemory).ip = m.ip := rfl
    dsimp only
    rw [hip]
    cases exec f.instruction m.ip (m.advance f.size) <;> rfl

theorem skip_withMemory :
    skip (m.withMemory memory minMemory) = mapState (withMemory memory minMemory) m.skip := by
  simp only [skip, hfetch, advance_withMemory]
  rcases m.fetch with t | _ | f <;> rfl

/-- Where the same instruction is fetched from another memory, the same is done. -/
theorem take_withMemory (execute : Bool) :
    take execute (m.withMemory memory minMemory) =
      mapState (withMemory memory minMemory) (take execute m) := by
  cases execute with
  | true => exact map_eq_mapState _ (step_withMemory hfetch)
  | false => exact map_eq_mapState _ (skip_withMemory hfetch)

end WithMemory

theorem load_withMemory {p q : List UInt8} {memory : Memory} {minMemory minMemory' : Nat}
    {m : Machine} (hload : load p minMemory' = .ok m) (hlen : q.length = p.length)
    (hmemory : Memory.ofProgram q minMemory = .ok memory) :
    load q minMemory = .ok (m.withMemory memory minMemory) := by
  obtain ⟨memory', -, rfl⟩ := load_eq_ok_iff.1 hload
  refine load_eq_ok_iff.2 ⟨memory, hmemory, ?_⟩
  rw [withMemory, hlen]

namespace Loaded

variable {program : List UInt8} {memory : Memory} {minMemory : Nat} {m : Machine}

/-- In the place of a program another one of its length can stand. -/
theorem withMemory {other : List UInt8} (h : m.Loaded program)
    (hlen : other.length = program.length)
    (hmemory : Memory.ofProgram other minMemory = .ok memory) :
    (m.withMemory memory minMemory).Loaded other where
  memory := hmemory
  programSize := h.programSize.trans hlen.symm
  wrapped hw := hlen.trans (h.wrapped hw)

theorem fetch_withMemory (h : m.Loaded program)
    (hmemory : Memory.ofProgram program minMemory = .ok memory) :
    (m.withMemory memory minMemory).fetch = m.fetch := by
  have hdone : (m.withMemory memory minMemory).isDone = m.isDone := rfl
  have hcode : (m.withMemory memory minMemory).code = m.code := by
    rw [(h.withMemory rfl hmemory).code_eq, h.code_eq]
    rfl
  by_cases hd : m.isDone = true
  · rw [fetch_eq_none_iff.2 hd, fetch_eq_none_iff.2 (hdone.trans hd)]
  · rw [Bool.not_eq_true] at hd
    rw [fetch_of_not_isDone hd, fetch_of_not_isDone (hdone.trans hd), hcode]
    rfl

end Loaded

end Machine

namespace Run

/-- What some calls of a run bring, each with the snapshot after it. -/
def observe : Nat → Run → List (Except Trap (Option Step) × Snapshot)
  | 0, _ => []
  | calls + 1, r =>
    let (result, r') := outcome (next r)
    (result, r'.machine.snapshot) :: observe calls r'

def withMemory (memory : Memory) (minMemory : Nat) (r : Run) : Run :=
  { r with machine := r.machine.withMemory memory minMemory }

variable {program : List UInt8} {memory : Memory} {minMemory : Nat} {r : Run}

/-- A call of a run is a call of its machine, or leaves the machine alone. -/
theorem machine_of_next (r : Run) :
    (outcome (next r)).2.machine = r.machine ∨
      (outcome (next r)).2.machine = r.machine.after r.config.execute := by
  obtain ⟨m, config, left⟩ := r
  unfold next
  split_ifs
  · exact .inl rfl
  · cases left with
    | zero => exact .inl rfl
    | succ left =>
      refine .inr ?_
      dsimp only
      rw [← Machine.outcome_take]
      cases Machine.take config.execute m <;> rfl

theorem loaded_next (h : r.machine.Loaded program) :
    (outcome (next r)).2.machine.Loaded program := by
  rcases machine_of_next r with hm | hm
  · rw [hm]
    exact h
  · rw [hm]
    exact h.after _

theorem next_withMemory
    (hfetch : (r.machine.withMemory memory minMemory).fetch = r.machine.fetch) :
    next (r.withMemory memory minMemory) = mapState (withMemory memory minMemory) (next r) := by
  obtain ⟨m, config, left⟩ := r
  have hdone : (m.withMemory memory minMemory).isDone = m.isDone := rfl
  simp only [next, withMemory, hdone, Machine.take_withMemory hfetch]
  split_ifs
  · rfl
  · cases left with
    | zero => rfl
    | succ left => cases Machine.take config.execute m <;> rfl

theorem observe_withMemory (h : r.machine.Loaded program)
    (hmemory : Memory.ofProgram program minMemory = .ok memory) (calls : Nat) :
    observe calls (r.withMemory memory minMemory) = observe calls r := by
  induction calls generalizing r with
  | zero => rfl
  | succ calls ih =>
    rw [observe, observe, next_withMemory (h.fetch_withMemory hmemory), outcome_mapState]
    dsimp only
    rw [ih (loaded_next h)]
    rfl

theorem start_withMemory {config : Config} {minMemory' : Nat}
    (h : start program config minMemory' = .ok r)
    (hmemory : Memory.ofProgram program minMemory = .ok memory) :
    start program config minMemory = .ok (r.withMemory memory minMemory) := by
  obtain ⟨m, hload, rfl⟩ := start_eq_ok_iff.1 h
  exact start_eq_ok_iff.2 ⟨_, Machine.load_withMemory hload rfl hmemory, rfl⟩

end Run

/-- Two runs of a program that differ in the size of the memory alone bring the same steps and traps
and show the same registers, flags and pointer after every call, however many calls there are. -/
theorem observe_eq_of_minMemory {program : List UInt8} (hlen : program.length ≤ addressSpace)
    (config : Config) (minMemory minMemory' : Nat) :
    ∃ r r', Run.start program config minMemory = .ok r ∧
      Run.start program config minMemory' = .ok r' ∧
      r.machine.snapshot = r'.machine.snapshot ∧ ∀ calls, r.observe calls = r'.observe calls := by
  obtain ⟨m, hload, -⟩ := Machine.exists_load hlen minMemory
  obtain ⟨m', hload', -⟩ := Machine.exists_load hlen minMemory'
  obtain ⟨hmemory, -⟩ := Machine.memory_of_load hload'
  have hstart : Run.start program config minMemory = .ok ⟨m, config, config.maxSteps⟩ :=
    Run.start_eq_ok_iff.2 ⟨m, hload, rfl⟩
  exact ⟨_, _, hstart, Run.start_withMemory hstart hmemory, rfl, fun calls =>
    (Run.observe_withMemory (Machine.loaded_of_load hload) hmemory calls).symm⟩

/-- A move, and the first two bytes of one that has three, with nothing behind them and with zeros
up to the end of the address space. -/
theorem observe_eq_of_minMemory_truncated :
    let program : List UInt8 := [0x89, 0xd9, 0xb8, 0x01]
    let config : Config := { execute := true }
    program.length ≤ addressSpace ∧ ∃ r r', Run.start program config 0 = .ok r ∧
      Run.start program config 0x10000 = .ok r' ∧ ∀ calls, r.observe calls = r'.observe calls := by
  intro program config
  have hlen : program.length ≤ addressSpace := by decide
  obtain ⟨r, r', hr, hr', -, hcalls⟩ := observe_eq_of_minMemory hlen config 0 0x10000
  exact ⟨hlen, r, r', hr, hr', hcalls⟩

end Machine86
