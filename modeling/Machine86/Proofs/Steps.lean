import Machine86.Proofs.Loaded

/-!
# The steps of a run

`Machine.Takes` relates two machines by the steps between them. Whatever one step keeps holds of
all machines that a run comes through, and `Run.finishFrom` is as far as these steps go: to the end
of the program, to a trap, or to the limit (`Run.Ends`, `Run.finishFrom_eq_iff`). A run that
completes is the steps to the end of the program, no more of them than the limit allows
(`run_eq_ok_iff`).
-/

namespace Machine86

namespace Machine

/-- From the first machine the steps lead to the second. -/
inductive Takes (execute : Bool) : Machine → List Step → Machine → Prop
  | nil (m : Machine) : Takes execute m [] m
  | cons {m m' m'' : Machine} {s : Step} {steps : List Step}
    (h : take execute m = .ok (some s) m') (hs : Takes execute m' steps m'') :
    Takes execute m (s :: steps) m''

theorem takes_append_iff {execute : Bool} {m m'' : Machine} {done steps : List Step} :
    m.Takes execute (done ++ steps) m'' ↔
      ∃ m', m.Takes execute done m' ∧ m'.Takes execute steps m'' := by
  refine ⟨fun h => ?_, ?_⟩
  · induction done generalizing m with
    | nil => exact ⟨m, .nil m, h⟩
    | cons s done ih =>
      rcases h with _ | ⟨hs, h⟩
      obtain ⟨m', hdone, hsteps⟩ := ih h
      exact ⟨m', .cons hs hdone, hsteps⟩
  · rintro ⟨m', hdone, hsteps⟩
    induction hdone with
    | nil => exact hsteps
    | cons hs _ ih => exact .cons hs (ih hsteps)

/-- The step at an instruction of the program, where it can be performed. -/
theorem Loaded.take_of_decode {program : List UInt8} {m m' : Machine} (hm : m.Loaded program)
    (hdone : m.isDone = false) {i : Instruction} {r : Reader}
    (hdecode : decode (.ofBytes (program.drop m.ip.toNat)) = .ok i r)
    (hperform : (m.advance (.ofNat i.encode.length)).perform? i.operation = some m') :
    Machine.take true m = .ok (some (.ofFetched ⟨m.ip, i.encode, i⟩
      (some (.between m.snapshot m'.snapshot)))) m' := by
  obtain ⟨hi, hrest, -⟩ := decode_eq_ok_iff.1 hdecode
  have hprefix : i.encode <+: m.code := by
    rw [hm.code_eq]
    exact ⟨r.rest, hrest.symm⟩
  have hfetch : m.fetch = .ok (some ⟨m.ip, i.encode, i⟩) :=
    fetch_eq_some_iff.2 ⟨hdone, hi, rfl, hprefix, rfl⟩
  exact take_eq_some_iff.2 ⟨_, hfetch, hperform, rfl⟩

theorem exists_fetched_of_take {execute : Bool} {m m' : Machine} {s : Step}
    (h : take execute m = .ok (some s) m') :
    ∃ f trace, m.fetch = .ok (some f) ∧ s = .ofFetched f trace := by
  obtain ⟨f, hf, h⟩ := take_eq_some_iff.1 h
  split_ifs at h
  · exact ⟨f, _, hf, h.2⟩
  · exact ⟨f, _, hf, h.2⟩

theorem offset_of_take {execute : Bool} {m m' : Machine} {s : Step}
    (h : take execute m = .ok (some s) m') : s.offset = m.ip := by
  obtain ⟨f, trace, hf, rfl⟩ := exists_fetched_of_take h
  exact (fetch_eq_some_iff.1 hf).2.2.2.2

theorem Takes.offset_of_head {execute : Bool} {m m' : Machine} {steps : List Step}
    (h : m.Takes execute steps m') : ∀ s ∈ steps.head?, s.offset = m.ip := by
  intro s hs
  cases h with
  | nil => cases hs
  | cons ht =>
    cases hs
    exact offset_of_take ht

theorem Takes.loaded {execute : Bool} {m m' : Machine} {steps : List Step} {program : List UInt8}
    (h : m.Takes execute steps m') (hm : m.Loaded program) : m'.Loaded program := by
  induction h with
  | nil => exact hm
  | cons h _ ih => exact ih (hm.take h)

end Machine

namespace Run

variable {config : Config} {m m' : Machine}

theorem finishFrom_of_takes {steps : List Step} (h : m.Takes config.execute steps m') (left : Nat)
    (done : Array Step) :
    finishFrom config (steps.length + left) m done =
      finishFrom config left m' (done ++ steps.toArray) := by
  induction h generalizing done with
  | nil => simp
  | @cons m m₁ m' s steps h _ ih =>
    rw [List.length_cons, Nat.add_right_comm, finishFrom, h]
    dsimp only
    rw [ih]
    simp

theorem finishFrom_of_isDone (h : m.isDone = true) (left : Nat) (done : Array Step) :
    finishFrom config left m done = ⟨done.toList, m, none⟩ := by
  cases left with
  | zero => simp [finishFrom, h]
  | succ left => simp [finishFrom, Machine.take_of_isDone h]

theorem finishFrom_of_trap {t : Trap} (h : Machine.take config.execute m = .error t m')
    (left : Nat) (done : Array Step) :
    finishFrom config (left + 1) m done = ⟨done.toList, m', some t⟩ := by
  simp [finishFrom, h]

/-- How a run of `left` instructions at most ends, with the steps that it made until then. -/
inductive Ends (config : Config) (left : Nat) (m : Machine) : Progress → Prop
  | completed {steps : List Step} {m' : Machine} (htakes : m.Takes config.execute steps m')
    (hdone : m'.isDone = true) (hlength : steps.length ≤ left) :
    Ends config left m ⟨steps, m', none⟩
  | limited {steps : List Step} {m' : Machine} (htakes : m.Takes config.execute steps m')
    (hdone : m'.isDone = false) (hlength : steps.length = left) :
    Ends config left m ⟨steps, m', some (.stepLimit config.maxSteps)⟩
  | trapped {steps : List Step} {m' m'' : Machine} {t : Trap}
    (htakes : m.Takes config.execute steps m')
    (htrap : Machine.take config.execute m' = .error t m'') (hlength : steps.length < left) :
    Ends config left m ⟨steps, m'', some t⟩

variable {left : Nat} {p : Progress}

theorem Ends.length_le (h : Ends config left m p) : p.steps.length ≤ left := by
  cases h with
  | completed _ _ hlength => exact hlength
  | limited _ _ hlength => exact Nat.le_of_eq hlength
  | trapped _ _ hlength => exact Nat.le_of_lt hlength

theorem Ends.completed_of_trap (h : Ends config left m p) (hp : p.trap = none) :
    m.Takes config.execute p.steps p.machine ∧ p.machine.isDone = true ∧
      p.steps.length ≤ left := by
  cases h with
  | completed htakes hdone hlength => exact ⟨htakes, hdone, hlength⟩
  | limited => cases hp
  | trapped => cases hp

/-- A trap that is not the limit is one of the next instruction. -/
theorem Ends.trapped_of_trap {t : Trap} (h : Ends config left m p) (hp : p.trap = some t)
    (hne : ∀ n, t ≠ .stepLimit n) :
    ∃ m', m.Takes config.execute p.steps m' ∧
      Machine.take config.execute m' = .error t p.machine := by
  cases h with
  | completed => cases hp
  | limited =>
    cases hp
    exact absurd rfl (hne _)
  | trapped htakes htrap =>
    cases hp
    exact ⟨_, htakes, htrap⟩

theorem Ends.after {s : Step} (ht : Machine.take config.execute m = .ok (some s) m')
    (h : Ends config left m' p) : Ends config (left + 1) m (p.after [s]) := by
  cases h with
  | completed htakes hdone hlength =>
    exact .completed (.cons ht htakes) hdone (Nat.succ_le_succ hlength)
  | limited htakes hdone hlength =>
    exact .limited (.cons ht htakes) hdone (congrArg (· + 1) hlength)
  | trapped htakes htrap hlength =>
    exact .trapped (.cons ht htakes) htrap (Nat.succ_lt_succ hlength)

theorem ends_finishFrom (config : Config) (left : Nat) (m : Machine) :
    Ends config left m (finishFrom config left m #[]) := by
  induction left generalizing m with
  | zero =>
    rw [finishFrom]
    split_ifs with hdone
    · exact .completed (.nil m) hdone (Nat.le_refl 0)
    · exact .limited (.nil m) (Bool.eq_false_iff.2 hdone) rfl
  | succ left ih =>
    rw [finishFrom]
    rcases ht : Machine.take config.execute m with ⟨_ | s, m'⟩ | ⟨t, m'⟩
    · have hdone := Machine.isDone_of_take ht
      rw [Machine.take_of_isDone hdone] at ht
      cases ht
      exact .completed (.nil m) hdone (Nat.zero_le _)
    · dsimp only
      rw [finishFrom_eq_after]
      exact (ih m').after ht
    · exact .trapped (.nil m) ht (Nat.succ_pos left)

theorem Ends.eq_finishFrom (h : Ends config left m p) : finishFrom config left m #[] = p := by
  cases h with
  | completed htakes hdone hlength =>
    obtain ⟨more, rfl⟩ := Nat.exists_eq_add_of_le hlength
    rw [finishFrom_of_takes htakes, finishFrom_of_isDone hdone]
    simp
  | limited htakes hdone hlength =>
    obtain rfl := hlength
    have hfinish := finishFrom_of_takes htakes 0 #[]
    rw [Nat.add_zero] at hfinish
    rw [hfinish, finishFrom, hdone]
    simp
  | trapped htakes htrap hlength =>
    obtain ⟨more, rfl⟩ := Nat.exists_eq_add_of_lt hlength
    rw [Nat.add_assoc, finishFrom_of_takes htakes, finishFrom_of_trap htrap]
    simp

/-- A run ends in just one way. -/
theorem finishFrom_eq_iff : finishFrom config left m #[] = p ↔ Ends config left m p :=
  ⟨fun h => h ▸ ends_finishFrom config left m, Ends.eq_finishFrom⟩

/-- Where no trap stops a run, its steps lead to the end of the program. -/
theorem takes_of_finishFrom (h : (finishFrom config left m #[]).trap = none) :
    let p := finishFrom config left m #[]
    m.Takes config.execute p.steps p.machine ∧ p.machine.isDone = true ∧
      p.steps.length ≤ left :=
  (ends_finishFrom config left m).completed_of_trap h

/-- A run comes to the end of its program by no more steps than it may make. -/
theorem finish_eq_iff {r : Run} {steps : List Step} :
    r.finish = ⟨steps, m, none⟩ ↔ r.machine.Takes r.config.execute steps m ∧ m.isDone = true ∧
      steps.length ≤ r.left := by
  rw [finish, finishFrom_eq_iff]
  refine ⟨fun h => h.completed_of_trap rfl, ?_⟩
  rintro ⟨htakes, hdone, hlength⟩
  exact .completed htakes hdone hlength

theorem start_eq_ok_iff {program : List UInt8} {minMemory : Nat} {r : Run} :
    start program config minMemory = .ok r ↔ ∃ m₀, Machine.load program minMemory = .ok m₀ ∧
      r = ⟨m₀, config, config.maxSteps⟩ := by
  unfold start
  cases Machine.load program minMemory with
  | error e => simp
  | ok m => simp [eq_comm]

end Run

theorem run_of_load {program : List UInt8} {config : Config} {m : Machine}
    (h : Machine.load program defaultMinMemory = .ok m) :
    run program config =
      let progress := Run.finishFrom config config.maxSteps m #[]
      match progress.trap with
      | some trap => .error (.trap trap)
      | none => .ok (progress.listing config) := by
  simp only [run, Run.start, h]
  rfl

theorem run_eq_ok_iff {program : List UInt8} {config : Config} {l : Listing} :
    run program config = .ok l ↔ ∃ m₀ m, Machine.load program defaultMinMemory = .ok m₀ ∧
      m₀.Takes config.execute l.steps m ∧ m.isDone = true ∧ l.steps.length ≤ config.maxSteps ∧
      l.finalState = if config.execute then some m.snapshot else none := by
  refine ⟨fun h => ?_, ?_⟩
  · cases hload : Machine.load program defaultMinMemory with
    | error e => simp [run, Run.start, hload] at h
    | ok m₀ =>
      rw [run_of_load hload] at h
      dsimp only at h
      split at h
      · cases h
      · rename_i htrap
        cases h
        obtain ⟨htakes, hdone, hlength⟩ := Run.takes_of_finishFrom htrap
        exact ⟨m₀, _, rfl, htakes, hdone, hlength, by simp [Progress.listing, htrap]⟩
  · rintro ⟨m₀, m, hload, htakes, hdone, hlength, hfinal⟩
    have hfinish : (⟨m₀, config, config.maxSteps⟩ : Run).finish = ⟨l.steps, m, none⟩ :=
      Run.finish_eq_iff.2 ⟨htakes, hdone, hlength⟩
    rw [Run.finish] at hfinish
    rw [run_of_load hload, hfinish]
    obtain ⟨steps, finalState⟩ := l
    simp only at hfinal
    simp [Progress.listing, hfinal]

end Machine86
