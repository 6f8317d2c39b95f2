import Machine86.Proofs.LinearSweep
import Machine86.Proofs.Replay

/-!
# The limit on steps is a threshold

Where a run ends by itself, at the end of the program or by a trap of an instruction, the steps to
that place do not depend on the limit. So a limit that is too low for them is what stops the run
(`run_eq_stepLimit`), and every other limit leaves the outcome as it is (`run_maxSteps`).
-/

namespace Machine86

namespace Machine

variable {execute : Bool} {m m' : Machine} {steps : List Step}

theorem not_isDone_of_take {s : Step} (h : take execute m = .ok (some s) m') :
    m.isDone = false := by
  obtain ⟨f, -, hf, -⟩ := exists_fetched_of_take h
  exact (fetch_eq_some_iff.1 hf).1

theorem not_isDone_of_trap {t : Trap} (h : take execute m = .error t m') : m.isDone = false := by
  rw [← Bool.not_eq_true]
  intro hdone
  rw [take_of_isDone hdone] at h
  cases h

/-- A machine stops at an instruction that cannot be decoded or that is not supported. -/
theorem trap_of_take {t : Trap} (h : take execute m = .error t m') :
    (∃ source, t = .decode m.ip source) ∨ ∃ what, t = .unsupported m.ip what := by
  have hfetch (h : m.fetch = .error t) : ∃ source, t = .decode m.ip source := by
    obtain ⟨-, source, -, -, ht⟩ := fetch_eq_error_iff.1 h
    exact ⟨source, ht⟩
  rw [take_eq_error_iff] at h
  split_ifs at h
  · obtain ⟨h, -⟩ | ⟨f, -, -, rfl, -⟩ := step_eq_error_iff.1 h
    · exact .inl (hfetch h)
    · exact .inr ⟨_, rfl⟩
  · exact .inl (hfetch (skip_eq_error_iff.1 h).1)

/-- The first steps of some lead to a machine that is not done, if only the last of them may lead
to one that is. -/
theorem Takes.take (h : m.Takes execute steps m') {cap : Nat} (hcap : cap ≤ steps.length)
    (hend : cap = steps.length → m'.isDone = false) :
    ∃ m'', m.Takes execute (steps.take cap) m'' ∧ m''.isDone = false := by
  rw [← List.take_append_drop cap steps] at h
  obtain ⟨m'', hfirst, hrest⟩ := takes_append_iff.1 h
  refine ⟨m'', hfirst, ?_⟩
  cases hdrop : steps.drop cap with
  | nil =>
    rw [hdrop] at hrest
    cases hrest
    exact hend (Nat.le_antisymm hcap (List.drop_eq_nil_iff.1 hdrop))
  | cons s rest =>
    -- a step is left to make, which a machine that is done would not do
    rw [hdrop] at hrest
    cases hrest with
    | cons hs _ => exact not_isDone_of_take hs

end Machine

/-- A step of a run is a step of its machine, where the limit allows one more. -/
theorem Run.next_eq_some_iff {r r' : Run} {s : Step} :
    next r = .ok (some s) r' ↔ Machine.take r.config.execute r.machine = .ok (some s) r'.machine ∧
      r'.config = r.config ∧ r.left = r'.left + 1 := by
  obtain ⟨m, config, left⟩ := r
  obtain ⟨m', config', left'⟩ := r'
  by_cases hdone : m.isDone = true
  · simp [next, hdone, Machine.take_of_isDone hdone]
  · rcases left with _ | left
    · simp [next, hdone]
    · rcases ht : Machine.take config.execute m with ⟨step, m₁⟩ | ⟨t, m₁⟩
      · simp only [next, hdone, ht, Bool.false_eq_true, ↓reduceIte, EStateM.Result.ok.injEq,
          Run.mk.injEq, Nat.add_right_cancel_iff]
        rw [and_assoc, eq_comm (a := config), eq_comm (a := left)]
      · simp [next, hdone, ht]

/-- A run fails at its limit, or with its machine. -/
theorem Run.next_eq_error_iff {r r' : Run} {t : Trap} :
    next r = .error t r' ↔ r.machine.isDone = false ∧
      (r.left = 0 ∧ t = .stepLimit r.config.maxSteps ∧ r' = r ∨
        Machine.take r.config.execute r.machine = .error t r'.machine ∧
          r'.config = r.config ∧ r.left = r'.left + 1) := by
  obtain ⟨m, config, left⟩ := r
  obtain ⟨m', config', left'⟩ := r'
  by_cases hdone : m.isDone = true
  · simp [next, hdone]
  · rcases left with _ | left
    · simp [next, hdone, eq_comm]
    · rcases ht : Machine.take config.execute m with ⟨step, m₁⟩ | ⟨t₁, m₁⟩
      · simp [next, hdone, ht]
      · simp [next, hdone, ht, and_assoc, eq_comm]

/-- The limit stops a run after as many steps as it allows. -/
theorem Run.Ends.length_of_stepLimit {config : Config} {left n : Nat} {m : Machine} {p : Progress}
    (h : Run.Ends config left m p) (hp : p.trap = some (.stepLimit n)) :
    n = config.maxSteps ∧ p.steps.length = left := by
  cases h with
  | completed => cases hp
  | limited _ _ hlength =>
    cases hp
    exact ⟨rfl, hlength⟩
  | trapped _ htrap _ =>
    cases hp
    rcases Machine.trap_of_take htrap with ⟨source, h⟩ | ⟨what, h⟩ <;> cases h

section Threshold

variable {program : List UInt8} {config : Config} {m₀ m : Machine} {steps : List Step} {t : Trap}

theorem run_eq_trap_iff (hload : Machine.load program defaultMinMemory = .ok m₀) :
    run program config = .error (.trap t) ↔
      (Run.finishFrom config config.maxSteps m₀ #[]).trap = some t := by
  rw [run_of_load hload]
  dsimp only
  split
  · rename_i t' ht'
    rw [ht', Except.error.injEq, RunError.trap.injEq, Option.some.injEq]
  · rename_i hnone
    rw [hnone]
    simp

/-- A limit that is too low for some steps of a program is the outcome of its run. -/
theorem run_eq_stepLimit (hload : Machine.load program defaultMinMemory = .ok m₀)
    (htakes : m₀.Takes config.execute steps m) {cap : Nat} (hcap : cap ≤ steps.length)
    (hend : cap = steps.length → m.isDone = false) :
    run program { config with maxSteps := cap } = .error (.trap (.stepLimit cap)) := by
  obtain ⟨m', htakes', hdone⟩ := htakes.take hcap hend
  have hends : Run.Ends { config with maxSteps := cap } cap m₀ _ :=
    .limited htakes' hdone (List.length_take_of_le hcap)
  rw [run_eq_trap_iff hload, hends.eq_finishFrom]

end Threshold

/-- The limit on steps is a threshold: a run that comes to the end of the program, or to a trap of
an instruction, does the same under every other limit that lets it come so far, and under a lower
one the limit is what stops it. No run makes more steps than its limit. -/
theorem run_maxSteps {program : List UInt8} {config : Config} {r : Run}
    (hstart : Run.start program config defaultMinMemory = .ok r) (cap : Nat) :
    (∀ l, run program config = .ok l →
      run program { config with maxSteps := cap } =
        if l.steps.length ≤ cap then .ok l else .error (.trap (.stepLimit cap))) ∧
    (∀ t, run program config = .error (.trap t) → (∀ n, t ≠ .stepLimit n) →
      run program { config with maxSteps := cap } =
        .error (.trap (if r.finish.steps.length < cap then t else .stepLimit cap))) ∧
    ∃ r', Run.start program { config with maxSteps := cap } defaultMinMemory = .ok r' ∧
      Run.Ends { config with maxSteps := cap } cap r'.machine r'.finish ∧
      r'.finish.steps.length ≤ cap := by
  obtain ⟨m₀, hload, rfl⟩ := Run.start_eq_ok_iff.1 hstart
  refine ⟨fun l hl => ?_, fun t ht hne => ?_, ?_⟩
  · obtain ⟨m₀', m, hload', htakes, hdone, -, hfinal⟩ := run_eq_ok_iff.1 hl
    split_ifs with hcap
    · exact run_eq_ok_iff.2 ⟨m₀', m, hload', htakes, hdone, hcap, hfinal⟩
    · exact run_eq_stepLimit hload' htakes (by omega) fun h => absurd (Nat.le_of_eq h.symm) hcap
  · rw [run_eq_trap_iff hload] at ht
    have hends := Run.ends_finishFrom config config.maxSteps m₀
    obtain ⟨m, htakes, htrap⟩ := hends.trapped_of_trap ht hne
    split_ifs with hcap
    · have hends' : Run.Ends { config with maxSteps := cap } cap m₀ _ :=
        .trapped htakes htrap hcap
      rw [run_eq_trap_iff hload, hends'.eq_finishFrom]
    · exact run_eq_stepLimit hload htakes (Nat.le_of_not_lt hcap)
        fun _ => Machine.not_isDone_of_trap htrap
  · have hends := Run.ends_finishFrom { config with maxSteps := cap } cap m₀
    exact ⟨_, Run.start_eq_ok_iff.2 ⟨m₀, hload, rfl⟩, hends, hends.length_le⟩

/-- Two steps under a limit of five and of one, and a move before an unknown first byte under a
limit of seven and of none. -/
theorem run_maxSteps_branchOver :
    (∃ l, run branchOver { execute := true, maxSteps := 2 } = .ok l ∧
      run branchOver { execute := true, maxSteps := 5 } = .ok l ∧
      run branchOver { execute := true, maxSteps := 1 } = .error (.trap (.stepLimit 1))) ∧
    ∃ t, (∀ n, t ≠ .stepLimit n) ∧
      run [0x89, 0xd9, 0xf4] { maxSteps := 2 } = .error (.trap t) ∧
      run [0x89, 0xd9, 0xf4] { maxSteps := 7 } = .error (.trap t) ∧
      run [0x89, 0xd9, 0xf4] { maxSteps := 0 } = .error (.trap (.stepLimit 0)) := by
  refine ⟨?_, ?_⟩
  · let config : Config := { execute := true, maxSteps := 2 }
    obtain ⟨m₀, s, s', m, hload, htakes, hdone, -⟩ := takes_branchOver
    have hstart : Run.start branchOver config defaultMinMemory = .ok _ :=
      Run.start_eq_ok_iff.2 ⟨m₀, hload, rfl⟩
    have hrun : run branchOver config = .ok ⟨[s, s'], some m.snapshot⟩ :=
      run_eq_ok_iff.2 ⟨m₀, m, hload, htakes, hdone, Nat.le_refl 2, rfl⟩
    exact ⟨_, hrun, (run_maxSteps hstart 5).1 _ hrun, (run_maxSteps hstart 1).1 _ hrun⟩
  · let config : Config := { maxSteps := 2 }
    let program : List UInt8 := [0x89, 0xd9, 0xf4]
    have hlen : program.length ≤ addressSpace := by decide
    obtain ⟨m₀, hload, -⟩ := Machine.exists_load hlen defaultMinMemory
    have hstart : Run.start program config defaultMinMemory = .ok _ :=
      Run.start_eq_ok_iff.2 ⟨m₀, hload, rfl⟩
    have hmov : decode (.ofBytes program) = .ok _ ⟨2, [0xf4]⟩ := rfl
    have hexecute : config.execute = false := rfl
    obtain ⟨ip, source, hrun, -⟩ := run_of_decodes_error hlen hexecute
      (.cons hmov (.nil _)) rfl rfl (Nat.lt_succ_self 1)
    have hne : ∀ n, Trap.decode ip source ≠ .stepLimit n := fun n h => Trap.noConfusion h
    have hsteps : (⟨m₀, config, config.maxSteps⟩ : Run).finish.steps.length < 7 :=
      Nat.lt_of_le_of_lt (Run.ends_finishFrom config 2 m₀).length_le (by decide)
    have hseven := (run_maxSteps hstart 7).2.1 _ hrun hne
    have hzero := (run_maxSteps hstart 0).2.1 _ hrun hne
    rw [if_pos hsteps] at hseven
    exact ⟨_, hne, hrun, hseven, hzero⟩

end Machine86
