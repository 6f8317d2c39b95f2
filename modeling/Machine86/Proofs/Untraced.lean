import Machine86.Proofs.CheckedListing

/-!
# Along the straight line execution makes no difference

Where an instruction is fetched does not depend on registers and flags, so a machine that only
passes over the program fetches what an executing one fetches, as long as the pointers agree
(`Machine.take_untraced`). They do from step to step where the executing machine goes on behind each
instruction. So without execution a program is listed by the same steps without their traces just
where the executing run keeps to the straight line (`run_untraced_iff`), the whole address space
included, and under the same limit.
-/

namespace Machine86

def Step.untraced (s : Step) : Step := { s with trace := none }

theorem tiling_map_untraced {start : Nat} {steps : List Step} {bytes : List UInt8}
    (h : Tiling start (steps.map Step.untraced) bytes) : Tiling start steps bytes where
  first s hs := h.first s.untraced (by
    rw [List.head?_map, Option.mem_def.1 hs]
    rfl)
  next := (List.isChain_map Step.untraced).1 h.next
  bytes_eq := by
    rw [← h.bytes_eq, List.flatMap_map]
    rfl

namespace Machine

variable {program : List UInt8} {regs : Vector UInt16 8} {flags : Flags} {m m' : Machine}
  {f : Fetched} {s : Step} {steps : List Step}

/-- Without execution the machine makes the same step, and stands behind its instruction. -/
theorem take_untraced (hf : m.fetch = .ok (some f)) (ht : take true m = .ok (some s) m') :
    take false (m.withValues regs flags) =
      .ok (some s.untraced) ((m.advance f.size).withValues regs flags) := by
  obtain ⟨g, hg, -, rfl⟩ := take_eq_some_iff.1 ht
  rw [hf] at hg
  cases hg
  exact take_eq_some_iff.2 ⟨f, hf, rfl, rfl⟩

/-- The steps of an executing machine to the end of the program, along the straight line, lead there
without execution too. -/
theorem Takes.untraced (h : m.Takes true steps m') (hm : m.Loaded program)
    (hdone : m'.isDone = true) (hline : StraightLine program.length steps)
    (regs : Vector UInt16 8) (flags : Flags) :
    ∃ n, (m.withValues regs flags).Takes false (steps.map Step.untraced) n ∧
      n.isDone = true := by
  induction h with
  | nil m => exact ⟨_, .nil _, hdone⟩
  | @cons m m₁ m' s steps ht _ ih =>
    obtain ⟨hgoes, hline⟩ := straightLine_cons_iff.1 hline
    obtain ⟨f, trace, hf, hs⟩ := exists_fetched_of_take ht
    have htake : Machine.take false (m.withValues regs flags) = _ := take_untraced hf ht
    rcases hgoes with hgoes | ⟨rfl, hend⟩
    · obtain ⟨n, hn, hdone⟩ := ih (hm.take ht) hdone hline
      rw [eq_advance_of_goesOn hf ht hgoes] at hn
      exact ⟨n, .cons htake hn, hdone⟩
    · -- the instruction ends the program, so it does not matter where the branch led
      have hplace := hm.place_advance hf
      rw [place_of_not_isDone (fetch_eq_some_iff.1 hf).1, ← offset_of_take ht] at hplace
      refine ⟨_, .cons htake (.nil _), ?_⟩
      have hbytes : s.bytes = f.bytes := by rw [hs, Step.ofFetched]
      have hpassed := (hm.advance hf).withValues regs flags
      rw [hpassed.isDone_iff_place, place_withValues, hplace, ← hbytes]
      exact hend

end Machine

variable {program : List UInt8} {config : Config} {l : Listing}

/-- The listing without execution is the executing run's without its traces, if and only if that run
keeps to the straight line. -/
theorem run_untraced_iff (hrun : run program config = .ok l) (hexecute : config.execute = true) :
    run program { config with execute := false } = .ok ⟨l.steps.map Step.untraced, none⟩ ↔
      StraightLine program.length l.steps := by
  obtain ⟨m₀, m, hload, htakes, hdone, hlength, -⟩ := run_eq_ok_iff.1 hrun
  rw [hexecute] at htakes
  have hm₀ := Machine.loaded_of_load hload
  have hplace := Machine.place_of_load hload
  refine ⟨fun huntraced => ?_, fun hline => ?_⟩
  · obtain ⟨n₀, n, hload', htakes', hdone', -⟩ := run_eq_ok_iff.1 huntraced
    rw [hload] at hload'
    cases hload'
    obtain ⟨-, -, -, -, -, htiling⟩ :=
      hm₀.decodes_of_straightLine htakes' hdone' htakes'.straightLine_of_not_execute
    rw [hplace, List.drop_zero] at htiling
    exact htakes.straightLine_of_tiling (tiling_map_untraced htiling) (Nat.zero_add _)
  · obtain ⟨n, htakes', hdone'⟩ := htakes.untraced hm₀ hdone hline m₀.regs m₀.flags
    refine run_eq_ok_iff.2 ⟨m₀, n, hload, htakes', hdone', ?_, rfl⟩
    rw [List.length_map]
    exact hlength

/-- A run none of whose steps leaves the straight line makes the same steps without execution, under
the same limit, less their traces. -/
theorem run_untraced (hrun : run program config = .ok l) (hexecute : config.execute = true)
    (hline : ∀ s ∈ l.steps, s.GoesOn) :
    run program { config with execute := false } = .ok ⟨l.steps.map Step.untraced, none⟩ :=
  (run_untraced_iff hrun hexecute).2 (straightLine_of_forall hline)

theorem run_untraced_branchOn :
    let config : Config := { execute := true, maxSteps := 2 }
    ∃ l, run branchOn config = .ok l ∧ config.execute = true ∧ (∀ s ∈ l.steps, s.GoesOn) ∧
      run branchOn { maxSteps := 2 } = .ok ⟨l.steps.map Step.untraced, none⟩ := by
  intro config
  obtain ⟨m₀, s, s', m, hload, htakes, hdone, hline⟩ := takes_branchOn
  have hrun : run branchOn config = .ok ⟨[s, s'], some m.snapshot⟩ :=
    run_eq_ok_iff.2 ⟨m₀, m, hload, htakes, hdone, Nat.le_refl 2, rfl⟩
  have hexecute : config.execute = true := rfl
  have huntraced := run_untraced hrun hexecute hline
  exact ⟨_, hrun, hexecute, hline, huntraced⟩

end Machine86
