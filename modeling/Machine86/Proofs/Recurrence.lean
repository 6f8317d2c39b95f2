import Machine86.Proofs.StepLimit

/-!
# A run that comes to an end repeats no state

What a machine does next depends on more than its snapshot shows: on the memory, the length of the
program, and whether the pointer has wrapped around. But the first two never change, and a machine
that makes another step has not wrapped around. So between two steps from the same snapshot the
machine goes in a circle (`Machine.Takes.eq_of_snapshot_eq`), which it repeats until the limit stops
it, however high that is (`run_visited`).
-/

namespace Machine86

/-- The snapshots from which a run makes its steps, up to so many of them. -/
def Run.visited : (calls : Nat) → Run → List Snapshot
  | 0, _ => []
  | calls + 1, r =>
    match next r with
    | .ok (some _) r' => r.machine.snapshot :: visited calls r'
    | _ => []

namespace Machine

variable {execute : Bool} {m m' m'' : Machine} {s : Step} {steps loop : List Step}

/-- A step leaves alone what lies in memory, and how long the program is. -/
theorem kept_of_take (h : take execute m = .ok (some s) m') :
    ∃ regs flags ip wrapped, m' = { m with regs, flags, ip, wrapped } := by
  obtain ⟨f, -, h⟩ := take_eq_some_iff.1 h
  split_ifs at h
  · rw [eq_of_perform? h.1]
    exact ⟨_, _, _, _, rfl⟩
  · exact ⟨_, _, _, _, h.1⟩

theorem Takes.kept (h : m.Takes execute steps m') :
    ∃ regs flags ip wrapped, m' = { m with regs, flags, ip, wrapped } := by
  induction h with
  | nil m => exact ⟨m.regs, m.flags, m.ip, m.wrapped, rfl⟩
  | cons ht _ ih =>
    obtain ⟨regs, flags, ip, wrapped, rfl⟩ := kept_of_take ht
    obtain ⟨regs', flags', ip', wrapped', rfl⟩ := ih
    exact ⟨regs', flags', ip', wrapped', rfl⟩

/-- On the way of a run, machines that go on and show the same are the same. -/
theorem Takes.eq_of_snapshot_eq (h : m.Takes execute steps m') (hm : m.isDone = false)
    (hm' : m'.isDone = false) (hsnapshot : m.snapshot = m'.snapshot) : m' = m := by
  have hwrapped := wrapped_of_not_isDone hm
  have hwrapped' := wrapped_of_not_isDone hm'
  obtain ⟨regs, flags, ip, wrapped, rfl⟩ := h.kept
  obtain ⟨rfl, rfl, rfl⟩ := Snapshot.mk.inj hsnapshot
  rw [← hwrapped] at hwrapped'
  cases hwrapped'
  rfl

theorem Takes.append (h : m.Takes execute steps m') (h' : m'.Takes execute loop m'') :
    m.Takes execute (steps ++ loop) m'' :=
  takes_append_iff.2 ⟨m', h, h'⟩

/-- A circle can be gone round any number of times. -/
theorem Takes.replicate (h : m.Takes execute loop m) (n : Nat) :
    m.Takes execute (List.replicate n loop).flatten m := by
  induction n with
  | zero => exact .nil m
  | succ n ih =>
    rw [List.replicate_succ, List.flatten_cons]
    exact h.append ih

end Machine

section Visited

variable {r r' : Run} {s : Step} {calls : Nat} {x : Snapshot}

theorem Run.visited_of_next (h : next r = .ok (some s) r') (calls : Nat) :
    r.visited (calls + 1) = r.machine.snapshot :: r'.visited calls := by
  rw [visited, h]

/-- A state that was visited was reached by steps, and another step was made from it. -/
theorem Run.takes_of_mem_visited (hx : x ∈ r.visited calls) :
    ∃ steps m, r.machine.Takes r.config.execute steps m ∧ m.isDone = false ∧ m.snapshot = x := by
  induction calls generalizing r with
  | zero => cases hx
  | succ calls ih =>
    unfold visited at hx
    split at hx
    · rename_i s r' hnext
      obtain ⟨ht, hconfig, -⟩ := next_eq_some_iff.1 hnext
      rcases List.mem_cons.1 hx with rfl | hx
      · exact ⟨[], r.machine, .nil _, Machine.not_isDone_of_take ht, rfl⟩
      · obtain ⟨steps, m, htakes, hm⟩ := ih hx
        rw [hconfig] at htakes
        exact ⟨s :: steps, m, .cons ht htakes, hm⟩
    · cases hx

/-- A run that visits a state twice goes in a circle. -/
theorem Run.exists_loop_of_visited (h : ¬ (r.visited calls).Nodup) :
    ∃ steps loop m, r.machine.Takes r.config.execute steps m ∧
      m.Takes r.config.execute loop m ∧ loop ≠ [] ∧ m.isDone = false := by
  induction calls generalizing r with
  | zero => exact absurd List.nodup_nil h
  | succ calls ih =>
    unfold visited at h
    split at h
    · rename_i s r' hnext
      obtain ⟨ht, hconfig, -⟩ := next_eq_some_iff.1 hnext
      rw [List.nodup_cons, not_and_or, not_not] at h
      rcases h with hagain | hlater
      · -- the circle starts here: the state is visited again after this step
        obtain ⟨steps, m, htakes, hdone, hsnapshot⟩ := takes_of_mem_visited hagain
        rw [hconfig] at htakes
        have hloop : r.machine.Takes r.config.execute (s :: steps) m := .cons ht htakes
        have hnot := Machine.not_isDone_of_take ht
        obtain rfl := hloop.eq_of_snapshot_eq hnot hdone hsnapshot.symm
        exact ⟨[], s :: steps, r.machine, .nil _, hloop, List.cons_ne_nil _ _, hnot⟩
      · obtain ⟨steps, loop, m, htakes, hloop, hne, hdone⟩ := ih hlater
        rw [hconfig] at htakes hloop
        exact ⟨s :: steps, loop, m, .cons ht htakes, hloop, hne, hdone⟩
    · exact absurd List.nodup_nil h

/-- The states that a run visits are those before its steps, one for each. -/
theorem Run.ip_visited_of_takes {m : Machine} {steps : List Step}
    (h : r.machine.Takes r.config.execute steps m) (hleft : steps.length ≤ r.left) :
    (r.visited steps.length).map Snapshot.ip = steps.map Step.offset := by
  obtain ⟨m₀, config, left⟩ := r
  dsimp only at h hleft
  induction h generalizing left with
  | nil => rfl
  | @cons m m₁ m' s steps ht _ ih =>
    rw [List.length_cons] at hleft ⊢
    obtain ⟨left, rfl⟩ : ∃ k, left = k + 1 := ⟨left - 1, by omega⟩
    have hnext : next ⟨m, config, left + 1⟩ = .ok (some s) ⟨m₁, config, left⟩ :=
      next_eq_some_iff.2 ⟨ht, rfl, rfl⟩
    rw [visited_of_next hnext, List.map_cons, List.map_cons, Machine.offset_of_take ht,
      ih left (Nat.le_of_succ_le_succ hleft)]
    rfl

end Visited

/-- A run that comes to the end of its program makes each of its steps from another state. A run
that makes two steps from the same state is stopped by the limit, whatever that is. -/
theorem run_visited {program : List UInt8} {config : Config} {r : Run}
    (hstart : Run.start program config defaultMinMemory = .ok r) :
    (∀ l, run program config = .ok l →
      (r.visited l.steps.length).map Snapshot.ip = l.steps.map Step.offset ∧
        ∀ calls, (r.visited calls).Nodup) ∧
    ∀ calls, ¬ (r.visited calls).Nodup → ∀ cap,
      run program { config with maxSteps := cap } = .error (.trap (.stepLimit cap)) := by
  obtain ⟨m₀, hload, rfl⟩ := Run.start_eq_ok_iff.1 hstart
  have hstopped : ∀ calls, ¬ (Run.visited calls ⟨m₀, config, config.maxSteps⟩).Nodup → ∀ cap,
      run program { config with maxSteps := cap } = .error (.trap (.stepLimit cap)) := by
    intro calls hcalls cap
    obtain ⟨steps, loop, m, htakes, hloop, hne, hdone⟩ := Run.exists_loop_of_visited hcalls
    refine run_eq_stepLimit hload (htakes.append (hloop.replicate cap)) ?_ fun _ => hdone
    have hpos := List.length_pos_iff.2 hne
    have hround := Nat.le_mul_of_pos_right cap hpos
    rw [List.length_append, List.length_flatten, List.map_replicate, List.sum_replicate_nat]
    omega
  refine ⟨fun l hl => ⟨?_, fun calls => ?_⟩, hstopped⟩
  · obtain ⟨m₀', m, hload', htakes, -, hlength, -⟩ := run_eq_ok_iff.1 hl
    rw [hload] at hload'
    cases hload'
    exact Run.ip_visited_of_takes htakes hlength
  · by_contra hcalls
    rw [hstopped calls hcalls config.maxSteps] at hl
    cases hl

/-- A branch to itself. -/
def spin : List UInt8 := [0x75, 0xfe]

/-- The two steps of the branch over a move start from different states. The branch to itself always
starts from the same. -/
theorem run_visited_spin :
    (∃ r, Run.start branchOver { execute := true, maxSteps := 2 } defaultMinMemory = .ok r ∧
      (∃ l, run branchOver { execute := true, maxSteps := 2 } = .ok l) ∧
      (r.visited 2).map Snapshot.ip = [0, 4] ∧ (r.visited 2).Nodup) ∧
    ∃ r, Run.start spin { execute := true, maxSteps := 2 } defaultMinMemory = .ok r ∧
      ¬ (r.visited 2).Nodup ∧ ∀ cap,
        run spin { execute := true, maxSteps := cap } = .error (.trap (.stepLimit cap)) := by
  let config : Config := { execute := true, maxSteps := 2 }
  refine ⟨?_, ?_⟩
  · obtain ⟨m₀, s, s', m, hload, htakes, hdone, -, hs, -, hs', -⟩ := takes_branchOver
    have hstart : Run.start branchOver config defaultMinMemory = .ok ⟨m₀, config, 2⟩ :=
      Run.start_eq_ok_iff.2 ⟨m₀, hload, rfl⟩
    have hrun : run branchOver config = .ok ⟨[s, s'], some m.snapshot⟩ :=
      run_eq_ok_iff.2 ⟨m₀, m, hload, htakes, hdone, Nat.le_refl 2, rfl⟩
    obtain ⟨hips, hnodup⟩ := (run_visited hstart).1 _ hrun
    refine ⟨_, hstart, ⟨_, hrun⟩, ?_, hnodup 2⟩
    rw [← hs, ← hs']
    exact hips
  · obtain ⟨memory, hmemory⟩ : ∃ memory, Memory.ofProgram spin defaultMinMemory = .ok memory :=
      ⟨_, rfl⟩
    let state (ip : UInt16) : Machine :=
      ⟨Vector.replicate 8 0, {}, ip, memory, 2, false, defaultMinMemory⟩
    have hload : Machine.load spin defaultMinMemory = .ok (state 0) :=
      Machine.load_eq_ok_iff.2 ⟨memory, hmemory, rfl⟩
    have hbranch : (state 2).perform? (Jump.operation ⟨0x75, -2⟩) = some (state 0) := by
      have hzero : ({} : Flags).zero = false := rfl
      have hback : (2 : UInt16) + (-2 : Int8).toInt16.toUInt16 = 0 := by decide
      rw [Jump.perform?_operation, if_pos (.inr ⟨rfl, hzero⟩)]
      exact congrArg (fun ip => some (state ip)) hback
    have hjump : Machine.take true (state 0) = .ok _ (state 0) :=
      (Machine.loaded_of_load hload).take_of_decode rfl rfl hbranch
    have hnext (left : Nat) :
        Run.next ⟨state 0, config, left + 1⟩ = .ok (some _) ⟨state 0, config, left⟩ :=
      Run.next_eq_some_iff.2 ⟨hjump, rfl, rfl⟩
    have hstart : Run.start spin config defaultMinMemory = .ok ⟨state 0, config, 2⟩ :=
      Run.start_eq_ok_iff.2 ⟨_, hload, rfl⟩
    have hvisited : ¬ (Run.visited 2 ⟨state 0, config, 2⟩).Nodup := by
      rw [Run.visited_of_next (hnext 1), Run.visited_of_next (hnext 0)]
      simp
    exact ⟨_, hstart, hvisited, (run_visited hstart).2 2 hvisited⟩

end Machine86
