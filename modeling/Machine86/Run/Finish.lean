import Machine86.Run.Basic

/-!
# A whole run is its steps one by one

`Run.finish` takes in one sweep what `Run.next` takes one at a time: `Run.finish_eq_next` unfolds
a run by its next step.
-/

namespace Machine86

namespace Machine

theorem fetch_eq_none_iff {m : Machine} : m.fetch = .ok none ↔ m.isDone = true := by
  unfold fetch
  split
  · simp_all
  · dsimp only
    split <;> simp_all

theorem take_of_isDone {m : Machine} (h : m.isDone = true) (execute : Bool) :
    take execute m = .ok none m := by
  have hf : m.fetch = .ok none := fetch_eq_none_iff.mpr h
  cases execute <;> simp [take, step, skip, Functor.map, EStateM.map, hf]

/-- Only at the end of the program there is nothing to take. -/
theorem isDone_of_take {m m' : Machine} {execute : Bool} (h : take execute m = .ok none m') :
    m.isDone = true := by
  rw [← fetch_eq_none_iff]
  cases hf : m.fetch with
  | error t => cases execute <;> simp [take, step, skip, Functor.map, EStateM.map, hf] at h
  | ok fetched =>
    cases fetched with
    | none => rfl
    | some f =>
      cases execute
      · simp [take, skip, Functor.map, EStateM.map, hf] at h
      · cases hx : exec f.instruction m.ip (m.advance f.size) <;>
          simp [take, step, Functor.map, EStateM.map, hf, hx] at h

end Machine

namespace Progress

/-- The same progress after earlier steps. -/
def after (done : List Step) (p : Progress) : Progress := { p with steps := done ++ p.steps }

end Progress

namespace Run

theorem finishFrom_eq_after (config : Config) (left : Nat) (m : Machine) (done : Array Step) :
    finishFrom config left m done = (finishFrom config left m #[]).after done.toList := by
  induction left generalizing m done with
  | zero => simp [finishFrom, Progress.after]
  | succ left ih =>
    unfold finishFrom
    split
    · simp [Progress.after]
    · rename_i step m' _
      rw [ih m' (done.push step), ih m' (#[].push step)]
      simp [Progress.after]
    · simp [Progress.after]

/-- What is left to do is the next step and what is left after it. -/
theorem finish_eq_next (r : Run) :
    r.finish = match next r with
      | .ok none r' => ⟨[], r'.machine, none⟩
      | .ok (some step) r' => r'.finish.after [step]
      | .error trap r' => ⟨[], r'.machine, some trap⟩ := by
  obtain ⟨m, config, left⟩ := r
  by_cases hd : m.isDone = true
  · cases left with
    | zero => simp [finish, finishFrom, next, hd]
    | succ left => simp [finish, finishFrom, next, hd, Machine.take_of_isDone hd]
  · cases left with
    | zero => simp [finish, finishFrom, next, hd]
    | succ left =>
      cases ht : Machine.take config.execute m with
      | error trap m' => simp [finish, finishFrom, next, hd, ht]
      | ok step m' =>
        cases step with
        | none => exact absurd (Machine.isDone_of_take ht) hd
        | some step =>
          simp only [finish, finishFrom, next, hd, ht, Bool.false_eq_true, ↓reduceIte]
          rw [finishFrom_eq_after]
          simp

end Run

end Machine86
