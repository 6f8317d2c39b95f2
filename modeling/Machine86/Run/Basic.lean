import Machine86.Run.Listing

/-!
# Runs

A `Run` is a machine with the switches it runs under and the number of instructions that it may
still take. `Run.next` takes one instruction; `Run.finish` takes them all, up to the end of the
program, a trap or the limit. `run` is a whole run of a program.
-/

namespace Machine86

structure Run where
  machine : Machine
  config : Config
  /-- How many instructions may still be taken. -/
  left : Nat
  deriving Repr, DecidableEq

/-- Why a program has no listing. -/
inductive RunError
  | tooLarge (e : TooLarge)
  | trap (t : Trap)
  deriving Repr, DecidableEq

def RunError.message : RunError → String
  | tooLarge e => e.message
  | trap t => t.message

/-- One instruction of the program, executed or passed over. -/
def Machine.take (execute : Bool) : EStateM Trap Machine (Option Step) :=
  if execute then
    Option.map (fun (fetched, trace) => Step.ofFetched fetched (some trace)) <$> Machine.step
  else Option.map (Step.ofFetched · none) <$> Machine.skip

/-- How far a run came: the steps that it made, the machine after them, and the trap that stopped
it before the end of the program. -/
structure Progress where
  steps : List Step
  machine : Machine
  trap : Option Trap

namespace Run

/-- A run before its first instruction. -/
def start (program : List UInt8) (config : Config) (minMemory : Nat) : Except TooLarge Run :=
  match Machine.load program minMemory with
  | .ok machine => .ok { machine, config, left := config.maxSteps }
  | .error e => .error e

/-- Takes one instruction; none at the end of the program. -/
def next : EStateM Trap Run (Option Step) := fun r =>
  if r.machine.isDone then .ok none r
  else
    match r.left with
    | 0 => .error (.stepLimit r.config.maxSteps) r
    | left + 1 =>
      match Machine.take r.config.execute r.machine with
      | .ok step machine => .ok step { r with machine, left }
      | .error trap machine => .error trap { r with machine, left }

/-- An instruction that is taken is one of those that may still be taken. -/
theorem left_lt_of_next {r r' : Run} {step : Step} (h : next r = .ok (some step) r') :
    r'.left < r.left := by
  obtain ⟨m, config, left⟩ := r
  unfold next at h
  split at h
  · cases h
  · rcases left with _ | left
    · cases h
    · dsimp only at h
      split at h
      · cases h
        exact Nat.lt_succ_self left
      · cases h

/-- Takes up to `left` instructions, after those in `done`. -/
def finishFrom (config : Config) : (left : Nat) → Machine → Array Step → Progress
  | 0, m, done =>
    ⟨done.toList, m, if m.isDone then none else some (.stepLimit config.maxSteps)⟩
  | left + 1, m, done =>
    match Machine.take config.execute m with
    | .ok none m' => ⟨done.toList, m', none⟩
    | .ok (some step) m' => finishFrom config left m' (done.push step)
    | .error trap m' => ⟨done.toList, m', some trap⟩

/-- All that a run has left to do. -/
def finish (r : Run) : Progress := finishFrom r.config r.left r.machine #[]

end Run

namespace Progress

/-- The listing of the steps made. A run that executes ends in a state, unless it was stopped. -/
def listing (p : Progress) (config : Config) : Listing where
  steps := p.steps
  finalState := if config.execute && p.trap.isNone then some p.machine.snapshot else none

end Progress

/-- The listing of a program that runs to its end. -/
def run (program : List UInt8) (config : Config) : Except RunError Listing :=
  match Run.start program config defaultMinMemory with
  | .error e => .error (.tooLarge e)
  | .ok r =>
    let progress := r.finish
    match progress.trap with
    | some trap => .error (.trap trap)
    | none => .ok (progress.listing config)

end Machine86
