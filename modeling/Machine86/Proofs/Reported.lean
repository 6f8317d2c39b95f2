import Machine86.Files.Tree
import Machine86.Command.Basic
import Machine86.Proofs.ErrorText
import Machine86.Proofs.StepLimit

/-!
# What the command reports of a run

The command calls `Run.next` until the program ends or a trap comes, and keeps the steps. These are
the steps of the whole run (`Run.collect_eq_finish`), so what it prints for a program that runs to
its end is the report of the listing that `run` makes; for one that is stopped it is the report of
the steps up to there, and the trap is told as the reason that the command fails for
(`perform_reports_run`).
-/

namespace Machine86

/-- Called again and again, a run brings some steps, and then the end of the program or a trap. -/
inductive Run.Yields : Run → List Step → Option Trap → Run → Prop
  | done {r r' : Run} (h : next r = .ok none r') : Yields r [] none r'
  | trap {r r' : Run} {t : Trap} (h : next r = .error t r') : Yields r [] (some t) r'
  | step {r r' r'' : Run} {s : Step} {steps : List Step} {trap : Option Trap}
    (h : next r = .ok (some s) r') (hs : Yields r' steps trap r'') :
    Yields r (s :: steps) trap r''

section

variable {config : Config} {steps : List Step} {m m' : Machine} {t : Trap}

theorem Progress.listing_of_completed : (⟨steps, m, none⟩ : Progress).listing config =
    ⟨steps, if config.execute then some m.snapshot else none⟩ := by
  simp [listing]

theorem Progress.listing_of_trapped :
    (⟨steps, m, some t⟩ : Progress).listing config = ⟨steps, none⟩ := by
  simp [listing]

/-- A trap names an instruction by its text, which is on one line. -/
theorem Machine.plain_of_take {execute : Bool} (h : take execute m = .error t m') : t.Plain := by
  rintro ip what rfl
  rw [take_eq_error_iff] at h
  split_ifs at h
  · rcases step_eq_error_iff.1 h with ⟨hfetch, -⟩ | ⟨f, -, -, htrap, -⟩
    · obtain ⟨_, _, _, _, htrap⟩ := fetch_eq_error_iff.1 hfetch
      cases htrap
    · cases htrap
      exact f.instruction.assembly_text.oneLine
  · obtain ⟨_, _, _, _, htrap⟩ := fetch_eq_error_iff.1 (skip_eq_error_iff.1 h).1
    cases htrap

end

namespace Run

variable {r r' : Run} {steps : List Step} {trap : Option Trap}

theorem Yields.finish_eq (h : r.Yields steps trap r') :
    r.finish = ⟨steps, r'.machine, trap⟩ := by
  induction h with
  | done h => rw [finish_eq_next, h]
  | trap h => rw [finish_eq_next, h]
  | step h _ ih =>
    rw [finish_eq_next, h]
    dsimp only
    rw [ih]
    rfl

theorem Yields.collect_eq (h : r.Yields steps trap r') (done : Array Step) :
    r.collect done = ⟨done.toList ++ steps, r'.machine, trap⟩ := by
  induction h generalizing done with
  | done h =>
    unfold collect
    split <;> simp_all
  | trap h =>
    unfold collect
    split <;> simp_all
  | step h _ ih =>
    unfold collect
    split <;> simp_all

/-- Each step is one of those that the limit leaves, so the calls come to an end. -/
theorem exists_yields (r : Run) : ∃ steps trap r', r.Yields steps trap r' := by
  induction hleft : r.left using Nat.strong_induction_on generalizing r with
  | _ left ih =>
    rcases hnext : next r with ⟨_ | s, r'⟩ | ⟨t, r'⟩
    · exact ⟨[], none, r', .done hnext⟩
    · obtain ⟨-, -, hless⟩ := next_eq_some_iff.1 hnext
      obtain ⟨steps, trap, r'', hyields⟩ := ih r'.left (by omega) r' rfl
      exact ⟨s :: steps, trap, r'', .step hnext hyields⟩
    · exact ⟨[], some t, r', .trap hnext⟩

/-- The command comes as far, call by call, as a whole run does. -/
theorem collect_eq_finish (r : Run) : r.collect #[] = r.finish := by
  obtain ⟨steps, trap, r', hyields⟩ := r.exists_yields
  rw [hyields.collect_eq, hyields.finish_eq, Array.toList_empty, List.nil_append]

/-- A program that is larger than the address space is refused with its length. -/
theorem start_eq_error_iff {program : List UInt8} {config : Config} {minMemory : Nat}
    {e : TooLarge} :
    start program config minMemory = .error e ↔
      addressSpace < program.length ∧ e = ⟨program.length⟩ := by
  unfold start Machine.load Memory.ofProgram
  dsimp only
  split_ifs with hsize
  · simp [hsize, eq_comm]
  · simp [hsize]

/-- What a whole run makes of the steps and the trap that its calls bring. -/
theorem run_of_yields {program : List UInt8} {config : Config}
    (hstart : start program config defaultMinMemory = .ok r) (h : r.Yields steps trap r') :
    run program config =
      match trap with
      | some t => .error (.trap t)
      | none => .ok ⟨steps, if config.execute then some r'.machine.snapshot else none⟩ := by
  simp only [run, hstart, h.finish_eq]
  cases trap with
  | some t => rfl
  | none => exact congrArg Except.ok Progress.listing_of_completed

theorem Yields.plain (h : r.Yields steps trap r') : ∀ t ∈ trap, t.Plain := by
  induction h with
  | done => exact fun _ => nofun
  | trap h =>
    rintro t ⟨⟩
    rcases (next_eq_error_iff.1 h).2 with ⟨-, rfl, -⟩ | ⟨htake, -⟩
    · exact fun _ _ => nofun
    · exact Machine.plain_of_take htake
  | step _ _ ih => exact ih

theorem Yields.length_of_stepLimit {n : Nat} (h : r.Yields steps (some (.stepLimit n)) r') :
    n = r.config.maxSteps ∧ steps.length = r.left := by
  have hends := ends_finishFrom r.config r.left r.machine
  have hfinish : finishFrom r.config r.left r.machine #[] = ⟨steps, r'.machine, _⟩ := h.finish_eq
  rw [hfinish] at hends
  exact hends.length_of_stepLimit rfl

end Run

/-- The part of a file that was asked for, where the file has it. -/
theorem selectProgram_eq_ok_iff {file program : List UInt8} {skip : Nat} {len : Option Nat} :
    selectProgram file skip len = .ok program ↔
      skip ≤ file.length ∧ (∀ n ∈ len, skip + n ≤ file.length) ∧
        program = (file.drop skip).take (len.getD file.length) := by
  have hdrop : (file.drop skip).length = file.length - skip := List.length_drop
  unfold selectProgram
  dsimp only
  split_ifs with hskip
  · simp [Nat.not_le.2 hskip]
  rw [Nat.not_lt] at hskip
  cases len with
  | none =>
    have hall : (file.drop skip).take file.length = file.drop skip :=
      List.take_of_length_le (by omega)
    simp [hskip, hall, eq_comm]
  | some n =>
    dsimp only
    split_ifs with hlen
    · have hover : ¬ skip + n ≤ file.length := by omega
      simp [hover]
    · have hfits : skip + n ≤ file.length := by omega
      simp [hskip, hfits, eq_comm]

theorem selectProgram_eq_error_iff {file : List UInt8} {skip : Nat} {len : Option Nat}
    {e : LoadError} :
    selectProgram file skip len = .error e ↔ file.length < skip ∧ e = .skipTooLarge ∨
      skip ≤ file.length ∧ (∃ n, len = some n ∧ file.length < skip + n) ∧ e = .lenTooLarge := by
  have hdrop : (file.drop skip).length = file.length - skip := List.length_drop
  unfold selectProgram
  dsimp only
  split_ifs with hskip
  · simp [hskip, Nat.not_le.2 hskip, eq_comm]
  rw [Nat.not_lt] at hskip
  cases len with
  | none => simp [Nat.not_lt.2 hskip]
  | some n =>
    dsimp only
    split_ifs with hlen
    · have hlong : file.length < skip + n := by omega
      simp [hskip, hlong, Nat.not_lt.2 hskip, eq_comm]
    · have hfits : ¬ file.length < skip + n := by omega
      simp [hfits, Nat.not_lt.2 hskip]

/-- What follows a command goes on with its result, in the world that it leaves. -/
theorem World.bind_of_eq {α β : Type} {x : StateM World α} {w w' : World} {a : α}
    (h : x w = (a, w')) (f : α → StateM World β) : (x >>= f) w = f a w' := by
  simp only [bind, StateT.bind, h]

theorem World.map_of_eq {α β : Type} {x : StateM World α} {w w' : World} {a : α}
    (h : x w = (a, w')) (f : α → β) : (f <$> x) w = (f a, w') := by
  simp only [Functor.map, StateT.map, h]
  rfl

theorem World.loadProgram_of_read {w : World} {path : String} {file : List UInt8}
    (h : w.tree.read path = .ok file) (skip : Nat) (len : Option Nat) :
    (loadProgram path skip len : StateM World _) w = (selectProgram file skip len, w) := by
  have hfile : (Host.readFile path : StateM World _) w = (.ok file, w) := congrArg (·, w) h
  rw [loadProgram, World.bind_of_eq hfile]
  rfl

theorem World.loadProgram_of_unreadable {w : World} {path : String} {cause : HostError}
    (h : w.tree.read path = .error cause) (skip : Nat) (len : Option Nat) :
    (loadProgram path skip len : StateM World _) w = (.error (.unreadable path cause), w) := by
  have hfile : (Host.readFile path : StateM World _) w = (.error cause, w) := congrArg (·, w) h
  rw [loadProgram, World.bind_of_eq hfile]
  rfl

/-- Loading does not touch the system. -/
theorem World.exists_loaded (w : World) (path : String) (skip : Nat) (len : Option Nat) :
    ∃ loaded, (loadProgram path skip len : StateM World _) w = (loaded, w) := by
  cases hread : w.tree.read path with
  | error cause => exact ⟨_, loadProgram_of_unreadable hread skip len⟩
  | ok file => exact ⟨_, loadProgram_of_read hread skip len⟩

namespace Options

variable {o : Options} {program file : List UInt8} {w : World}

/-- Without a check and a file to write to, a run is concluded with the report of its listing. -/
theorem reportRun_of_unchecked (hcheck : o.config.check = false) (hout : o.out = none)
    (p : Progress) {m : Type → Type} [Monad m] [LawfulMonad m] [Host m] :
    (o.reportRun program p : m Outcome) =
      pure (o.conclude (o.reportText ⟨o.input, p.listing o.config, .absent⟩) p .absent) := by
  simp [reportRun, check, emit, hcheck, hout]

/-- What is told of a run that was stopped. -/
theorem report_of_trap (o : Options) {t : Trap} (h : t.Plain) :
    (t.chain.within ("failed to process " ++ o.input)).report =
      "Error: failed to process " ++ o.input ++ "\n\nCaused by:\n" ++ t.account := by
  have hstart : "Error: " ++ ("failed to process " ++ o.input) =
      "Error: failed to process " ++ o.input := by
    rw [← String.append_assoc]
    rfl
  rw [Trap.report_within h, hstart]

/-- The command on a program that is loaded. -/
theorem execute_of_loaded
    (hload : (loadProgram o.input o.skip o.len : StateM World _) w = (.ok program, w)) :
    (o.execute : StateM World Outcome) w =
      match Run.start program o.config defaultMinMemory with
      | .error e => (.failed "" ⟨e.message, []⟩, w)
      | .ok r => (o.reportRun program r.finish : StateM World Outcome) w := by
  rw [execute, World.bind_of_eq hload]
  dsimp only
  cases Run.start program o.config defaultMinMemory with
  | error e => rfl
  | ok r =>
    dsimp only
    rw [r.collect_eq_finish]

theorem execute_of_selected (hread : w.tree.read o.input = .ok file)
    (hselect : selectProgram file o.skip o.len = .ok program) :
    (o.execute : StateM World Outcome) w =
      match Run.start program o.config defaultMinMemory with
      | .error e => (.failed "" ⟨e.message, []⟩, w)
      | .ok r => (o.reportRun program r.finish : StateM World Outcome) w := by
  refine execute_of_loaded ?_
  rw [World.loadProgram_of_read hread, hselect]

section Yields

variable {r r' : Run} {steps : List Step} (hcheck : o.config.check = false) (hout : o.out = none)
  (hread : w.tree.read o.input = .ok file)
  (hselect : selectProgram file o.skip o.len = .ok program)
  (hstart : Run.start program o.config defaultMinMemory = .ok r)

include hcheck hout hread hselect hstart

/-- A run that comes to its end is reported with its last state, and the command succeeds. -/
theorem execute_of_completed (h : r.Yields steps none r') :
    (o.execute : StateM World Outcome) w = (⟨0, o.reportText ⟨o.input,
      ⟨steps, if o.config.execute then some r'.machine.snapshot else none⟩, .absent⟩, ""⟩, w) := by
  rw [execute_of_selected hread hselect, hstart]
  dsimp only
  rw [reportRun_of_unchecked hcheck hout, h.finish_eq, Progress.listing_of_completed]
  rfl

/-- A run that is stopped is reported up to there, and the command fails with the trap. -/
theorem execute_of_trapped {t : Trap} (h : r.Yields steps (some t) r') :
    (o.execute : StateM World Outcome) w =
      (⟨1, o.reportText ⟨o.input, ⟨steps, none⟩, .absent⟩,
        "Error: failed to process " ++ o.input ++ "\n\nCaused by:\n" ++ t.account⟩, w) := by
  rw [execute_of_selected hread hselect, hstart]
  dsimp only
  rw [reportRun_of_unchecked hcheck hout, h.finish_eq, Progress.listing_of_trapped, conclude]
  dsimp only
  rw [Outcome.failed, o.report_of_trap (h.plain t rfl)]
  rfl

end Yields

theorem reportText_absent (o : Options) (l : Listing) :
    o.reportText ⟨o.input, l, .absent⟩ =
      if o.format = .json then Report.jsonText ⟨o.input, l, .absent⟩
      else "; disassembled by sim8086: " ++ o.input ++ "\n" ++ l.render o.config := by
  unfold reportText
  cases o.format with
  | json => rfl
  | text => exact String.append_empty

end Options

/-- What the command prints for a program, where it neither checks nor writes to a file. The run of
the program to its end is reported, and nothing goes wrong. A run that is stopped is reported as far
as it came, without a last state, and the trap is told as the reason of the failure. A program that
does not fit the address space is refused, and nothing is reported. -/
theorem perform_reports_run {args : List String} {o : Options} {w : World} {file : List UInt8}
    (hargs : Invocation.ofArgs args = .run o) (hcheck : o.config.check = false)
    (hout : o.out = none) (hread : w.tree.read o.input = .ok file) (hskip : o.skip ≤ file.length)
    (hlen : ∀ n ∈ o.len, o.skip + n ≤ file.length) :
    let program := (file.drop o.skip).take (o.len.getD file.length)
    let outcome : Outcome × World := ((Invocation.ofArgs args).perform : StateM World Outcome) w
    let printed (l : Listing) : String :=
      if o.format = .json then Report.jsonText ⟨o.input, l, .absent⟩
      else "; disassembled by sim8086: " ++ o.input ++ "\n" ++ l.render o.config
    (∀ l, run program o.config = .ok l →
      (∃ r r', Run.start program o.config defaultMinMemory = .ok r ∧
        r.Yields l.steps none r') ∧
      outcome = (⟨0, printed l, ""⟩, w)) ∧
    (∀ t, run program o.config = .error (.trap t) → ∃ r steps r',
      Run.start program o.config defaultMinMemory = .ok r ∧ r.Yields steps (some t) r' ∧
        (∀ n, t = .stepLimit n → n = o.config.maxSteps ∧ steps.length = n) ∧
        outcome = (⟨1, printed ⟨steps, none⟩,
          "Error: failed to process " ++ o.input ++ "\n\nCaused by:\n" ++ t.account⟩, w)) ∧
    ∀ e, run program o.config = .error (.tooLarge e) →
      outcome = (⟨1, "", "Error: program of " ++ Numeral.decimal program.length ++
        " bytes does not fit the 64 KiB address space\n"⟩, w) := by
  intro program outcome printed
  have hselect : selectProgram file o.skip o.len = .ok program :=
    selectProgram_eq_ok_iff.2 ⟨hskip, hlen, rfl⟩
  have houtcome : outcome = (o.execute : StateM World Outcome) w := by
    simp only [outcome, hargs]
    rfl
  have hprinted (l : Listing) : o.reportText ⟨o.input, l, .absent⟩ = printed l :=
    o.reportText_absent l
  rw [houtcome]
  rcases hstart : Run.start program o.config defaultMinMemory with e | r
  · have hrun : run program o.config = .error (.tooLarge e) := by rw [run, hstart]
    refine ⟨by simp [hrun], by simp [hrun], fun e' he' => ?_⟩
    rw [hrun] at he'
    cases he'
    rw [Options.execute_of_selected hread hselect, hstart]
    dsimp only
    rw [Outcome.failed, (Run.start_eq_error_iff.1 hstart).2, TooLarge.report_message]
  · obtain ⟨steps, trap, r', hyields⟩ := r.exists_yields
    have hrun := Run.run_of_yields hstart hyields
    rcases trap with _ | t
    · refine ⟨fun l hl => ?_, by simp [hrun], by simp [hrun]⟩
      rw [hrun] at hl
      cases hl
      rw [← hprinted]
      exact ⟨⟨r, r', rfl, hyields⟩,
        Options.execute_of_completed hcheck hout hread hselect hstart hyields⟩
    · refine ⟨by simp [hrun], fun t' ht' => ?_, by simp [hrun]⟩
      rw [hrun] at ht'
      cases ht'
      refine ⟨r, steps, r', rfl, hyields, ?_, ?_⟩
      · obtain ⟨m₀, -, rfl⟩ := Run.start_eq_ok_iff.1 hstart
        rintro n rfl
        obtain ⟨rfl, hsteps⟩ := hyields.length_of_stepLimit
        exact ⟨rfl, hsteps⟩
      · rw [← hprinted]
        exact Options.execute_of_trapped hcheck hout hread hselect hstart hyields

/-- A system with one file, `p.bin`, and no assembler. -/
def worldWith (content : List UInt8) : World where
  tree := { workingDir := [], entries := [(["p.bin"], .file content)] }
  assembler := none

/-- The command that executes six bytes of that file behind the first. -/
def executeMiddle (maxSteps : Nat) (format : Format) : Options where
  input := "p.bin"
  config := { execute := true, maxSteps }
  skip := 1
  len := some 6
  format
  out := none
  checkDir := "."

/-- The branch over a move, with another byte on either side: as text under a limit of two steps,
and as JSON under a limit of one. -/
theorem perform_reports_run_branchOver :
    let w := worldWith (0xff :: branchOver ++ [0xf4])
    let args (limit format : String) :=
      ["--exec", "p.bin", "--skip", "1", "--len=6", "--format", format, "--max-steps", limit]
    (∃ l, run branchOver (executeMiddle 2 .text).config = .ok l ∧
      ((Invocation.ofArgs (args "2" "text")).perform : StateM World Outcome) w =
        (⟨0, "; disassembled by sim8086: p.bin\n" ++ l.render (executeMiddle 2 .text).config, ""⟩,
          w)) ∧
    ∃ steps, steps.length = 1 ∧
      ((Invocation.ofArgs (args "1" "json")).perform : StateM World Outcome) w =
        (⟨1, Report.jsonText ⟨"p.bin", ⟨steps, none⟩, .absent⟩,
          "Error: failed to process p.bin\n\nCaused by:\n    step limit of 1 reached\n"⟩, w) := by
  intro w args
  have hread : w.tree.read "p.bin" = .ok (0xff :: branchOver ++ [0xf4]) := rfl
  have hskip : 1 ≤ (0xff :: branchOver ++ [0xf4]).length := by decide
  have hlen : ∀ n ∈ some 6, 1 + n ≤ (0xff :: branchOver ++ [0xf4]).length := by
    rintro n ⟨⟩
    decide
  have hargs₂ : Invocation.ofArgs (args "2" "text") = .run (executeMiddle 2 .text) := by decide
  have hargs₁ : Invocation.ofArgs (args "1" "json") = .run (executeMiddle 1 .json) := by decide
  obtain ⟨m₀, s, s', m, hload, htakes, hdone, -⟩ := takes_branchOver
  refine ⟨?_, ?_⟩
  · have hrun : run branchOver (executeMiddle 2 .text).config = .ok ⟨[s, s'], some m.snapshot⟩ :=
      run_eq_ok_iff.2 ⟨m₀, m, hload, htakes, hdone, Nat.le_refl 2, rfl⟩
    obtain ⟨hok, -⟩ := perform_reports_run hargs₂ rfl rfl hread hskip hlen
    exact ⟨_, hrun, (hok _ hrun).2⟩
  · have htakes₁ : m₀.Takes (executeMiddle 1 .json).config.execute [s, s'] m := htakes
    have hrun : run branchOver (executeMiddle 1 .json).config = .error (.trap (.stepLimit 1)) :=
      run_eq_stepLimit hload htakes₁ (by simp) (by simp)
    obtain ⟨-, hstopped, -⟩ := perform_reports_run hargs₁ rfl rfl hread hskip hlen
    obtain ⟨-, steps, -, -, -, hlimit, houtcome⟩ := hstopped _ hrun
    exact ⟨steps, (hlimit 1 rfl).2, houtcome⟩

end Machine86
