import Mathlib.Data.Set.List
import Machine86.Proofs.CheckedListing
import Machine86.Proofs.CommandLine
import Machine86.Proofs.Places
import Machine86.Proofs.Rendering
import Machine86.Proofs.Reported

/-!
# The course of a command

A command either refuses its program, which cannot be loaded or does not fit the address space, or
it comes to a report. The report tells of the run as far as it came and of the check, which is made
where it was asked for and no trap stopped the run. It is printed or written to a file, and only
then it matters whether the run was stopped or the check failed. So the command succeeds if all of
this goes well, whatever the verdict of the check is, and a report that cannot be written is the
error that is told (`perform_course`). All errors are told with every cause.

Arguments are given as bytes here. Where they are no texts, a check can come to a verdict on files
whose paths have no place in JSON, and then the report in JSON fails.

A command runs the assembler once at most, so that an assembler which does always the same is as
good as any.
-/

namespace Machine86

namespace Options

/-- The program is not there to be run, and what is told then: the file cannot be read or has no
such part, or the program is too large. -/
inductive Refuses (o : Options) (w : World) : ErrorChain → Prop
  | unreadable {cause : HostError} (hread : w.tree.read o.input = .error cause) :
    Refuses o w ⟨"could not read " ++ o.input, [cause.message]⟩
  | skipTooLarge {file : List UInt8} (hread : w.tree.read o.input = .ok file)
    (hskip : file.length < o.skip) :
    Refuses o w ⟨"--skip exceeds file size", []⟩
  | lenTooLarge {file : List UInt8} {n : Nat} (hread : w.tree.read o.input = .ok file)
    (hskip : o.skip ≤ file.length) (hlen : o.len = some n) (hlong : file.length < o.skip + n) :
    Refuses o w ⟨"--len exceeds remaining file size after skip", []⟩
  | tooLarge {program : List UInt8}
    (hload : (loadProgram o.input o.skip o.len : StateM World _) w = (.ok program, w))
    (hsize : addressSpace < program.length) :
    Refuses o w ⟨"program of " ++ Numeral.decimal program.length ++
      " bytes does not fit the 64 KiB address space", []⟩

/-- What becomes of the check, and of the system. It is attempted just where it was asked for and no
trap stopped the run. -/
def Checks (o : Options) (program : List UInt8) (p : Progress) (w : World) (check : Check)
    (w₁ : World) : Prop :=
  if o.config.check = true ∧ p.trap = none then
    ∃ result, (verifyListing o.input program (p.listing o.config).asmText o.checkDir :
      StateM World _) w = (result, w₁) ∧ check = .ofResult result
  else check = .absent ∧ w₁ = w

/-- The command comes to a report: the program is loaded and run, and it is checked. -/
structure Reports (o : Options) (w : World) (program : List UInt8) (p : Progress) (check : Check)
    (w₁ : World) : Prop where
  load : (loadProgram o.input o.skip o.len : StateM World _) w = (.ok program, w)
  run : ∃ r, Run.start program o.config defaultMinMemory = .ok r ∧ p = r.finish
  checks : o.Checks program p w check w₁

/-- The report of a listing whose check went so: JSON if that was asked for, and else the listing
between a line on the input and one on the check. -/
def reportOf (o : Options) (l : Listing) (check : Check) : String :=
  if o.format = .json then Report.jsonText ⟨o.input, l, check⟩
  else
    "; disassembled by sim8086: " ++ o.input ++ "\n" ++ l.render o.config ++
      match check with
      | .absent => ""
      | .finished v => if v.verdict = .same then "=== Ok\n" else "=== Error, not the same\n"
      | .failed why =>
        "=== Check failed: " ++ ": ".intercalate (why.message :: why.causes) ++ "\n"

/-- Everything goes well: the program is loaded, its run comes to the end, a check that was asked
for comes to a verdict, and the report can be written to the file that was asked for. -/
def Succeeds (o : Options) (w : World) : Prop :=
  ∃ program l check w₁,
    (loadProgram o.input o.skip o.len : StateM World _) w = (.ok program, w) ∧
    Machine86.run program o.config = .ok l ∧
    (if o.config.check = true then
      ∃ v, (verifyListing o.input program l.asmText o.checkDir : StateM World _) w = (.ok v, w₁) ∧
        check = .finished v
    else check = .absent ∧ w₁ = w) ∧
    ∀ path ∈ o.out, ∃ tree,
      w₁.tree.write path (Utf8.encode (o.reportOf l check)) = .ok tree

/-- How the command ends after its report: with the trap that stopped the run, or else with the
failure of the check, if there is one. -/
structure Ends (o : Options) (p : Progress) (check : Check) (outcome : Outcome) : Prop where
  stopped : ∀ t ∈ p.trap, outcome.status = 1 ∧ outcome.errorOutput =
    "Error: failed to process " ++ o.input ++ "\n\nCaused by:\n" ++ t.account
  unchecked : p.trap = none → ∀ why, check = .failed why → outcome.status = 1 ∧
    ErrorChain.Tells outcome.errorOutput
      ⟨"verification did not complete", why.message :: why.causes⟩
  well : p.trap = none → (∀ why, check ≠ .failed why) →
    outcome.status = 0 ∧ outcome.errorOutput = ""

variable {o : Options} {program : List UInt8} {p : Progress} {w w₁ : World} {check : Check}

theorem reportText_eq (o : Options) (l : Listing) (check : Check) :
    o.reportText ⟨o.input, l, check⟩ = o.reportOf l check := by
  unfold reportText reportOf
  cases o.format with
  | json => rfl
  | text =>
    rcases check with _ | ⟨asmPath, binPath, _ | _⟩ | why <;> rfl

theorem checks_iff :
    o.Checks program p w check w₁ ↔ (o.check program p : StateM World Check) w = (check, w₁) := by
  unfold Checks
  split_ifs with h
  · rw [check_eq h.1 h.2]
    refine ⟨?_, fun hcheck => ?_⟩
    · rintro ⟨result, hresult, rfl⟩
      exact World.map_of_eq hresult _
    · rcases hresult : (verifyListing o.input program (p.listing o.config).asmText o.checkDir :
        StateM World _) w with ⟨result, v⟩
      rw [World.map_of_eq hresult, Prod.mk.injEq] at hcheck
      obtain ⟨rfl, rfl⟩ := hcheck
      exact ⟨result, rfl, rfl⟩
  · have hcheck : (o.config.check && p.trap.isNone) = false := by
      rw [Bool.and_eq_false_iff]
      by_cases hask : o.config.check = true
      · right
        have htrap : p.trap ≠ none := fun htrap => h ⟨hask, htrap⟩
        simpa using Option.isSome_iff_ne_none.2 htrap
      · exact .inl (Bool.eq_false_iff.2 hask)
    have happly : (o.check program p : StateM World Check) w = (.absent, w) := by
      rw [Options.check, hcheck]
      rfl
    rw [happly, Prod.mk.injEq, eq_comm, @eq_comm _ w]

theorem exists_checks (o : Options) (program : List UInt8) (p : Progress) (w : World) :
    ∃ check w₁, o.Checks program p w check w₁ :=
  ⟨_, _, checks_iff.2 rfl⟩

theorem output_conclude (o : Options) (output : String) (p : Progress) (check : Check) :
    (o.conclude output p check).output = output := by
  unfold conclude
  cases p.trap with
  | some t => rfl
  | none => cases check <;> rfl

/-- A program is refused when it is loaded or when its run is to start. -/
theorem refuses_iff {why : ErrorChain} :
    o.Refuses w why ↔
      (∃ e, (loadProgram o.input o.skip o.len : StateM World _) w = (.error e, w) ∧
        why = e.chain) ∨
      ∃ program e, (loadProgram o.input o.skip o.len : StateM World _) w = (.ok program, w) ∧
        Run.start program o.config defaultMinMemory = .error e ∧ why = ⟨e.message, []⟩ := by
  refine ⟨fun h => ?_, ?_⟩
  · cases h with
    | unreadable hread =>
      exact .inl ⟨_, World.loadProgram_of_unreadable hread _ _, rfl⟩
    | skipTooLarge hread hskip =>
      have hselect : selectProgram _ o.skip o.len = .error .skipTooLarge :=
        selectProgram_eq_error_iff.2 (.inl ⟨hskip, rfl⟩)
      exact .inl ⟨.skipTooLarge, hselect ▸ World.loadProgram_of_read hread _ _, rfl⟩
    | lenTooLarge hread hskip hlen hlong =>
      have hselect := selectProgram_eq_error_iff.2 (.inr ⟨hskip, ⟨_, hlen, hlong⟩, rfl⟩)
      exact .inl ⟨.lenTooLarge, hselect ▸ World.loadProgram_of_read hread _ _, rfl⟩
    | tooLarge hload hsize =>
      exact .inr ⟨_, _, hload, Run.start_eq_error_iff.2 ⟨hsize, rfl⟩, rfl⟩
  · rintro (⟨e, hload, rfl⟩ | ⟨program, e, hload, hstart, rfl⟩)
    · cases hread : w.tree.read o.input with
      | error cause =>
        rw [World.loadProgram_of_unreadable hread] at hload
        cases hload
        exact .unreadable hread
      | ok file =>
        rw [World.loadProgram_of_read hread, Prod.mk.injEq] at hload
        rcases selectProgram_eq_error_iff.1 hload.1 with
          ⟨hskip, rfl⟩ | ⟨hskip, ⟨n, hlen, hlong⟩, rfl⟩
        · exact .skipTooLarge hread hskip
        · exact .lenTooLarge hread hskip hlen hlong
    · obtain ⟨hsize, rfl⟩ := Run.start_eq_error_iff.1 hstart
      exact .tooLarge hload hsize

theorem execute_of_refuses {why : ErrorChain} (h : o.Refuses w why) :
    (o.execute : StateM World Outcome) w = (.failed "" why, w) := by
  rcases refuses_iff.1 h with ⟨e, hload, rfl⟩ | ⟨program, e, hload, hstart, rfl⟩
  · rw [execute, World.bind_of_eq hload]
    rfl
  · rw [execute_of_loaded hload, hstart]

/-- A command refuses its program or comes to a report. -/
theorem refuses_or_reports (o : Options) (w : World) :
    (∃ why, o.Refuses w why) ∨ ∃ program p check w₁, o.Reports w program p check w₁ := by
  obtain ⟨loaded, hload⟩ := World.exists_loaded w o.input o.skip o.len
  cases loaded with
  | error e => exact .inl ⟨_, refuses_iff.2 (.inl ⟨e, hload, rfl⟩)⟩
  | ok program =>
    cases hstart : Run.start program o.config defaultMinMemory with
    | error e => exact .inl ⟨_, refuses_iff.2 (.inr ⟨program, e, hload, hstart, rfl⟩)⟩
    | ok r =>
      obtain ⟨check, w₁, hchecks⟩ := exists_checks o program r.finish w
      exact .inr ⟨program, r.finish, check, w₁, hload, ⟨r, hstart, rfl⟩, hchecks⟩

section Emit

variable {text path : String}

theorem emit_of_none (hout : o.out = none) (w : World) :
    (o.emit text : StateM World _) w = (.ok text, w) := by
  rw [emit, hout]
  rfl

theorem emit_of_write {tree : FileTree} (hout : o.out = some path)
    (hwrite : w.tree.write path (Utf8.encode text) = .ok tree) :
    (o.emit text : StateM World _) w = (.ok "", { w with tree }) := by
  have hfile : (Host.writeFile path (Utf8.encode text) : StateM World _) w =
      (.ok (), { w with tree }) := by
    show World.writeFile _ _ _ = _
    rw [World.writeFile, hwrite]
  rw [emit, hout]
  exact World.bind_of_eq hfile _

theorem emit_of_error {e : HostError} (hout : o.out = some path)
    (hwrite : w.tree.write path (Utf8.encode text) = .error e) :
    (o.emit text : StateM World _) w =
      (.error ⟨"could not write " ++ path, [e.message]⟩, w) := by
  have hfile : (Host.writeFile path (Utf8.encode text) : StateM World _) w = (.error e, w) := by
    show World.writeFile _ _ _ = _
    rw [World.writeFile, hwrite]
  rw [emit, hout]
  exact World.bind_of_eq hfile _

end Emit

/-- How the command ends where its report was put out, or could not be. -/
def concludeEmitted (o : Options) (p : Progress) (check : Check) :
    Except ErrorChain String → Outcome
  | .error why => .failed "" why
  | .ok output => o.conclude output p check

theorem Reports.execute_of_emit (h : o.Reports w program p check w₁)
    {emitted : Except ErrorChain String} {w₂ : World}
    (hemit : (o.emit (o.reportOf (p.listing o.config) check) : StateM World _) w₁ =
      (emitted, w₂)) :
    (o.execute : StateM World Outcome) w = (o.concludeEmitted p check emitted, w₂) := by
  obtain ⟨r, hstart, rfl⟩ := h.run
  rw [← reportText_eq] at hemit
  rw [execute_of_loaded h.load, hstart]
  dsimp only
  rw [reportRun, World.bind_of_eq (checks_iff.1 h.checks)]
  refine (World.bind_of_eq hemit _).trans ?_
  cases emitted <;> rfl

/-- Without the file the command comes to the same report. -/
theorem Reports.withoutOut (h : o.Reports w program p check w₁) :
    Reports { o with out := none } w program p check w₁ := ⟨h.load, h.run, h.checks⟩

theorem Refuses.exists_run_eq {why : ErrorChain} (h : o.Refuses w why)
    (hload : (loadProgram o.input o.skip o.len : StateM World _) w = (.ok program, w)) :
    ∃ e, Machine86.run program o.config = .error (.tooLarge e) := by
  rcases refuses_iff.1 h with ⟨e, hfailed, -⟩ | ⟨program', e, hloaded, hstart, -⟩
  · rw [hfailed] at hload
    cases hload
  · rw [hloaded] at hload
    cases hload
    exact ⟨e, by rw [run, hstart]⟩

theorem Refuses.not_succeeds {why : ErrorChain} (h : o.Refuses w why) : ¬ o.Succeeds w := by
  rintro ⟨program, l, check, w₁, hload, hrun, -⟩
  obtain ⟨e, hrefused⟩ := h.exists_run_eq hload
  rw [hrun] at hrefused
  cases hrefused

/-- What a check that was not made, or was finished, has to do with success. -/
theorem checks_finished_iff (htrap : p.trap = none) :
    (o.Checks program p w check w₁ ∧ ∀ why, check ≠ .failed why) ↔
      if o.config.check = true then
        ∃ v, (verifyListing o.input program (p.listing o.config).asmText o.checkDir :
          StateM World _) w = (.ok v, w₁) ∧ check = .finished v
      else check = .absent ∧ w₁ = w := by
  unfold Checks
  by_cases hask : o.config.check = true
  · rw [if_pos ⟨hask, htrap⟩, if_pos hask]
    refine ⟨?_, ?_⟩
    · rintro ⟨⟨result, hresult, rfl⟩, hfinished⟩
      cases result with
      | error e => exact absurd rfl (hfinished e.chain)
      | ok v => exact ⟨v, hresult, rfl⟩
    · rintro ⟨v, hv, rfl⟩
      exact ⟨⟨.ok v, hv, rfl⟩, nofun⟩
  · rw [if_neg fun h => hask h.1, if_neg hask]
    refine ⟨And.left, ?_⟩
    rintro ⟨rfl, rfl⟩
    exact ⟨⟨rfl, rfl⟩, nofun⟩

theorem Reports.run_of_completed (h : o.Reports w program p check w₁) (htrap : p.trap = none) :
    Machine86.run program o.config = .ok (p.listing o.config) := by
  obtain ⟨r, hstart, rfl⟩ := h.run
  simp only [Machine86.run, hstart, htrap]

theorem Reports.run_of_trapped (h : o.Reports w program p check w₁) {t : Trap}
    (htrap : p.trap = some t) : Machine86.run program o.config = .error (.trap t) := by
  obtain ⟨r, hstart, rfl⟩ := h.run
  simp only [Machine86.run, hstart, htrap]

theorem Reports.eq_of_checks (h : o.Reports w program p check w₁) {check' : Check} {w₁' : World}
    (hchecks : o.Checks program p w check' w₁') : check' = check ∧ w₁' = w₁ := by
  have hsame := (checks_iff.1 hchecks).symm.trans (checks_iff.1 h.checks)
  exact Prod.mk.inj hsame

theorem Reports.succeeds_iff (h : o.Reports w program p check w₁) :
    o.Succeeds w ↔ (p.trap = none ∧ ∀ why, check ≠ .failed why) ∧
      ∀ path ∈ o.out, ∃ tree,
        w₁.tree.write path (Utf8.encode (o.reportOf (p.listing o.config) check)) = .ok tree := by
  refine ⟨?_, ?_⟩
  · rintro ⟨program', l, check', w₁', hload, hl, hchecks, hwrite⟩
    rw [h.load, Prod.mk.injEq, Except.ok.injEq] at hload
    rw [← hload.1] at hl
    cases htrap : p.trap with
    | some t =>
      rw [h.run_of_trapped htrap] at hl
      cases hl
    | none =>
      rw [h.run_of_completed htrap] at hl
      cases hl
      rw [← hload.1, ← checks_finished_iff htrap] at hchecks
      obtain ⟨rfl, rfl⟩ := h.eq_of_checks hchecks.1
      exact ⟨⟨rfl, hchecks.2⟩, hwrite⟩
  · rintro ⟨⟨htrap, hfinished⟩, hwrite⟩
    exact ⟨program, _, check, w₁, h.load, h.run_of_completed htrap,
      (checks_finished_iff htrap).1 ⟨h.checks, hfinished⟩, hwrite⟩

/-- How a command that comes to this report ends, and the system that it leaves. -/
structure Emits (o : Options) (args : List String) (w : World) (p : Progress) (check : Check)
    (report : String) (w₁ : World) (outcome : Outcome) (v : World) : Prop where
  printed : o.out = none → outcome.output = report ∧ v = w₁ ∧ o.Ends p check outcome
  silent : ∀ path ∈ o.out, outcome.output = ""
  unwritten : ∀ path ∈ o.out, ∀ e, w₁.tree.write path (Utf8.encode report) = .error e →
    outcome.status = 1 ∧ v = w₁ ∧
      ErrorChain.Tells outcome.errorOutput ⟨"could not write " ++ path, [e.message]⟩
  written : ∀ path ∈ o.out, ∀ tree, w₁.tree.write path (Utf8.encode report) = .ok tree →
    o.Ends p check outcome ∧ v = { w₁ with tree } ∧
      (tree.read path = .ok (Utf8.encode report) ∨ tree = w₁.tree ∧
        ∃ place, w₁.tree.locate path = .ok place ∧ w₁.tree.node? place = some .sink)
  /-- The same command line without the file prints the report. -/
  without : ∀ path ∈ o.out, ∃ pre arguments post plain, args = pre ++ arguments ++ post ∧
    Given.OutArguments path arguments ∧
    ((Invocation.ofArgs (pre ++ post)).perform : StateM World Outcome) w = (plain, w₁) ∧
    plain.output = report

theorem perform_of_run {args : List String} (hargs : Invocation.ofArgs args = .run o) :
    ((Invocation.ofArgs args).perform : StateM World Outcome) = o.execute := by
  rw [hargs]
  rfl

/-- The trap of a run is told on a line of its own. -/
theorem Reports.plain (h : o.Reports w program p check w₁) : ∀ t ∈ p.trap, t.Plain := by
  obtain ⟨r, -, rfl⟩ := h.run
  obtain ⟨steps, trap, r', hyields⟩ := r.exists_yields
  rw [hyields.finish_eq]
  exact hyields.plain

theorem Reports.ends (h : o.Reports w program p check w₁) (output : String) :
    o.Ends p check (o.conclude output p check) := by
  unfold conclude
  refine ⟨fun t ht => ?_, fun htrap why hwhy => ?_, fun htrap hfinished => ?_⟩
  · have hplain := h.plain t ht
    rw [Option.mem_def] at ht
    rw [ht]
    exact ⟨rfl, o.report_of_trap hplain⟩
  · rw [htrap, hwhy]
    exact ⟨rfl, ErrorChain.tells_report _⟩
  · rw [htrap]
    cases check with
    | failed why => exact absurd rfl (hfinished why)
    | absent => exact ⟨rfl, rfl⟩
    | finished v => exact ⟨rfl, rfl⟩

theorem Reports.emits (h : o.Reports w program p check w₁) {args : List String}
    (hargs : Invocation.ofArgs args = .run o) {outcome : Outcome} {v : World}
    (hexecute : (o.execute : StateM World Outcome) w = (outcome, v)) :
    o.Emits args w p check (o.reportOf (p.listing o.config) check) w₁ outcome v := by
  generalize hreport : o.reportOf (p.listing o.config) check = report
  have hemit {emitted : Except ErrorChain String} {w₂ : World}
      (hemit : (o.emit report : StateM World _) w₁ = (emitted, w₂)) :
      outcome = o.concludeEmitted p check emitted ∧ v = w₂ :=
    Prod.mk.inj (hexecute.symm.trans (h.execute_of_emit (hreport ▸ hemit)))
  refine ⟨fun hout => ?_, fun path hout => ?_, fun path hout e hwrite => ?_,
    fun path hout tree hwrite => ?_, fun path hout => ?_⟩
  · obtain ⟨rfl, hv⟩ := hemit (emit_of_none hout _)
    exact ⟨o.output_conclude report p check, hv, h.ends report⟩
  · cases hwrite : w₁.tree.write path (Utf8.encode report) with
    | error e =>
      rw [(hemit (emit_of_error hout hwrite)).1]
      rfl
    | ok tree =>
      rw [(hemit (emit_of_write hout hwrite)).1]
      exact o.output_conclude "" p check
  · obtain ⟨rfl, hv⟩ := hemit (emit_of_error hout hwrite)
    exact ⟨rfl, hv, ErrorChain.tells_report _⟩
  · obtain ⟨rfl, hv⟩ := hemit (emit_of_write hout hwrite)
    exact ⟨h.ends "", hv, FileTree.read_of_write hwrite⟩
  · obtain ⟨pre, arguments, post, hsplit, hname, hplain⟩ :=
      Invocation.exists_without_out hargs hout
    refine ⟨pre, arguments, post, _, hsplit, hname, ?_, o.output_conclude report p check⟩
    rw [perform_of_run hplain, ← hreport]
    exact h.withoutOut.execute_of_emit (emit_of_none rfl _)

theorem Ends.status_eq_zero_iff {outcome : Outcome} (h : o.Ends p check outcome) :
    outcome.status = 0 ↔ p.trap = none ∧ ∀ why, check ≠ .failed why := by
  cases htrap : p.trap with
  | some t => simp [(h.stopped t htrap).1]
  | none =>
    by_cases hfinished : ∀ why, check ≠ .failed why
    · simp [(h.well htrap hfinished).1, hfinished]
    · obtain ⟨why, hwhy⟩ := not_forall_not.1 hfinished
      simp [(h.unchecked htrap why hwhy).1, hwhy]

/-- The command succeeds where its report is put out and run and check went well. -/
theorem Reports.status_eq_zero_iff (h : o.Reports w program p check w₁) {args : List String}
    {outcome : Outcome} {v : World}
    (hemits : o.Emits args w p check (o.reportOf (p.listing o.config) check) w₁ outcome v) :
    outcome.status = 0 ↔ o.Succeeds w := by
  rw [h.succeeds_iff]
  cases hout : o.out with
  | none =>
    rw [(hemits.printed hout).2.2.status_eq_zero_iff]
    simp
  | some path =>
    cases hwrite : w₁.tree.write path (Utf8.encode (o.reportOf (p.listing o.config) check)) with
    | error e =>
      have hstatus := (hemits.unwritten path hout e hwrite).1
      simp [hstatus, hwrite]
    | ok tree =>
      rw [(hemits.written path hout tree hwrite).1.status_eq_zero_iff]
      simp [hwrite]

end Options

/-- The course of a command whose arguments, given as bytes, are texts. The command succeeds just
where everything goes well. It fails with nothing printed and nothing written where its program
cannot be loaded or is too large. In all other cases it comes to a report, also of a run that was
stopped and of a check that failed. Without a file to write to, the report is printed. With one,
nothing is printed, and the file gets what the same command line without it prints; if it cannot be
written, this is the error that is told, in place of a trap or the failure of a check. -/
theorem perform_course {raw : List (List UInt8)}
    (htexts : ∀ bytes ∈ raw, ∃ text, Utf8.encode text = bytes) :
    ∃ args, args.map Utf8.encode = raw ∧ ∀ o, Invocation.ofArgs args = .run o → ∀ w,
      ∃ outcome v,
        ((Invocation.ofArgs args).perform : StateM World Outcome) w = (outcome, v) ∧
        (outcome.status = 0 ↔ o.Succeeds w) ∧
        ((∃ why, o.Refuses w why ∧ outcome.status = 1 ∧ outcome.output = "" ∧
            ErrorChain.Tells outcome.errorOutput why ∧ v = w) ∨
          ∃ program p check w₁, o.Reports w program p check w₁ ∧
            o.Emits args w p check (o.reportOf (p.listing o.config) check) w₁ outcome v) := by
  obtain ⟨args, hargs⟩ : ∃ args : List String, args.map Utf8.encode = raw := by
    rw [← Set.mem_range, Set.range_list_map]
    exact htexts
  refine ⟨args, hargs, fun o hrun w => ?_⟩
  rw [Options.perform_of_run hrun]
  rcases hexecute : (o.execute : StateM World Outcome) w with ⟨outcome, v⟩
  refine ⟨outcome, v, rfl, ?_⟩
  rcases o.refuses_or_reports w with ⟨why, hrefuses⟩ | ⟨program, p, check, w₁, hreports⟩
  · rw [Options.execute_of_refuses hrefuses, Prod.mk.injEq] at hexecute
    obtain ⟨rfl, rfl⟩ := hexecute
    have hstatus : (Outcome.failed "" why).status ≠ 0 := by
      show (1 : UInt32) ≠ 0
      decide
    exact ⟨iff_of_false hstatus hrefuses.not_succeeds,
      .inl ⟨why, hrefuses, rfl, rfl, why.tells_report, rfl⟩⟩
  · have hemits := hreports.emits hrun hexecute
    exact ⟨hreports.status_eq_zero_iff hemits,
      .inr ⟨program, p, check, w₁, hreports, hemits⟩⟩

/-- The command that executes the file `p.bin` and writes the report to a file. -/
def executeToFile (maxSteps : Nat) (path : String) : Options :=
  ⟨"p.bin", { execute := true, maxSteps }, 0, none, .text, some path, "."⟩

theorem locate_worldWith (f : List UInt8) :
    (worldWith f).tree.locate "r.txt" = .ok ["r.txt"] := by
  rw [FileTree.locate, Path.components_of_not_mem (by decide)]
  rfl

theorem write_worldWith (f content : List UInt8) :
    (worldWith f).tree.write "r.txt" content =
      .ok ((worldWith f).tree.put ["r.txt"] (.file content)) := by
  have htarget : (worldWith f).tree.target "r.txt" = .ok ["r.txt"] := by
    rw [FileTree.target, Path.components_of_not_mem (by decide)]
    rfl
  rw [FileTree.write_eq, htarget]
  rfl

/-- A branch over a move: executed and reported to a file, which was not there before; and stopped
behind its first step, where the report would go to a directory that is not there. -/
theorem perform_course_written :
    let w := worldWith branchOver
    (let args := ["--exec", "--out=r.txt", "p.bin"]
    ∃ outcome v text,
      ((Invocation.ofArgs args).perform : StateM World Outcome) w = (outcome, v) ∧
      outcome.status = 0 ∧ outcome.output = "" ∧
      v.tree.read "r.txt" = .ok (Utf8.encode text) ∧
      ∃ pre arguments post plain, args = pre ++ arguments ++ post ∧
        Given.OutArguments "r.txt" arguments ∧
        ((Invocation.ofArgs (pre ++ post)).perform : StateM World Outcome) w = (plain, w) ∧
        plain.output = text) ∧
    let args := ["--exec", "--max-steps=1", "--out", "d/r.txt", "p.bin"]
    ∃ outcome,
      run branchOver (executeToFile 1 "d/r.txt").config = .error (.trap (.stepLimit 1)) ∧
      ((Invocation.ofArgs args).perform : StateM World Outcome) w = (outcome, w) ∧
      outcome.status = 1 ∧ outcome.output = "" ∧
      ErrorChain.Tells outcome.errorOutput
        ⟨"could not write d/r.txt", ["No such file or directory (os error 2)"]⟩ := by
  intro w
  have htexts (args : List String) :
      ∀ bytes ∈ args.map Utf8.encode, ∃ text, Utf8.encode text = bytes :=
    List.forall_mem_map.2 fun text _ => ⟨text, rfl⟩
  have hload : (loadProgram "p.bin" 0 none : StateM World _) w = (.ok branchOver, w) :=
    World.loadProgram_of_read rfl _ _
  obtain ⟨m₀, s, s', m, hstart, htakes, hdone, -⟩ := takes_branchOver
  refine ⟨?_, ?_⟩
  · intro args
    obtain ⟨args', hsame, hcourse⟩ := perform_course (htexts args)
    obtain rfl : args' = args := List.map_injective_iff.2 Utf8.encode_injective hsame
    have hargs : Invocation.ofArgs ["--exec", "--out=r.txt", "p.bin"] =
        .run (executeToFile 1000000 "r.txt") := by decide
    obtain ⟨outcome, v, hperform, hstatus, hends⟩ := hcourse _ hargs w
    have hlimit : 2 ≤ (executeToFile 1000000 "r.txt").config.maxSteps := by decide
    have hrun : run branchOver (executeToFile 1000000 "r.txt").config =
        .ok ⟨[s, s'], some m.snapshot⟩ :=
      run_eq_ok_iff.2 ⟨m₀, m, hstart, htakes, hdone, hlimit, rfl⟩
    have hsucceeds : (executeToFile 1000000 "r.txt").Succeeds w := by
      refine ⟨_, _, .absent, w, hload, hrun, ⟨rfl, rfl⟩, ?_⟩
      rintro path ⟨⟩
      exact ⟨_, write_worldWith _ _⟩
    rcases hends with ⟨why, hrefuses, -⟩ | ⟨program, p, check, w₁, hreports, hemits⟩
    · exact absurd hsucceeds hrefuses.not_succeeds
    obtain ⟨-, rfl⟩ : check = .absent ∧ w₁ = w := hreports.checks
    obtain ⟨-, rfl, hread⟩ := hemits.written "r.txt" rfl _ (write_worldWith _ _)
    refine ⟨outcome, _, _, hperform, hstatus.2 hsucceeds, hemits.silent "r.txt" rfl,
      hread.resolve_right ?_, hemits.without "r.txt" rfl⟩
    rintro ⟨-, place, hplace, hsink⟩
    rw [locate_worldWith] at hplace
    cases hplace
    cases hsink
  · intro args
    obtain ⟨args', hsame, hcourse⟩ := perform_course (htexts args)
    obtain rfl : args' = args := List.map_injective_iff.2 Utf8.encode_injective hsame
    have hargs : Invocation.ofArgs ["--exec", "--max-steps=1", "--out", "d/r.txt", "p.bin"] =
        .run (executeToFile 1 "d/r.txt") := by decide
    obtain ⟨outcome, v, hperform, -, hends⟩ := hcourse _ hargs w
    have htakes₁ : m₀.Takes (executeToFile 1 "d/r.txt").config.execute [s, s'] m := htakes
    have hrun : run branchOver (executeToFile 1 "d/r.txt").config =
        .error (.trap (.stepLimit 1)) := run_eq_stepLimit hstart htakes₁ (by simp) (by simp)
    have hwrite (content : List UInt8) : w.tree.write "d/r.txt" content = .error .notFound := by
      have htarget : w.tree.target "d/r.txt" = .error .notFound := rfl
      rw [FileTree.write_eq, htarget]
      rfl
    rcases hends with ⟨why, hrefuses, -⟩ | ⟨program, p, check, w₁, hreports, hemits⟩
    · obtain ⟨e, hrefused⟩ := hrefuses.exists_run_eq hload
      rw [hrun] at hrefused
      cases hrefused
    obtain ⟨-, rfl⟩ : check = .absent ∧ w₁ = w := hreports.checks
    obtain ⟨hstatus, rfl, htells⟩ := hemits.unwritten "d/r.txt" rfl _ (hwrite _)
    exact ⟨outcome, hrun, hperform, hstatus, hemits.silent "d/r.txt" rfl, htells⟩

end Machine86
