import Machine86.Command.Options
import Mathlib.Data.List.TakeDrop
import Mathlib.Tactic.SplitIfs

/-!
# The command line as steps

Each argument adds something to what was given before it, and a command line that can be read is a
row of such steps (`Given.Reads`, `Given.readArgs_eq_run_iff`). The option for a file to write to is
one step of the row, or two, and the others do not look at it: without that option the line asks for
the same command without a file (`Invocation.exists_without_out`).
-/

namespace Machine86

namespace Argument

theorem ofString_eq_plain {arg value : String} (h : ofString arg = .plain value) : value = arg := by
  unfold ofString at h
  split at h <;> cases h
  rfl

theorem ofString_eq_long {arg name : String} {value : Option String}
    (h : ofString arg = .long name value) :
    arg = "--" ++ name ++ (value.elim "" fun value => "=" ++ value) := by
  unfold ofString at h
  split at h
  · cases h
  · rename_i rest _ hlist
    rw [List.span_eq_takeWhile_dropWhile] at h
    dsimp only at h
    rw [long.injEq] at h
    obtain ⟨rfl, rfl⟩ := h
    rw [← String.toList_inj, hlist]
    have hsplit : rest.takeWhile (· != '=') ++ rest.dropWhile (· != '=') = rest :=
      List.takeWhile_append_dropWhile
    cases hvalue : rest.dropWhile (· != '=') with
    | nil =>
      rw [hvalue, List.append_nil] at hsplit
      simp [hsplit]
    | cons c value =>
      have hc := List.head?_dropWhile_not (· != '=') rest
      rw [hvalue] at hc hsplit
      have hequals : c = '=' := by simpa using hc
      rw [hequals] at hsplit
      simp [hsplit]
  · cases h
  · cases h

end Argument

/-- No switch has the name of a setting. -/
theorem Setting.switch_of_ofName? {name : String} {s : Setting} (h : ofName? name = some s) :
    Switch.ofName? name = none := by
  unfold ofName? at h
  split at h <;> first | rfl | cases h

namespace Given

/-- The arguments lead from what was given to more; a setting may wait for its value. -/
inductive Reads : Given → Option Setting → List String → Given → Prop
  | nil (g : Given) : Reads g none [] g
  | value {g g₁ g' : Given} {s : Setting} {arg value : String} {rest : List String}
    (harg : Argument.ofString arg = .plain value) (hadd : g.addSetting value s = some g₁)
    (h : Reads g₁ none rest g') : Reads g (some s) (arg :: rest) g'
  | input {g g₁ g' : Given} {arg path : String} {rest : List String}
    (harg : Argument.ofString arg = .plain path) (hadd : g.addInput path = some g₁)
    (h : Reads g₁ none rest g') : Reads g none (arg :: rest) g'
  | inputs {g g' : Given} {arg : String} {rest : List String}
    (harg : Argument.ofString arg = .dashes) (hadd : rest.foldlM addInput g = some g') :
    Reads g none (arg :: rest) g'
  | switch {g g₁ g' : Given} {arg name : String} {s : Switch} {rest : List String}
    (harg : Argument.ofString arg = .long name none) (hname : Switch.ofName? name = some s)
    (hadd : g.addSwitch s = some g₁) (h : Reads g₁ none rest g') : Reads g none (arg :: rest) g'
  | setting {g g₁ g' : Given} {arg name value : String} {s : Setting} {rest : List String}
    (harg : Argument.ofString arg = .long name (some value))
    (hname : Setting.ofName? name = some s) (hadd : g.addSetting value s = some g₁)
    (h : Reads g₁ none rest g') : Reads g none (arg :: rest) g'
  | waits {g g' : Given} {arg name : String} {s : Setting} {rest : List String}
    (harg : Argument.ofString arg = .long name none) (hname : Setting.ofName? name = some s)
    (h : Reads g (some s) rest g') : Reads g none (arg :: rest) g'

variable {g g' : Given} {waiting : Option Setting} {args : List String} {o : Options}

theorem followedBy_eq_run_iff {x : Option Given} {next : Given → Invocation} :
    followedBy x next = .run o ↔ ∃ g, x = some g ∧ next g = .run o := by
  cases x <;> simp [followedBy]

theorem invocation_eq_run_iff : g.invocation = .run o ↔ g.options? = some o := by
  unfold invocation
  cases g.options? <;> simp

theorem readInputs_eq (g : Given) (args : List String) :
    g.readInputs args = followedBy (args.foldlM addInput g) invocation := by
  induction args generalizing g with
  | nil => rfl
  | cons arg rest ih =>
    rw [readInputs, List.foldlM_cons]
    cases g.addInput arg with
    | none => rfl
    | some g₁ => exact ih g₁

theorem exists_reads (h : g.readArgs waiting args = .run o) :
    ∃ g', Reads g waiting args g' ∧ g'.options? = some o := by
  induction args generalizing g waiting with
  | nil =>
    rw [readArgs] at h
    split_ifs at h with hwaiting
    rw [Bool.not_eq_true, Option.isSome_eq_false_iff, Option.isNone_iff_eq_none] at hwaiting
    rw [hwaiting]
    exact ⟨g, .nil g, invocation_eq_run_iff.1 h⟩
  | cons arg rest ih =>
    rw [readArgs.eq_def] at h
    dsimp only at h
    split at h
    · obtain ⟨g₁, hadd, h⟩ := followedBy_eq_run_iff.1 h
      obtain ⟨g', hreads, ho⟩ := ih h
      exact ⟨g', .value ‹_› hadd hreads, ho⟩
    · cases h
    · obtain ⟨g₁, hadd, h⟩ := followedBy_eq_run_iff.1 h
      obtain ⟨g', hreads, ho⟩ := ih h
      exact ⟨g', .input ‹_› hadd hreads, ho⟩
    · rw [readInputs_eq] at h
      obtain ⟨g', hadd, ho⟩ := followedBy_eq_run_iff.1 h
      exact ⟨g', .inputs ‹_› hadd, invocation_eq_run_iff.1 ho⟩
    · rename_i letters _
      unfold invocationOfLetters at h
      split at h <;> cases h
    · cases h
    · cases h
    · rename_i harg
      split at h
      · obtain ⟨g₁, hadd, h⟩ := followedBy_eq_run_iff.1 h
        obtain ⟨g', hreads, ho⟩ := ih h
        exact ⟨g', .switch harg ‹_› hadd hreads, ho⟩
      · obtain ⟨g₁, hadd, h⟩ := followedBy_eq_run_iff.1 h
        obtain ⟨g', hreads, ho⟩ := ih h
        exact ⟨g', .setting harg ‹_› hadd hreads, ho⟩
      · obtain ⟨g', hreads, ho⟩ := ih h
        exact ⟨g', .waits harg ‹_› hreads, ho⟩
      · cases h

theorem Reads.readArgs_eq (h : Reads g waiting args g') :
    g.readArgs waiting args = g'.invocation := by
  induction h with
  | nil => rfl
  | value harg hadd _ ih => rw [readArgs.eq_2 _ _ _ _ _ harg, hadd, followedBy, ih]
  | input harg hadd _ ih => rw [readArgs.eq_4 _ _ _ _ harg, hadd, followedBy, ih]
  | inputs harg hadd => rw [readArgs.eq_5 _ _ _ harg, readInputs_eq, hadd, followedBy]
  | switch harg hname hadd _ ih =>
    rw [readArgs.eq_9 _ _ _ _ _ hname (by rintro rfl; cases hname) (by rintro rfl; cases hname) harg,
      hadd, followedBy, ih]
  | setting harg hname hadd _ ih =>
    rw [readArgs.eq_10 _ _ _ _ _ _ hname (by simp) (by simp) harg, hadd, followedBy, ih]
  | waits harg hname _ ih =>
    have hnone := Setting.switch_of_ofName? hname
    rw [readArgs.eq_11 _ _ _ _ _ hname (by simp [hnone]) (by rintro rfl; cases hname)
      (by rintro rfl; cases hname) harg, ih]

theorem readArgs_eq_run_iff : g.readArgs waiting args = .run o ↔
    ∃ g', Reads g waiting args g' ∧ g'.options? = some o := by
  refine ⟨exists_reads, ?_⟩
  rintro ⟨g', hreads, ho⟩
  rw [hreads.readArgs_eq, invocation_eq_run_iff, ho]

section Out

/-- What was given besides the file to write to. -/
def withoutOut (g : Given) : Given := { g with out := none }

variable {g₁ : Given} {s : Setting} {value path : String}

theorem withoutOut_of_none (h : g.out = none) : g.withoutOut = g := by
  rw [withoutOut, ← h]

/-- A step that does not look at the file to write to. -/
structure Apart (add : Given → Option Given) : Prop where
  out : ∀ {g g₁ : Given}, add g = some g₁ → g₁.out = g.out
  withoutOut : ∀ {g g₁ : Given}, add g = some g₁ → add g.withoutOut = some g₁.withoutOut

theorem apart_addInput (path : String) : Apart (·.addInput path) where
  out h := by
    obtain ⟨input, -, hg⟩ := Option.bind_eq_some_iff.1 h
    cases hg
    rfl
  withoutOut h := by
    obtain ⟨input, hinput, hg⟩ := Option.bind_eq_some_iff.1 h
    cases hg
    exact Option.bind_eq_some_iff.2 ⟨input, hinput, rfl⟩

theorem apart_addInputs (paths : List String) : Apart (paths.foldlM addInput ·) := by
  induction paths with
  | nil =>
    refine ⟨fun h => ?_, fun h => ?_⟩ <;> cases h <;> rfl
  | cons path paths ih =>
    refine ⟨fun h => ?_, fun h => ?_⟩
    · rw [List.foldlM_cons] at h
      obtain ⟨g₁, hadd, hrest⟩ := Option.bind_eq_some_iff.1 h
      exact (ih.out hrest).trans ((apart_addInput path).out hadd)
    · rw [List.foldlM_cons] at h ⊢
      obtain ⟨g₁, hadd, hrest⟩ := Option.bind_eq_some_iff.1 h
      exact Option.bind_eq_some_iff.2
        ⟨_, (apart_addInput path).withoutOut hadd, ih.withoutOut hrest⟩

theorem apart_addSwitch (s : Switch) : Apart (·.addSwitch s) := by
  refine ⟨fun h => ?_, fun h => ?_⟩
  · rw [addSwitch] at h
    split_ifs at h
    cases h
    rfl
  · rename_i g g₁
    rw [addSwitch] at h
    split_ifs at h with hs
    cases h
    have hs' : s ∉ g.withoutOut.switches := hs
    rw [addSwitch, if_neg hs']
    rfl

theorem apart_addSetting (hs : s ≠ .out) (value : String) : Apart (·.addSetting value s) where
  out h := by
    cases s with
    | out => exact absurd rfl hs
    | maxSteps | skip | len | format | checkDir =>
      obtain ⟨new, -, hg⟩ := Option.bind_eq_some_iff.1 h
      cases hg
      rfl
  withoutOut h := by
    cases s with
    | out => exact absurd rfl hs
    | maxSteps | skip | len | format | checkDir =>
      obtain ⟨new, hnew, hg⟩ := Option.bind_eq_some_iff.1 h
      cases hg
      exact Option.bind_eq_some_iff.2 ⟨new, hnew, rfl⟩

theorem once_eq_some_iff {α : Type} {old new : Option α} {a : Option α} :
    once old new = some a ↔ old = none ∧ a = new ∧ new.isSome = true := by
  cases old <;> cases new <;> simp [once, eq_comm]

theorem addSetting_out (h : g.addSetting value .out = some g₁) :
    g.out = none ∧ g₁.out = some value ∧ g₁.withoutOut = g := by
  obtain ⟨new, hnew, hg⟩ := Option.bind_eq_some_iff.1 h
  cases hg
  obtain ⟨hnone, rfl, hsome⟩ := once_eq_some_iff.1 hnew
  have hpath : path? value = some value := by
    unfold path? at hsome ⊢
    split_ifs at hsome ⊢
    · cases hsome
    · rfl
  exact ⟨hnone, hpath, withoutOut_of_none hnone⟩

theorem ne_out_of_addSetting (h : g.addSetting value s = some g₁) (hout : g.out = some path) :
    s ≠ .out := by
  rintro rfl
  rw [(addSetting_out h).1] at hout
  cases hout

/-- No file can be given behind another one. -/
theorem Reads.withoutOut (h : Reads g waiting args g') (hout : g.out = some path) :
    g'.out = some path ∧ Reads g.withoutOut waiting args g'.withoutOut := by
  induction h with
  | nil => exact ⟨hout, .nil _⟩
  | @value g g₁ g' s arg value rest harg hadd _ ih =>
    have hs := ne_out_of_addSetting hadd hout
    obtain ⟨hout', hreads⟩ := ih (((apart_addSetting hs value).out hadd).trans hout)
    exact ⟨hout', .value harg ((apart_addSetting hs value).withoutOut hadd) hreads⟩
  | input harg hadd _ ih =>
    obtain ⟨hout', hreads⟩ := ih (((apart_addInput _).out hadd).trans hout)
    exact ⟨hout', .input harg ((apart_addInput _).withoutOut hadd) hreads⟩
  | inputs harg hadd =>
    exact ⟨((apart_addInputs _).out hadd).trans hout,
      .inputs harg ((apart_addInputs _).withoutOut hadd)⟩
  | switch harg hname hadd _ ih =>
    obtain ⟨hout', hreads⟩ := ih (((apart_addSwitch _).out hadd).trans hout)
    exact ⟨hout', .switch harg hname ((apart_addSwitch _).withoutOut hadd) hreads⟩
  | @setting g g₁ g' arg name value s rest harg hname hadd _ ih =>
    have hs := ne_out_of_addSetting hadd hout
    obtain ⟨hout', hreads⟩ := ih (((apart_addSetting hs value).out hadd).trans hout)
    exact ⟨hout', .setting harg hname ((apart_addSetting hs value).withoutOut hadd) hreads⟩
  | waits harg hname _ ih =>
    obtain ⟨hout', hreads⟩ := ih hout
    exact ⟨hout', .waits harg hname hreads⟩

/-- The arguments that name the file to write to. -/
def OutArguments (path : String) (arguments : List String) : Prop :=
  arguments = ["--out", path] ∨ arguments = ["--out=" ++ path]

theorem out_of_ofName? {name : String} (h : Setting.ofName? name = some .out) : name = "out" := by
  unfold Setting.ofName? at h
  split at h <;> first | rfl | cases h

/-- Somewhere in the arguments the file is named, and the others lead to what else is given. -/
theorem Reads.exists_withoutOut (h : Reads g waiting args g') (hnone : g.out = none)
    (hout : g'.out = some path) :
    (waiting = some .out → ∃ rest, args = path :: rest ∧ Reads g none rest g'.withoutOut) ∧
    (waiting ≠ some .out → ∃ pre arguments post, args = pre ++ arguments ++ post ∧
      OutArguments path arguments ∧ Reads g waiting (pre ++ post) g'.withoutOut) := by
  induction h with
  | nil =>
    rw [hnone] at hout
    cases hout
  | @value g g₁ g' s arg value rest harg hadd hreads ih =>
    by_cases hs : s = .out
    · subst hs
      refine ⟨fun _ => ?_, fun hne => absurd rfl hne⟩
      obtain ⟨-, hfile, hwithout⟩ := addSetting_out hadd
      obtain ⟨hfile', hrest⟩ := hreads.withoutOut hfile
      rw [hout, Option.some.injEq] at hfile'
      rw [hwithout] at hrest
      exact ⟨rest, by rw [hfile', Argument.ofString_eq_plain harg], hrest⟩
    · refine ⟨fun heq => absurd (Option.some.inj heq) hs, fun _ => ?_⟩
      have hnone₁ := ((apart_addSetting hs value).out hadd).trans hnone
      obtain ⟨pre, arguments, post, rfl, hname, hrest⟩ := (ih hnone₁ hout).2 (by simp)
      exact ⟨arg :: pre, arguments, post, rfl, hname, .value harg hadd hrest⟩
  | @input g g₁ g' arg path' rest harg hadd _ ih =>
    refine ⟨nofun, fun _ => ?_⟩
    have hnone₁ := ((apart_addInput path').out hadd).trans hnone
    obtain ⟨pre, arguments, post, rfl, hname, hrest⟩ := (ih hnone₁ hout).2 (by simp)
    exact ⟨arg :: pre, arguments, post, rfl, hname, .input harg hadd hrest⟩
  | inputs harg hadd =>
    rw [(apart_addInputs _).out hadd, hnone] at hout
    cases hout
  | @switch g g₁ g' arg name s rest harg hswitch hadd _ ih =>
    refine ⟨nofun, fun _ => ?_⟩
    have hnone₁ := ((apart_addSwitch s).out hadd).trans hnone
    obtain ⟨pre, arguments, post, rfl, hname, hrest⟩ := (ih hnone₁ hout).2 (by simp)
    exact ⟨arg :: pre, arguments, post, rfl, hname, .switch harg hswitch hadd hrest⟩
  | @setting g g₁ g' arg name value s rest harg hsetting hadd hreads ih =>
    refine ⟨nofun, fun _ => ?_⟩
    by_cases hs : s = .out
    · subst hs
      obtain ⟨-, hfile, hwithout⟩ := addSetting_out hadd
      obtain ⟨hfile', hrest⟩ := hreads.withoutOut hfile
      rw [hout, Option.some.injEq] at hfile'
      rw [hwithout] at hrest
      refine ⟨[], [arg], rest, rfl, .inr ?_, hrest⟩
      rw [Argument.ofString_eq_long harg, out_of_ofName? hsetting, hfile']
      rfl
    · have hnone₁ := ((apart_addSetting hs value).out hadd).trans hnone
      obtain ⟨pre, arguments, post, rfl, hname, hrest⟩ := (ih hnone₁ hout).2 (by simp)
      exact ⟨arg :: pre, arguments, post, rfl, hname, .setting harg hsetting hadd hrest⟩
  | @waits g g' arg name s rest harg hsetting _ ih =>
    refine ⟨nofun, fun _ => ?_⟩
    by_cases hs : s = .out
    · subst hs
      obtain ⟨rest, rfl, hrest⟩ := (ih hnone hout).1 rfl
      refine ⟨[], [arg, path], rest, rfl, .inl ?_, hrest⟩
      rw [Argument.ofString_eq_long harg, out_of_ofName? hsetting]
      rfl
    · obtain ⟨pre, arguments, post, rfl, hname, hrest⟩ :=
        (ih hnone hout).2 fun heq => hs (Option.some.inj heq)
      exact ⟨arg :: pre, arguments, post, rfl, hname, .waits harg hsetting hrest⟩

theorem options?_withoutOut (h : g.options? = some o) :
    o.out = g.out ∧ g.withoutOut.options? = some { o with out := none } := by
  obtain ⟨input, hinput, ho⟩ := Option.bind_eq_some_iff.1 h
  cases ho
  exact ⟨rfl, Option.bind_eq_some_iff.2 ⟨input, hinput, rfl⟩⟩

end Out

end Given

/-- A command line that names a file to write to does so in one place, and the other arguments are
the line of the same command without that file. -/
theorem Invocation.exists_without_out {args : List String} {o : Options} {path : String}
    (h : ofArgs args = .run o) (hout : o.out = some path) :
    ∃ pre arguments post, args = pre ++ arguments ++ post ∧ Given.OutArguments path arguments ∧
      ofArgs (pre ++ post) = .run { o with out := none } := by
  obtain ⟨g, hreads, ho⟩ := Given.readArgs_eq_run_iff.1 h
  obtain ⟨hfile, hwithout⟩ := Given.options?_withoutOut ho
  obtain ⟨pre, arguments, post, hargs, hname, hrest⟩ :=
    (hreads.exists_withoutOut rfl (hfile ▸ hout)).2 (by simp)
  exact ⟨pre, arguments, post, hargs, hname, Given.readArgs_eq_run_iff.2 ⟨_, hrest, hwithout⟩⟩

end Machine86
