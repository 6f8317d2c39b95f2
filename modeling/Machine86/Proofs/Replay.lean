import Machine86.Proofs.Effect
import Machine86.Proofs.Steps

/-!
# Traces can be replayed

A trace holds old and new values, so it can be carried out on a snapshot that has the old ones.
The trace between two snapshots leads from the first to the second (`Trace.replay?_between`), and
the traces of a run lead from all zeros to its last state, through every state of the machine on
the way (`run_logged`).
-/

namespace Machine86

/-- The snapshot after a change, where the register had the old value. -/
def RegChange.replay? (s : Snapshot) (c : RegChange) : Option Snapshot :=
  if h : c.index.toNat < 8 then
    if s.regs.get ⟨c.index.toNat, h⟩ = c.old then
      some { s with regs := s.regs.set c.index.toNat c.new }
    else none
  else none

namespace Trace

def replayFlags? (s : Snapshot) : Option (Flags × Flags) → Option Snapshot
  | none => some s
  | some (old, new) => if s.flags = old then some { s with flags := new } else none

def replayIp? (s : Snapshot) (ip : UInt16 × UInt16) : Option Snapshot :=
  if s.ip = ip.1 then some { s with ip := ip.2 } else none

/-- The snapshot after everything that a trace lists; none where an old value is not there. -/
def replay? (s : Snapshot) (t : Trace) : Option Snapshot := do
  let s ← t.regs.foldlM RegChange.replay? s
  let s ← replayFlags? s t.flags
  replayIp? s t.ip

theorem replay?_regChange (s : Snapshot) (i : Fin 8) (old new : UInt16) :
    RegChange.replay? s ⟨UInt8.ofNat i.val, old, new⟩ =
      if s.regs.get i = old then some { s with regs := s.regs.set i.val new } else none := by
  have hindex : (UInt8.ofNat i.val).toNat = i.val :=
    Nat.mod_eq_of_lt (Nat.lt_trans i.isLt (by omega))
  simp only [RegChange.replay?, hindex, i.isLt, ↓reduceDIte]

section Between

variable (before after : Snapshot)

/-- The changes of some registers give them their new values and no others. -/
theorem exists_replay_regs {is : List (Fin 8)} (his : is.Nodup) {s : Snapshot}
    (hs : ∀ i ∈ is, s.regs.get i = before.regs.get i) :
    ∃ regs, (is.filterMap (regChange? before after)).foldlM RegChange.replay? s =
        some { s with regs } ∧
      ∀ i, regs.get i = if i ∈ is then after.regs.get i else s.regs.get i := by
  induction is generalizing s with
  | nil => exact ⟨s.regs, rfl, fun i => rfl⟩
  | cons i is ih =>
    obtain ⟨hi, his⟩ := List.nodup_cons.1 his
    by_cases hchange : before.regs.get i = after.regs.get i
    · have hnone : regChange? before after i = none := if_pos hchange
      obtain ⟨regs, hfold, hregs⟩ := ih his fun k hk => hs k (List.mem_cons_of_mem i hk)
      refine ⟨regs, by rw [List.filterMap_cons_none hnone, hfold], fun k => ?_⟩
      rw [hregs]
      by_cases hk : k = i
      · rw [hk, if_neg hi, if_pos List.mem_cons_self, hs i List.mem_cons_self, hchange]
      · simp only [List.mem_cons, hk, false_or]
    · have hsome : regChange? before after i = some ⟨UInt8.ofNat i.val, _, _⟩ := if_neg hchange
      have hother : ∀ k, k ≠ i → ∀ v, (s.regs.set i.val v).get k = s.regs.get k := by
        intro k hk v
        exact Vector.getElem_set_ne _ _ fun h => hk (Fin.ext h.symm)
      obtain ⟨regs, hfold, hregs⟩ :=
        ih (s := { s with regs := s.regs.set i.val (after.regs.get i) }) his fun k hk => by
          rw [hother k fun h => hi (h ▸ hk)]
          exact hs k (List.mem_cons_of_mem i hk)
      refine ⟨regs, ?_, fun k => ?_⟩
      · rw [List.filterMap_cons_some hsome, List.foldlM_cons, replay?_regChange,
          if_pos (hs i List.mem_cons_self)]
        exact hfold
      · rw [hregs]
        by_cases hk : k = i
        · rw [hk, if_neg hi, if_pos List.mem_cons_self]
          exact Vector.getElem_set_self _
        · simp only [List.mem_cons, hk, false_or, hother k hk]

theorem replayFlags?_between {s : Snapshot} (hs : s.flags = before.flags) :
    replayFlags? s (between before after).flags = some { s with flags := after.flags } := by
  simp only [between]
  split_ifs with hflags
  · rw [replayFlags?, ← hflags, ← hs]
  · exact if_pos hs

/-- The trace between two snapshots leads from the one to the other. -/
theorem replay?_between :
    (between before after).replay? before = some after := by
  obtain ⟨regs, hfold, hregs⟩ := exists_replay_regs before after (List.nodup_finRange 8)
    (s := before) fun _ _ => rfl
  have heq : regs = after.regs := by
    apply Vector.ext
    intro i hi
    have hget := hregs ⟨i, hi⟩
    rwa [if_pos (List.mem_finRange _)] at hget
  have hregs' : (between before after).regs.foldlM RegChange.replay? before =
      some { before with regs } := hfold
  have hflags : replayFlags? { before with regs } (between before after).flags =
      some { before with regs, flags := after.flags } := replayFlags?_between before after rfl
  rw [replay?, hregs', Option.bind_eq_bind, Option.bind_some, hflags, Option.bind_some, heq]
  exact if_pos rfl

end Between

/-- What the trace of one step says of the snapshots before and after it. -/
structure Records (t : Trace) (before after : Snapshot) : Prop where
  replay : t.replay? before = some after
  ip : t.ip = (before.ip, after.ip)
  atMostOne : t.regs.length ≤ 1
  changed : ∀ c ∈ t.regs, c.old ≠ c.new
  flags : t.flags.isSome = true ↔ before.flags ≠ after.flags

variable {before after : Snapshot}

theorem exists_of_mem_between {c : RegChange} (h : c ∈ (between before after).regs) :
    ∃ i : Fin 8, before.regs.get i ≠ after.regs.get i ∧
      c = ⟨UInt8.ofNat i.val, before.regs.get i, after.regs.get i⟩ := by
  obtain ⟨i, -, hi⟩ := List.mem_filterMap.1 h
  unfold regChange? at hi
  split_ifs at hi with hne
  cases hi
  exact ⟨i, hne, rfl⟩

theorem old_ne_new_of_mem_between {c : RegChange} (h : c ∈ (between before after).regs) :
    c.old ≠ c.new := by
  obtain ⟨i, hne, rfl⟩ := exists_of_mem_between h
  exact hne

theorem index_lt_of_mem_between {c : RegChange} (h : c ∈ (between before after).regs) :
    c.index.toNat < 8 := by
  obtain ⟨i, -, rfl⟩ := exists_of_mem_between h
  rw [UInt8.toNat_ofNat']
  omega

theorem flags_between_iff :
    (between before after).flags.isSome = true ↔ before.flags ≠ after.flags := by
  simp only [between]
  split_ifs with hflags
  · simp [hflags]
  · simp [hflags]

theorem length_filterMap_le_one {α β : Type} {f : α → Option β} {is : List α} (his : is.Nodup)
    {i : α} (h : ∀ k, k ≠ i → f k = none) : (is.filterMap f).length ≤ 1 := by
  induction is with
  | nil => exact Nat.zero_le 1
  | cons k is ih =>
    obtain ⟨hk, his⟩ := List.nodup_cons.1 his
    by_cases hki : k = i
    · have hrest : is.filterMap f = [] :=
        List.filterMap_eq_nil_iff.2 fun j hj => h j fun hji => hk (hki.trans hji.symm ▸ hj)
      rw [List.filterMap_cons, hrest]
      split <;> simp
    · rw [List.filterMap_cons_none (h k hki)]
      exact ih his

theorem length_between_le_one {i : Fin 8}
    (h : ∀ k, k ≠ i → after.regs.get k = before.regs.get k) :
    (between before after).regs.length ≤ 1 :=
  length_filterMap_le_one (List.nodup_finRange 8) fun k hk => if_pos (h k hk).symm

end Trace

/-- The snapshot that the trace of a step leads to. -/
def Step.replay? (state : Snapshot) (s : Step) : Option Snapshot := do
  (← s.trace).replay? state

/-- The snapshot that the traces of some steps lead to, one after the other. -/
def replay? (state : Snapshot) (steps : List Step) : Option Snapshot :=
  steps.foldlM Step.replay? state

namespace Machine

variable {m m' : Machine}

/-- An operation writes to one word at most. -/
theorem exists_regs_perform? {op : Operation} (h : m.perform? op = some m') :
    ∃ i, ∀ k, k ≠ i → m'.regs.get k = m.regs.get k := by
  have hset : ∀ r v k, k ≠ wordIndex r → (m.setReg r v).regs.get k = m.regs.get k := by
    intro r v k hk
    rw [get_setReg, if_neg hk]
  cases op with
  | mov dst src wide =>
    simp only [perform?, Option.bind_eq_bind, Option.bind_eq_some_iff] at h
    obtain ⟨r, -, v, -, h⟩ := h
    cases h
    exact ⟨wordIndex r, hset r v⟩
  | arith op dst src wide =>
    simp only [perform?, Option.bind_eq_bind, Option.bind_eq_some_iff] at h
    obtain ⟨r, -, v, -, h⟩ := h
    cases h
    refine ⟨wordIndex r, fun k hk => ?_⟩
    rw [setResultFlags]
    split_ifs
    · exact hset r _ k hk
    · rfl
  | jump branch inc =>
    simp only [perform?, Option.some.injEq] at h
    subst h
    refine ⟨0, fun k _ => ?_⟩
    split_ifs <;> rfl

theorem records_of_take {s : Step} (h : take true m = .ok (some s) m') :
    ∃ t, s.trace = some t ∧ t.Records m.snapshot m'.snapshot := by
  obtain ⟨f, -, h⟩ := take_eq_some_iff.1 h
  obtain ⟨hperform, rfl⟩ := h
  obtain ⟨i, hi⟩ := exists_regs_perform? hperform
  exact ⟨_, rfl, Trace.replay?_between _ _, rfl, Trace.length_between_le_one hi,
    fun c hc => Trace.old_ne_new_of_mem_between hc, Trace.flags_between_iff⟩

theorem replay?_of_take {s : Step} (h : take true m = .ok (some s) m') :
    s.replay? m.snapshot = some m'.snapshot := by
  obtain ⟨t, ht, hrecords⟩ := records_of_take h
  rw [Step.replay?, ht]
  exact hrecords.replay

theorem Takes.replay? {steps : List Step} (h : m.Takes true steps m') :
    replay? m.snapshot steps = some m'.snapshot := by
  induction h with
  | nil => rfl
  | cons hs _ ih =>
    rw [Machine86.replay?, List.foldlM_cons, replay?_of_take hs]
    exact ih

/-- The steps from one machine to another are logged by their traces. -/
structure Logged (m : Machine) (steps : List Step) (m' : Machine) : Prop where
  replays : Machine86.replay? m.snapshot steps = some m'.snapshot
  starts : ∀ s ∈ steps.head?, s.offset = m.ip
  follows : steps.IsChain fun s s' => ∃ t, s.trace = some t ∧ t.ip.2 = s'.offset
  ends : ∀ s ∈ steps.getLast?, ∃ t, s.trace = some t ∧ t.ip.2 = m'.ip
  /-- At each step, what was replayed so far is the state of the machine. -/
  records : ∀ done s rest, steps = done ++ s :: rest → ∃ before after t,
    m.Takes true done before ∧ take true before = .ok (some s) after ∧
      Machine86.replay? m.snapshot done = some before.snapshot ∧ s.trace = some t ∧
      s.offset = t.ip.1 ∧ t.Records before.snapshot after.snapshot

theorem Takes.follows {steps : List Step} (h : m.Takes true steps m') :
    steps.IsChain fun s s' => ∃ t, s.trace = some t ∧ t.ip.2 = s'.offset := by
  induction h with
  | nil => exact List.isChain_nil
  | cons ht hs ih =>
    obtain ⟨t, htrace, hrecords⟩ := records_of_take ht
    refine List.isChain_cons.2 ⟨fun s hmem => ⟨t, htrace, ?_⟩, ih⟩
    rw [hs.offset_of_head s hmem, hrecords.ip]
    rfl

theorem Takes.ends {steps : List Step} (h : m.Takes true steps m') :
    ∀ s ∈ steps.getLast?, ∃ t, s.trace = some t ∧ t.ip.2 = m'.ip := by
  intro s hs
  obtain ⟨done, rfl⟩ := List.getLast?_eq_some_iff.1 hs
  obtain ⟨before, -, hlast⟩ := takes_append_iff.1 h
  cases hlast with
  | cons ht hnil =>
    cases hnil
    obtain ⟨t, htrace, hrecords⟩ := records_of_take ht
    exact ⟨t, htrace, by rw [hrecords.ip]; rfl⟩

theorem Takes.logged {steps : List Step} (h : m.Takes true steps m') : m.Logged steps m' where
  replays := h.replay?
  starts := h.offset_of_head
  follows := h.follows
  ends := h.ends
  records := by
    rintro done s rest rfl
    obtain ⟨before, hdone, hrest⟩ := takes_append_iff.1 h
    cases hrest with
    | cons ht _ =>
      obtain ⟨t, htrace, hrecords⟩ := records_of_take ht
      refine ⟨before, _, t, hdone, ht, hdone.replay?, htrace, ?_, hrecords⟩
      rw [offset_of_take ht, hrecords.ip]
      rfl

end Machine

/-- The registers, flags and pointer before a run. -/
def Snapshot.initial : Snapshot where
  regs := Vector.replicate 8 0
  flags := {}
  ip := 0

theorem Machine.snapshot_of_load {program : List UInt8} {minMemory : Nat} {m : Machine}
    (h : load program minMemory = .ok m) : m.snapshot = .initial := by
  obtain ⟨memory, -, rfl⟩ := load_eq_ok_iff.1 h
  rfl

/-- A branch over a move, and `sub ax, ax` behind it. -/
def branchOver : List UInt8 := [0x75, 0x02, 0xb1, 0x0c, 0x29, 0xc0]

theorem takes_branchOver :
    ∃ m₀ s s' m, Machine.load branchOver defaultMinMemory = .ok m₀ ∧ m₀.Takes true [s, s'] m ∧
      m.isDone = true ∧ m.snapshot = ⟨Vector.replicate 8 0, ⟨0x40⟩, 6⟩ ∧
      s.offset = 0 ∧ s.bytes = [0x75, 0x02] ∧ s'.offset = 4 ∧ s'.bytes = [0x29, 0xc0] := by
  obtain ⟨memory, hmemory⟩ : ∃ memory, Memory.ofProgram branchOver defaultMinMemory = .ok memory :=
    ⟨_, rfl⟩
  let state (flags : Flags) (ip : UInt16) : Machine :=
    ⟨Vector.replicate 8 0, flags, ip, memory, 6, false, defaultMinMemory⟩
  have hload : Machine.load branchOver defaultMinMemory = .ok (state {} 0) :=
    Machine.load_eq_ok_iff.2 ⟨memory, hmemory, rfl⟩
  have hm := Machine.loaded_of_load hload
  have hbranch : (state {} 2).perform? (Jump.operation ⟨0x75, 2⟩) = some (state {} 4) := by
    have hzero : ({} : Flags).zero = false := rfl
    rw [Jump.perform?_operation, if_pos (.inr ⟨rfl, hzero⟩)]
    rfl
  have hjump : Machine.take true (state {} 0) = .ok _ (state {} 4) :=
    hm.take_of_decode rfl rfl hbranch
  have hresult : (state {} 6).perform? (.arith .sub (.register .ax) (.operand (.register .ax))
      true) = some (state ⟨0x40⟩ 6) := by
    have hregs : (Vector.replicate 8 (0 : UInt16)).set 0 (0 - 0) = Vector.replicate 8 0 := rfl
    have hflags : ({} : Flags).ofResult (0 - 0) = ⟨0x40⟩ := rfl
    have h : (state {} 6).perform? (.arith .sub (.register .ax) (.operand (.register .ax)) true) =
        some { state (({} : Flags).ofResult (0 - 0)) 6 with
          regs := (Vector.replicate 8 0).set 0 (0 - 0) } := rfl
    rw [h, hregs, hflags]
  have hsub : Machine.take true (state {} 4) = .ok _ (state ⟨0x40⟩ 6) :=
    (hm.take hjump).take_of_decode rfl rfl hresult
  exact ⟨_, _, _, _, hload, .cons hjump (.cons hsub (.nil _)), rfl, rfl, rfl, rfl, rfl, rfl⟩

/-- A run that executes a program to its end is logged by its traces, from the initial state to the
final one. -/
theorem run_logged {program : List UInt8} {config : Config} {l : Listing}
    (hrun : run program config = .ok l) (hexecute : config.execute = true) :
    ∃ m₀ m, Machine.load program defaultMinMemory = .ok m₀ ∧ m₀.snapshot = .initial ∧
      m₀.Logged l.steps m ∧ l.finalState = some m.snapshot := by
  obtain ⟨m₀, m, hload, htakes, -, -, hfinal⟩ := run_eq_ok_iff.1 hrun
  rw [hexecute] at htakes
  rw [if_pos hexecute] at hfinal
  exact ⟨m₀, m, hload, Machine.snapshot_of_load hload, htakes.logged, hfinal⟩

theorem run_logged_branch :
    let config : Config := { execute := true, maxSteps := 2 }
    ∃ l, run branchOver config = .ok l ∧ config.execute = true ∧
      l.steps.map Step.offset = [0, 4] ∧
      replay? .initial l.steps = some ⟨Vector.replicate 8 0, ⟨0x40⟩, 6⟩ := by
  intro config
  obtain ⟨m₀, s, s', m, hload, htakes, hdone, hsnapshot, hs, -, hs', -⟩ := takes_branchOver
  have hrun : run branchOver config = .ok ⟨[s, s'], some m.snapshot⟩ :=
    run_eq_ok_iff.2 ⟨m₀, m, hload, htakes, hdone, Nat.le_refl 2, rfl⟩
  obtain ⟨m₀', m', -, hinitial, hlogged, hlast⟩ := run_logged hrun rfl
  refine ⟨_, hrun, rfl, by simp [hs, hs'], ?_⟩
  rw [← hinitial, hlogged.replays, ← hlast, hsnapshot]

end Machine86
