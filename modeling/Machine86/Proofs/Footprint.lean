import Machine86.Proofs.Padding
import Machine86.Proofs.Replay

/-!
# Only the bytes of its steps matter to a run

A step lies on the bytes that its instruction was decoded from (`Step.Covers`). No other byte of the
program decides what is fetched there, and nothing else of a machine depends on the program but its
length. So a run that completes is also the run of every program of the same length that has the
same bytes where its steps lie (`run_eq_of_covered`); what a branch skips may be anything, decodable
or not.
-/

namespace Machine86

/-- An address is one of those that the bytes of a step come from. -/
def Step.Covers (s : Step) (address : Nat) : Prop :=
  s.offset.toNat ≤ address ∧ address < s.offset.toNat + s.bytes.length

/-- Bytes at the start of one list are at the start of another that has the same elements there. -/
theorem isPrefix_drop_of_agree {bytes p q : List UInt8} {start : Nat} (h : bytes <+: p.drop start)
    (hagree : ∀ k, start ≤ k → k < start + bytes.length → q[k]? = p[k]?) :
    bytes <+: q.drop start := by
  rw [List.prefix_iff_eq_take] at h ⊢
  apply List.ext_getElem?
  intro i
  by_cases hi : i < bytes.length
  · have hbyte := congrArg (fun l => l[i]?) h
    have hsame := hagree (start + i) (by omega) (by omega)
    simp only [List.getElem?_take_of_lt hi, List.getElem?_drop] at hbyte ⊢
    rw [hbyte, hsame]
  · rw [List.getElem?_eq_none (by omega), List.getElem?_eq_none]
    simp only [List.length_take]
    omega

namespace Machine

section Agree

variable {p q : List UInt8} {memory : Memory} {minMemory : Nat} {execute : Bool} {m m' : Machine}
  {steps : List Step} (hlen : q.length = p.length)
  (hmemory : Memory.ofProgram q minMemory = .ok memory)

include hlen hmemory

/-- An instruction is fetched from every program that has its bytes at the pointer. -/
theorem Loaded.fetch_of_agree (h : m.Loaded p) {f : Fetched} (hf : m.fetch = .ok (some f))
    (hagree : ∀ k, m.ip.toNat ≤ k → k < m.ip.toNat + f.bytes.length → q[k]? = p[k]?) :
    (m.withMemory memory minMemory).fetch = m.fetch := by
  obtain ⟨hdone, hwell, hbytes, hprefix, hoffset⟩ := fetch_eq_some_iff.1 hf
  rw [h.code_eq] at hprefix
  have hcode : (m.withMemory memory minMemory).code = q.drop m.ip.toNat :=
    (h.withMemory hlen hmemory).code_eq
  rw [hf]
  refine fetch_eq_some_iff.2 ⟨hdone, hwell, hbytes, ?_, hoffset⟩
  rw [hcode]
  exact isPrefix_drop_of_agree hprefix hagree

/-- The step of a program is a step of every program that has its bytes. -/
theorem Loaded.take_of_agree (hm : m.Loaded p) {s : Step}
    (ht : Machine.take execute m = .ok (some s) m')
    (hagree : ∀ k, s.Covers k → q[k]? = p[k]?) :
    Machine.take execute (m.withMemory memory minMemory) =
      .ok (some s) (m'.withMemory memory minMemory) := by
  obtain ⟨f, trace, hf, hs⟩ := exists_fetched_of_take ht
  have hoffset := offset_of_take ht
  have hbytes : s.bytes = f.bytes := by rw [hs, Step.ofFetched]
  have hfetch := hm.fetch_of_agree hlen hmemory hf fun k hstart hend => hagree k (by
    rw [Step.Covers, hoffset, hbytes]
    exact ⟨hstart, hend⟩)
  rw [take_withMemory hfetch, ht]
  rfl

theorem Takes.of_agree (h : m.Takes execute steps m') (hm : m.Loaded p)
    (hagree : ∀ s ∈ steps, ∀ k, s.Covers k → q[k]? = p[k]?) :
    (m.withMemory memory minMemory).Takes execute steps (m'.withMemory memory minMemory) := by
  induction h with
  | nil => exact .nil _
  | cons ht _ ih =>
    rw [List.forall_mem_cons] at hagree
    exact .cons (hm.take_of_agree hlen hmemory ht hagree.1) (ih (hm.take ht) hagree.2)

end Agree

end Machine

/-- A run that completes has the same listing for every program of the same length that agrees with
its own on the bytes of its steps. -/
theorem run_eq_of_covered {p q : List UInt8} {config : Config} {l : Listing}
    (hlen : q.length = p.length) (hrun : run p config = .ok l)
    (hagree : ∀ s ∈ l.steps, ∀ address, s.Covers address → q[address]? = p[address]?) :
    run q config = .ok l := by
  obtain ⟨m₀, m, hload, htakes, hdone, hlength, hfinal⟩ := run_eq_ok_iff.1 hrun
  have hm₀ := Machine.loaded_of_load hload
  obtain ⟨m', hload', -⟩ := Machine.exists_load (hlen ▸ hm₀.length_le) defaultMinMemory
  obtain ⟨hmemory, -⟩ := Machine.memory_of_load hload'
  exact run_eq_ok_iff.2 ⟨_, _, Machine.load_withMemory hload hlen hmemory,
    htakes.of_agree hlen hmemory hm₀ hagree, hdone, hlength, hfinal⟩

/-- The branch over a move does the same over two bytes that begin no instruction. -/
theorem run_eq_of_covered_branchOver :
    let q : List UInt8 := [0x75, 0x02, 0xf4, 0xf4, 0x29, 0xc0]
    let config : Config := { execute := true, maxSteps := 2 }
    q.length = branchOver.length ∧ ∃ l, run branchOver config = .ok l ∧
      (∀ s ∈ l.steps, ∀ address, s.Covers address → q[address]? = branchOver[address]?) ∧
      run q config = .ok l := by
  intro q config
  obtain ⟨m₀, s, s', m, hload, htakes, hdone, -, hs, hbytes, hs', hbytes'⟩ := takes_branchOver
  have hrun : run branchOver config = .ok ⟨[s, s'], some m.snapshot⟩ :=
    run_eq_ok_iff.2 ⟨m₀, m, hload, htakes, hdone, Nat.le_refl 2, rfl⟩
  have hcovered : ∀ step ∈ [s, s'], ∀ address, step.Covers address →
      q[address]? = branchOver[address]? := by
    simp only [List.forall_mem_cons, Step.Covers, hs, hbytes, hs', hbytes']
    refine ⟨fun k hk => ?_, fun k hk => ?_, by simp⟩
    · obtain rfl | rfl : k = 0 ∨ k = 1 := by simp at hk; omega
      · rfl
      · rfl
    · obtain rfl | rfl : k = 4 ∨ k = 5 := by simp at hk; omega
      · rfl
      · rfl
  have hlen : q.length = branchOver.length := rfl
  exact ⟨hlen, _, hrun, hcovered, run_eq_of_covered hlen hrun hcovered⟩

end Machine86
