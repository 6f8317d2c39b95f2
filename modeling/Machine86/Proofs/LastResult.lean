import Machine86.Proofs.Reachable
import Machine86.Proofs.Replay
import Machine86.Proofs.Stops

/-!
# The flags are those of the last result

Of the steps of a run only additions, subtractions and comparisons touch the flags, and each of them
sets both of its flags anew. So whatever was executed before, the flags say what the last result was
(`Machine.Takes.flags_cases`), and there are none before the first one. As no number is both zero
and above 0x7fff, the two flags are never set together (`flags_of_last_result`).
-/

namespace Machine86

namespace Flags

/-- The flags of a number, from no flags. -/
def ofNumber (n : Nat) : Flags :=
  if n = 0 then ⟨zeroBit⟩ else if 0x7fff < n then ⟨signBit⟩ else {}

theorem zero_ofNumber (n : Nat) : (ofNumber n).zero = decide (n = 0) := by
  unfold ofNumber
  split_ifs with hzero hsign
  · exact (decide_eq_true hzero).symm
  · exact (decide_eq_false hzero).symm
  · exact (decide_eq_false hzero).symm

theorem sign_ofNumber (n : Nat) : (ofNumber n).sign = decide (0x7fff < n) := by
  unfold ofNumber
  split_ifs with hzero hsign
  · rw [hzero]
    rfl
  · exact (decide_eq_true hsign).symm
  · exact (decide_eq_false hsign).symm

theorem rest_ofNumber (n : Nat) : (ofNumber n).rest = 0 := by
  unfold ofNumber
  split_ifs <;> rfl

theorem not_zero_and_sign_ofNumber (n : Nat) :
    ¬ ((ofNumber n).zero = true ∧ (ofNumber n).sign = true) := by
  rw [zero_ofNumber, sign_ofNumber, decide_eq_true_iff, decide_eq_true_iff]
  omega

theorem rest_eq_of_bit_eq {f g : Flags} (h : ∀ k, k ≠ 6 → k ≠ 7 → f.bit k = g.bit k) :
    f.rest = g.rest := by
  refine UInt16.toBitVec_inj.1 (BitVec.eq_of_getLsbD_eq fun k _ => ?_)
  rw [bit_rest, bit_rest]
  split_ifs with hk
  · rfl
  · exact h k (fun h6 => hk (.inl h6)) fun h7 => hk (.inr h7)

end Flags

section Effect

variable {i : Instruction} {size n : Nat} {m m' : Machine}

/-- A result sets both flags, whatever they were. -/
theorem Instruction.Effect.flags_of_result (h : i.Effect size m m') (hresult : i.result? m = some n)
    (hrest : m.flags.rest = 0) : m'.flags = .ofNumber n := by
  refine Flags.eq_of_rest_eq ?_ ?_ ?_
  · rw [h.zero n hresult, Flags.zero_ofNumber]
  · rw [h.sign n hresult, Flags.sign_ofNumber]
  · rw [Flags.rest_eq_of_bit_eq h.otherBits, hrest, Flags.rest_ofNumber]

end Effect

/-- The instruction of a step computes a result. -/
def Step.IsArith (s : Step) : Prop := ∃ a, s.instruction = .arith a

namespace Machine

variable {m m' : Machine} {s : Step} {steps : List Step}

/-- An instruction that a step executes has no operand in memory, and so it has its effect. -/
theorem effect_of_take (h : take true m = .ok (some s) m') :
    s.instruction.Effect s.bytes.length m m' := by
  obtain ⟨f, hf, hperform, rfl⟩ := take_eq_some_iff.1 h
  have hregisters : f.instruction.OnRegisters := by
    rw [Instruction.onRegisters_iff, ← perform?_eq_none_iff (m := m.advance f.size), hperform]
    exact Option.some_ne_none _
  have hwrapped := wrapped_of_not_isDone (fetch_eq_some_iff.1 hf).1
  obtain ⟨m'', hperform', heffect⟩ := Instruction.exists_effect hwrapped f.size hregisters
  rw [hperform, Option.some.injEq] at hperform'
  rw [toNat_size hf, ← hperform'] at heffect
  exact heffect

theorem flags_of_arith {a : Arith} (h : take true m = .ok (some s) m')
    (ha : s.instruction = .arith a) (hrest : m.flags.rest = 0) :
    m'.flags = .ofNumber (a.result m) := by
  have heffect := effect_of_take h
  rw [ha] at heffect
  exact heffect.flags_of_result rfl hrest

theorem flags_of_not_isArith (h : take true m = .ok (some s) m') (hs : ¬ s.IsArith) :
    m'.flags = m.flags := by
  refine (effect_of_take h).flags ?_
  cases hi : s.instruction with
  | mov a => rfl
  | arith a => exact absurd ⟨a, hi⟩ hs
  | jump j => rfl

theorem flags_of_trap {execute : Bool} {t : Trap} (h : take execute m = .error t m') :
    m'.flags = m.flags := by
  have hleaves := leaves_of_take h
  cases t with
  | decode ip source => rw [hleaves.2.2]
  | unsupported ip what =>
    obtain ⟨f, -, -, -, -, rfl⟩ := hleaves
    rfl
  | stepLimit n => rw [hleaves]

/-- Along some steps, `n` is the result of the last addition, subtraction or comparison. -/
def LastResult (m : Machine) (steps : List Step) (n : Nat) : Prop :=
  ∃ done s later a before, steps = done ++ s :: later ∧ s.instruction = .arith a ∧
    (∀ s ∈ later, ¬ s.IsArith) ∧ m.Takes true done before ∧ n = a.result before

theorem LastResult.cons {n : Nat} (h : take true m = .ok (some s) m')
    (hlast : m'.LastResult steps n) : m.LastResult (s :: steps) n := by
  obtain ⟨done, s', later, a, before, rfl, ha, hlater, hdone, rfl⟩ := hlast
  exact ⟨s :: done, s', later, a, before, rfl, ha, hlater, .cons h hdone, rfl⟩

/-- The flags are those of the last result. Where there was none they are as they were. -/
theorem Takes.flags_cases (h : m.Takes true steps m') (hrest : m.flags.rest = 0) :
    (∀ s ∈ steps, ¬ s.IsArith) ∧ m'.flags = m.flags ∨
      ∃ n, m.LastResult steps n ∧ m'.flags = .ofNumber n := by
  induction h with
  | nil m => exact .inl ⟨by simp, rfl⟩
  | @cons m m₁ m' s steps hs hsteps ih =>
    by_cases harith : s.IsArith
    · obtain ⟨a, ha⟩ := harith
      have hflags := flags_of_arith hs ha hrest
      rw [hflags, Flags.rest_ofNumber] at ih
      obtain ⟨hnone, hkept⟩ | ⟨n, hlast, hn⟩ := ih rfl
      · exact .inr ⟨_, ⟨[], s, steps, a, m, rfl, ha, hnone, .nil m, rfl⟩, hkept⟩
      · exact .inr ⟨n, hlast.cons hs, hn⟩
    · have hflags := flags_of_not_isArith hs harith
      rw [hflags] at ih
      obtain ⟨hnone, hkept⟩ | ⟨n, hlast, hn⟩ := ih hrest
      · exact .inl ⟨List.forall_mem_cons.2 ⟨harith, hnone⟩, hkept⟩
      · exact .inr ⟨n, hlast.cons hs, hn⟩

/-- A call leaves the flags alone or sets them by a number, also where it ends in a trap. -/
theorem flags_after (hrest : m.flags.rest = 0) (execute : Bool) :
    (m.after execute).flags = m.flags ∨ ∃ n, (m.after execute).flags = .ofNumber n := by
  rw [← outcome_take]
  rcases ht : take execute m with ⟨_ | s, m'⟩ | ⟨t, m'⟩
  · have hdone := isDone_of_take ht
    rw [take_of_isDone hdone] at ht
    cases ht
    exact .inl rfl
  · cases execute with
    | true =>
      by_cases harith : s.IsArith
      · obtain ⟨a, ha⟩ := harith
        exact .inr ⟨_, flags_of_arith ht ha hrest⟩
      · exact .inl (flags_of_not_isArith ht harith)
    | false =>
      obtain ⟨f, -, rfl, -⟩ := take_eq_some_iff.1 ht
      exact .inl rfl
  · exact .inl (flags_of_trap ht)

theorem flags_afterAll {n : Nat} (h : m.flags = .ofNumber n) (calls : List Bool) :
    ∃ n, (m.afterAll calls).flags = .ofNumber n := by
  induction calls generalizing m n with
  | nil => exact ⟨n, h⟩
  | cons execute calls ih =>
    have hrest : m.flags.rest = 0 := by rw [h, Flags.rest_ofNumber]
    obtain hkept | ⟨n', hset⟩ := flags_after hrest execute
    · exact ih (hkept.trans h)
    · exact ih hset

end Machine

open Machine

/-- At every point of a run that executes, the flags are those of the last result, or there are none
because nothing was computed yet; a trap does not change them. No calls whatever set both flags. -/
theorem flags_of_last_result {program : List UInt8} {minMemory : Nat} {m₀ : Machine}
    (hload : load program minMemory = .ok m₀) :
    (∀ steps m, m₀.Takes true steps m →
      ((∀ s ∈ steps, ¬ s.IsArith) ∧ m.flags = {} ∨
        ∃ n, m₀.LastResult steps n ∧ m.flags = .ofNumber n) ∧
      ∀ t m', take true m = .error t m' → m'.flags = m.flags) ∧
    ∀ calls, ¬ ((m₀.afterAll calls).flags.zero = true ∧ (m₀.afterAll calls).flags.sign = true) := by
  have hflags : m₀.flags = {} := by
    obtain ⟨memory, -, rfl⟩ := load_eq_ok_iff.1 hload
    rfl
  refine ⟨fun steps m htakes => ⟨?_, fun t m' => flags_of_trap⟩, fun calls => ?_⟩
  · have hrest : m₀.flags.rest = 0 := by
      rw [hflags]
      rfl
    have hcases := htakes.flags_cases hrest
    rw [hflags] at hcases
    exact hcases
  · have hnumber : m₀.flags = .ofNumber 1 := hflags
    obtain ⟨n, hn⟩ := flags_afterAll hnumber calls
    rw [hn]
    exact Flags.not_zero_and_sign_ofNumber n

theorem flags_of_last_result_branchOver :
    ∃ m₀ steps m, load branchOver defaultMinMemory = .ok m₀ ∧ m₀.Takes true steps m ∧
      m₀.LastResult steps 0 ∧ m.flags = .ofNumber 0 := by
  obtain ⟨m₀, s, s', m, hload, htakes, -, hsnapshot, -⟩ := takes_branchOver
  obtain ⟨hpoints, -⟩ := flags_of_last_result hload
  have hflags : m.flags = ⟨0x40⟩ := congrArg Snapshot.flags hsnapshot
  obtain ⟨⟨-, hnone⟩ | ⟨n, hlast, hn⟩, -⟩ := hpoints _ m htakes
  · rw [hflags] at hnone
    cases hnone
  · have hzero : n = 0 := by
      have h := Flags.zero_ofNumber n
      rw [← hn, hflags] at h
      exact of_decide_eq_true h.symm
    rw [hzero] at hlast hn
    exact ⟨m₀, _, m, hload, htakes, hlast, hn⟩

end Machine86
