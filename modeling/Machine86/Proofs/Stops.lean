import Machine86.Proofs.Brackets
import Machine86.Proofs.StepLimit

/-!
# What a trap leaves of the machine

A trap comes before anything is done. An instruction that cannot be executed changes no register and
no flag, and one that cannot be decoded does not even move the pointer. Only a step that fetches an
instruction and then finds an operand of it in memory leaves a trace: the pointer stands behind the
instruction (`trap_leaves`).
-/

namespace Machine86

/-- The pointer behind so many bytes more, and the mark of an address space that ends before them;
all else is as it was. -/
def Machine.movedBy (m : Machine) (length : Nat) : Machine :=
  { m with ip := .ofNat (m.ip.toNat + length)
           wrapped := decide (0x10000 ≤ m.ip.toNat + length) }

/-- What a machine was before a trap and is after it. A trap of the decoder or of the limit changes
nothing. An instruction that is not supported was fetched, and is passed. -/
def Trap.Leaves (m m' : Machine) : Trap → Prop
  | decode ip source => m.fetch = .error (.decode ip source) ∧ ip = m.ip ∧ m' = m
  | unsupported ip what => ∃ f, m.fetch = .ok (some f) ∧ ip = m.ip ∧ f.offset = m.ip ∧
      what = f.instruction.text ∧ m' = m.movedBy f.bytes.length
  | stepLimit _ => m' = m

namespace Machine

variable {m m' : Machine} {t : Trap} {execute : Bool}

theorem advance_eq_movedBy {f : Fetched} (hf : m.fetch = .ok (some f)) :
    m.advance f.size = m.movedBy f.bytes.length := by
  have hwrapped := wrapped_of_not_isDone (fetch_eq_some_iff.1 hf).1
  rw [advance, movedBy, toNat_size hf, hwrapped, Bool.false_or, addressSpace, UInt16.ofNat_add,
    UInt16.ofNat_toNat, Fetched.size]

theorem leaves_of_fetch (h : m.fetch = .error t) : t.Leaves m m := by
  obtain ⟨-, source, -, -, rfl⟩ := fetch_eq_error_iff.1 h
  exact ⟨h, rfl, rfl⟩

theorem leaves_of_step (h : m.step = .error t m') : t.Leaves m m' := by
  obtain ⟨hf, rfl⟩ | ⟨f, hf, -, rfl, rfl⟩ := step_eq_error_iff.1 h
  · exact leaves_of_fetch hf
  · obtain ⟨-, -, -, -, hoffset⟩ := fetch_eq_some_iff.1 hf
    exact ⟨f, hf, rfl, hoffset, rfl, advance_eq_movedBy hf⟩

theorem leaves_of_take (h : take execute m = .error t m') : t.Leaves m m' := by
  rw [take_eq_error_iff] at h
  split_ifs at h
  · exact leaves_of_step h
  · obtain ⟨hf, rfl⟩ := skip_eq_error_iff.1 h
    exact leaves_of_fetch hf

end Machine

theorem Run.leaves_of_next {r r' : Run} {t : Trap} (h : next r = .error t r') :
    t.Leaves r.machine r'.machine ∧
      r' = { r with machine := r'.machine, left := r.left - 1 } := by
  obtain ⟨m, config, left⟩ := r
  obtain ⟨m', config', left'⟩ := r'
  obtain ⟨-, ⟨rfl, rfl, hr⟩ | ⟨htake, rfl, rfl⟩⟩ := next_eq_error_iff.1 h
  · cases hr
    exact ⟨rfl, rfl⟩
  · exact ⟨Machine.leaves_of_take htake, rfl⟩

/-- Failures leave the machine as it was, whatever fails: the execution of an instruction, a fetch,
a step, or a step of a run. A fetch fails with the pointer in its trap. Of a step that reaches an
instruction which is not supported it remains that the pointer has passed the instruction. -/
theorem trap_leaves (m : Machine) (r : Run) :
    (∀ i address t m', Machine.exec i address m = .error t m' → m' = m) ∧
    (∀ t, m.fetch = .error t → ∃ source, t = .decode m.ip source) ∧
    (∀ t m', m.step = .error t m' → t.Leaves m m') ∧
    ∀ t r', Run.next r = .error t r' → t.Leaves r.machine r'.machine ∧
      r' = { r with machine := r'.machine, left := r.left - 1 } := by
  refine ⟨fun i address t m' h => ?_, fun t h => ?_, fun t m' h => ?_, fun t r' h => ?_⟩
  · exact (Machine.exec_eq_error_iff.1 h).2.2
  · obtain ⟨-, source, -, -, ht⟩ := Machine.fetch_eq_error_iff.1 h
    exact ⟨source, ht⟩
  · exact Machine.leaves_of_step h
  · exact Run.leaves_of_next h

/-- In front of `mov bx, [3458]`, and of an unknown byte behind it. -/
def Machine.beforeUnsupported : Machine where
  regs := #v[1, 2, 3, 4, 5, 6, 7, 8]
  flags := ⟨Flags.signBit⟩
  ip := 0
  memory := ⟨#[0x8b, 0x1e, 0x82, 0x0d, 0xf4]⟩
  programSize := 5
  wrapped := false
  minMemory := 0

theorem trap_leaves_beforeUnsupported :
    (∃ what m', Machine.beforeUnsupported.step = .error (.unsupported 0 what) m' ∧
      m' = Machine.beforeUnsupported.movedBy 4) ∧
    ∃ source r', Run.next ⟨Machine.beforeUnsupported.movedBy 4, {}, 7⟩ =
        .error (.decode 4 source) r' ∧
      r' = ⟨Machine.beforeUnsupported.movedBy 4, {}, 6⟩ := by
  obtain ⟨what, m', hstep⟩ :
      ∃ what m', Machine.beforeUnsupported.step = .error (.unsupported 0 what) m' := ⟨_, _, rfl⟩
  obtain ⟨source, r', hnext⟩ : ∃ source r',
      Run.next ⟨Machine.beforeUnsupported.movedBy 4, {}, 7⟩ = .error (.decode 4 source) r' :=
    ⟨_, _, rfl⟩
  obtain ⟨-, -, hleaves, hleavesRun⟩ := trap_leaves Machine.beforeUnsupported
    ⟨Machine.beforeUnsupported.movedBy 4, {}, 7⟩
  obtain ⟨f, hf, -, -, -, hm'⟩ := hleaves _ _ hstep
  obtain ⟨⟨-, -, hmachine⟩, hr'⟩ := hleavesRun _ _ hnext
  refine ⟨⟨what, m', hstep, ?_⟩, source, r', hnext, ?_⟩
  · cases hf
    exact hm'
  · rw [hr', hmachine]
    rfl

end Machine86
