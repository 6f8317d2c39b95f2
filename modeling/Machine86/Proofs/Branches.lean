import Machine86.Proofs.Effect
import Machine86.Proofs.Steps

/-!
# Branches and the end of the program

A branch that is taken to an address inside the program is followed by a fetch from there, unless
its own bytes are the last two of the address space: then the pointer has wrapped around before the
branch brings it back, and the run is over (`step_taken_branch`). Only a program that fills the
address space has room for such a branch; `loopAtEnd` is one that is meant to repeat its last two
instructions forever, and ends at the first branch.
-/

namespace Machine86

open Machine

variable {program : List UInt8} {m₀ m m' : Machine}

theorem Jump.length_bytes {j : Jump} {f : Fetched} (hf : m.fetch = .ok (some f))
    (hjump : f.instruction = .jump j) : f.bytes.length = 2 := by
  obtain ⟨-, -, hbytes, -, -⟩ := fetch_eq_some_iff.1 hf
  rw [hbytes, hjump]
  rfl

theorem Jump.effect_of_step {j : Jump} {f : Fetched} {t : Trace}
    (hstep : m.step = .ok (some (f, t)) m') (hjump : f.instruction = .jump j) :
    (Instruction.jump j).Effect 2 m m' := by
  obtain ⟨hf, hperform, -⟩ := step_eq_some_iff.1 hstep
  have hwrapped := wrapped_of_not_isDone (fetch_eq_some_iff.1 hf).1
  have hsize := toNat_size hf
  have heffect := Instruction.effect_jump hwrapped f.size j
  rw [hsize, Jump.length_bytes hf hjump] at heffect
  rw [hjump, Instruction.operation, j.perform?_operation, Option.some.injEq] at hperform
  rw [← hperform]
  exact heffect

section Taken

variable {target : Nat} {f : Fetched} {t : Trace} {j : Jump}
  (hstep : m.step = .ok (some (f, t)) m') (hjump : f.instruction = .jump j)
  (htaken : j.Taken m.flags) (htarget : (target : Int) = f.offset.toNat + 2 + j.inc.toInt)
  (hinside : target < program.length)

namespace Machine.Loaded

include hstep hjump htaken htarget hinside

theorem ip_of_taken (hm : m.Loaded program) : m'.ip.toNat = target := by
  obtain ⟨hf, -, -⟩ := step_eq_some_iff.1 hstep
  have hip := (Jump.effect_of_step hstep hjump).ip
  have hdistance : (Instruction.jump j).distance m = j.inc.toInt := if_pos htaken
  have hoffset := (fetch_eq_some_iff.1 hf).2.2.2.2
  have hle := hm.length_le
  rw [hdistance, ← hoffset, Int.cast_ofNat_Int, ← htarget] at hip
  rw [addressSpace] at hle
  omega

theorem isDone_of_taken_iff (hm : m.Loaded program) :
    m'.isDone = true ↔ f.offset.toNat + 2 = addressSpace := by
  obtain ⟨hf, hperform, -⟩ := step_eq_some_iff.1 hstep
  have hm' := (hm.advance hf).perform? hperform
  have hwrapped := (Jump.effect_of_step hstep hjump).wrapped
  have hoffset := (fetch_eq_some_iff.1 hf).2.2.2.2
  have hle := hm.length_le
  have hend := (hm.of_fetch hf).2
  rw [Jump.length_bytes hf hjump] at hend
  rw [← Bool.not_eq_false, hm'.isDone_eq_false_iff,
    hm.ip_of_taken hstep hjump htaken htarget hinside, hwrapped, hoffset,
    decide_eq_false_iff_not, and_iff_left hinside]
  rw [addressSpace] at hle ⊢
  omega

end Machine.Loaded

end Taken

/-- Where a branch is taken to an address inside the program, the run goes on there, unless the
branch ends with the last byte of the address space. -/
theorem step_taken_branch {minMemory target : Nat} {steps : List Step} {f : Fetched} {t : Trace}
    {j : Jump} (hload : load program minMemory = .ok m₀) (hrun : m₀.Takes true steps m)
    (hstep : m.step = .ok (some (f, t)) m') (hjump : f.instruction = .jump j)
    (htaken : j.opcode = 0x74 ∧ m.flags.zero = true ∨ j.opcode = 0x75 ∧ m.flags.zero = false)
    (htarget : (target : Int) = f.offset.toNat + 2 + j.inc.toInt)
    (hinside : target < program.length) :
    m'.ip.toNat = target ∧ (m'.isDone = true ↔ f.offset.toNat + 2 = addressSpace) ∧
      (f.offset.toNat + 2 ≠ addressSpace →
        m'.fetch = fetched (.ofNat target) (program.drop target)
          (decode (.ofBytes (program.drop target)))) := by
  have hm := hrun.loaded (loaded_of_load hload)
  have hip := hm.ip_of_taken hstep hjump htaken htarget hinside
  have hdone := hm.isDone_of_taken_iff hstep hjump htaken htarget hinside
  refine ⟨hip, hdone, fun hne => ?_⟩
  have hgoes : m'.isDone = false := Bool.eq_false_iff.2 fun h => hne (hdone.1 h)
  obtain ⟨hf, hperform, -⟩ := step_eq_some_iff.1 hstep
  have hm' := (hm.advance hf).perform? hperform
  rw [fetch_of_not_isDone hgoes, hm'.code_eq, hip, ← hip, UInt16.ofNat_toNat]

/-- A machine with `sub ax, ax` and a branch back to it in memory. -/
def subLoop (flags : Flags) (ip : UInt16) : Machine where
  regs := Vector.replicate 8 0
  flags := flags
  ip := ip
  memory := ⟨#[0x29, 0xc0, 0x74, 0xfc]⟩
  programSize := 4
  wrapped := false
  minMemory := 0

theorem step_taken_branch_subLoop :
    ∃ s f t m', take true (subLoop {} 0) = .ok (some s) (subLoop ⟨0x40⟩ 2) ∧
      (subLoop ⟨0x40⟩ 2).step = .ok (some (f, t)) m' ∧ m'.ip.toNat = 0 ∧ m'.isDone = false := by
  have hload : load [0x29, 0xc0, 0x74, 0xfc] 0 = .ok (subLoop {} 0) := rfl
  obtain ⟨s, hs⟩ : ∃ s, take true (subLoop {} 0) = .ok (some s) (subLoop ⟨0x40⟩ 2) := ⟨_, rfl⟩
  obtain ⟨t, ht⟩ : ∃ t, (subLoop ⟨0x40⟩ 2).step =
      .ok (some (⟨2, [0x74, 0xfc], .jump ⟨0x74, -4⟩⟩, t)) (subLoop ⟨0x40⟩ 0) := ⟨_, rfl⟩
  have hne : (2 : UInt16).toNat + 2 ≠ addressSpace := by decide
  obtain ⟨hip, hdone, -⟩ := step_taken_branch hload (.cons hs (.nil _)) ht rfl (by decide)
    (show ((0 : Nat) : Int) = _ by decide) (by decide)
  exact ⟨s, _, t, _, hs, ht, hip, Bool.eq_false_iff.2 fun h => hne (hdone.1 h)⟩

/-- Moves from bx to cx, and a branch back to the last of them. -/
def loopAtEnd (moves : Nat) : List UInt8 :=
  (List.replicate moves [0x89, 0xd9]).flatten ++ [0x75, 0xfc]

theorem length_loopAtEnd (n : Nat) : (loopAtEnd n).length = 2 * n + 2 := by
  simp [loopAtEnd, Nat.mul_comm]

theorem loopAtEnd_succ (n : Nat) : loopAtEnd (n + 1) = [0x89, 0xd9] ++ loopAtEnd n := by
  rw [loopAtEnd, List.replicate_succ, List.flatten_cons, List.append_assoc, loopAtEnd]

theorem drop_loopAtEnd (k n : Nat) : (loopAtEnd (k + n)).drop (2 * k) = loopAtEnd n := by
  induction k with
  | zero => simp
  | succ k ih =>
    rw [Nat.add_right_comm, loopAtEnd_succ, Nat.mul_succ, Nat.add_comm, ← List.drop_drop]
    exact ih

theorem take_loopAtEnd {k n : Nat} (hm : m.Loaded (loopAtEnd (k + (n + 1))))
    (hfits : k + (n + 1) < 0x8000) (hwrapped : m.wrapped = false)
    (hregs : m.regs = Vector.replicate 8 0) (hip : m.ip.toNat = 2 * k) :
    ∃ s, take true m = .ok (some s) { m with ip := m.ip + 2 } := by
  have hdone : m.isDone = false := by
    rw [hm.isDone_eq_false_iff, length_loopAtEnd, hip]
    exact ⟨hwrapped, by omega⟩
  have hcode : m.code = 0x89 :: 0xd9 :: loopAtEnd n := by
    rw [hm.code_eq, hip, drop_loopAtEnd, loopAtEnd_succ]
    rfl
  let f : Fetched := ⟨m.ip, [0x89, 0xd9], .mov ⟨.regMem, false, true, ⟨3, 3, 1, 0⟩, 0⟩⟩
  have hf : m.fetch = .ok (some f) := by
    rw [fetch_of_not_isDone hdone, hcode]
    rfl
  have hadvance : m.advance f.size = { m with ip := m.ip + 2 } := by
    have hinside : ¬ addressSpace ≤ m.ip.toNat + 2 := by
      rw [hip, addressSpace]
      omega
    have hwrapped' : (m.wrapped || decide (addressSpace ≤ m.ip.toNat + 2)) = m.wrapped := by
      rw [decide_eq_false hinside, Bool.or_false]
    exact congrArg (fun w => { m with ip := m.ip + 2, wrapped := w }) hwrapped'
  have hset : m.regs.set 1 (m.regs.get 3) = m.regs := by
    rw [hregs]
    rfl
  have hperform : (m.advance f.size).perform? f.instruction.operation =
      some { m with ip := m.ip + 2 } := by
    rw [hadvance]
    exact congrArg (fun regs => some { m with regs := regs, ip := m.ip + 2 }) hset
  exact ⟨_, take_eq_some_iff.2 ⟨f, hf, hperform, rfl⟩⟩

theorem takes_loopAtEnd {k n : Nat} (hm : m.Loaded (loopAtEnd (k + n))) (hfits : k + n < 0x8000)
    (hwrapped : m.wrapped = false) (hregs : m.regs = Vector.replicate 8 0)
    (hip : m.ip.toNat = 2 * k) :
    ∃ steps m', m.Takes true steps m' ∧ m'.ip.toNat = 2 * (k + n) ∧ m'.flags = m.flags ∧
      m'.wrapped = false := by
  induction n generalizing k m with
  | zero => exact ⟨[], m, .nil m, hip, rfl, hwrapped⟩
  | succ n ih =>
    obtain ⟨s, hs⟩ := take_loopAtEnd hm hfits hwrapped hregs hip
    have hip' : (m.ip + 2).toNat = 2 * (k + 1) := by
      rw [UInt16.toNat_add, hip]
      simp only [UInt16.reduceToNat]
      omega
    have hcount : k + 1 + n = k + (n + 1) := by omega
    have hm' := hm.take hs
    rw [← hcount] at hm' hfits
    obtain ⟨steps, m', hsteps, hplace, hflags, hw⟩ := ih hm' hfits hwrapped hregs hip'
    rw [hcount] at hplace
    exact ⟨s :: steps, m', .cons hs hsteps, hplace, hflags, hw⟩

/-- The branch is taken to an address inside the program, and the run is over. -/
theorem loopAtEnd_isDone :
    ∃ m₀ steps m f t m', load (loopAtEnd 32767) defaultMinMemory = .ok m₀ ∧
      m₀.Takes true steps m ∧ m.step = .ok (some (f, t)) m' ∧
      f.instruction = .jump ⟨0x75, -4⟩ ∧ m.flags.zero = false ∧
      (65532 : Int) = f.offset.toNat + 2 + (-4 : Int8).toInt ∧
      65532 < (loopAtEnd 32767).length ∧ m'.isDone = true := by
  have hlength : (loopAtEnd 32767).length = addressSpace := length_loopAtEnd 32767
  obtain ⟨m₀, hload, hip₀, hwrapped₀, hregs₀, hflags₀⟩ :=
    exists_load (Nat.le_of_eq hlength) defaultMinMemory
  have hm₀ : m₀.Loaded (loopAtEnd (0 + 32767)) := by
    rw [Nat.zero_add]
    exact loaded_of_load hload
  obtain ⟨steps, m, hsteps, hip, hflags, hwrapped⟩ :=
    takes_loopAtEnd hm₀ (by omega) hwrapped₀ hregs₀ (by rw [hip₀]; rfl)
  rw [Nat.zero_add] at hip
  have hm := hsteps.loaded (loaded_of_load hload)
  have hzero : m.flags.zero = false := by
    rw [hflags, hflags₀]
    rfl
  have hdone : m.isDone = false := by
    rw [hm.isDone_eq_false_iff, hlength, hip, addressSpace]
    exact ⟨hwrapped, by omega⟩
  have hcode : m.code = [0x75, 0xfc] := by
    rw [hm.code_eq, hip]
    exact drop_loopAtEnd 32767 0
  let f : Fetched := ⟨m.ip, [0x75, 0xfc], .jump ⟨0x75, -4⟩⟩
  have hf : m.fetch = .ok (some f) := by
    rw [fetch_of_not_isDone hdone, hcode]
    rfl
  obtain ⟨m', hperform⟩ : ∃ m', (m.advance f.size).perform? f.instruction.operation = some m' :=
    ⟨_, Jump.perform?_operation ⟨0x75, -4⟩ _⟩
  have hstep := step_eq_some_iff.2 ⟨hf, hperform, rfl⟩
  have htarget : ((65532 : Nat) : Int) = f.offset.toNat + 2 + (-4 : Int8).toInt := by
    rw [hip]
    rfl
  have hinside : 65532 < (loopAtEnd 32767).length := by
    rw [hlength, addressSpace]
    omega
  have hover := (hm.isDone_of_taken_iff hstep rfl (.inr ⟨rfl, hzero⟩) htarget hinside).2
  refine ⟨m₀, steps, m, f, _, m', hload, hsteps, hstep, rfl, hzero, htarget, hinside, hover ?_⟩
  rw [hip, addressSpace]

end Machine86
