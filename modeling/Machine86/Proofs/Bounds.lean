import Machine86.Proofs.Cursor
import Machine86.Proofs.Lookups
import Machine86.Proofs.Reachable

/-!
# Nothing is out of range

The copy of a program into memory, the slice of the memory that is decoded and the slice of its
bytes that an instruction takes are in range on every machine, reachable or not, and so are the
look-ups of whatever is decoded there. So a call with all slices, indices and subtractions checked
is the call itself (`Checked.next_eq`), and any number of calls are (`Checked.calls_eq`). What a run
leaves can be shown, as its traces name registers that exist (`never_out_of_range`).
-/

namespace Machine86

/-- What some calls of `next` bring, one after another, and the run that they leave. -/
def Run.calls : Nat → Run → List (Except Trap (Option Step)) × Run
  | 0, r => ([], r)
  | n + 1, r =>
    let (result, r') := outcome (next r)
    let (results, last) := r'.calls n
    (result :: results, last)

namespace Checked

/-- The bytes of a slice after a copy, which wants as many bytes. -/
def copy (target source : List UInt8) : Option (List UInt8) :=
  if target.length = source.length then some source else none

/-- Zeros of the size of the memory, and the program copied to their start. -/
def image (program : List UInt8) (minSize : Nat) : Option (Except TooLarge Memory) :=
  if addressSpace < program.length then some (.error ⟨program.length⟩)
  else do
    let zeros := List.replicate (max program.length (min minSize addressSpace)) 0
    let copied ← copy (← slice zeros 0 program.length) program
    return .ok ⟨(copied ++ zeros.drop program.length).toArray⟩

def load (program : List UInt8) (minMemory : Nat) : Option (Except TooLarge Machine) := do
  match ← image program minMemory with
  | .error e => return .error e
  | .ok memory =>
    return .ok { regs := Vector.replicate 8 0, flags := {}, ip := 0, memory,
                 programSize := program.length, wrapped := false, minMemory }

/-- The bytes from `start` to `stop`, both of them moved back to the end of the memory. -/
def memorySlice (m : Memory) (start stop : Nat) : Option (List UInt8) :=
  let stop := min stop m.size
  slice m.bytes.toList (min start stop) stop

def fetch (decoder : Script Instruction) (m : Machine) : Option (Except Trap (Option Fetched)) :=
  if m.isDone then some (.ok none)
  else do
    let code ← memorySlice m.memory m.ip.toNat m.programSize
    match ← decode decoder ⟨code, 0⟩ with
    | .ok instruction c =>
      return .ok (some { offset := m.ip, bytes := ← slice code 0 c.position, instruction })
    | .error source _ => return .error (.decode m.ip source)

def stepOf (f : Fetched) (trace : Option Trace) : Option Step := do
  return { offset := f.offset, bytes := f.bytes, instruction := f.instruction,
           text := ← text f.instruction, trace }

/-- One instruction of the program, executed or passed over. -/
def take (decoder : Script Instruction) (execute : Bool) (m : Machine) :
    Option (EStateM.Result Trap Machine (Option Step)) := do
  match ← fetch decoder m with
  | .error trap => return .error trap m
  | .ok none => return .ok none m
  | .ok (some f) =>
    if execute then
      match ← exec f.instruction m.ip (m.advance f.size) with
      | .error trap m' => return .error trap m'
      | .ok () m' =>
        return .ok (some (← stepOf f (some (.between m.snapshot m'.snapshot)))) m'
    else return .ok (some (← stepOf f none)) (m.advance f.size)

def start (program : List UInt8) (config : Config) (minMemory : Nat) :
    Option (Except TooLarge Run) := do
  match ← load program minMemory with
  | .ok machine => return .ok { machine, config, left := config.maxSteps }
  | .error e => return .error e

def next (decoder : Script Instruction) (r : Run) :
    Option (EStateM.Result Trap Run (Option Step)) :=
  if r.machine.isDone then some (.ok none r)
  else
    match r.left with
    | 0 => some (.error (.stepLimit r.config.maxSteps) r)
    | left + 1 => do
      match ← take decoder r.config.execute r.machine with
      | .ok step machine => return .ok step { r with machine, left }
      | .error trap machine => return .error trap { r with machine, left }

/-- All that a run has left to do, after the steps in `done`. -/
def finishFrom (decoder : Script Instruction) (config : Config) :
    (left : Nat) → Machine → Array Step → Option Progress
  | 0, m, done =>
    some ⟨done.toList, m, if m.isDone then none else some (.stepLimit config.maxSteps)⟩
  | left + 1, m, done => do
    match ← take decoder config.execute m with
    | .ok none m' => return ⟨done.toList, m', none⟩
    | .ok (some step) m' => finishFrom decoder config left m' (done.push step)
    | .error trap m' => return ⟨done.toList, m', some trap⟩

def finish (decoder : Script Instruction) (r : Run) : Option Progress :=
  finishFrom decoder r.config r.left r.machine #[]

/-- What some calls bring, one after another, and the run that they leave. A trap does not keep the
next call from being made. -/
def calls (decoder : Script Instruction) :
    Nat → Run → Option (List (Except Trap (Option Step)) × Run)
  | 0, r => some ([], r)
  | n + 1, r => do
    let (result, r') := outcome (← next decoder r)
    let (results, last) ← calls decoder n r'
    return (result :: results, last)

theorem slice_to (bytes : List UInt8) {stop : Nat} (h : stop ≤ bytes.length) :
    slice bytes 0 stop = some (bytes.take stop) := if_pos ⟨Nat.zero_le _, h⟩

theorem copy_eq {target source : List UInt8} (h : target.length = source.length) :
    copy target source = some source := if_pos h

theorem image_eq (program : List UInt8) (minSize : Nat) :
    image program minSize = some (Memory.ofProgram program minSize) := by
  have hfits : program.length ≤
      (List.replicate (max program.length (min minSize addressSpace)) (0 : UInt8)).length := by
    rw [List.length_replicate]
    exact Nat.le_max_left _ _
  have hpadding : max program.length (min minSize addressSpace) - program.length =
      min minSize addressSpace - program.length := by omega
  unfold image Memory.ofProgram
  dsimp only
  split_ifs with hlarge
  · rfl
  · rw [slice_to _ hfits, Option.bind_eq_bind, Option.bind_some,
      copy_eq (List.length_take_of_le hfits), List.drop_replicate, hpadding]
    simp

theorem load_eq (program : List UInt8) (minMemory : Nat) :
    load program minMemory = some (Machine.load program minMemory) := by
  rw [load, image_eq, Machine.load]
  cases Memory.ofProgram program minMemory <;> rfl

theorem start_eq (program : List UInt8) (config : Config) (minMemory : Nat) :
    start program config minMemory = some (Run.start program config minMemory) := by
  rw [start, load_eq, Run.start]
  cases Machine.load program minMemory <;> rfl

theorem memorySlice_eq (m : Memory) (start stop : Nat) :
    memorySlice m start stop = some (m.slice start stop) := by
  have hsize : m.bytes.toList.length = m.size := rfl
  have hstop : min stop m.size ≤ m.bytes.toList.length := Nat.min_le_right _ _
  have htake : m.bytes.toList.take (min stop m.size) = m.bytes.toList.take stop := by
    rw [List.take_eq_take_iff, hsize, Nat.min_assoc, Nat.min_self]
  have hlength : (m.bytes.toList.take stop).length = min stop m.size := List.length_take
  rw [memorySlice, slice, if_pos ⟨Nat.min_le_right _ _, hstop⟩, Memory.slice, Array.toList_extract,
    List.extract_eq_take_drop, ← List.drop_take, ← List.drop_take, htake, Option.some.injEq,
    List.drop_eq_drop_iff, hlength, Nat.min_assoc, Nat.min_self]

theorem stepOf_eq (f : Fetched) (trace : Option Trace) :
    stepOf f trace = some (.ofFetched f trace) := by
  rw [stepOf, text_eq]
  rfl

section Decoder

variable {decoder : Script Instruction} (hdecoder : decoder.reading = decodeBody)

include hdecoder

theorem fetch_eq (m : Machine) : fetch decoder m = some m.fetch := by
  rw [fetch]
  split_ifs with hdone
  · rw [Machine.fetch_eq_none_iff.2 hdone]
  · have hstart : Cursor.InRange ⟨m.code, 0⟩ := Nat.zero_le _
    have hagrees := decode_agrees hdecoder hstart
    rw [Machine.fetch_of_not_isDone (Bool.eq_false_iff.2 hdone), memorySlice_eq]
    dsimp only [Option.bind_eq_bind, Option.bind_some]
    rw [← Machine.code]
    have hreader : Cursor.reader ⟨m.code, 0⟩ = .ofBytes m.code := rfl
    rw [hreader] at hagrees
    generalize decode decoder ⟨m.code, 0⟩ = x at hagrees ⊢
    generalize Machine86.decode (.ofBytes m.code) = y at hagrees ⊢
    cases hagrees with
    | ok hposition =>
      dsimp only [Option.bind_some]
      rw [slice_to _ hposition]
      rfl
    | error _ => rfl

theorem take_eq (execute : Bool) (m : Machine) :
    take decoder execute m = some (Machine.take execute m) := by
  rw [take, fetch_eq hdecoder]
  rcases hfetch : m.fetch with trap | _ | f
  · rw [Machine.take_of_fetch_error hfetch]
    rfl
  · rw [Machine.take_of_isDone (Machine.fetch_eq_none_iff.1 hfetch)]
    rfl
  · dsimp only [Option.bind_eq_bind, Option.bind_some]
    cases execute with
    | true =>
      rw [if_pos rfl, exec_eq, Machine.take, if_pos rfl]
      simp only [Functor.map, EStateM.map, Machine.step, hfetch, Option.bind_some, stepOf_eq]
      cases Machine.exec f.instruction m.ip (m.advance f.size) <;> rfl
    | false =>
      have hskip := Machine.skip_eq_some_iff.2 ⟨hfetch, rfl⟩
      rw [if_neg Bool.false_ne_true, stepOf_eq, Machine.take, if_neg Bool.false_ne_true]
      simp only [Functor.map, EStateM.map, hskip]
      rfl

theorem next_eq (r : Run) : next decoder r = some (Run.next r) := by
  obtain ⟨m, config, left⟩ := r
  unfold next Run.next
  split_ifs
  · rfl
  · cases left with
    | zero => rfl
    | succ left =>
      dsimp only
      rw [take_eq hdecoder]
      cases Machine.take config.execute m <;> rfl

theorem finishFrom_eq (config : Config) (left : Nat) (m : Machine) (done : Array Step) :
    finishFrom decoder config left m done = some (Run.finishFrom config left m done) := by
  induction left generalizing m done with
  | zero => rfl
  | succ left ih =>
    rw [finishFrom, Run.finishFrom, take_eq hdecoder]
    rcases Machine.take config.execute m with ⟨_ | step, m'⟩ | ⟨trap, m'⟩
    · rfl
    · exact ih m' _
    · rfl

/-- However many calls are made, nothing is out of range in any of them. -/
theorem calls_eq (n : Nat) (r : Run) : calls decoder n r = some (r.calls n) := by
  induction n generalizing r with
  | zero => rfl
  | succ n ih =>
    rw [calls, next_eq hdecoder, Run.calls]
    dsimp only [Option.bind_eq_bind, Option.bind_some]
    rw [ih]
    rfl

end Decoder

section Shown

variable {execute : Bool} {m m' : Machine}

theorem shown_of_take {s : Step} (h : Machine.take execute m = .ok (some s) m') :
    ∀ t ∈ s.trace, Shown t := by
  obtain ⟨f, -, h⟩ := Machine.take_eq_some_iff.1 h
  split_ifs at h
  · obtain ⟨-, rfl⟩ := h
    rintro t ht
    cases ht
    exact shown_between _ _
  · obtain ⟨-, rfl⟩ := h
    rintro t ht
    cases ht

theorem shown_of_takes {steps : List Step} (h : m.Takes execute steps m') :
    ∀ s ∈ steps, ∀ t ∈ s.trace, Shown t := by
  induction h with
  | nil => exact List.forall_mem_nil _
  | cons hs _ ih => exact List.forall_mem_cons.2 ⟨shown_of_take hs, ih⟩

theorem shown_of_ends {config : Config} {left : Nat} {p : Progress} (h : Run.Ends config left m p) :
    ∀ s ∈ p.steps, ∀ t ∈ s.trace, Shown t := by
  cases h with
  | completed htakes => exact shown_of_takes htakes
  | limited htakes => exact shown_of_takes htakes
  | trapped htakes => exact shown_of_takes htakes

end Shown

end Checked

open Checked

/-- No look-up, slice, copy or subtraction is out of range: not in the text of an instruction or when
it is executed, whatever its fields and the machine are; not in a dump; not when a program is
loaded; not in any calls of a run or in a whole run, from any machine; and not in the listing of it.
The decoder runs on a cursor here, and is the decoder of the machine when it runs on a reader. -/
theorem never_out_of_range :
    ∃ decoder : Script Instruction, decoder.reading = decodeBody ∧
      (∀ i, Checked.text i = some i.text ∧
        ∀ address m, Checked.exec i address m = some (Machine.exec i address m)) ∧
      (∀ s : Snapshot, Checked.dump s = some s.dump) ∧
      (∀ program config minMemory,
        Checked.start program config minMemory = some (Run.start program config minMemory)) ∧
      ∀ r : Run, (∀ n, Checked.calls decoder n r = some (r.calls n)) ∧
        Checked.finish decoder r = some r.finish ∧
        ∀ config, Checked.renderListing (r.finish.listing config) config =
          some ((r.finish.listing config).render config) := by
  obtain ⟨decoder, hdecoder⟩ := exists_decoder
  refine ⟨decoder, hdecoder, fun i => ⟨text_eq i, fun address m => exec_eq m i address⟩, dump_eq,
    start_eq, fun r => ⟨fun n => calls_eq hdecoder n r, finishFrom_eq hdecoder _ _ _ _, ?_⟩⟩
  have hends : Run.Ends r.config r.left r.machine r.finish := Run.ends_finishFrom _ _ _
  exact fun config => renderListing_eq (l := r.finish.listing config) (shown_of_ends hends) config

end Machine86
