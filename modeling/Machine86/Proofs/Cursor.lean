import Mathlib.Data.List.Basic
import Mathlib.Tactic.Choose
import Mathlib.Tactic.SplitIfs
import Machine86.Proofs.Relocation

/-!
# A cursor in a buffer

A `Checked.Cursor` stands at a position in a buffer that it does not cut up: it counts what remains
by a subtraction and reads by slices and indices, each of which fails out of range. The position
stays within the buffer, so none of them ever does, and a cursor reads what a `Reader` reads
(`Checked.Cursor.byte_agrees`, `Checked.Cursor.word_agrees`). A decoder is nothing but reads and
tests of what was read, a `Checked.Script`, which can be run on a cursor as well
(`Checked.decode_agrees`).
-/

namespace Machine86

namespace Checked

def sub (a b : Nat) : Option Nat := if b ≤ a then some (a - b) else none

/-- The bytes from `start` up to and without `stop`, if there are such bytes. -/
def slice (bytes : List UInt8) (start stop : Nat) : Option (List UInt8) :=
  if start ≤ stop ∧ stop ≤ bytes.length then some ((bytes.drop start).take (stop - start)) else none

structure Cursor where
  buffer : List UInt8
  position : Nat
  deriving Repr, DecidableEq

namespace Cursor

def remaining (c : Cursor) : Option Nat := sub c.buffer.length c.position

/-- Up to `n` of the bytes ahead. -/
def peek (c : Cursor) (n : Nat) : Option (List UInt8) := do
  let left ← c.remaining
  slice c.buffer c.position (c.position + min n left)

/-- The next `n` bytes; the failure of the read where there are not as many. -/
def take (c : Cursor) (n : Nat) : Option (EStateM.Result OutOfBounds Cursor (List UInt8)) := do
  let left ← c.remaining
  if left < n then return .error ⟨c.position, n, c.buffer.length⟩ c
  else return .ok (← slice c.buffer c.position (c.position + n)) ⟨c.buffer, c.position + n⟩

def byte (c : Cursor) : Option (EStateM.Result OutOfBounds Cursor UInt8) := do
  match ← c.take 1 with
  | .ok bytes c' => return .ok (← bytes[0]?) c'
  | .error e c' => return .error e c'

/-- Two bytes, the low byte first. -/
def word (c : Cursor) : Option (EStateM.Result OutOfBounds Cursor UInt16) := do
  match ← c.take 2 with
  | .ok bytes c' => return .ok (wordOfBytes (← bytes[0]?) (← bytes[1]?)) c'
  | .error e c' => return .error e c'

/-- The reader that stands where the cursor does. -/
def reader (c : Cursor) : Reader := ⟨c.position, c.buffer.drop c.position⟩

/-- The position is in the buffer or at its end. -/
def InRange (c : Cursor) : Prop := c.position ≤ c.buffer.length

/-- A run on a cursor comes to what a reading comes to. Nothing was out of range, and the cursor is
in its buffer where the reader stands. -/
inductive Agrees {ε α : Type} (buffer : List UInt8) :
    Option (EStateM.Result ε Cursor α) → EStateM.Result ε Reader α → Prop
  | ok {a : α} {position : Nat} (h : InRange ⟨buffer, position⟩) :
    Agrees buffer (some (.ok a ⟨buffer, position⟩)) (.ok a (reader ⟨buffer, position⟩))
  | error {e : ε} {position : Nat} (h : InRange ⟨buffer, position⟩) :
    Agrees buffer (some (.error e ⟨buffer, position⟩)) (.error e (reader ⟨buffer, position⟩))

variable {c : Cursor}

theorem remaining_reader (c : Cursor) : c.reader.remaining = c.buffer.length - c.position := by
  rw [Reader.remaining, reader, List.length_drop]

theorem length_reader (h : c.InRange) : c.reader.length = c.buffer.length := by
  rw [Reader.length, remaining_reader]
  exact Nat.add_sub_cancel' h

theorem remaining_eq (h : c.InRange) : c.remaining = some c.reader.remaining := by
  rw [remaining, sub, remaining_reader]
  exact if_pos h

-- behind the end of its buffer a cursor could not even tell what remains
example : Cursor.remaining ⟨[], 1⟩ = none := rfl

theorem slice_eq (h : c.InRange) {n : Nat} (hn : n ≤ c.reader.remaining) :
    slice c.buffer c.position (c.position + n) = some (c.reader.peek n) := by
  have hend : c.position + n ≤ c.buffer.length := by
    rw [← length_reader h]
    exact Nat.add_le_add_left hn _
  rw [slice, if_pos ⟨Nat.le_add_right _ _, hend⟩, Nat.add_sub_cancel_left]
  rfl

theorem peek_eq (h : c.InRange) (n : Nat) : c.peek n = some (c.reader.peek n) := by
  have hmin : c.reader.peek (min n c.reader.remaining) = c.reader.peek n := by
    rw [Reader.peek, Reader.peek, Reader.remaining, ← List.take_take, List.take_length]
  rw [peek, remaining_eq h, Option.bind_eq_bind, Option.bind_some,
    slice_eq h (Nat.min_le_right _ _), hmin]

/-- There are fewer bytes ahead than are asked for, or these are taken, and the cursor is in front
of the others. -/
theorem take_cases (h : c.InRange) (n : Nat) :
    c.reader.remaining < n ∧ c.take n = some (.error (c.reader.outOfBounds n) c) ∨
      ∃ used rest, used.length = n ∧ c.reader.rest = used ++ rest ∧
        c.take n = some (.ok used ⟨c.buffer, c.position + n⟩) ∧
        InRange ⟨c.buffer, c.position + n⟩ ∧
        reader ⟨c.buffer, c.position + n⟩ = ⟨c.position + n, rest⟩ := by
  rw [take, remaining_eq h, Option.bind_eq_bind, Option.bind_some]
  split_ifs with hn
  · refine .inl ⟨hn, ?_⟩
    rw [← length_reader h]
    rfl
  · rw [Nat.not_lt] at hn
    have hend : c.position + n ≤ c.buffer.length := by
      rw [← length_reader h]
      exact Nat.add_le_add_left hn _
    refine .inr ⟨c.reader.peek n, c.reader.rest.drop n, List.length_take_of_le hn,
      (List.take_append_drop n _).symm, ?_, hend, ?_⟩
    · rw [slice_eq h hn]
      rfl
    · rw [reader, reader, List.drop_drop]

theorem agrees_ok {ε α : Type} {a : α} {buffer : List UInt8} {position : Nat} {r : Reader}
    (h : InRange ⟨buffer, position⟩) (hr : reader ⟨buffer, position⟩ = r) :
    Agrees buffer (some (.ok a ⟨buffer, position⟩)) (.ok a r : EStateM.Result ε Reader α) :=
  hr ▸ .ok h

theorem byte_agrees (h : c.InRange) : Agrees c.buffer c.byte (Reading.byte c.reader) := by
  rw [byte]
  obtain ⟨hshort, htake⟩ | ⟨used, rest, hlength, hrest, htake, hrange, hreader⟩ := take_cases h 1
  · have hnone : c.reader.rest = [] := List.length_eq_zero_iff.1 (Nat.lt_one_iff.1 hshort)
    simp only [htake, Reading.byte, hnone]
    exact .error h
  · obtain ⟨b, rfl⟩ := List.length_eq_one_iff.1 hlength
    simp only [htake, Reading.byte, hrest]
    exact agrees_ok hrange hreader

theorem word_agrees (h : c.InRange) : Agrees c.buffer c.word (Reading.word c.reader) := by
  rw [word]
  obtain ⟨hshort, htake⟩ | ⟨used, rest, hlength, hrest, htake, hrange, hreader⟩ := take_cases h 2
  · have hread : Reading.word c.reader = .error (c.reader.outOfBounds 2) c.reader := by
      rw [Reader.remaining] at hshort
      rcases hbytes : c.reader.rest with _ | ⟨lo, _ | ⟨hi, rest⟩⟩
      · simp only [Reading.word, hbytes]
      · simp only [Reading.word, hbytes]
      · rw [hbytes] at hshort
        exact absurd hshort (by simp)
    rw [htake, hread]
    exact .error h
  · obtain ⟨lo, hi, rfl⟩ := List.length_eq_two.1 hlength
    simp only [htake, Reading.word, hrest]
    exact agrees_ok hrange hreader

end Cursor

/-- What a decoder does to its bytes: reads, and tests of what was read. -/
inductive Script (α : Type)
  | done (a : α)
  | unknown
  | refused (why : Refusal)
  | byte (f : UInt8 → Script α)
  | word (f : UInt16 → Script α)

namespace Script

variable {α : Type}

/-- A script as a reading. -/
def reading : Script α → Reading Fault α
  | done a => pure a
  | unknown => throw .unknown
  | refused why => throw (.refused why)
  | byte f => liftM Reading.byte >>= fun b => (f b).reading
  | word f => liftM Reading.word >>= fun w => (f w).reading

/-- A script as a run on a cursor. -/
def run : Script α → Cursor → Option (EStateM.Result Fault Cursor α)
  | done a, c => some (.ok a c)
  | unknown, c => some (.error .unknown c)
  | refused why, c => some (.error (.refused why) c)
  | byte f, c => do
    match ← c.byte with
    | .ok b c' => (f b).run c'
    | .error e c' => return .error (.outOfBounds e) c'
  | word f, c => do
    match ← c.word with
    | .ok w c' => (f w).run c'
    | .error e c' => return .error (.outOfBounds e) c'

/-- Whatever is composed of single reads is a script. -/
theorem exists_reading {n : Nat} {x : Reading Fault α} (h : Reading.Composed n x) :
    ∃ s : Script α, s.reading = x := by
  induction h with
  | pure a => exact ⟨done a, rfl⟩
  | unknown => exact ⟨unknown, rfl⟩
  | refused why => exact ⟨refused why, rfl⟩
  | byte _ ih =>
    choose s hs using ih
    exact ⟨byte s, by rw [reading, funext hs]⟩
  | word _ ih =>
    choose s hs using ih
    exact ⟨word s, by rw [reading, funext hs]⟩

theorem liftM_bind_apply {β : Type} (x : Reading OutOfBounds α) (f : α → Reading Fault β)
    (r : Reader) : (liftM x >>= f) r = match x r with
      | .ok a r' => f a r'
      | .error e r' => .error (.outOfBounds e) r' := by
  show (EStateM.adaptExcept _ x >>= f) r = _
  simp only [Bind.bind, EStateM.bind, EStateM.adaptExcept]
  cases x r <;> rfl

/-- No read of a script goes out of the range of its cursor. -/
theorem run_agrees (s : Script α) {c : Cursor} (h : c.InRange) :
    Cursor.Agrees c.buffer (s.run c) (s.reading c.reader) := by
  induction s generalizing c with
  | done a => exact .ok h
  | unknown => exact .error h
  | refused why => exact .error h
  | byte f ih =>
    have hbyte := Cursor.byte_agrees h
    rw [run, reading, liftM_bind_apply]
    generalize c.byte = x at hbyte ⊢
    generalize Reading.byte c.reader = y at hbyte ⊢
    cases hbyte with
    | ok hrange => exact ih _ hrange
    | error hrange => exact .error hrange
  | word f ih =>
    have hword := Cursor.word_agrees h
    rw [run, reading, liftM_bind_apply]
    generalize c.word = x at hword ⊢
    generalize Reading.word c.reader = y at hword ⊢
    cases hword with
    | ok hrange => exact ih _ hrange
    | error hrange => exact .error hrange

end Script

/-- One instruction, read by a script. The bytes for its errors are peeked at first. -/
def decode (decoder : Script Instruction) (c : Cursor) :
    Option (EStateM.Result DecodeError Cursor Instruction) := do
  let bytes ← c.peek reportLength
  match ← decoder.run c with
  | .ok i c' => return .ok i c'
  | .error fault c' => return .error (fault.toError bytes) c'

theorem exists_decoder : ∃ decoder : Script Instruction, decoder.reading = decodeBody :=
  Script.exists_reading composed_decodeBody

/-- The decoder as a script comes to the same on a cursor. -/
theorem decode_agrees {decoder : Script Instruction} (hdecoder : decoder.reading = decodeBody)
    {c : Cursor} (h : c.InRange) :
    Cursor.Agrees c.buffer (decode decoder c) (Machine86.decode c.reader) := by
  have hrun := decoder.run_agrees h
  rw [hdecoder] at hrun
  rw [decode, c.peek_eq h, Machine86.decode]
  generalize decoder.run c = x at hrun ⊢
  generalize decodeBody c.reader = y at hrun ⊢
  cases hrun with
  | ok hrange => exact .ok hrange
  | error hrange => exact .error hrange

end Checked

end Machine86
