import Mathlib.Data.Nat.Digits.Defs
import Mathlib.Tactic.SplitIfs
import Machine86.Proofs.RoundTrip

/-!
# What a sequence of reads consumes

A read wants one byte or two. It takes them from what lies ahead, and its number is made up of them
with the low byte first, or it fails where there are fewer and the reader stays (`Read.run_eq`). So
however reads and peeks follow on one another from the start of a buffer, the bytes that the reads
took are those behind the reader, in the order of the buffer: `consumed_of_calls`.
-/

namespace Machine86

/-- The single reads. -/
inductive Read
  | byte
  | signedByte
  | word
  | immediate (wide : Bool)
  deriving DecidableEq

namespace Read

/-- How many bytes a read wants. -/
def wanted : Read → Nat
  | byte | signedByte => 1
  | word => 2
  | immediate wide => if wide then 2 else 1

/-- The number that the bytes of a read make up, the low byte first. A signed byte is in two's
complement; a byte in place of a word has nothing above it. -/
def number (k : Read) (bytes : List UInt8) : Int :=
  let n : Nat := Nat.ofDigits 0x100 (bytes.map UInt8.toNat)
  if k = signedByte then Int.bmod n 0x100 else n

/-- The read, and the number that it brings. -/
def run : Read → Reading OutOfBounds Int
  | byte => (fun b => (b.toNat : Int)) <$> Reading.byte
  | signedByte => Int8.toInt <$> Reading.signedByte
  | word => (fun w => (w.toNat : Int)) <$> Reading.word
  | immediate wide => (fun w => (w.toNat : Int)) <$> Reading.immediate wide

/-- What a read comes to: it fails where there are fewer bytes than it wants and stays there, or it
takes them. -/
def result (k : Read) (r : Reader) : EStateM.Result OutOfBounds Reader Int :=
  if r.remaining < k.wanted then .error (r.outOfBounds k.wanted) r
  else .ok (k.number (r.peek k.wanted)) ⟨r.position + k.wanted, r.rest.drop k.wanted⟩

section Map

variable {k : Read} (r : Reader)

/-- A number that is made of one byte. -/
theorem map_byte_eq {f : UInt8 → Int} (hwanted : k.wanted = 1) (hnumber : ∀ b, f b = k.number [b]) :
    (f <$> Reading.byte) r = k.result r := by
  obtain ⟨position, rest⟩ := r
  rw [result, hwanted]
  cases rest with
  | nil => rfl
  | cons b rest =>
    rw [if_neg (by simp [Reader.remaining])]
    exact congrArg (EStateM.Result.ok · _) (hnumber b)

/-- A number that is made of a word. -/
theorem map_word_eq {f : UInt16 → Int} (hwanted : k.wanted = 2)
    (hnumber : ∀ lo hi, f (wordOfBytes lo hi) = k.number [lo, hi]) :
    (f <$> Reading.word) r = k.result r := by
  obtain ⟨position, rest⟩ := r
  rw [result, hwanted]
  rcases rest with _ | ⟨lo, _ | ⟨hi, rest⟩⟩
  · rfl
  · rfl
  · rw [if_neg (by simp [Reader.remaining])]
    exact congrArg (EStateM.Result.ok · _) (hnumber lo hi)

end Map

theorem number_byte {k : Read} (hk : k ≠ signedByte) (b : UInt8) : k.number [b] = b.toNat := by
  rw [number, if_neg hk, List.map_singleton, Nat.ofDigits_singleton]

theorem number_signedByte (b : UInt8) : signedByte.number [b] = b.toInt8.toInt := by
  rw [number, if_pos rfl, List.map_singleton, Nat.ofDigits_singleton]
  exact (BitVec.toInt_eq_toNat_bmod b.toBitVec).symm

theorem number_word {k : Read} (hk : k ≠ signedByte) (lo hi : UInt8) :
    k.number [lo, hi] = (wordOfBytes lo hi).toNat := by
  rw [number, if_neg hk, List.map_cons, List.map_singleton, Nat.ofDigits_cons,
    Nat.ofDigits_singleton, toNat_wordOfBytes, Nat.add_comm, Nat.mul_comm]

/-- The four reads keep to this. -/
theorem run_eq (k : Read) (r : Reader) : k.run r = k.result r := by
  cases k with
  | byte => exact map_byte_eq r rfl fun b => (number_byte (by decide) b).symm
  | signedByte =>
    rw [run, Reading.signedByte, Functor.map_map]
    exact map_byte_eq r rfl fun b => (number_signedByte b).symm
  | word => exact map_word_eq r rfl fun lo hi => (number_word (by decide) lo hi).symm
  | immediate wide =>
    cases wide with
    | true => exact map_word_eq r rfl fun lo hi => (number_word (by decide) lo hi).symm
    | false =>
      rw [run, Reading.immediate, if_neg Bool.false_ne_true, Functor.map_map]
      exact map_byte_eq r rfl fun b => (number_byte (by decide) b).symm

end Read

/-- What is asked of a reader: to read, or to look at up to `n` of the bytes ahead. -/
inductive Call
  | read (k : Read)
  | peek (n : Nat)

inductive Answer
  | number (k : Read) (n : Int)
  | outOfBounds (e : OutOfBounds)
  | ahead (bytes : List UInt8)
  deriving DecidableEq

/-- The bytes that a call consumed which had this answer: those of the number, if it is one. -/
def Answer.Consumed : Answer → List UInt8 → Prop
  | number k n, bytes => bytes.length = k.wanted ∧ n = k.number bytes
  | outOfBounds _, bytes => bytes = []
  | ahead _, bytes => bytes = []

namespace Reader

/-- One call: its answer, and the reader that it leaves. -/
def call (r : Reader) : Call → Answer × Reader
  | .read k =>
    match k.run r with
    | .ok n r' => (.number k n, r')
    | .error e r' => (.outOfBounds e, r')
  | .peek n => (.ahead (r.peek n), r)

/-- The reader after some calls. -/
def after (r : Reader) (calls : List Call) : Reader := calls.foldl (fun r c => (r.call c).2) r

/-- The answers of some calls, one made after another. -/
def answers (r : Reader) : List Call → List Answer
  | [] => []
  | c :: calls => (r.call c).1 :: (r.call c).2.answers calls

/-- A call passes the bytes that its answer consumed. -/
theorem exists_consumed_of_call (r : Reader) (c : Call) :
    ∃ bytes, (r.call c).1.Consumed bytes ∧ r.Passes bytes (r.call c).2 := by
  cases c with
  | read k =>
    rw [call, k.run_eq, Read.result]
    split_ifs with hshort
    · exact ⟨[], rfl, passes_nil_iff.2 rfl⟩
    · have hlength : (r.peek k.wanted).length = k.wanted :=
        List.length_take_of_le (Nat.not_lt.1 hshort)
      refine ⟨r.peek k.wanted, ⟨hlength, rfl⟩, (List.take_append_drop _ _).symm, ?_⟩
      rw [hlength]
  | peek n => exact ⟨[], rfl, passes_nil_iff.2 rfl⟩

/-- Calls pass the bytes that their answers consumed, one after another. -/
theorem exists_consumed_of_calls (r : Reader) (calls : List Call) :
    ∃ pieces, List.Forall₂ Answer.Consumed (r.answers calls) pieces ∧
      r.Passes pieces.flatten (r.after calls) := by
  induction calls generalizing r with
  | nil => exact ⟨[], .nil, passes_nil_iff.2 rfl⟩
  | cons c calls ih =>
    obtain ⟨bytes, hbytes, hpasses⟩ := r.exists_consumed_of_call c
    obtain ⟨pieces, hpieces, hpasses'⟩ := ih (r.call c).2
    exact ⟨bytes :: pieces, .cons hbytes hpieces, passes_append_iff.2 ⟨_, hpasses, hpasses'⟩⟩

section Buffer

variable {r : Reader} {buffer bytes : List UInt8} (h : (ofBytes buffer).Passes bytes r)

include h

theorem Passes.position_eq : r.position = bytes.length := by
  rw [h.2]
  exact Nat.zero_add _

theorem Passes.take_position : bytes = buffer.take r.position := by
  rw [show buffer = bytes ++ r.rest from h.1, h.position_eq, List.take_left]

theorem Passes.drop_position : r.rest = buffer.drop r.position := by
  rw [show buffer = bytes ++ r.rest from h.1, h.position_eq, List.drop_left]

theorem Passes.length_eq : r.length = buffer.length := by
  rw [show buffer = bytes ++ r.rest from h.1, List.length_append, Reader.length, h.position_eq]
  rfl

end Buffer

end Reader

/-- Whatever calls are made of a reader at the start of a buffer, its position is in the buffer, and
the reads among them consumed what lies in front of the position: each number is that of its bytes.
A further read fails where there are fewer bytes left than it wants, and says where the reader is,
what it wants and how long the buffer is. The reader stays there, as it does when it peeks, and what
it peeks at ends in the buffer, however much is asked for. -/
theorem consumed_of_calls (buffer : List UInt8) (calls : List Call) :
    let r := (Reader.ofBytes buffer).after calls
    r.position ≤ buffer.length ∧
      (∃ pieces, List.Forall₂ Answer.Consumed ((Reader.ofBytes buffer).answers calls) pieces ∧
        pieces.flatten = buffer.take r.position) ∧
      (∀ k : Read, k.run r =
        if buffer.length - r.position < k.wanted then
          .error ⟨r.position, k.wanted, buffer.length⟩ r
        else
          .ok (k.number ((buffer.drop r.position).take k.wanted))
            ⟨r.position + k.wanted, buffer.drop (r.position + k.wanted)⟩) ∧
      ∀ n, r.call (.peek n) = (.ahead ((buffer.drop r.position).take n), r) ∧
        r.position + (r.peek n).length ≤ buffer.length := by
  intro r
  obtain ⟨pieces, hpieces, hpasses⟩ := (Reader.ofBytes buffer).exists_consumed_of_calls calls
  have hrest : r.rest = buffer.drop r.position := hpasses.drop_position
  have hlength : r.length = buffer.length := hpasses.length_eq
  have hremaining : r.remaining = buffer.length - r.position := by
    rw [Reader.remaining, hrest, List.length_drop]
  have hposition : r.position ≤ buffer.length := hlength ▸ Nat.le_add_right _ _
  refine ⟨hposition, ⟨pieces, hpieces, hpasses.take_position⟩, fun k => ?_, fun n => ⟨?_, ?_⟩⟩
  · rw [k.run_eq, Read.result, hremaining, Reader.outOfBounds, hlength, Reader.peek, hrest,
      List.drop_drop]
  · rw [Reader.call, Reader.peek, hrest]
  · have hpeek : (r.peek n).length ≤ r.remaining := List.length_take_le' _ _
    omega

example : (Reader.ofBytes [0x34, 0x12, 0xff]).answers
    [.read .word, .read .word, .peek 4, .read .signedByte] =
    [.number .word 0x1234, .outOfBounds ⟨2, 2, 3⟩, .ahead [0xff], .number .signedByte (-1)] := by
  decide

end Machine86
