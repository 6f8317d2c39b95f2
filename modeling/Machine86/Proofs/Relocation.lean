import Machine86.Instruction.Consuming

/-!
# Decoding depends on the bytes ahead

The decoder is put together from single reads, six bytes at most in all (`composed_decodeBody`),
and tests on what was read. So it does the same wherever in a buffer the bytes stand, with the
places that it reports counted from another start (`decode_shift`), and bytes that lie further
ahead than six change nothing (`decode_append`).
-/

namespace Machine86

/-- The same failure with `n` more bytes behind the reader. -/
def OutOfBounds.shift (e : OutOfBounds) (n : Nat) : OutOfBounds :=
  { e with position := e.position + n, length := e.length + n }

def Fault.shift (n : Nat) : Fault → Fault
  | .outOfBounds e => .outOfBounds (e.shift n)
  | .unknown => .unknown
  | .refused why => .refused why

/-- The same error for an instruction that starts `n` bytes later. -/
def DecodeError.shift (n : Nat) : DecodeError → DecodeError
  | .outOfBounds e => .outOfBounds (e.shift n)
  | .unknown bytes => .unknown bytes
  | .invalid bytes why => .invalid bytes why

namespace Reader

def shift (n : Nat) (r : Reader) : Reader := { r with position := r.position + n }

def append (tail : List UInt8) (r : Reader) : Reader := { r with rest := r.rest ++ tail }

end Reader

namespace Reading

variable {ε ε' α β : Type}

def mapOutcome (fault : ε → ε') (reader : Reader → Reader) :
    EStateM.Result ε Reader α → EStateM.Result ε' Reader α
  | .ok a r => .ok a (reader r)
  | .error e r => .error (fault e) (reader r)

/-- A reading that is put together from single reads, of at most so many bytes in all. -/
inductive Composed : Nat → Reading Fault α → Prop
  | pure {n : Nat} (a : α) : Composed n (pure a)
  | unknown {n : Nat} : Composed n (throw .unknown)
  | refused {n : Nat} (why : Refusal) : Composed n (throw (.refused why))
  | byte {n : Nat} {f : UInt8 → Reading Fault α} (h : ∀ b, Composed n (f b)) :
    Composed (n + 1) (liftM Reading.byte >>= f)
  | word {n : Nat} {f : UInt16 → Reading Fault α} (h : ∀ w, Composed n (f w)) :
    Composed (n + 2) (liftM Reading.word >>= f)

namespace Composed

variable {m n : Nat}

theorem mono {x : Reading Fault α} (h : Composed m x) (hmn : m ≤ n) : Composed n x := by
  induction h generalizing n with
  | pure a => exact .pure a
  | unknown => exact .unknown
  | refused why => exact .refused why
  | byte _ ih =>
    obtain ⟨k, rfl⟩ : ∃ k, n = k + 1 := ⟨n - 1, by omega⟩
    exact .byte fun b => ih b (by omega)
  | word _ ih =>
    obtain ⟨k, rfl⟩ : ∃ k, n = k + 2 := ⟨n - 2, by omega⟩
    exact .word fun w => ih w (by omega)

theorem bind {x : Reading Fault α} {f : α → Reading Fault β} (hx : Composed m x)
    (hf : ∀ a, Composed n (f a)) : Composed (m + n) (x >>= f) := by
  induction hx with
  | pure a =>
    rw [pure_bind]
    exact (hf a).mono (by omega)
  | unknown => exact .unknown
  | refused why => exact .refused why
  | @byte m g _ ih =>
    rw [bind_assoc, Nat.add_right_comm]
    exact .byte ih
  | @word m g _ ih =>
    rw [bind_assoc, Nat.add_right_comm]
    exact .word ih

end Composed

theorem liftM_map (g : α → β) (x : Reading OutOfBounds α) :
    (liftM (g <$> x) : Reading Fault β) = liftM x >>= fun a => pure (g a) := by
  funext r
  show EStateM.adaptExcept _ (g <$> x) r = (EStateM.adaptExcept _ x >>= fun a => Pure.pure (g a)) r
  simp only [EStateM.adaptExcept, Functor.map, EStateM.map, Bind.bind, EStateM.bind]
  cases x r <;> rfl

theorem composed_byte : Composed 1 (liftM byte) := by
  rw [← bind_pure (liftM byte : Reading Fault UInt8)]
  exact .byte fun _ => .pure _

theorem composed_signedByte : Composed 1 (liftM signedByte) := by
  rw [signedByte, liftM_map]
  exact .byte fun _ => .pure _

theorem composed_word : Composed 2 (liftM word) := by
  rw [← bind_pure (liftM word : Reading Fault UInt16)]
  exact .word fun _ => .pure _

theorem composed_immediate (wide : Bool) : Composed 2 (liftM (immediate wide)) := by
  unfold immediate
  split
  · exact composed_word
  · rw [liftM_map]
    exact .byte fun _ => .pure _

section Outcomes

variable {n : Nat} {x : Reading Fault α}

theorem byte_bind_cons (f : UInt8 → Reading Fault α) (position : Nat) (b : UInt8)
    (rest : List UInt8) :
    (liftM byte >>= f) ⟨position, b :: rest⟩ = f b ⟨position + 1, rest⟩ := rfl

theorem word_bind_single (f : UInt16 → Reading Fault α) (position : Nat) (lo : UInt8) :
    (liftM word >>= f) ⟨position, [lo]⟩ = .error (.outOfBounds ⟨position, 2, position + 1⟩)
      ⟨position, [lo]⟩ := rfl

theorem word_bind_cons (f : UInt16 → Reading Fault α) (position : Nat) (lo hi : UInt8)
    (rest : List UInt8) :
    (liftM word >>= f) ⟨position, lo :: hi :: rest⟩ =
      f (wordOfBytes lo hi) ⟨position + 2, rest⟩ := rfl

/-- A composed reading does the same with more bytes behind it, and counts them. -/
theorem Composed.shift (h : Composed n x) (k : Nat) (r : Reader) :
    x (r.shift k) = mapOutcome (Fault.shift k) (Reader.shift k) (x r) := by
  induction h generalizing r with
  | pure a => rfl
  | unknown => rfl
  | refused why => rfl
  | @byte n f _ ih =>
    obtain ⟨position, rest⟩ := r
    cases rest with
    | nil => rfl
    | cons b rest =>
      rw [byte_bind_cons, ← ih b, Reader.shift, byte_bind_cons, Reader.shift, Nat.add_right_comm]
  | @word n f _ ih =>
    obtain ⟨position, rest⟩ := r
    match rest with
    | [] => rfl
    | [lo] =>
      rw [word_bind_single, Reader.shift, word_bind_single, Nat.add_right_comm]
      rfl
    | lo :: hi :: rest =>
      rw [word_bind_cons, ← ih, Reader.shift, word_bind_cons, Reader.shift, Nat.add_right_comm]

/-- A composed reading does not see bytes that lie further ahead than it reads. -/
theorem Composed.append (h : Composed n x) (tail : List UInt8) {r : Reader}
    (hn : n ≤ r.remaining) : x (r.append tail) = mapOutcome id (Reader.append tail) (x r) := by
  induction h generalizing r with
  | pure a => rfl
  | unknown => rfl
  | refused why => rfl
  | @byte n f _ ih =>
    obtain ⟨position, rest⟩ := r
    cases rest with
    | nil => simp [Reader.remaining] at hn
    | cons b rest =>
      have hrest : n ≤ Reader.remaining ⟨position + 1, rest⟩ := by
        simpa [Reader.remaining] using hn
      rw [byte_bind_cons, ← ih b hrest]
      rfl
  | @word n f _ ih =>
    obtain ⟨position, rest⟩ := r
    match rest with
    | [] => simp [Reader.remaining] at hn
    | [lo] => simp [Reader.remaining] at hn
    | lo :: hi :: rest =>
      have hrest : n ≤ Reader.remaining ⟨position + 2, rest⟩ := by
        simpa [Reader.remaining] using hn
      rw [word_bind_cons, ← ih _ hrest]
      rfl

end Outcomes

end Reading

open Reading

theorem composed_readDisp (mode rm : UInt8) : Composed 2 (readDisp mode rm) := by
  unfold readDisp
  split
  · exact (composed_signedByte.bind fun _ => .pure (n := 0) _).mono (by omega)
  · split
    · exact composed_word.bind fun _ => .pure (n := 0) _
    · exact .pure _

theorem composed_readModRm : Composed 3 readModRm :=
  composed_byte.bind fun _ => (composed_readDisp _ _).bind fun _ => .pure (n := 0) _

theorem composed_readGroupImmediate (signExtend wide : Bool) :
    Composed 2 (readGroupImmediate signExtend wide) := by
  unfold readGroupImmediate
  split
  · split
    · exact (composed_signedByte.bind fun _ => .pure (n := 0) _).mono (by omega)
    · exact composed_word
  · exact (composed_byte.bind fun _ => .pure (n := 0) _).mono (by omega)

theorem Opcode.composed_readOperands (b : UInt8) (op : Opcode) :
    Composed 5 (op.readOperands b) := by
  cases op with
  | movRegMem => exact composed_readModRm.bind fun _ => .pure (n := 2) _
  | movImmToReg wide => exact (composed_immediate wide).bind fun _ => .pure (n := 3) _
  | movImmToRegMem wide =>
    refine composed_readModRm.bind (n := 2) fun m => ?_
    split
    · exact (composed_immediate wide).bind fun _ => .pure (n := 0) _
    · exact .refused _
  | movAccMem => exact composed_word.bind fun _ => .pure (n := 3) _
  | arithImmToRegMem signExtend wide =>
    refine composed_readModRm.bind (n := 2) fun m => ?_
    cases ArithOp.ofCode? m.reg with
    | none => exact .refused _
    | some op =>
      exact (composed_readGroupImmediate signExtend wide).bind fun _ => .pure (n := 0) _
  | arithRegMem => exact composed_readModRm.bind fun _ => .pure (n := 2) _
  | arithImmToAcc _ wide => exact (composed_immediate wide).bind fun _ => .pure (n := 3) _
  | jump => exact composed_signedByte.bind fun _ => .pure (n := 4) _

theorem composed_decodeBody : Composed 6 decodeBody := by
  refine Composed.bind (m := 1) (n := 5) composed_byte fun b => ?_
  cases Opcode.ofByte b with
  | family op => exact op.composed_readOperands b
  | refused why => exact .refused why
  | unknown => exact .unknown

/-- An instruction decodes alike wherever in a buffer it stands. -/
theorem decode_shift (n : Nat) (r : Reader) :
    decode (r.shift n) = mapOutcome (DecodeError.shift n) (Reader.shift n) (decode r) := by
  have hpeek : (r.shift n).peek reportLength = r.peek reportLength := rfl
  simp only [decode, composed_decodeBody.shift n r, hpeek]
  cases decodeBody r with
  | ok i r' => rfl
  | error fault r' => cases fault <;> rfl

/-- Bytes that lie more than six ahead do not count. -/
theorem decode_append (tail : List UInt8) {r : Reader} (h : 6 ≤ r.remaining) :
    decode (r.append tail) = mapOutcome id (Reader.append tail) (decode r) := by
  have hpeek : (r.append tail).peek reportLength = r.peek reportLength :=
    List.take_append_of_le_length (by simp only [Reader.remaining, reportLength] at *; omega)
  simp only [decode, composed_decodeBody.append tail h, hpeek]
  cases decodeBody r <;> rfl

end Machine86
