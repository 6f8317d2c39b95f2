import Machine86.Proofs.Relocation
import Machine86.Proofs.RoundTrip

/-!
# No encoding begins another one

A reading that succeeds would have run out of bounds on any proper part of the bytes that it
passed over (`Reading.Composed.exists_passes`). So an instruction ends where its own bytes say: the
same bytes are the same instruction wherever they stand, and a buffer that ends among them is too
short (`decode_prefix_free`).
-/

namespace Machine86

theorem Reader.Passes.unique {r r' : Reader} {bytes bytes' : List UInt8}
    (h : r.Passes bytes r') (h' : r.Passes bytes' r') : bytes = bytes' :=
  List.append_cancel_right (h.1.symm.trans h'.1)

namespace Reading

variable {α : Type} {n : Nat} {x : Reading Fault α} {r r' : Reader} {a : α}

theorem word_bind_wordBytes (f : UInt16 → Reading Fault α) (position : Nat) (w : UInt16)
    (rest : List UInt8) :
    (liftM word >>= f) ⟨position, wordBytes w ++ rest⟩ = f w ⟨position + 2, rest⟩ := by
  rw [wordBytes, List.cons_append, List.singleton_append, word_bind_cons, wordOfBytes_toUInt8]

/-- A composed reading that succeeds passes over bytes of which it needs every one. -/
theorem Composed.exists_passes (h : Composed n x) (hx : x r = .ok a r') :
    ∃ bytes, r.Passes bytes r' ∧ ∀ position k, k < bytes.length →
      ∃ e s, x ⟨position, bytes.take k⟩ = .error (.outOfBounds e) s := by
  induction h generalizing r with
  | pure b =>
    obtain ⟨-, rfl⟩ := pure_eq_ok_iff.1 hx
    exact ⟨[], Reader.passes_nil_iff.2 rfl, fun _ _ hk => absurd hk (Nat.not_lt_zero _)⟩
  | unknown => exact (throw_eq_ok_iff.1 hx).elim
  | refused why => exact (throw_eq_ok_iff.1 hx).elim
  | byte _ ih =>
    obtain ⟨b, s, hb, hf⟩ := bind_eq_ok_iff.1 hx
    have hpass := byte_eq_ok_iff.1 (liftM_eq_ok_iff.1 hb)
    obtain ⟨bytes, hbytes, hshort⟩ := ih b hf
    refine ⟨b :: bytes, Reader.passes_cons_iff.2 ⟨s, hpass, hbytes⟩, fun position k hk => ?_⟩
    cases k with
    | zero => exact ⟨_, _, rfl⟩
    | succ k =>
      rw [List.take_succ_cons, byte_bind_cons]
      exact hshort (position + 1) k (Nat.lt_of_succ_lt_succ hk)
  | @word n f _ ih =>
    obtain ⟨w, s, hw, hf⟩ := bind_eq_ok_iff.1 hx
    have hpass := word_eq_ok_iff.1 (liftM_eq_ok_iff.1 hw)
    obtain ⟨bytes, hbytes, hshort⟩ := ih w hf
    refine ⟨wordBytes w ++ bytes, Reader.passes_append_iff.2 ⟨s, hpass, hbytes⟩,
      fun position k hk => ?_⟩
    -- A word is read at once, so also its first byte alone is too short.
    match k with
    | 0 => exact ⟨_, _, rfl⟩
    | 1 => exact ⟨_, _, rfl⟩
    | k + 2 =>
      have hk' : k < bytes.length := by
        rw [List.length_append, length_wordBytes] at hk
        omega
      have htake : (wordBytes w ++ bytes).take (k + 2) = wordBytes w ++ bytes.take k := rfl
      rw [htake, word_bind_wordBytes]
      exact hshort (position + 2) k hk'

end Reading

open Reading

variable {i : Instruction}

/-- A part of an encoding at the end of a buffer is no instruction. -/
theorem decode_take_encode (hi : i.WellFormed) (position : Nat) {k : Nat}
    (hk : k < i.encode.length) :
    ∃ e s, decode ⟨position, i.encode.take k⟩ = .error (.outOfBounds e) s := by
  have hbody : decodeBody ⟨0, i.encode ++ []⟩ = .ok i ⟨0 + i.encode.length, []⟩ :=
    decodeBody_eq_ok_iff.2 ⟨hi, rfl, rfl⟩
  obtain ⟨bytes, hpass, hshort⟩ := composed_decodeBody.exists_passes hbody
  obtain rfl := hpass.unique ⟨rfl, rfl⟩
  obtain ⟨e, s, he⟩ := hshort position k hk
  refine ⟨e, s, ?_⟩
  rw [decode, he]
  rfl

/-- A decoded instruction is in its own two to six bytes: with other bytes around them it is
decoded again, and without the last of them the buffer is too short for it. -/
theorem decode_prefix_free {r r' : Reader} (h : decode r = .ok i r') :
    ∃ bytes, r.Passes bytes r' ∧ 2 ≤ bytes.length ∧ bytes.length ≤ 6 ∧
      (∀ position rest, decode ⟨position, bytes ++ rest⟩ =
        .ok i ⟨position + bytes.length, rest⟩) ∧
      ∀ position k, k < bytes.length →
        ∃ e s, decode ⟨position, bytes.take k⟩ = .error (.outOfBounds e) s := by
  obtain ⟨hi, hpass⟩ := decode_eq_ok_iff.1 h
  obtain ⟨hmin, hmax⟩ := i.length_encode
  exact ⟨i.encode, hpass, hmin, hmax, decode_encode hi,
    fun position _ => decode_take_encode hi position⟩

/-- `mov [bx + di + 901], word 347`, inside a buffer. -/
theorem decode_prefix_free_mov :
    let r : Reader := ⟨3, [0xc7, 0x81, 0x85, 0x03, 0x5b, 0x01, 0x74]⟩
    let i : Instruction := .mov
      { form := .immToRegMem, toReg := false, wide := true,
        modRm := { mode := 2, reg := 0, rm := 1, disp := 901 }, data := 347 }
    decode r = .ok i ⟨9, [0x74]⟩ ∧ ∃ bytes, r.Passes bytes ⟨9, [0x74]⟩ ∧ bytes.length ≤ 6 ∧
      (∀ rest, decode ⟨0, bytes ++ rest⟩ = .ok i ⟨0 + bytes.length, rest⟩) ∧
      ∀ k, k < bytes.length → ∃ e s, decode ⟨0, bytes.take k⟩ = .error (.outOfBounds e) s := by
  intro r i
  have h : decode r = .ok i ⟨9, [0x74]⟩ := rfl
  obtain ⟨bytes, hpass, -, hmax, hagain, hshort⟩ := decode_prefix_free h
  exact ⟨h, bytes, hpass, hmax, hagain 0, hshort 0⟩

end Machine86
