import Machine86.Proofs.Encoding

/-!
# Decoding undoes encoding

Each read is described by what it accepts: a value comes out of a reader exactly where the bytes of
that value lie ahead, and the reader behind them is the one that is left. The descriptions compose,
and for a whole instruction they say that `decode` accepts the encodings of well-formed
instructions and nothing else: `decode_eq_ok_iff`.
-/

namespace Machine86

/-- `bytes` lie ahead of `r`, and `r'` stands directly behind them. -/
def Reader.Passes (r : Reader) (bytes : List UInt8) (r' : Reader) : Prop :=
  r.rest = bytes ++ r'.rest ∧ r'.position = r.position + bytes.length

namespace Reader

variable {r r' r'' : Reader} {bytes bytes' : List UInt8}

theorem passes_nil_iff : r.Passes [] r' ↔ r' = r := by
  obtain ⟨position, rest⟩ := r
  obtain ⟨position', rest'⟩ := r'
  simp only [Passes, List.nil_append, List.length_nil, Nat.add_zero, mk.injEq]
  exact ⟨fun h => ⟨h.2, h.1.symm⟩, fun h => ⟨h.2.symm, h.1⟩⟩

theorem passes_append_iff :
    r.Passes (bytes ++ bytes') r'' ↔ ∃ r', r.Passes bytes r' ∧ r'.Passes bytes' r'' := by
  refine ⟨?_, ?_⟩
  · rintro ⟨hrest, hposition⟩
    refine ⟨⟨r.position + bytes.length, bytes' ++ r''.rest⟩, ⟨by simp [hrest], rfl⟩, rfl, ?_⟩
    simp only [hposition, List.length_append]
    omega
  · rintro ⟨r', ⟨hrest, hposition⟩, hrest', hposition'⟩
    refine ⟨by simp [hrest, hrest'], ?_⟩
    simp only [hposition, hposition', List.length_append]
    omega

theorem passes_cons_iff {b : UInt8} :
    r.Passes (b :: bytes) r'' ↔ ∃ r', r.Passes [b] r' ∧ r'.Passes bytes r'' := by
  rw [← passes_append_iff, List.singleton_append]

end Reader

section Outcomes

variable {ε σ α β : Type} {s s' : σ}

theorem bind_eq_ok_iff {x : EStateM ε σ α} {f : α → EStateM ε σ β} {b : β} :
    (x >>= f) s = .ok b s' ↔ ∃ a t, x s = .ok a t ∧ f a t = .ok b s' := by
  simp only [Bind.bind, EStateM.bind]
  cases x s <;> simp

theorem pure_eq_ok_iff {a b : α} : (pure a : EStateM ε σ α) s = .ok b s' ↔ a = b ∧ s' = s := by
  simp [Pure.pure, EStateM.pure, eq_comm]

theorem throw_eq_ok_iff {e : ε} {a : α} : (throw e : EStateM ε σ α) s = .ok a s' ↔ False := by
  refine ⟨fun h => ?_, False.elim⟩
  change EStateM.Result.error e s = .ok a s' at h
  cases h

theorem map_eq_ok_iff {x : EStateM ε σ α} {f : α → β} {b : β} :
    (f <$> x) s = .ok b s' ↔ ∃ a, x s = .ok a s' ∧ f a = b := by
  simp only [Functor.map, EStateM.map]
  cases x s <;> simp [and_comm]

theorem map_eq_error_iff {x : EStateM ε σ α} {f : α → β} {e : ε} :
    (f <$> x) s = .error e s' ↔ x s = .error e s' := by
  simp only [Functor.map, EStateM.map]
  cases x s <;> simp

end Outcomes

namespace Reading

variable {α : Type} {r r' : Reader}

theorem liftM_eq_ok_iff {x : Reading OutOfBounds α} {a : α} :
    (liftM x : Reading Fault α) r = .ok a r' ↔ x r = .ok a r' := by
  show EStateM.adaptExcept _ x r = _ ↔ _
  unfold EStateM.adaptExcept
  cases x r <;> simp

theorem byte_eq_ok_iff {b : UInt8} : byte r = .ok b r' ↔ r.Passes [b] r' := by
  obtain ⟨position, rest⟩ := r
  obtain ⟨position', rest'⟩ := r'
  cases rest with
  | nil => simp [byte, Reader.Passes]
  | cons c rest => simp [byte, Reader.Passes, and_assoc, and_comm, eq_comm]

theorem signedByte_eq_ok_iff {b : Int8} :
    signedByte r = .ok b r' ↔ r.Passes [b.toUInt8] r' := by
  rw [signedByte, map_eq_ok_iff]
  simp only [byte_eq_ok_iff]
  refine ⟨?_, ?_⟩
  · rintro ⟨c, hc, rfl⟩
    exact hc
  · intro h
    exact ⟨b.toUInt8, h, Int8.toInt8_toUInt8 b⟩

theorem word_eq_ok_iff {w : UInt16} : word r = .ok w r' ↔ r.Passes (wordBytes w) r' := by
  obtain ⟨position, rest⟩ := r
  obtain ⟨position', rest'⟩ := r'
  match rest with
  | [] => simp [word, Reader.Passes, wordBytes]
  | [lo] => simp [word, Reader.Passes, wordBytes]
  | lo :: hi :: rest =>
    simp only [word, Reader.Passes, EStateM.Result.ok.injEq, Reader.mk.injEq, wordBytes]
    refine ⟨?_, ?_⟩
    · rintro ⟨rfl, rfl, rfl⟩
      have h := wordBytes_wordOfBytes lo hi
      simp only [wordBytes, List.cons.injEq, and_true] at h
      simp [h]
    · rintro ⟨h, rfl⟩
      simp only [List.cons_append, List.nil_append, List.cons.injEq] at h
      obtain ⟨rfl, rfl, rfl⟩ := h
      simp

theorem immediate_eq_ok_iff {wide : Bool} {data : UInt16} :
    immediate wide r = .ok data r' ↔
      (wide = false → data < 0x100) ∧ r.Passes (immediateBytes wide data) r' := by
  cases wide with
  | true => simp [immediate, immediateBytes, word_eq_ok_iff]
  | false =>
    simp only [immediate, immediateBytes, Bool.false_eq_true, ↓reduceIte, map_eq_ok_iff,
      byte_eq_ok_iff, forall_const]
    refine ⟨?_, ?_⟩
    · rintro ⟨b, hb, rfl⟩
      have hlt := b.toNat_lt
      refine ⟨?_, by simpa using hb⟩
      rw [UInt16.lt_iff_toNat_lt]
      simpa using hlt
    · rintro ⟨hlt, h⟩
      refine ⟨_, h, ?_⟩
      rw [UInt16.lt_iff_toNat_lt] at hlt
      apply UInt16.toNat.inj
      simpa using Nat.mod_eq_of_lt hlt

end Reading

open Reading

section Parts

variable {r r' : Reader}

theorem toInt16_bounds (b : Int8) : -128 ≤ b.toInt16 ∧ b.toInt16 ≤ 127 := by
  have h1 := b.le_toInt
  have h2 := b.toInt_lt
  have hlo : (-128 : Int16).toInt = -128 := rfl
  have hhi : (127 : Int16).toInt = 127 := rfl
  rw [Int16.le_iff_toInt_le, Int16.le_iff_toInt_le, Int8.toInt_toInt16]
  omega

theorem toInt16_toInt8 {d : Int16} (h : -128 ≤ d ∧ d ≤ 127) : d.toInt8.toInt16 = d := by
  obtain ⟨hlo, hhi⟩ := h
  have h127 : (127 : Int16).toInt = 127 := rfl
  rw [Int16.le_iff_toInt_le] at hlo hhi
  apply Int16.toInt_inj.1
  rw [Int8.toInt_toInt16, Int16.toInt_toInt8, Int.bmod_eq_of_le]
  · simpa using hlo
  · omega

theorem toUInt8_signExtended (b : Int8) : b.toInt16.toUInt16.toUInt8 = b.toUInt8 := by
  have h : ∀ c : UInt8, c.toInt8.toInt16.toUInt16.toUInt8 = c := by decide +kernel
  exact h b.toUInt8

theorem readDisp_eq_ok_iff {m : ModRm} (hm : m.mode < 4) :
    readDisp m.mode m.rm r = .ok m.disp r' ↔
      (m.mode = 3 ∨ m.mode = 0 ∧ m.rm ≠ 6 → m.disp = 0) ∧
        (m.mode = 1 → -128 ≤ m.disp ∧ m.disp ≤ 127) ∧ r.Passes m.dispBytes r' := by
  unfold readDisp ModRm.dispBytes
  split_ifs with h1 h2
  · simp only [bind_eq_ok_iff, liftM_eq_ok_iff, signedByte_eq_ok_iff, pure_eq_ok_iff]
    refine ⟨?_, ?_⟩
    · rintro ⟨b, s, hb, hd, rfl⟩
      rw [← hd, Int8.toInt8_toInt16]
      exact ⟨by simp [h1], fun _ => toInt16_bounds b, hb⟩
    · rintro ⟨-, hb, h⟩
      exact ⟨_, _, h, toInt16_toInt8 (hb h1), rfl⟩
  · simp only [bind_eq_ok_iff, liftM_eq_ok_iff, word_eq_ok_iff, pure_eq_ok_iff]
    have hzero : ¬ (m.mode = 3 ∨ m.mode = 0 ∧ m.rm ≠ 6) := by
      rcases h2 with h2 | h2 <;> simp [h2]
    refine ⟨?_, ?_⟩
    · rintro ⟨w, s, hw, hd, rfl⟩
      rw [← hd, UInt16.toUInt16_toInt16]
      exact ⟨fun h => absurd h hzero, fun h => absurd h h1, hw⟩
    · rintro ⟨-, -, h⟩
      exact ⟨_, _, h, Int16.toInt16_toUInt16 _, rfl⟩
  · rw [pure_eq_ok_iff, Reader.passes_nil_iff]
    have hzero : m.mode = 3 ∨ m.mode = 0 ∧ m.rm ≠ 6 := by
      have h4 : ∀ n : UInt8, n < 4 → n = 0 ∨ n = 1 ∨ n = 2 ∨ n = 3 := by decide +kernel
      rcases h4 _ hm with h | h | h | h <;> simp_all
    refine ⟨?_, ?_⟩
    · rintro ⟨hd, rfl⟩
      exact ⟨fun _ => hd.symm, fun h => absurd h h1, rfl⟩
    · rintro ⟨hd, -, rfl⟩
      exact ⟨(hd hzero).symm, rfl⟩

theorem readModRm_eq_ok_iff {m : ModRm} :
    readModRm r = .ok m r' ↔ m.WellFormed ∧ r.Passes m.encode r' := by
  simp only [readModRm, bind_eq_ok_iff, liftM_eq_ok_iff, byte_eq_ok_iff, pure_eq_ok_iff]
  rw [ModRm.encode, Reader.passes_cons_iff]
  refine ⟨?_, ?_⟩
  · rintro ⟨b, s, hb, d, s', hd, rfl, rfl⟩
    obtain ⟨hmode, hreg, hrm, hbyte⟩ := ModRm.byte_fields b
    obtain ⟨hzero, hdisp, hpass⟩ := (readDisp_eq_ok_iff
      (m := { mode := b >>> 6, reg := (b >>> 3) &&& 7, rm := b &&& 7, disp := d }) hmode).1 hd
    exact ⟨⟨hmode, hreg, hrm, hzero, hdisp⟩, s, by simpa only [ModRm.byte, hbyte] using hb, hpass⟩
  · rintro ⟨hm, s, hb, hpass⟩
    obtain ⟨hmode, hreg, hrm⟩ := ModRm.fields_byte _ hm.mode_lt _ hm.reg_lt _ hm.rm_lt
    have hd := (readDisp_eq_ok_iff hm.mode_lt).2 ⟨hm.disp_zero, hm.disp_byte, hpass⟩
    refine ⟨_, s, hb, m.disp, r', ?_, ?_, rfl⟩
    · simpa only [ModRm.byte, hmode, hrm] using hd
    · simp only [ModRm.byte, hmode, hreg, hrm]

/-- The immediate of the group: a byte that is extended by its sign is the low byte of the word
that it becomes. -/
theorem readGroupImmediate_eq_ok_iff {signExtend wide : Bool} {data : UInt16} :
    readGroupImmediate signExtend wide r = .ok data r' ↔
      (wide = false → data < 0x100) ∧
        (signExtend = true → wide = true → ∃ b : Int8, data = b.toInt16.toUInt16) ∧
        r.Passes (immediateBytes (wide && !signExtend) data) r' := by
  unfold readGroupImmediate
  cases wide with
  | false =>
    have h : immediate false r = .ok data r' ↔ _ := immediate_eq_ok_iff
    simp only [immediate, Bool.false_eq_true, ↓reduceIte, map_eq_ok_iff] at h
    simp only [Bool.false_eq_true, ↓reduceIte, bind_eq_ok_iff, liftM_eq_ok_iff, pure_eq_ok_iff,
      Bool.false_and]
    refine ⟨?_, ?_⟩
    · rintro ⟨b, s, hb, hdata, rfl⟩
      obtain ⟨hlt, hp⟩ := h.1 ⟨b, hb, hdata⟩
      exact ⟨hlt, fun _ hw => absurd hw (by decide), hp⟩
    · rintro ⟨hlt, -, hp⟩
      obtain ⟨b, hb, hdata⟩ := h.2 ⟨hlt, hp⟩
      exact ⟨b, r', hb, hdata, rfl⟩
  | true =>
    cases signExtend with
    | false => simp [liftM_eq_ok_iff, word_eq_ok_iff, immediateBytes]
    | true =>
      simp only [↓reduceIte, bind_eq_ok_iff, liftM_eq_ok_iff, signedByte_eq_ok_iff,
        pure_eq_ok_iff, Bool.not_true, Bool.and_false, immediateBytes, Bool.false_eq_true]
      refine ⟨?_, ?_⟩
      · rintro ⟨b, s, hb, rfl, rfl⟩
        exact ⟨fun h => absurd h (by decide), fun _ _ => ⟨b, rfl⟩, by rwa [toUInt8_signExtended]⟩
      · rintro ⟨-, hdata, hp⟩
        obtain ⟨b, rfl⟩ := hdata trivial trivial
        rw [toUInt8_signExtended] at hp
        exact ⟨b, r', hp, rfl, rfl⟩

end Parts

namespace Opcode

variable {r r' : Reader} {i : Instruction}

/-- What is read after the first byte of a family is a well-formed instruction of it. -/
theorem of_readOperands {op : Opcode} (hop : op.Valid)
    (h : op.readOperands op.toByte r = .ok i r') :
    i.WellFormed ∧ i.family = op ∧ r.Passes i.operandBytes r' := by
  cases op with
  | movRegMem toReg wide =>
    simp only [readOperands, bind_eq_ok_iff, readModRm_eq_ok_iff, pure_eq_ok_iff] at h
    obtain ⟨m, s, ⟨hm, hp⟩, rfl, rfl⟩ := h
    exact ⟨⟨hm, by simp, rfl⟩, rfl, hp⟩
  | movImmToReg wide reg =>
    simp only [readOperands, bind_eq_ok_iff, liftM_eq_ok_iff, immediate_eq_ok_iff,
      pure_eq_ok_iff] at h
    obtain ⟨data, s, ⟨hdata, hp⟩, rfl, rfl⟩ := h
    exact ⟨⟨ModRm.wellFormed_ofReg hop, fun _ => rfl, rfl, hdata⟩, rfl, hp⟩
  | movImmToRegMem wide =>
    simp only [readOperands, bind_eq_ok_iff, readModRm_eq_ok_iff] at h
    obtain ⟨m, s, ⟨hm, hp⟩, h⟩ := h
    split at h
    · rename_i hreg
      simp only [bind_eq_ok_iff, liftM_eq_ok_iff, immediate_eq_ok_iff, pure_eq_ok_iff] at h
      obtain ⟨data, s', ⟨hdata, hp'⟩, rfl, rfl⟩ := h
      exact ⟨⟨hm, fun _ => rfl, hreg, hdata⟩, rfl, Reader.passes_append_iff.2 ⟨s, hp, hp'⟩⟩
    · exact (throw_eq_ok_iff.1 h).elim
  | movAccMem toMem wide =>
    simp only [readOperands, bind_eq_ok_iff, liftM_eq_ok_iff, word_eq_ok_iff, pure_eq_ok_iff] at h
    obtain ⟨data, s, hp, rfl, rfl⟩ := h
    cases toMem
    · exact ⟨⟨ModRm.wellFormed_ofReg (by decide), fun _ => rfl, rfl⟩, rfl, hp⟩
    · exact ⟨⟨ModRm.wellFormed_ofReg (by decide), fun _ => rfl, rfl⟩, rfl, hp⟩
  | arithImmToRegMem signExtend wide =>
    simp only [readOperands, bind_eq_ok_iff, readModRm_eq_ok_iff] at h
    obtain ⟨m, s, ⟨hm, hp⟩, h⟩ := h
    rcases hcode : ArithOp.ofCode? m.reg with _ | op <;> rw [hcode] at h
    · exact (throw_eq_ok_iff.1 h).elim
    · simp only [bind_eq_ok_iff, readGroupImmediate_eq_ok_iff, pure_eq_ok_iff] at h
      obtain ⟨data, s', ⟨hdata, hsign, hp'⟩, rfl, rfl⟩ := h
      have hreg := ArithOp.ofCode?_eq_some hcode
      exact ⟨⟨hm, hdata, rfl, hreg, rfl, hsign⟩, rfl, Reader.passes_append_iff.2 ⟨s, hp, hp'⟩⟩
  | arithRegMem op toReg wide =>
    simp only [readOperands, bind_eq_ok_iff, readModRm_eq_ok_iff, pure_eq_ok_iff] at h
    obtain ⟨m, s, ⟨hm, hp⟩, rfl, rfl⟩ := h
    exact ⟨⟨hm, fun _ => (by decide : (0 : UInt16) < 0x100), rfl, rfl, rfl⟩, rfl, hp⟩
  | arithImmToAcc op wide =>
    simp only [readOperands, bind_eq_ok_iff, liftM_eq_ok_iff, immediate_eq_ok_iff,
      pure_eq_ok_iff] at h
    obtain ⟨data, s, ⟨hdata, hp⟩, rfl, rfl⟩ := h
    exact ⟨⟨ModRm.wellFormed_ofReg (by decide), hdata, rfl, rfl, rfl, rfl⟩, rfl, hp⟩
  | jump opcode =>
    simp only [readOperands, bind_eq_ok_iff, liftM_eq_ok_iff, signedByte_eq_ok_iff,
      pure_eq_ok_iff] at h
    obtain ⟨inc, s, hp, rfl, rfl⟩ := h
    exact ⟨hop, rfl, hp⟩

/-- A well-formed instruction is read from its bytes. -/
theorem readOperands_of_wellFormed (hi : i.WellFormed) (hp : r.Passes i.operandBytes r') :
    i.family.readOperands i.family.toByte r = .ok i r' := by
  cases i with
  | mov m =>
    obtain ⟨form, toReg, wide, modRm, data⟩ := m
    obtain ⟨hm, htoReg, hform⟩ := hi
    dsimp only at hm htoReg hform
    cases form with
    | regMem =>
      obtain rfl := hform
      simp only [Instruction.family, Mov.family, readOperands, bind_eq_ok_iff,
        readModRm_eq_ok_iff, pure_eq_ok_iff]
      exact ⟨modRm, r', ⟨hm, hp⟩, rfl, rfl⟩
    | immToReg =>
      obtain ⟨hreg, hdata⟩ := hform
      obtain rfl := htoReg (by simp)
      simp only [Instruction.family, Mov.family, readOperands, bind_eq_ok_iff, liftM_eq_ok_iff,
        immediate_eq_ok_iff, pure_eq_ok_iff]
      exact ⟨data, r', ⟨hdata, hp⟩, by rw [← hreg], rfl⟩
    | immToRegMem =>
      obtain ⟨hreg, hdata⟩ := hform
      obtain rfl := htoReg (by simp)
      obtain ⟨s, hp, hp'⟩ := Reader.passes_append_iff.1 hp
      simp only [Instruction.family, Mov.family, readOperands, bind_eq_ok_iff,
        readModRm_eq_ok_iff]
      refine ⟨modRm, s, ⟨hm, hp⟩, ?_⟩
      simp only [hreg, ↓reduceIte, bind_eq_ok_iff, liftM_eq_ok_iff, immediate_eq_ok_iff,
        pure_eq_ok_iff]
      exact ⟨data, r', ⟨hdata, hp'⟩, rfl, rfl⟩
    | memToAcc =>
      obtain rfl := hform
      obtain rfl := htoReg (by simp)
      simp only [Instruction.family, Mov.family, readOperands, bind_eq_ok_iff, liftM_eq_ok_iff,
        word_eq_ok_iff, pure_eq_ok_iff]
      exact ⟨data, r', hp, rfl, rfl⟩
    | accToMem =>
      obtain rfl := hform
      obtain rfl := htoReg (by simp)
      simp only [Instruction.family, Mov.family, readOperands, bind_eq_ok_iff, liftM_eq_ok_iff,
        word_eq_ok_iff, pure_eq_ok_iff]
      exact ⟨data, r', hp, rfl, rfl⟩
  | arith a =>
    obtain ⟨form, op, toReg, signExtend, wide, modRm, data, opcode⟩ := a
    obtain ⟨hm, hdata, hform⟩ := hi
    dsimp only at hm hdata hform
    cases form with
    | regMem =>
      obtain ⟨rfl, rfl, rfl⟩ := hform
      simp only [Instruction.family, Arith.family, readOperands, bind_eq_ok_iff,
        readModRm_eq_ok_iff, pure_eq_ok_iff]
      exact ⟨modRm, r', ⟨hm, hp⟩, rfl, rfl⟩
    | immToRegMem =>
      obtain ⟨rfl, hreg, rfl, hsign⟩ := hform
      obtain ⟨s, hp, hp'⟩ := Reader.passes_append_iff.1 hp
      simp only [Instruction.family, Arith.family, readOperands, bind_eq_ok_iff,
        readModRm_eq_ok_iff]
      refine ⟨modRm, s, ⟨hm, hp⟩, ?_⟩
      simp only [hreg, ArithOp.ofCode?_code, bind_eq_ok_iff, readGroupImmediate_eq_ok_iff,
        pure_eq_ok_iff]
      exact ⟨data, r', ⟨hdata, hsign, hp'⟩, rfl, rfl⟩
    | immToAcc =>
      obtain ⟨rfl, rfl, rfl, rfl⟩ := hform
      simp only [Instruction.family, Arith.family, readOperands, bind_eq_ok_iff, liftM_eq_ok_iff,
        immediate_eq_ok_iff, pure_eq_ok_iff]
      exact ⟨data, r', ⟨hdata, hp⟩, rfl, rfl⟩
  | jump j =>
    simp only [Instruction.family, readOperands, bind_eq_ok_iff, liftM_eq_ok_iff,
      signedByte_eq_ok_iff, pure_eq_ok_iff]
    exact ⟨j.inc, r', hp, rfl, rfl⟩

end Opcode

theorem Instruction.WellFormed.valid_family {i : Instruction} (h : i.WellFormed) :
    i.family.Valid := by
  cases i with
  | mov m =>
    obtain ⟨hm, -, -⟩ := h
    cases hf : m.form <;> simp only [family, Mov.family, hf, Opcode.Valid]
    exact hm.reg_lt
  | arith a => cases hf : a.form <;> simp only [family, Arith.family, hf, Opcode.Valid]
  | jump j => exact h

theorem decodeBody_eq_ok_iff {r r' : Reader} {i : Instruction} :
    decodeBody r = .ok i r' ↔ i.WellFormed ∧ r.Passes i.encode r' := by
  simp only [decodeBody, bind_eq_ok_iff, liftM_eq_ok_iff, byte_eq_ok_iff]
  rw [Instruction.encode, Reader.passes_cons_iff]
  refine ⟨?_, ?_⟩
  · rintro ⟨b, s, hb, h⟩
    cases hc : Opcode.ofByte b with
    | family op =>
      rw [hc] at h
      obtain ⟨hop, rfl⟩ := Opcode.ofByte_eq_family_iff.1 hc
      obtain ⟨hi, rfl, hp⟩ := Opcode.of_readOperands hop h
      exact ⟨hi, s, hb, hp⟩
    | refused why =>
      rw [hc] at h
      exact (throw_eq_ok_iff.1 h).elim
    | unknown =>
      rw [hc] at h
      exact (throw_eq_ok_iff.1 h).elim
  · rintro ⟨hi, s, hb, hp⟩
    refine ⟨_, s, hb, ?_⟩
    rw [Opcode.ofByte_toByte hi.valid_family]
    exact Opcode.readOperands_of_wellFormed hi hp

/-- The decoder accepts the encodings of well-formed instructions and nothing else. -/
theorem decode_eq_ok_iff {r r' : Reader} {i : Instruction} :
    decode r = .ok i r' ↔ i.WellFormed ∧ r.Passes i.encode r' := by
  rw [← decodeBody_eq_ok_iff, decode]
  cases decodeBody r <;> simp

theorem decode_encode {i : Instruction} (hi : i.WellFormed) (position : Nat) (rest : List UInt8) :
    decode ⟨position, i.encode ++ rest⟩ = .ok i ⟨position + i.encode.length, rest⟩ :=
  decode_eq_ok_iff.2 ⟨hi, rfl, rfl⟩

/-- Decoding is one-to-one between the encodings that it accepts and the well-formed instructions:
wherever an instruction comes out, the same bytes went in, and the instructions that come out of
some buffer are the well-formed ones. -/
theorem decode_one_to_one :
    (∀ {r₁ r₂ r₁' r₂' : Reader} {i : Instruction},
      decode r₁ = .ok i r₁' → decode r₂ = .ok i r₂' →
        ∃ bytes, r₁.Passes bytes r₁' ∧ r₂.Passes bytes r₂') ∧
    ∀ i : Instruction, (∃ bytes r', decode (.ofBytes bytes) = .ok i r') ↔ i.WellFormed := by
  refine ⟨fun {r₁ r₂ r₁' r₂' i} h₁ h₂ => ?_, fun i => ⟨?_, fun hi => ?_⟩⟩
  · exact ⟨i.encode, (decode_eq_ok_iff.1 h₁).2, (decode_eq_ok_iff.1 h₂).2⟩
  · rintro ⟨bytes, r', h⟩
    exact (decode_eq_ok_iff.1 h).1
  · exact ⟨i.encode ++ [], _, decode_encode hi 0 []⟩

/-- `add word [bp + si + 1000], -3`, at the start of one buffer and inside another. -/
theorem decode_one_to_one_add :
    let i : Instruction := .arith
      { form := .immToRegMem, op := .add, toReg := false, signExtend := true, wide := true,
        modRm := { mode := 2, reg := 0, rm := 2, disp := 1000 }, data := 0xfffd, opcode := 0x83 }
    decode ⟨0, [0x83, 0x82, 0xe8, 0x03, 0xfd]⟩ = .ok i ⟨5, []⟩ ∧
      decode ⟨7, [0x83, 0x82, 0xe8, 0x03, 0xfd, 0x74]⟩ = .ok i ⟨12, [0x74]⟩ ∧
      (∃ bytes, Reader.Passes ⟨0, [0x83, 0x82, 0xe8, 0x03, 0xfd]⟩ bytes ⟨5, []⟩ ∧
        Reader.Passes ⟨7, [0x83, 0x82, 0xe8, 0x03, 0xfd, 0x74]⟩ bytes ⟨12, [0x74]⟩) ∧
      i.WellFormed :=
  ⟨rfl, rfl, decode_one_to_one.1 rfl rfl, (decode_one_to_one.2 _).1
    ⟨[0x83, 0x82, 0xe8, 0x03, 0xfd], ⟨5, []⟩, rfl⟩⟩

end Machine86
