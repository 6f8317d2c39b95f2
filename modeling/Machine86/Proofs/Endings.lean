import Machine86.Proofs.Encoding
import Machine86.Proofs.Relocation
import Mathlib.Tactic.SplitIfs

/-!
# How decoding ends

How the decoder ends can be told from the bytes ahead without reading them: `ending` looks up the
first byte in a table of bit patterns, counts what has to follow it, and compares. The decoder keeps
to it (`decode_ending`): the two opcodes of segment moves are refused whatever follows, a mod-reg-rm
byte or a displacement that is not all there is reported before a refused reg field, and a refused
reg field before an immediate that is not there.

A read that runs out of bounds starts where the reader is left, and it is the end of the whole
buffer that it runs past (`Reading.Composed.exceeds`).
-/

namespace Machine86

/-- What follows a first byte. -/
structure Layout where
  /-- A mod-reg-rm byte, and the displacement that it asks for. -/
  hasModRm : Bool
  /-- The reg fields that are accepted, and what is said of the others. -/
  regs : Option (List UInt8 × Refusal)
  /-- How many bytes of an immediate, an address or a jump offset there are. -/
  dataLength : Nat
  deriving DecidableEq

namespace Layout

def modRm : Layout := ⟨true, none, 0⟩

def data (length : Nat) : Layout := ⟨false, none, length⟩

/-- Why there is no instruction with this reg field. -/
def refusal? (l : Layout) (reg : UInt8) : Option Refusal :=
  l.regs.bind fun (accepted, why) => if reg ∈ accepted then none else some why

end Layout

/-- A row of the table of first bytes: the bits under the mask have the given values. -/
structure OpcodeRow where
  mask : UInt8
  bits : UInt8
  layout : UInt8 → Layout

/-- The length of data that is a word where the first byte `b` has the bit. -/
def lengthByBit (bit b : UInt8) : Nat := if b &&& bit = 0 then 1 else 2

/-- The first bytes of instructions. -/
def opcodeTable : List OpcodeRow :=
  [⟨0xfc, 0x88, fun _ => .modRm⟩,  -- 100010dw
   ⟨0xf0, 0xb0, fun b => .data (lengthByBit 8 b)⟩,  -- 1011wreg
   ⟨0xfe, 0xc6, fun b => ⟨true, some ([0], .movExtension), lengthByBit 1 b⟩⟩,  -- 1100011w
   ⟨0xfe, 0xa0, fun _ => .data 2⟩,  -- 1010000w
   ⟨0xfe, 0xa2, fun _ => .data 2⟩,  -- 1010001w
   ⟨0xfc, 0x00, fun _ => .modRm⟩,  -- 000000dw
   ⟨0xfc, 0x28, fun _ => .modRm⟩,  -- 001010dw
   ⟨0xfc, 0x38, fun _ => .modRm⟩,  -- 001110dw
   ⟨0xfc, 0x80, fun b => ⟨true, some ([0, 5, 7], .arithExtension),  -- 100000sw
      if b &&& 2 = 0 then lengthByBit 1 b else 1⟩⟩,
   ⟨0xfe, 0x04, fun b => .data (lengthByBit 1 b)⟩,  -- 0000010w
   ⟨0xfe, 0x2c, fun b => .data (lengthByBit 1 b)⟩,  -- 0010110w
   ⟨0xfe, 0x3c, fun b => .data (lengthByBit 1 b)⟩,  -- 0011110w
   ⟨0xf0, 0x70, fun _ => .data 1⟩,  -- 0111xxxx
   ⟨0xfc, 0xe0, fun _ => .data 1⟩]  -- 111000xx

/-- The layout behind a first byte of the table. -/
def layout? (b : UInt8) : Option Layout :=
  (opcodeTable.find? fun row => b &&& row.mask == row.bits).map (·.layout b)

/-- How many bytes of displacement a mod-reg-rm byte asks for. -/
def dispLength (b : UInt8) : Nat :=
  if b >>> 6 = 1 then 1 else if b >>> 6 = 2 ∨ b >>> 6 = 0 ∧ b &&& 7 = 6 then 2 else 0

/-- How decoding can end. -/
inductive Ending
  | tooShort
  | unknown
  | refused (why : Refusal)
  | accepted
  deriving DecidableEq

namespace Ending

/-- The end where `length` bytes are asked of the `rest`. -/
def ofLength (length : Nat) (rest : List UInt8) : Ending :=
  if rest.length < length then tooShort else accepted

def ofReg (l : Layout) (reg : UInt8) (rest : List UInt8) : Ending :=
  match l.refusal? reg with
  | some why => refused why
  | none => ofLength l.dataLength rest

theorem ofReg_of_mem {l : Layout} {accepted : List UInt8} {why : Refusal}
    (hl : l.regs = some (accepted, why)) {reg : UInt8} (hreg : reg ∈ accepted)
    (rest : List UInt8) : ofReg l reg rest = ofLength l.dataLength rest := by
  have hnone : l.refusal? reg = none := by
    rw [Layout.refusal?, hl]
    exact if_pos hreg
  rw [ofReg, hnone]

theorem ofReg_of_not_mem {l : Layout} {accepted : List UInt8} {why : Refusal}
    (hl : l.regs = some (accepted, why)) {reg : UInt8} (hreg : reg ∉ accepted)
    (rest : List UInt8) : ofReg l reg rest = refused why := by
  have hsome : l.refusal? reg = some why := by
    rw [Layout.refusal?, hl]
    exact if_neg hreg
  rw [ofReg, hsome]

/-- The end where a layout is asked of the bytes behind the first one. -/
def ofLayout (l : Layout) (rest : List UInt8) : Ending :=
  if l.hasModRm then
    match rest with
    | [] => tooShort
    | b :: rest =>
      if rest.length < dispLength b then tooShort
      else ofReg l ((b >>> 3) &&& 7) (rest.drop (dispLength b))
  else ofLength l.dataLength rest

end Ending

/-- How the decoding of these bytes ends. -/
def ending : List UInt8 → Ending
  | [] => .tooShort
  | b :: rest =>
    if b = 0x8c ∨ b = 0x8e then .refused .segmentMove
    else
      match layout? b with
      | none => .unknown
      | some l => .ofLayout l rest

/-- A read that starts where `r'` stands, of one byte or two, and runs past the end of the buffer
in which `r` stands. -/
structure Reader.Exceeds (r : Reader) (e : OutOfBounds) (r' : Reader) : Prop where
  length : e.length = r.length
  wanted : e.wanted = 1 ∨ e.wanted = 2
  position_le : e.position ≤ e.length
  length_lt : e.length < e.position + e.wanted
  position : r'.position = e.position

namespace Reading

variable {α β : Type} {n : Nat}

theorem Composed.exceeds {x : Reading Fault α} (h : Composed n x) {r r' : Reader}
    {e : OutOfBounds} (hx : x r = .error (.outOfBounds e) r') : r.Exceeds e r' := by
  induction h generalizing r with
  | pure a => cases hx
  | unknown => cases hx
  | refused why => cases hx
  | byte _ ih =>
    obtain ⟨position, rest⟩ := r
    cases rest with
    | nil =>
      cases hx
      exact ⟨rfl, .inl rfl, Nat.le_add_right _ _, Nat.lt_succ_self _, rfl⟩
    | cons b rest =>
      obtain ⟨hlength, hwanted, hle, hlt, hposition⟩ := ih b hx
      refine ⟨?_, hwanted, hle, hlt, hposition⟩
      rw [hlength]
      simp only [Reader.length, Reader.remaining, List.length_cons]
      omega
  | word _ ih =>
    obtain ⟨position, rest⟩ := r
    rcases rest with _ | ⟨lo, _ | ⟨hi, rest⟩⟩
    · cases hx
      exact ⟨rfl, .inr rfl, Nat.le_add_right _ _, Nat.lt_add_of_pos_right Nat.zero_lt_two, rfl⟩
    · cases hx
      exact ⟨rfl, .inr rfl, Nat.le_add_right _ _, Nat.lt_succ_self _, rfl⟩
    · obtain ⟨hlength, hwanted, hle, hlt, hposition⟩ := ih _ hx
      refine ⟨?_, hwanted, hle, hlt, hposition⟩
      rw [hlength]
      simp only [Reader.length, Reader.remaining, List.length_cons]
      omega

/-- The reading takes `n` bytes at once, or fails where there are fewer. -/
def AtOnce (n : Nat) (x : Reading Fault α) : Prop :=
  ∀ r : Reader,
    if r.rest.length < n then ∃ e, x r = .error (.outOfBounds e) r
    else ∃ a, x r = .ok a ⟨r.position + n, r.rest.drop n⟩

theorem atOnce_pure (a : α) : AtOnce 0 (pure a) := by
  intro r
  rw [if_neg (Nat.not_lt_zero _)]
  exact ⟨a, rfl⟩

theorem AtOnce.map {x : Reading Fault α} (hx : AtOnce n x) (g : α → β) :
    AtOnce n (x >>= fun a => pure (g a)) := by
  intro r
  have h := hx r
  split_ifs at h ⊢
  · obtain ⟨e, he⟩ := h
    refine ⟨e, ?_⟩
    simp only [Bind.bind, EStateM.bind, he]
  · obtain ⟨a, ha⟩ := h
    refine ⟨g a, ?_⟩
    simp only [Bind.bind, EStateM.bind, ha]
    rfl

theorem atOnce_byte : AtOnce 1 (liftM byte) := by
  rintro ⟨position, _ | ⟨b, rest⟩⟩
  · exact ⟨_, rfl⟩
  · exact ⟨b, rfl⟩

theorem atOnce_word : AtOnce 2 (liftM word) := by
  rintro ⟨position, _ | ⟨lo, _ | ⟨hi, rest⟩⟩⟩
  · exact ⟨_, rfl⟩
  · exact ⟨_, rfl⟩
  · exact ⟨_, rfl⟩

theorem atOnce_signedByte : AtOnce 1 (liftM signedByte) := by
  rw [signedByte, liftM_map]
  exact atOnce_byte.map _

theorem atOnce_immediate (wide : Bool) :
    AtOnce (if wide then 2 else 1) (liftM (immediate wide)) := by
  unfold immediate
  split_ifs
  · exact atOnce_word
  · rw [liftM_map]
    exact atOnce_byte.map _

end Reading

open Reading

theorem atOnce_readDisp (b : UInt8) : AtOnce (dispLength b) (readDisp (b >>> 6) (b &&& 7)) := by
  unfold readDisp dispLength
  split_ifs
  · exact atOnce_signedByte.map _
  · exact atOnce_word.map _
  · exact atOnce_pure _

theorem readModRm_bind_cons {α : Type} (f : ModRm → Reading Fault α) (position : Nat)
    (b : UInt8) (rest : List UInt8) :
    (readModRm >>= f) ⟨position, b :: rest⟩ =
      (readDisp (b >>> 6) (b &&& 7) >>= fun disp =>
        f ⟨b >>> 6, (b >>> 3) &&& 7, b &&& 7, disp⟩) ⟨position + 1, rest⟩ := by
  simp only [readModRm, bind_assoc, pure_bind, byte_bind_cons]

theorem atOnce_readGroupImmediate (signExtend wide : Bool) :
    AtOnce (if signExtend then 1 else if wide then 2 else 1)
      (readGroupImmediate signExtend wide) := by
  unfold readGroupImmediate
  cases wide <;> cases signExtend
  · exact atOnce_byte.map _
  · exact atOnce_byte.map _
  · exact atOnce_word
  · exact atOnce_signedByte.map _

namespace Ending

variable {α β : Type}

/-- How a reading has ended. -/
def ofResult : EStateM.Result Fault Reader α → Ending
  | .ok _ _ => accepted
  | .error (.outOfBounds _) _ => tooShort
  | .error .unknown _ => unknown
  | .error (.refused why) _ => refused why

theorem ofResult_data {n : Nat} {x : Reading Fault α} (hx : AtOnce n x) (g : α → β) (r : Reader) :
    ofResult ((x >>= fun a => pure (g a)) r) = ofLength n r.rest := by
  have h := hx.map g r
  unfold ofLength
  split_ifs at h ⊢ with hlt
  · obtain ⟨e, he⟩ := h
    rw [he, ofResult]
  · obtain ⟨a, ha⟩ := h
    rw [ha, ofResult]

/-- A reading that begins with a mod-reg-rm byte: what is done behind it may depend on the reg
field. -/
theorem ofResult_modRm {l : Layout} (hl : l.hasModRm = true) {f : ModRm → Reading Fault α}
    (hf : ∀ m r, ofResult (f m r) = ofReg l m.reg r.rest) (r : Reader) :
    ofResult ((readModRm >>= f) r) = ofLayout l r.rest := by
  obtain ⟨position, rest⟩ := r
  cases rest with
  | nil =>
    rw [ofLayout.eq_def, if_pos hl]
    rfl
  | cons b rest =>
    have hdisp := atOnce_readDisp b ⟨position + 1, rest⟩
    rw [readModRm_bind_cons, ofLayout.eq_def, if_pos hl]
    simp only [Bind.bind, EStateM.bind]
    split_ifs at hdisp ⊢ with hlt
    · obtain ⟨e, he⟩ := hdisp
      rw [he, ofResult]
    · obtain ⟨disp, hd⟩ := hdisp
      rw [hd, hf]

/-- A reading that begins with data. -/
theorem ofResult_ofLayout {l : Layout} (hl : l.hasModRm = false) {x : Reading Fault α}
    (hx : AtOnce l.dataLength x) (g : α → β) (r : Reader) :
    ofResult ((x >>= fun a => pure (g a)) r) = ofLayout l r.rest := by
  rw [ofResult_data hx, ofLayout.eq_def, hl, if_neg Bool.false_ne_true]

end Ending

/-- What follows the first byte of a family. -/
def Opcode.layout : Opcode → Layout
  | movRegMem _ _ | arithRegMem _ _ _ => .modRm
  | movImmToReg wide _ | arithImmToAcc _ wide => .data (if wide then 2 else 1)
  | movImmToRegMem wide => ⟨true, some ([0], .movExtension), if wide then 2 else 1⟩
  | movAccMem _ _ => .data 2
  | arithImmToRegMem signExtend wide =>
    ⟨true, some ([0, 5, 7], .arithExtension), if signExtend then 1 else if wide then 2 else 1⟩
  | jump _ => .data 1

open Ending

theorem ArithOp.ofCode?_eq_none_iff {code : UInt8} : ofCode? code = none ↔ code ∉ [0, 5, 7] := by
  unfold ofCode?
  split_ifs <;> simp_all

theorem Opcode.ofResult_readOperands (op : Opcode) (b : UInt8) (r : Reader) :
    ofResult (op.readOperands b r) = ofLayout op.layout r.rest := by
  cases op with
  | movRegMem toReg wide => exact ofResult_modRm rfl (fun m r => rfl) r
  | movImmToReg wide reg => exact ofResult_ofLayout rfl (atOnce_immediate wide) _ r
  | movImmToRegMem wide =>
    refine ofResult_modRm rfl (fun m r => ?_) r
    by_cases hreg : m.reg = 0
    · rw [ofReg_of_mem rfl (List.mem_singleton.2 hreg), if_pos hreg]
      exact ofResult_data (atOnce_immediate wide) _ r
    · rw [ofReg_of_not_mem rfl (mt List.mem_singleton.1 hreg), if_neg hreg]
      rfl
  | movAccMem toMem wide => exact ofResult_ofLayout rfl atOnce_word _ r
  | arithImmToRegMem signExtend wide =>
    refine ofResult_modRm rfl (fun m r => ?_) r
    cases hcode : ArithOp.ofCode? m.reg with
    | none =>
      rw [ofReg_of_not_mem rfl (ArithOp.ofCode?_eq_none_iff.1 hcode)]
      rfl
    | some op =>
      have hreg : m.reg ∈ [0, 5, 7] := by
        rw [ArithOp.ofCode?_eq_some hcode]
        cases op <;> decide
      rw [ofReg_of_mem rfl hreg]
      exact ofResult_data (atOnce_readGroupImmediate signExtend wide) _ r
  | arithRegMem op toReg wide => exact ofResult_modRm rfl (fun m r => rfl) r
  | arithImmToAcc op wide => exact ofResult_ofLayout rfl (atOnce_immediate wide) _ r
  | jump opcode => exact ofResult_ofLayout rfl atOnce_signedByte _ r

def OpcodeClass.refusal? : OpcodeClass → Option Refusal
  | refused why => some why
  | family _ | unknown => none

/-- The table has the first bytes of the families and no others. -/
theorem layout?_eq : ∀ b : UInt8, layout? b = (Opcode.ofByte b).family?.map Opcode.layout := by
  decide +kernel

theorem refusal?_ofByte : ∀ b : UInt8, (Opcode.ofByte b).refusal? =
    if b = 0x8c ∨ b = 0x8e then some .segmentMove else none := by
  decide +kernel

theorem ofResult_decodeBody (r : Reader) : ofResult (decodeBody r) = ending r.rest := by
  obtain ⟨position, rest⟩ := r
  cases rest with
  | nil => rfl
  | cons b rest =>
    have hrefusal := refusal?_ofByte b
    rw [decodeBody, byte_bind_cons, ending.eq_def]
    dsimp only
    rw [layout?_eq]
    cases hc : Opcode.ofByte b with
    | family op =>
      rw [hc] at hrefusal
      split_ifs at hrefusal ⊢
      · cases hrefusal
      · exact op.ofResult_readOperands b ⟨position + 1, rest⟩
    | refused why =>
      rw [hc] at hrefusal
      split_ifs at hrefusal ⊢
      · cases hrefusal
        rfl
      · cases hrefusal
    | unknown =>
      rw [hc] at hrefusal
      split_ifs at hrefusal ⊢
      · cases hrefusal
      · rfl

/-- The outcome of a decoder that ends so, with the bytes or the place that an error shows. -/
def Ending.Shows (r : Reader) : Ending → EStateM.Result DecodeError Reader Instruction → Prop
  | tooShort, .error (.outOfBounds e) r' => r.Exceeds e r'
  | unknown, .error (.unknown bytes) _ => bytes = r.rest.take (min 4 r.remaining)
  | refused why, .error (.invalid bytes why') _ =>
    bytes = r.rest.take (min 4 r.remaining) ∧ why' = why
  | accepted, .ok _ _ => True
  | _, _ => False

/-- The bytes ahead decide how decoding ends. -/
theorem decode_ending (r : Reader) : (ending r.rest).Shows r (decode r) := by
  have hending := ofResult_decodeBody r
  have hbytes : r.peek reportLength = r.rest.take (min 4 r.remaining) := by
    rw [Reader.peek, reportLength, Reader.remaining, ← List.take_take, List.take_length]
  rw [decode, ← hending]
  cases hd : decodeBody r with
  | ok i r' => exact trivial
  | error fault r' =>
    cases fault with
    | outOfBounds e => exact composed_decodeBody.exceeds hd
    | unknown => exact hbytes
    | refused why => exact ⟨hbytes, rfl⟩

/-- A missing displacement comes before a refused reg field, and that before a missing immediate. -/
example : ending [0xc6, 0x48] = .tooShort ∧ ending [0xc6, 0x08] = .refused .movExtension := by
  decide

end Machine86
