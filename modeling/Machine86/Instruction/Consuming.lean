import Machine86.Instruction.Decode
import Machine86.Reader.Consuming

/-!
# Decoding consumes what it decodes

Every part of the decoder passes over the bytes that it reads, so a decoded instruction leaves
fewer bytes ahead than there were: `decode_shorter`.
-/

namespace Machine86

open Reading

theorem consuming_lift {α : Type} {x : Reading OutOfBounds α} (hx : Consuming x) :
    Consuming (liftM x : Reading Fault α) :=
  hx.adaptExcept _

theorem consuming_readDisp (mode rm : UInt8) : Consuming (readDisp mode rm) := by
  unfold readDisp
  split
  · exact (consuming_lift consuming_signedByte).bind fun _ => .pure _
  · split
    · exact (consuming_lift consuming_word).bind fun _ => .pure _
    · exact .pure _

theorem consuming_readModRm : Consuming readModRm :=
  (consuming_lift consuming_byte).bind fun _ => (consuming_readDisp _ _).bind fun _ => .pure _

theorem consuming_readGroupImmediate (signExtend wide : Bool) :
    Consuming (readGroupImmediate signExtend wide) := by
  unfold readGroupImmediate
  split
  · split
    · exact (consuming_lift consuming_signedByte).bind fun _ => .pure _
    · exact consuming_lift consuming_word
  · exact (consuming_lift consuming_byte).bind fun _ => .pure _

theorem Opcode.consuming_readOperands (b : UInt8) (op : Opcode) :
    Consuming (op.readOperands b) := by
  cases op with
  | movRegMem => exact consuming_readModRm.bind fun _ => .pure _
  | movImmToReg wide => exact (consuming_lift (consuming_immediate wide)).bind fun _ => .pure _
  | movImmToRegMem wide =>
    refine consuming_readModRm.bind fun m => ?_
    split
    · exact (consuming_lift (consuming_immediate wide)).bind fun _ => .pure _
    · exact .throw _
  | movAccMem => exact (consuming_lift consuming_word).bind fun _ => .pure _
  | arithImmToRegMem signExtend wide =>
    refine consuming_readModRm.bind fun m => ?_
    split
    · exact .throw _
    · exact (consuming_readGroupImmediate signExtend wide).bind fun _ => .pure _
  | arithRegMem => exact consuming_readModRm.bind fun _ => .pure _
  | arithImmToAcc _ wide => exact (consuming_lift (consuming_immediate wide)).bind fun _ => .pure _
  | jump => exact (consuming_lift consuming_signedByte).bind fun _ => .pure _

theorem OpcodeClass.consuming_readRest (b : UInt8) (c : OpcodeClass) :
    Consuming (c.readRest b) := by
  cases c with
  | family op => exact op.consuming_readOperands b
  | refused why => exact .throw _
  | unknown => exact .throw _

theorem decode_eq_ok {r r' : Reader} {i : Instruction} (h : decode r = .ok i r') :
    decodeBody r = .ok i r' := by
  unfold decode at h
  split at h
  · cases h
    assumption
  · cases h

/-- A decoded instruction leaves fewer bytes ahead than there were. -/
theorem decode_shorter {r r' : Reader} {i : Instruction} (h : decode r = .ok i r') :
    r'.rest.length < r.rest.length := by
  have h := decode_eq_ok h
  obtain ⟨position, rest⟩ := r
  cases rest with
  | nil => cases h
  | cons b rest =>
    have hrest := (Opcode.ofByte b).consuming_readRest b (r := ⟨position + 1, rest⟩) h
    obtain ⟨used, hrest, -⟩ := hrest
    have hlen := congrArg List.length hrest
    simp only [List.length_append] at hlen
    simp only [List.length_cons]
    omega

end Machine86
