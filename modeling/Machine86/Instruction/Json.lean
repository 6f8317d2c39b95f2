import Machine86.Instruction.Text
import Machine86.Json.Basic

/-!
# Instructions as JSON

An instruction is an object with one member, which names its kind and holds its fields. Reading
such an object back asks for every field, in the range of its type; other members are ignored. The
fields may also stand in an array, all of them and in the order in which they are written.
-/

namespace Machine86

namespace ModRm

def toJson (m : ModRm) : Json :=
  .object
    [("mode", .ofNat m.mode.toNat), ("reg", .ofNat m.reg.toNat), ("rm", .ofNat m.rm.toNat),
     ("disp", .number m.disp.toInt)]

def ofJson? (j : Json) : Option ModRm := do
  let j ← j.record? ["mode", "reg", "rm", "disp"]
  let mode ← (← j.member? "mode").uint8?
  let reg ← (← j.member? "reg").uint8?
  let rm ← (← j.member? "rm").uint8?
  let disp ← (← j.member? "disp").int16?
  return { mode, reg, rm, disp }

end ModRm

def MovForm.ofTag? (tag : String) : Option MovForm :=
  [MovForm.regMem, .immToReg, .immToRegMem, .memToAcc, .accToMem].find? (·.tag == tag)

def ArithForm.ofTag? (tag : String) : Option ArithForm :=
  [ArithForm.regMem, .immToRegMem, .immToAcc].find? (·.tag == tag)

def ArithOp.ofTag? (tag : String) : Option ArithOp :=
  [ArithOp.add, .sub, .cmp].find? (·.tag == tag)

namespace Mov

def toJson (m : Mov) : Json :=
  .object
    [("kind", .string m.form.tag), ("d", .bool m.toReg), ("w", .bool m.wide),
     ("fields", m.modRm.toJson), ("data", .ofNat m.data.toNat)]

def ofJson? (j : Json) : Option Mov := do
  let j ← j.record? ["kind", "d", "w", "fields", "data"]
  let form ← MovForm.ofTag? (← (← j.member? "kind").tag?)
  let toReg ← (← j.member? "d").bool?
  let wide ← (← j.member? "w").bool?
  let modRm ← ModRm.ofJson? (← j.member? "fields")
  let data ← (← j.member? "data").uint16?
  return { form, toReg, wide, modRm, data }

end Mov

namespace Arith

def toJson (a : Arith) : Json :=
  .object
    [("kind", .string a.form.tag), ("op", .string a.op.tag), ("d", .bool a.toReg),
     ("s", .bool a.signExtend), ("w", .bool a.wide), ("fields", a.modRm.toJson),
     ("data", .ofNat a.data.toNat), ("opcode", .ofNat a.opcode.toNat)]

def ofJson? (j : Json) : Option Arith := do
  let j ← j.record? ["kind", "op", "d", "s", "w", "fields", "data", "opcode"]
  let form ← ArithForm.ofTag? (← (← j.member? "kind").tag?)
  let op ← ArithOp.ofTag? (← (← j.member? "op").tag?)
  let toReg ← (← j.member? "d").bool?
  let signExtend ← (← j.member? "s").bool?
  let wide ← (← j.member? "w").bool?
  let modRm ← ModRm.ofJson? (← j.member? "fields")
  let data ← (← j.member? "data").uint16?
  let opcode ← (← j.member? "opcode").uint8?
  return { form, op, toReg, signExtend, wide, modRm, data, opcode }

end Arith

namespace Jump

def toJson (j : Jump) : Json :=
  .object [("opcode", .ofNat j.opcode.toNat), ("inc", .number j.inc.toInt)]

def ofJson? (j : Json) : Option Jump := do
  let j ← j.record? ["opcode", "inc"]
  let opcode ← (← j.member? "opcode").uint8?
  let inc ← (← j.member? "inc").int8?
  return { opcode, inc }

end Jump

namespace Instruction

def toJson : Instruction → Json
  | mov m => .object [("Mov", m.toJson)]
  | arith a => .object [("Arithmetic", a.toJson)]
  | jump j => .object [("JumpOrLoop", j.toJson)]

def ofJson? : Json → Option Instruction
  | .object [("Mov", j)] => mov <$> Mov.ofJson? j
  | .object [("Arithmetic", j)] => arith <$> Arith.ofJson? j
  | .object [("JumpOrLoop", j)] => jump <$> Jump.ofJson? j
  | _ => none

end Instruction

end Machine86
