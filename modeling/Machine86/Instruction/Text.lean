import Machine86.Instruction.Operation
import Machine86.Text.Record

/-!
# The text of an instruction

`Instruction.text` is the line of assembly: the mnemonic, the destination and the source. Where
the destination is in memory and the source is a number, a keyword gives the width; it stands
before the number of a move and before the destination of an arithmetic operation. A jump is
written relative to its own start, which an assembler calls `$`, and is two bytes long.

`Instruction.structureText` shows an instruction with its fields.
-/

namespace Machine86

def widthKeyword (wide : Bool) : String := if wide then "word" else "byte"

namespace Operation

def movText (dst : Operand) (wide : Bool) : Source → String
  | .operand src => "mov " ++ dst.text ++ ", " ++ src.text
  | .number n =>
    if dst.isMemory then "mov " ++ dst.text ++ ", " ++ widthKeyword wide ++ " " ++ Numeral.signed n
    else "mov " ++ dst.text ++ ", " ++ Numeral.signed n

def arithText (op : ArithOp) (dst : Operand) (wide : Bool) : Source → String
  | .operand src => op.mnemonic ++ " " ++ dst.text ++ ", " ++ src.text
  | .number n =>
    if dst.isMemory then
      op.mnemonic ++ " " ++ widthKeyword wide ++ " " ++ dst.text ++ ", " ++ Numeral.signed n
    else op.mnemonic ++ " " ++ dst.text ++ ", " ++ Numeral.signed n

def text : Operation → String
  | mov dst src wide => movText dst wide src
  | arith op dst src wide => arithText op dst wide src
  | jump branch inc => branch.mnemonic ++ " $+2" ++ Numeral.signedPlus inc.toInt

end Operation

namespace Instruction

def text (i : Instruction) : String := i.operation.text

end Instruction

open Record in
def ModRm.structureText (m : ModRm) : String :=
  record "CommonFields"
    [("mode", Numeral.decimal m.mode.toNat), ("reg", Numeral.decimal m.reg.toNat),
     ("rm", Numeral.decimal m.rm.toNat), ("disp", Numeral.signed m.disp.toInt)]

def MovForm.tag : MovForm → String
  | regMem => "RegMemToFromReg"
  | immToReg => "ImmToReg"
  | immToRegMem => "ImmToRegMem"
  | memToAcc => "MemToAcc"
  | accToMem => "AccToMem"

def ArithForm.tag : ArithForm → String
  | regMem => "RegMemWithReg"
  | immToRegMem => "ImmToRegMem"
  | immToAcc => "ImmToAcc"

def ArithOp.tag : ArithOp → String
  | add => "Add"
  | sub => "Sub"
  | cmp => "Cmp"

open Record in
def Mov.structureText (m : Mov) : String :=
  record "Mov"
    [("kind", m.form.tag), ("d", truth m.toReg), ("w", truth m.wide),
     ("fields", m.modRm.structureText), ("data", Numeral.decimal m.data.toNat)]

open Record in
def Arith.structureText (a : Arith) : String :=
  record "Arithmetic"
    [("kind", a.form.tag), ("op", a.op.tag), ("d", truth a.toReg), ("s", truth a.signExtend),
     ("w", truth a.wide), ("fields", a.modRm.structureText),
     ("data", Numeral.decimal a.data.toNat), ("opcode", Numeral.decimal a.opcode.toNat)]

open Record in
def Jump.structureText (j : Jump) : String :=
  record "JumpOrLoop"
    [("opcode", Numeral.decimal j.opcode.toNat), ("inc", Numeral.signed j.inc.toInt)]

def Instruction.structureText : Instruction → String
  | mov m => Record.variant "Mov" m.structureText
  | arith a => Record.variant "Arithmetic" a.structureText
  | jump j => Record.variant "JumpOrLoop" j.structureText

end Machine86
