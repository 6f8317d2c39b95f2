import Machine86.Proofs.Replay

/-!
# Look-ups by number

Registers, base addresses and mnemonics stand in tables, and the numbers that they are found by are
bits of an instruction, whose fields may have any values. `Checked` makes the text of an instruction
and executes it with the bytes of the fields as they are, where a look-up brings nothing if its
number lies outside of the table. What is masked never does, so every instruction has a text and can
be executed on every machine (`Checked.text_eq`, `Checked.exec_eq`). Every snapshot has
a dump, and a listing can be shown where its traces name registers that exist (`Checked.dump_eq`,
`Checked.renderListing_eq`).
-/

namespace Machine86

section Masks

theorem toNat_and_mask {mask : UInt8} {k : Nat} (h : mask.toNat = 2 ^ k - 1) (b : UInt8) :
    (b &&& mask).toNat = b.toNat % 2 ^ k := by
  rw [UInt8.toNat_and, h, Nat.and_two_pow_sub_one_eq_mod]

theorem toNat_and_seven (b : UInt8) : (b &&& 7).toNat = (Fin.ofNat 8 b.toNat).val :=
  toNat_and_mask (k := 3) rfl b

theorem lookup_eq {α : Type} {n : Nat} (table : Vector α n) (i : Fin n) :
    table[i.val]? = some (table.get i) := by
  rw [get_eq_getElem]
  exact Vector.getElem?_eq_getElem i.isLt

theorem toNat_ofNat_val (i : Fin 8) : (UInt8.ofNat i.val).toNat = i.val := by
  rw [UInt8.toNat_ofNat', Nat.mod_eq_of_lt (by omega)]

end Masks

namespace Checked

/-- A register by a number, which may be too large. -/
structure Register where
  index : UInt8
  wide : Bool
  deriving Repr, DecidableEq

namespace Register

def new (field : UInt8) (wide : Bool) : Register := ⟨field &&& 7, wide⟩

def name (r : Register) : Option String :=
  if r.wide then Machine86.Register.wordNames[r.index.toNat]?
  else Machine86.Register.byteNames[r.index.toNat]?

def of (r : Machine86.Register) : Register := ⟨UInt8.ofNat r.index.val, r.wide⟩

theorem new_eq (field : UInt8) (wide : Bool) : new field wide = of (.ofField field wide) := by
  rw [new, of, Register.mk.injEq]
  refine ⟨UInt8.toNat.inj ?_, rfl⟩
  rw [toNat_and_seven, toNat_ofNat_val, Machine86.Register.ofField]

theorem name_of (r : Machine86.Register) : (of r).name = some r.name := by
  rw [name, of, toNat_ofNat_val, lookup_eq, lookup_eq, Machine86.Register.name]
  split_ifs <;> rfl

-- without the mask there would be no name
example : name ⟨8, true⟩ = none := rfl

end Register

/-- An operand by the numbers of its register or its base. -/
inductive Operand
  | register (r : Register)
  | memory (base : Option UInt8) (disp : Int16)
  deriving Repr, DecidableEq

namespace Operand

/-- The operand that an rm field names. The mode and the field are compared as they are. -/
def resolve (m : ModRm) (wide : Bool) : Operand :=
  if m.mode == 3 then register (.new m.rm wide)
  else if m.mode == 0 && m.rm == 6 then memory none m.disp
  else memory (some (m.rm &&& 7)) m.disp

def direct (address : UInt16) : Operand := memory none address.toInt16

def isMemory : Operand → Bool
  | register _ => false
  | memory _ _ => true

def addressText (base : String) (disp : Int16) : String :=
  if disp = 0 then "[" ++ base ++ "]"
  else if disp < 0 then "[" ++ base ++ " - " ++ Numeral.decimal disp.toInt.natAbs ++ "]"
  else "[" ++ base ++ " + " ++ Numeral.decimal disp.toInt.natAbs ++ "]"

def text : Operand → Option String
  | register r => r.name
  | memory none disp => some ("[" ++ Numeral.decimal disp.toUInt16.toNat ++ "]")
  | memory (some base) disp => do
    let name ← baseNames[base.toNat]?
    return addressText name disp

def of : Machine86.Operand → Operand
  | .register r => register (.of r)
  | .memory base disp => memory (base.map fun i => UInt8.ofNat i.val) disp

theorem resolve_eq (m : ModRm) (wide : Bool) : resolve m wide = of (m.operand wide) := by
  unfold resolve ModRm.operand ModRm.isRegister ModRm.isDirectAddress
  split_ifs
  · rw [of, Register.new_eq]
  · rfl
  · rw [of, Option.map_some, memory.injEq, Option.some.injEq]
    refine ⟨UInt8.toNat.inj ?_, rfl⟩
    rw [toNat_and_seven, toNat_ofNat_val]

theorem text_of (o : Machine86.Operand) : (of o).text = some o.text := by
  rcases o with r | ⟨_ | base, disp⟩
  · exact Register.name_of r
  · rfl
  · rw [of, Option.map_some, text, toNat_ofNat_val, lookup_eq]
    rfl

theorem isMemory_of (o : Machine86.Operand) : (of o).isMemory = o.isMemory := by
  cases o <;> rfl

end Operand

/-- The value that an operation takes, by the numbers in its operand. -/
inductive Source
  | operand (o : Operand)
  | number (n : Int)
  deriving Repr, DecidableEq

def Source.of : Machine86.Source → Source
  | .operand o => operand (.of o)
  | .number n => number n

/-- An operation by the numbers in its operands and the opcode of its jump. -/
inductive Operation
  | mov (dst : Operand) (src : Source) (wide : Bool)
  | arith (op : ArithOp) (dst : Operand) (src : Source) (wide : Bool)
  | jump (opcode : UInt8) (inc : Int8)
  deriving Repr, DecidableEq

def destinationSource (reg : UInt8) (rm : Operand) (toReg wide : Bool) : Operand × Operand :=
  let register := .register (.new reg wide)
  if toReg then (register, rm) else (rm, register)

def movOperation (a : Mov) : Operation :=
  let rm := Operand.resolve a.modRm a.wide
  match a.form with
  | .regMem =>
    let (dst, src) := destinationSource a.modRm.reg rm a.toReg a.wide
    .mov dst (.operand src) a.wide
  | .immToReg => .mov (.register (.new a.modRm.reg a.wide)) (.number a.data.toNat) a.wide
  | .immToRegMem => .mov rm (.number a.data.toNat) a.wide
  | .memToAcc => .mov (.register (.new 0 a.wide)) (.operand (.direct a.data)) a.wide
  | .accToMem => .mov (.direct a.data) (.operand (.register (.new 0 a.wide))) a.wide

def arithOperation (a : Arith) : Operation :=
  let rm := Operand.resolve a.modRm a.wide
  match a.form with
  | .regMem =>
    let (dst, src) := destinationSource a.modRm.reg rm a.toReg a.wide
    .arith a.op dst (.operand src) a.wide
  | .immToRegMem => .arith a.op rm (.number a.number) a.wide
  | .immToAcc => .arith a.op (.register (.new 0 a.wide)) (.number a.number) a.wide

def operation : Instruction → Operation
  | .mov a => movOperation a
  | .arith a => arithOperation a
  | .jump j => .jump j.opcode j.inc

theorem destinationSource_eq (reg : UInt8) (rm : Machine86.Operand) (toReg wide : Bool) :
    destinationSource reg (.of rm) toReg wide =
      (.of (Machine86.destinationSource reg rm toReg wide).1,
        .of (Machine86.destinationSource reg rm toReg wide).2) := by
  rw [destinationSource, Register.new_eq]
  cases toReg <;> rfl

/-- The numbers in a move are those of the operands that it has. -/
theorem exists_movOperation (a : Mov) : ∃ dst src, a.operation = .mov dst src a.wide ∧
    movOperation a = .mov (.of dst) (.of src) a.wide := by
  unfold movOperation Mov.operation
  simp only [Operand.resolve_eq, Register.new_eq, destinationSource_eq]
  cases a.form <;> exact ⟨_, _, rfl, rfl⟩

theorem exists_arithOperation (a : Arith) : ∃ dst src, a.operation = .arith a.op dst src a.wide ∧
    arithOperation a = .arith a.op (.of dst) (.of src) a.wide := by
  unfold arithOperation Arith.operation
  simp only [Operand.resolve_eq, Register.new_eq, destinationSource_eq]
  cases a.form <;> exact ⟨_, _, rfl, rfl⟩

section Text

def arithNames : Vector String 3 := #v["add", "sub", "cmp"]

def arithMnemonic (op : ArithOp) : Option String :=
  match op with
  | .add => arithNames[0]?
  | .sub => arithNames[1]?
  | .cmp => arithNames[2]?

def jumpMnemonic (opcode : UInt8) : Option String :=
  if opcode >>> 4 = 7 then Branch.flagNames[(opcode &&& 15).toNat]?
  else Branch.countNames[(opcode &&& 3).toNat]?

/-- The destination and the source, with the keyword for the width before the one of them that it
belongs to. -/
def movText (dst : Operand) (wide : Bool) : Source → Option String
  | .operand src => do return "mov " ++ (← dst.text) ++ ", " ++ (← src.text)
  | .number n =>
    if dst.isMemory then do
      return "mov " ++ (← dst.text) ++ ", " ++ widthKeyword wide ++ " " ++ Numeral.signed n
    else do return "mov " ++ (← dst.text) ++ ", " ++ Numeral.signed n

def arithText (op : ArithOp) (dst : Operand) (wide : Bool) : Source → Option String
  | .operand src => do return (← arithMnemonic op) ++ " " ++ (← dst.text) ++ ", " ++ (← src.text)
  | .number n =>
    if dst.isMemory then do
      return (← arithMnemonic op) ++ " " ++ widthKeyword wide ++ " " ++ (← dst.text) ++ ", " ++
        Numeral.signed n
    else do return (← arithMnemonic op) ++ " " ++ (← dst.text) ++ ", " ++ Numeral.signed n

def text (i : Instruction) : Option String :=
  match operation i with
  | .mov dst src wide => movText dst wide src
  | .arith op dst src wide => arithText op dst wide src
  | .jump opcode inc => do return (← jumpMnemonic opcode) ++ " $+2" ++ Numeral.signedPlus inc.toInt

theorem arithMnemonic_eq (op : ArithOp) : arithMnemonic op = some op.mnemonic := by
  cases op <;> rfl

theorem jumpMnemonic_eq (opcode : UInt8) :
    jumpMnemonic opcode = some (Branch.ofOpcode opcode).mnemonic := by
  unfold jumpMnemonic Branch.ofOpcode
  split_ifs
  · rw [toNat_and_mask (k := 4) rfl]
    exact lookup_eq Branch.flagNames (Fin.ofNat 16 opcode.toNat)
  · rw [toNat_and_mask (k := 2) rfl]
    exact lookup_eq Branch.countNames (Fin.ofNat 4 opcode.toNat)

theorem movText_of (dst : Machine86.Operand) (src : Machine86.Source) (wide : Bool) :
    movText (.of dst) wide (.of src) = some (Machine86.Operation.movText dst wide src) := by
  cases src with
  | operand src =>
    simp only [Source.of, movText, Operand.text_of]
    rfl
  | number n =>
    simp only [Source.of, movText, Operand.text_of, Operand.isMemory_of,
      Machine86.Operation.movText]
    split_ifs <;> rfl

theorem arithText_of (op : ArithOp) (dst : Machine86.Operand) (src : Machine86.Source)
    (wide : Bool) :
    arithText op (.of dst) wide (.of src) = some (Machine86.Operation.arithText op dst wide src) := by
  cases src with
  | operand src =>
    simp only [Source.of, arithText, Operand.text_of, arithMnemonic_eq]
    rfl
  | number n =>
    simp only [Source.of, arithText, Operand.text_of, Operand.isMemory_of, arithMnemonic_eq,
      Machine86.Operation.arithText]
    split_ifs <;> rfl

/-- Every instruction has a text, whatever its fields are. -/
theorem text_eq (i : Instruction) : text i = some i.text := by
  rw [text, Instruction.text]
  cases i with
  | mov a =>
    obtain ⟨dst, src, hoperation, hchecked⟩ := exists_movOperation a
    rw [operation, hchecked, Instruction.operation, hoperation]
    exact movText_of dst src a.wide
  | arith a =>
    obtain ⟨dst, src, hoperation, hchecked⟩ := exists_arithOperation a
    rw [operation, hchecked, Instruction.operation, hoperation]
    exact arithText_of a.op dst src a.wide
  | jump j =>
    rw [operation]
    dsimp only
    rw [jumpMnemonic_eq]
    rfl

end Text

section Execution

/-- A vector with another item at a place that it has. -/
def update {α : Type} {n : Nat} (xs : Vector α n) (i : Nat) (a : α) : Option (Vector α n) :=
  if h : i < n then some (xs.set i a h) else none

def reg (m : Machine) (r : Register) : Option UInt16 :=
  if r.wide then m.regs[r.index.toNat]?
  else do
    let word ← m.regs[r.index.toNat % 4]?
    return if r.index.toNat < 4 then word &&& 0xff else word >>> 8

def setReg (m : Machine) (r : Register) (value : UInt16) : Option Machine :=
  if r.wide then do return { m with regs := ← update m.regs r.index.toNat value }
  else do
    let word ← m.regs[r.index.toNat % 4]?
    let merged := if r.index.toNat < 4 then (word &&& 0xff00) ||| (value &&& 0xff)
      else (word &&& 0xff) ||| (value <<< (8 : UInt16))
    return { m with regs := ← update m.regs (r.index.toNat % 4) merged }

def source (m : Machine) : Source → Option (Option UInt16)
  | .number n => some (some (UInt16.ofInt n))
  | .operand (.register r) => do return some (← reg m r)
  | .operand (.memory _ _) => some none

/-- Whether a jump is taken. The name of one that never is goes to the log. -/
def taken (flags : Flags) (opcode : UInt8) : Option Bool :=
  if opcode = 0x74 then some flags.zero
  else if opcode = 0x75 then some (!flags.zero)
  else do
    let _ ← jumpMnemonic opcode
    return false

/-- The machine after an operation; within, none where an operand is in memory. -/
def perform (m : Machine) : Operation → Option (Option Machine)
  | .mov (.register dst) src _ => do
    match ← source m src with
    | some value => return some (← setReg m dst value)
    | none => return none
  | .arith op (.register dst) src _ => do
    match ← source m src with
    | some value =>
      let result := op.apply (← reg m dst) value
      let written ← if op.writes then setReg m dst result else some m
      return some (written.setResultFlags result)
    | none => return none
  | .mov (.memory _ _) _ _ | .arith _ (.memory _ _) _ _ => some none
  | .jump opcode inc => do
    if ← taken m.flags opcode then return some { m with ip := m.ip + inc.toInt16.toUInt16 }
    else return some m

def exec (i : Instruction) (address : UInt16) (m : Machine) :
    Option (EStateM.Result Trap Machine Unit) := do
  match ← perform m (operation i) with
  | some m' => return .ok () m'
  | none => return .error (.unsupported address (← text i)) m

variable (m : Machine)

theorem update_eq {α : Type} {n : Nat} (xs : Vector α n) (i : Fin n) (a : α) :
    update xs i.val a = some (xs.set i.val a i.isLt) := dif_pos i.isLt

theorem reg_of (r : Machine86.Register) : reg m (.of r) = some (m.reg r) := by
  obtain ⟨index, wide⟩ := r
  have hword : ∀ wide, m.regs[(Machine.wordIndex ⟨index, wide⟩).val]? = _ :=
    fun wide => lookup_eq m.regs (Machine.wordIndex ⟨index, wide⟩)
  rw [reg, Register.of, toNat_ofNat_val]
  cases wide with
  | true => exact hword true
  | false =>
    dsimp only
    rw [if_neg Bool.false_ne_true, show m.regs[index.val % 4]? = _ from hword false]
    rfl

theorem setReg_of (r : Machine86.Register) (value : UInt16) :
    setReg m (.of r) value = some (m.setReg r value) := by
  obtain ⟨index, wide⟩ := r
  have hupdate : ∀ wide word, update m.regs (Machine.wordIndex ⟨index, wide⟩).val word = _ :=
    fun wide word => update_eq m.regs (Machine.wordIndex ⟨index, wide⟩) word
  rw [setReg, Register.of, toNat_ofNat_val]
  cases wide with
  | true =>
    dsimp only
    rw [if_pos rfl, show update m.regs index.val value = _ from hupdate true value]
    rfl
  | false =>
    have hword : m.regs[index.val % 4]? = _ :=
      lookup_eq m.regs (Machine.wordIndex ⟨index, false⟩)
    dsimp only
    rw [if_neg Bool.false_ne_true, hword]
    dsimp only [Option.bind_eq_bind, Option.bind_some]
    rw [show update m.regs (index.val % 4) _ = _ from hupdate false _]
    rfl

theorem source_of (src : Machine86.Source) : source m (.of src) = some (m.source? src) := by
  rcases src with (r | ⟨base, disp⟩) | n
  · rw [Source.of, Operand.of, source, reg_of]
    rfl
  · rfl
  · rfl

theorem taken_eq (flags : Flags) (opcode : UInt8) :
    taken flags opcode = some ((Branch.ofOpcode opcode).taken flags) := by
  have htaken := Jump.taken_ofOpcode_iff ⟨opcode, 0⟩ flags
  unfold taken
  rw [jumpMnemonic_eq]
  split_ifs with hjz hjnz
  · rw [Option.some.injEq, Bool.eq_iff_iff, htaken, Jump.Taken]
    simp [hjz]
  · rw [Option.some.injEq, Bool.eq_iff_iff, htaken, Jump.Taken]
    simp [hjnz]
  · have hnever : (Branch.ofOpcode opcode).taken flags = false := by
      rw [← Bool.not_eq_true, htaken, Jump.Taken]
      simp [hjz, hjnz]
    rw [hnever]
    rfl

theorem perform_mov (dst : Machine86.Operand) (src : Machine86.Source) (wide : Bool) :
    perform m (.mov (.of dst) (.of src) wide) = some (m.perform? (.mov dst src wide)) := by
  cases dst with
  | memory base disp => rfl
  | register r =>
    rw [Operand.of, perform, source_of, Machine.perform?]
    cases m.source? src with
    | none => rfl
    | some value =>
      dsimp only [Option.bind_eq_bind, Option.bind_some]
      rw [setReg_of]
      rfl

theorem perform_arith (op : ArithOp) (dst : Machine86.Operand) (src : Machine86.Source)
    (wide : Bool) :
    perform m (.arith op (.of dst) (.of src) wide) = some (m.perform? (.arith op dst src wide)) := by
  cases dst with
  | memory base disp => rfl
  | register r =>
    rw [Operand.of, perform, source_of, Machine.perform?]
    cases m.source? src with
    | none => rfl
    | some value =>
      dsimp only [Option.bind_eq_bind, Option.bind_some]
      rw [reg_of]
      dsimp only [Option.bind_some]
      rw [setReg_of]
      cases op.writes <;> rfl

theorem perform_eq (i : Instruction) : perform m (operation i) = some (m.perform? i.operation) := by
  cases i with
  | mov a =>
    obtain ⟨dst, src, hoperation, hchecked⟩ := exists_movOperation a
    rw [operation, hchecked, Instruction.operation, hoperation]
    exact perform_mov m dst src a.wide
  | arith a =>
    obtain ⟨dst, src, hoperation, hchecked⟩ := exists_arithOperation a
    rw [operation, hchecked, Instruction.operation, hoperation]
    exact perform_arith m a.op dst src a.wide
  | jump j =>
    rw [operation, perform, taken_eq, Instruction.operation, Jump.operation, Machine.perform?]
    cases (Branch.ofOpcode j.opcode).taken m.flags <;> rfl

/-- Every instruction can be executed or refused on every machine, whatever its fields are. -/
theorem exec_eq (i : Instruction) (address : UInt16) :
    exec i address m = some (Machine.exec i address m) := by
  rw [exec, perform_eq, Machine.exec_eq, text_eq]
  cases m.perform? i.operation <;> rfl

end Execution

section Rendering

def changeText (c : RegChange) : Option String := do
  let name ← Machine86.Register.wordNames[c.index.toNat]?
  return name ++ ":" ++ Numeral.prefixedHex c.old.toNat ++ "->" ++
    Numeral.prefixedHex c.new.toNat ++ " "

def traceText (t : Trace) : Option String := do
  let regs ← t.regs.mapM changeText
  return String.join regs ++ "ip:" ++ Numeral.prefixedHex t.ip.1.toNat ++ "->" ++
    Numeral.prefixedHex t.ip.2.toNat ++
    match t.flags with
    | none => ""
    | some (old, new) => " flags:" ++ old.mark ++ "->" ++ new.mark

/-- The order in which a dump lists the registers, by their numbers. -/
def dumpOrder : List Nat := [0, 3, 1, 2, 4, 5, 6, 7]

/-- The row of a register in a dump, which it has if it is not zero. -/
def dumpRow (s : Snapshot) (index : Nat) : Option String := do
  let value ← s.regs[index]?
  if value != 0 then return Snapshot.dumpLine (← Machine86.Register.wordNames[index]?) value
  else return ""

def dump (s : Snapshot) : Option String := do
  let rows ← dumpOrder.mapM (dumpRow s)
  return "Final registers:\n" ++ String.join rows ++ Snapshot.dumpLine "ip" s.ip ++ s.dumpFlags

/-- The comment behind the line of a step. -/
def comment : Option Trace → Option String
  | none => some ""
  | some t => do return " ; " ++ (← traceText t)

def render (s : Step) (config : Config) : Option String := do
  let comment ← comment s.trace
  return (if config.debug then "; " ++ s.instruction.structureText ++ "\n" else "") ++ s.text ++
    comment

/-- What stands behind the lines of a listing. -/
def stateText : Option Snapshot → Option String
  | none => some ""
  | some s => do return "\n" ++ (← dump s)

def renderListing (l : Listing) (config : Config) : Option String := do
  let lines ← l.steps.mapM (render · config)
  let state ← stateText l.finalState
  return listingOf lines ++ state

/-- The registers of a trace exist. -/
def Shown (t : Trace) : Prop := ∀ c ∈ t.regs, c.index.toNat < 8

theorem mapM_eq_some {α β : Type} {f : α → Option β} {g : α → β} {xs : List α}
    (h : ∀ x ∈ xs, f x = some (g x)) : xs.mapM f = some (xs.map g) := by
  induction xs with
  | nil => rfl
  | cons x xs ih =>
    obtain ⟨hx, hxs⟩ := List.forall_mem_cons.1 h
    rw [List.mapM_cons, hx, ih hxs]
    rfl

theorem changeText_eq {c : RegChange} (h : c.index.toNat < 8) : changeText c = some c.text := by
  have hindex : c.index.toNat = (Fin.ofNat 8 c.index.toNat).val := (Nat.mod_eq_of_lt h).symm
  rw [changeText, hindex, lookup_eq]
  rfl

theorem shown_between (before after : Snapshot) : Shown (.between before after) :=
  fun _ => Trace.index_lt_of_mem_between

theorem traceText_eq {t : Trace} (h : Shown t) : traceText t = some t.text := by
  rw [traceText, mapM_eq_some fun c hc => changeText_eq (h c hc)]
  rfl

/-- The row of a register in a dump, or nothing. -/
def rowText (s : Snapshot) (r : Machine86.Register) : String :=
  if s.regs.get r.index != 0 then Snapshot.dumpLine r.name (s.regs.get r.index) else ""

theorem dumpRow_eq (s : Snapshot) {r : Machine86.Register} (h : r.wide = true) :
    dumpRow s r.index.val = some (rowText s r) := by
  rw [dumpRow, lookup_eq, lookup_eq, rowText, Machine86.Register.name, if_pos h]
  dsimp only [Option.bind_eq_bind, Option.bind_some]
  split_ifs <;> rfl

/-- Rows that are empty add nothing to a dump. -/
theorem join_rowText (s : Snapshot) (rs : List Machine86.Register) :
    String.join (rs.map (rowText s)) = String.join ((rs.filter fun r => s.regs.get r.index != 0).map
      fun r => Snapshot.dumpLine r.name (s.regs.get r.index)) := by
  induction rs with
  | nil => rfl
  | cons r rs ih =>
    rw [List.map_cons, String.join_cons, ih, rowText]
    split_ifs with hr
    · rw [List.filter_cons_of_pos (by exact hr), List.map_cons, String.join_cons]
    · rw [List.filter_cons_of_neg (by exact hr), String.empty_append]

/-- Every snapshot has a dump. -/
theorem dump_eq (s : Snapshot) : dump s = some s.dump := by
  have horder : dumpOrder = Snapshot.dumpOrder.map fun r => r.index.val := rfl
  have hwide : ∀ r ∈ Snapshot.dumpOrder, r.wide = true := by decide
  have hrows : dumpOrder.mapM (dumpRow s) = some (Snapshot.dumpOrder.map (rowText s)) := by
    rw [horder, List.mapM_map]
    exact mapM_eq_some fun r hr => dumpRow_eq s (hwide r hr)
  rw [dump, hrows, Option.bind_eq_bind, Option.bind_some, join_rowText]
  rfl

theorem comment_eq {trace : Option Trace} (h : ∀ t ∈ trace, Shown t) :
    comment trace = some (trace.elim "" fun t => " ; " ++ t.text) := by
  cases trace with
  | none => rfl
  | some t =>
    rw [comment, traceText_eq (h t rfl)]
    rfl

theorem render_eq {s : Step} (h : ∀ t ∈ s.trace, Shown t) (config : Config) :
    render s config = some (s.render config) := by
  rw [render, comment_eq h, Step.render]
  cases s.trace <;> rfl

theorem stateText_eq (state : Option Snapshot) :
    stateText state = some (state.elim "" fun s => "\n" ++ s.dump) := by
  cases state with
  | none => rfl
  | some s =>
    rw [stateText, dump_eq]
    rfl

theorem renderListing_eq {l : Listing} (h : ∀ s ∈ l.steps, ∀ t ∈ s.trace, Shown t)
    (config : Config) : renderListing l config = some (l.render config) := by
  rw [renderListing, mapM_eq_some fun s hs => render_eq (h s hs) config, stateText_eq,
    Listing.render]
  cases l.finalState <;> rfl

end Rendering

end Checked

end Machine86
