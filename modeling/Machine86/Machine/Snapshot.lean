import Machine86.Machine.Basic
import Machine86.Json.Basic

/-!
# Snapshots and traces

A `Snapshot` is what a step can change as seen from outside: registers, flags and instruction
pointer. A `Trace` is the difference of two snapshots: the registers that changed, the pointer
before and after, and the flags if they changed.
-/

namespace Machine86

structure Snapshot where
  regs : Vector UInt16 8
  flags : Flags
  ip : UInt16
  deriving Repr, DecidableEq

/-- The value of one register before and after. -/
structure RegChange where
  index : UInt8
  old : UInt16
  new : UInt16
  deriving Repr, DecidableEq

structure Trace where
  regs : List RegChange
  ip : UInt16 × UInt16
  flags : Option (Flags × Flags)
  deriving Repr, DecidableEq

def Machine.snapshot (m : Machine) : Snapshot := ⟨m.regs, m.flags, m.ip⟩

def registerName (index : UInt8) : String := (Register.ofField index true).name

namespace Snapshot

/-- The order in which a dump lists the registers: ax, bx, cx, dx, then the others. -/
def dumpOrder : List Register := [.ax, .bx, .cx, .dx, .sp, .bp, .si, .di]

def dumpLine (name : String) (value : UInt16) : String :=
  "  " ++ name ++ ": " ++ Numeral.word value ++ " (" ++ Numeral.decimal value.toNat ++ ")\n"

def dumpRegs (s : Snapshot) : String :=
  let nonzero := dumpOrder.filter fun r => s.regs.get r.index != 0
  "Final registers:\n" ++ String.join (nonzero.map fun r => dumpLine r.name (s.regs.get r.index)) ++
    dumpLine "ip" s.ip

def dumpFlags (s : Snapshot) : String := "Flags: " ++ s.flags.mark ++ "\n"

def dump (s : Snapshot) : String := s.dumpRegs ++ s.dumpFlags

def toJson (s : Snapshot) : Json :=
  .object
    [("regs", .array (s.regs.toList.map fun w => .ofNat w.toNat)),
     ("flags", .string s.flags.text), ("ip", .ofNat s.ip.toNat)]

def regsOfJson? (j : Json) : Option (Vector UInt16 8) := do
  let words ← (← j.array?).mapM Json.uint16?
  if h : words.toArray.size = 8 then some ⟨words.toArray, h⟩ else none

def flagsOfJson? (j : Json) : Option Flags := do Flags.ofText? (← j.string?)

def ofJson? (j : Json) : Option Snapshot := do
  let j ← j.record? ["regs", "flags", "ip"]
  let regs ← regsOfJson? (← j.member? "regs")
  let flags ← flagsOfJson? (← j.member? "flags")
  let ip ← (← j.member? "ip").uint16?
  return { regs, flags, ip }

end Snapshot

namespace RegChange

def text (c : RegChange) : String :=
  registerName c.index ++ ":" ++ Numeral.prefixedHex c.old.toNat ++ "->" ++
    Numeral.prefixedHex c.new.toNat ++ " "

def toJson (c : RegChange) : Json :=
  .object
    [("index", .ofNat c.index.toNat), ("old", .ofNat c.old.toNat), ("new", .ofNat c.new.toNat)]

def ofJson? (j : Json) : Option RegChange := do
  let j ← j.record? ["index", "old", "new"]
  let index ← (← j.member? "index").uint8?
  let old ← (← j.member? "old").uint16?
  let new ← (← j.member? "new").uint16?
  return { index, old, new }

end RegChange

namespace Trace

def regChange? (before after : Snapshot) (i : Fin 8) : Option RegChange :=
  if before.regs.get i = after.regs.get i then none
  else some ⟨UInt8.ofNat i.val, before.regs.get i, after.regs.get i⟩

def regChanges (before after : Snapshot) : List RegChange :=
  (List.finRange 8).filterMap (regChange? before after)

/-- What changed from one snapshot to another. -/
def between (before after : Snapshot) : Trace where
  regs := regChanges before after
  ip := (before.ip, after.ip)
  flags := if before.flags = after.flags then none else some (before.flags, after.flags)

def text (t : Trace) : String :=
  String.join (t.regs.map RegChange.text) ++
    "ip:" ++ Numeral.prefixedHex t.ip.1.toNat ++ "->" ++ Numeral.prefixedHex t.ip.2.toNat ++
    match t.flags with
    | none => ""
    | some (old, new) => " flags:" ++ old.mark ++ "->" ++ new.mark

def toJson (t : Trace) : Json :=
  .object
    [("regs", .array (t.regs.map RegChange.toJson)),
     ("ip", .array [.ofNat t.ip.1.toNat, .ofNat t.ip.2.toNat]),
     ("flags", .ofOption (fun (old, new) => .array [.string old.text, .string new.text]) t.flags)]

/-- What `read` makes of the two items of an array. -/
def pairOfJson? {α : Type} (read : Json → Option α) : Json → Option (α × α)
  | .array [first, second] => do return (← read first, ← read second)
  | _ => none

def ofJson? (j : Json) : Option Trace := do
  let j ← j.record? ["regs", "ip", "flags"]
  let regs ← (← (← j.member? "regs").array?).mapM RegChange.ofJson?
  let ip ← pairOfJson? Json.uint16? (← j.member? "ip")
  let flags ← Json.optional? (pairOfJson? Snapshot.flagsOfJson?) (j.member? "flags")
  return { regs, ip, flags }

end Trace

end Machine86
