import Machine86.Instruction.Disassembly
import Machine86.Instruction.Json
import Machine86.Machine.Step

/-!
# Listings

A `Listing` is what a run leaves: its steps in order and, where the run executed the program, the
last state. It can be written as plain assembly, as assembly with traces and a dump, and as JSON.
-/

namespace Machine86

/-- The switches of a run. -/
structure Config where
  /-- Show the structure of each instruction before its line. -/
  debug : Bool := false
  /-- Execute the instructions and do not only list them. -/
  execute : Bool := false
  /-- Assemble the listing again and compare. -/
  check : Bool := false
  /-- How many instructions may be taken. -/
  maxSteps : Nat := 1000000
  deriving Repr, DecidableEq

def Config.toJson (c : Config) : Json :=
  .object
    [("debug", .bool c.debug), ("execute", .bool c.execute), ("check", .bool c.check),
     ("max_steps", .ofNat c.maxSteps)]

/-- One instruction of a run, with its address, bytes and text, and with what it changed where it
was executed. -/
structure Step where
  offset : UInt16
  bytes : List UInt8
  instruction : Instruction
  text : String
  trace : Option Trace
  deriving Repr, DecidableEq

namespace Step

/-- The step of a fetched instruction. -/
def ofFetched (f : Fetched) (trace : Option Trace) : Step :=
  { offset := f.offset, bytes := f.bytes, instruction := f.instruction,
    text := f.instruction.text, trace }

/-- The line of a step, its trace as a comment after it and its structure as one before it. -/
def render (s : Step) (config : Config) : String :=
  (if config.debug then "; " ++ s.instruction.structureText ++ "\n" else "") ++ s.text ++
    match s.trace with
    | none => ""
    | some trace => " ; " ++ trace.text

def toJson (s : Step) : Json :=
  .object
    [("offset", .ofNat s.offset.toNat),
     ("bytes", .array (s.bytes.map fun b => .ofNat b.toNat)),
     ("instruction", s.instruction.toJson), ("text", .string s.text),
     ("trace", .ofOption Trace.toJson s.trace)]

def ofJson? (j : Json) : Option Step := do
  let j ← j.record? ["offset", "bytes", "instruction", "text", "trace"]
  let offset ← (← j.member? "offset").uint16?
  let bytes ← (← (← j.member? "bytes").array?).mapM Json.uint8?
  let instruction ← Instruction.ofJson? (← j.member? "instruction")
  let text ← (← j.member? "text").string?
  let trace ← Json.optional? Trace.ofJson? (j.member? "trace")
  return { offset, bytes, instruction, text, trace }

end Step

structure Listing where
  steps : List Step
  finalState : Option Snapshot
  deriving Repr, DecidableEq

namespace Listing

/-- Plain assembly. -/
def asmText (l : Listing) : String := listingOf (l.steps.map Step.text)

/-- Assembly with traces, and the last state behind it. -/
def render (l : Listing) (config : Config) : String :=
  listingOf (l.steps.map (·.render config)) ++
    match l.finalState with
    | none => ""
    | some state => "\n" ++ state.dump

def toJson (l : Listing) : Json :=
  .object
    [("steps", .array (l.steps.map Step.toJson)),
     ("final_state", .ofOption Snapshot.toJson l.finalState)]

def ofJson? (j : Json) : Option Listing := do
  let j ← j.record? ["steps", "final_state"]
  let steps ← (← (← j.member? "steps").array?).mapM Step.ofJson?
  let finalState ← Json.optional? Snapshot.ofJson? (j.member? "final_state")
  return { steps, finalState }

end Listing

end Machine86
