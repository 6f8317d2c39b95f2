import Machine86.Instruction.Consuming
import Machine86.Instruction.Text

/-!
# Disassembly

A buffer is decoded from its start, one instruction after the other, until nothing is left; each
instruction takes at least one byte, so this ends. The listing is a header and one line for each
instruction.
-/

namespace Machine86

/-- The instructions ahead of a reader, after those in `done`. -/
def decodeAll (r : Reader) (done : Array Instruction) :
    Except DecodeError (Array Instruction) :=
  if r.isAtEnd then .ok done
  else
    match _h : decode r with
    | .ok i r' => decodeAll r' (done.push i)
    | .error e _ => .error e
termination_by r.rest.length
decreasing_by exact decode_shorter ‹_›

/-- The line that tells an assembler to use 16-bit code. -/
def listingHeader : String := "bits 16\n"

/-- A header and then the given lines, each with its line break. -/
def listingOf (lines : List String) : String :=
  lines.foldl (fun text line => text ++ line ++ "\n") listingHeader

def disassemble (bytes : List UInt8) : Except DecodeError String :=
  match decodeAll (.ofBytes bytes) #[] with
  | .ok instructions => .ok (listingOf (instructions.toList.map Instruction.text))
  | .error e => .error e

end Machine86
