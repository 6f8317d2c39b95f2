import Machine86.Json.Printer
import Machine86.Report.ErrorChain
import Machine86.Run.Listing

/-!
# Reports

What the command tells about a finished run: the listing and how its check went, as text or as
JSON.
-/

namespace Machine86

/-- Whether the reassembled code is the program. -/
inductive Verdict
  | same
  | differs
  deriving Repr, DecidableEq

namespace Verdict

def tag : Verdict → String
  | same => "Same"
  | differs => "Differs"

def line : Verdict → String
  | same => "=== Ok\n"
  | differs => "=== Error, not the same\n"

end Verdict

/-- A finished check: the files that it wrote, and what came of it. -/
structure Verification where
  asmPath : String
  binPath : String
  verdict : Verdict
  deriving Repr, DecidableEq

def Verification.toJson (v : Verification) : Json :=
  .object
    [("asm_path", .string v.asmPath), ("bin_path", .string v.binPath),
     ("verdict", .string v.verdict.tag)]

/-- How the check of a listing went. -/
inductive Check
  | absent
  | finished (v : Verification)
  | failed (why : ErrorChain)
  deriving Repr, DecidableEq

namespace Check

def line : Check → String
  | absent => ""
  | finished v => v.verdict.line
  | failed why => "=== Check failed: " ++ why.oneLine ++ "\n"

def verification? : Check → Option Verification
  | finished v => some v
  | _ => none

def failure? : Check → Option ErrorChain
  | failed why => some why
  | _ => none

end Check

structure Report where
  input : String
  listing : Listing
  check : Check
  deriving Repr, DecidableEq

namespace Report

/-- The listing between a line about the input and one about the check. -/
def text (r : Report) (config : Config) : String :=
  "; disassembled by sim8086: " ++ r.input ++ "\n" ++ r.listing.render config ++ r.check.line

def toJson (r : Report) : Json :=
  .object
    [("input", .string r.input), ("listing", r.listing.toJson),
     ("verification", .ofOption Verification.toJson r.check.verification?),
     ("check_error", .ofOption (fun c => .string c.oneLine) r.check.failure?)]

def jsonText (r : Report) : String := r.toJson.pretty ++ "\n"

end Report

end Machine86
