import Machine86.Text.Numeral

/-!
# The host

What the command asks of the system it runs on: to read a file, to write a file, and to run the
assembler. Each can fail with a `HostError`.
-/

namespace Machine86

/-- Why the system did not do what it was asked for. A text with a NUL in it never reaches the
system; all other errors are its own and have a number. -/
inductive HostError
  | system (number : Nat) (description : String)
  | nulInName
  | nulInArgument
  deriving Repr, DecidableEq

namespace HostError

def number? : HostError → Option Nat
  | system number _ => some number
  | nulInName | nulInArgument => none

def message : HostError → String
  | system number description =>
    description ++ " (os error " ++ Numeral.decimal number ++ ")"
  | nulInName => "file name contained an unexpected NUL byte"
  | nulInArgument => "nul byte found in provided data"

def notFound : HostError := system 2 "No such file or directory"

def argumentsTooLong : HostError := system 7 "Argument list too long"

def notDirectory : HostError := system 20 "Not a directory"

def isDirectory : HostError := system 21 "Is a directory"

def nameTooLong : HostError := system 36 "File name too long"

end HostError

/-- How a program ended that was run, and what it wrote to its error output. -/
structure Completion where
  succeeded : Bool
  errorOutput : List UInt8
  deriving Repr, DecidableEq

class Host (m : Type → Type) where
  readFile : (path : String) → m (Except HostError (List UInt8))
  writeFile : (path : String) → (content : List UInt8) → m (Except HostError Unit)
  /-- Runs the assembler on the text at `source`; it is to write the code to `target`. -/
  assemble : (source target : String) → m (Except HostError Completion)

end Machine86
