import Machine86.Files.Host
import Machine86.Report.ErrorChain

/-!
# Loading a program

The program is a part of a file: what lies behind the first `skip` bytes, or the first `len` bytes
of that.
-/

namespace Machine86

inductive LoadError
  | unreadable (path : String) (cause : HostError)
  | skipTooLarge
  | lenTooLarge
  deriving Repr, DecidableEq

def LoadError.chain : LoadError → ErrorChain
  | unreadable path cause => ⟨"could not read " ++ path, [cause.message]⟩
  | skipTooLarge => ⟨"--skip exceeds file size", []⟩
  | lenTooLarge => ⟨"--len exceeds remaining file size after skip", []⟩

/-- The part of a file that is the program. -/
def selectProgram (file : List UInt8) (skip : Nat) (len : Option Nat) :
    Except LoadError (List UInt8) :=
  if file.length < skip then .error .skipTooLarge
  else
    let rest := file.drop skip
    match len with
    | none => .ok rest
    | some n => if rest.length < n then .error .lenTooLarge else .ok (rest.take n)

def loadProgram {m : Type → Type} [Monad m] [Host m] (path : String) (skip : Nat)
    (len : Option Nat) : m (Except LoadError (List UInt8)) := do
  match ← Host.readFile path with
  | .error cause => return .error (.unreadable path cause)
  | .ok file => return selectProgram file skip len

end Machine86
