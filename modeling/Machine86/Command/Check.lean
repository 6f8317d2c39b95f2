import Machine86.Files.Host
import Machine86.Files.Path
import Machine86.Report.Basic
import Machine86.Text.Blank
import Machine86.Text.Utf8

/-!
# Checking a listing

The listing is written to a file, the assembler makes code of it in another one, and that code is
compared with the program. Both files are named after the input. A check that cannot be finished
tells where it stopped.
-/

namespace Machine86

inductive CheckError
  | noFileName (input : String)
  | unwritable (path : String) (cause : HostError)
  | noAssembler (cause : HostError)
  | assemblerFailed (source : String) (errorOutput : List UInt8)
  | unreadable (path : String) (cause : HostError)
  deriving Repr, DecidableEq

/-- What the assembler said, without the blanks around it. -/
def errorText (output : List UInt8) : String := String.ofList (Blank.trim (Utf8.decode output))

def CheckError.chain : CheckError → ErrorChain
  | noFileName input => ⟨input ++ " has no file name", []⟩
  | unwritable path cause => ⟨"could not write " ++ path, [cause.message]⟩
  | noAssembler cause => ⟨"could not run nasm", [cause.message]⟩
  | assemblerFailed source output =>
    ⟨"nasm failed on " ++ source ++ ": " ++ errorText output, []⟩
  | unreadable path cause => ⟨"could not read " ++ path, [cause.message]⟩

section

variable {m : Type → Type} [Monad m] [Host m]

def assembleSource (source target : String) : m (Except CheckError Unit) := do
  match ← Host.assemble source target with
  | .error cause => return .error (.noAssembler cause)
  | .ok completion =>
    if completion.succeeded then return .ok ()
    else return .error (.assemblerFailed source completion.errorOutput)

def compareCode (program : List UInt8) (path : String) : m (Except CheckError Verdict) := do
  match ← Host.readFile path with
  | .error cause => return .error (.unreadable path cause)
  | .ok code => return .ok (if code = program then .same else .differs)

def listingPath (dir name : String) : String := Path.join dir (name ++ ".sim8086.asm")

def codePath (dir name : String) : String := Path.join dir (name ++ ".sim8086")

/-- Checks that the listing `asm` of `input` assembles to `program`, with the files in `dir`. -/
def verifyListing (input : String) (program : List UInt8) (asm dir : String) :
    m (Except CheckError Verification) := do
  match Path.fileName? input with
  | none => return .error (.noFileName input)
  | some name =>
    let asmPath := listingPath dir name
    let binPath := codePath dir name
    match ← Host.writeFile asmPath (Utf8.encode asm) with
    | .error cause => return .error (.unwritable asmPath cause)
    | .ok () =>
      match ← assembleSource asmPath binPath with
      | .error e => return .error e
      | .ok () =>
        match ← compareCode program binPath with
        | .error e => return .error e
        | .ok verdict => return .ok { asmPath, binPath, verdict }

end

end Machine86
