import Machine86.Command.Load
import Machine86.Command.Options
import Machine86.Command.Check
import Machine86.Run.Basic

/-!
# The command

Loads a program, runs it, checks the listing if that is asked for, and reports. A run that a trap
stops is reported as far as it came, and so is one whose check cannot be finished; the command
fails all the same, with the error that comes first of these: the report cannot be written, the run
was stopped, the check was not finished.
-/

namespace Machine86

/-- Takes one instruction after another and keeps the steps, which are there also where a trap
comes. The steps before are in `done`. -/
def Run.collect (r : Run) (done : Array Step) : Progress :=
  match _h : next r with
  | .ok none r' => ⟨done.toList, r'.machine, none⟩
  | .ok (some step) r' => r'.collect (done.push step)
  | .error trap r' => ⟨done.toList, r'.machine, some trap⟩
termination_by r.left
decreasing_by exact left_lt_of_next _h

/-- How the command ends, and what it prints. -/
structure Outcome where
  status : UInt32
  output : String
  errorOutput : String
  deriving Repr, DecidableEq

def Outcome.failed (output : String) (why : ErrorChain) : Outcome := ⟨1, output, why.report⟩

def Trap.chain (t : Trap) : ErrorChain :=
  match t with
  | .decode _ source => ⟨t.message, [source.message]⟩
  | .unsupported .. | .stepLimit _ => ⟨t.message, []⟩

namespace Options

def reportText (o : Options) (r : Report) : String :=
  match o.format with
  | .text => r.text o.config
  | .json => r.jsonText

/-- How the command ends after the report, where the run came so far and the check went so. -/
def conclude (o : Options) (output : String) (p : Progress) (check : Check) : Outcome :=
  match p.trap with
  | some trap => .failed output (trap.chain.within ("failed to process " ++ o.input))
  | none =>
    match check with
    | .failed why => .failed output (why.within "verification did not complete")
    | .absent | .finished _ => ⟨0, output, ""⟩

section

variable {m : Type → Type} [Monad m] [Host m]

/-- Checks the listing of a run that came to its end, if that is asked for. -/
def check (o : Options) (program : List UInt8) (p : Progress) : m Check := do
  if o.config.check && p.trap.isNone then
    match ← verifyListing o.input program (p.listing o.config).asmText o.checkDir with
    | .ok v => return .finished v
    | .error e => return .failed e.chain
  else return .absent

def emit (o : Options) (text : String) : m (Except ErrorChain String) := do
  match o.out with
  | none => return .ok text
  | some path =>
    match ← Host.writeFile path (Utf8.encode text) with
    | .ok () => return .ok ""
    | .error cause => return .error ⟨"could not write " ++ path, [cause.message]⟩

/-- Checks, reports and ends a run that came so far. -/
def reportRun (o : Options) (program : List UInt8) (p : Progress) : m Outcome := do
  let check ← o.check program p
  let report : Report := { input := o.input, listing := p.listing o.config, check }
  match ← o.emit (o.reportText report) with
  | .error why => return .failed "" why
  | .ok output => return o.conclude output p check

def execute (o : Options) : m Outcome := do
  match ← loadProgram o.input o.skip o.len with
  | .error e => return .failed "" e.chain
  | .ok program =>
    match Run.start program o.config defaultMinMemory with
    | .error e => return .failed "" ⟨e.message, []⟩
    | .ok r => o.reportRun program (r.collect #[])

end

end Options

/-- How the command is called. -/
def usage : String := "Usage: sim8086 [OPTIONS] <BINFILE>\n"

def helpText : String :=
  "8086 disassembler and simulator\n\n" ++ usage ++ "\n" ++
  "Arguments:\n" ++
  "  <BINFILE>  Input binary path\n\n" ++
  "Options:\n" ++
  "      --exec                   Simulate the program and print per-instruction state changes\n" ++
  "      --debug                  Print each decoded instruction's structure before its line\n" ++
  "      --check                  Reassemble the listing with nasm and compare it with the input\n" ++
  "      --max-steps <MAX_STEPS>  Stop after this many instructions [default: 1000000]\n" ++
  "      --skip <SKIP>            Skip N bytes at start of file before loading [default: 0]\n" ++
  "      --len <LEN>              Limit bytes loaded (default: to EOF after --skip)\n" ++
  "      --format <FORMAT>        Output format: text or json [default: text] " ++
    "[possible values: text, json]\n" ++
  "      --out <FILE>             Write output to file instead of stdout\n" ++
  "      --check-dir <DIR>        Directory for the --check listing and reassembled binary " ++
    "[default: .]\n" ++
  "  -h, --help                   Print help\n" ++
  "  -V, --version                Print version\n"

/-- The name of the package and its version. -/
def versionText : String := "sim8086-cli 0.1.0\n"

/-- Does what the command line asks for. Of what is said about one that asks for nothing, only the
end is given here, which is the same for all of them. -/
def Invocation.perform {m : Type → Type} [Monad m] [Host m] : Invocation → m Outcome
  | .run o => o.execute
  | .help => return ⟨0, helpText, ""⟩
  | .version => return ⟨0, versionText, ""⟩
  | .misused => return ⟨2, "", "\nFor more information, try '--help'.\n"⟩

end Machine86
