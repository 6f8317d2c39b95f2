import Machine86.Run.Listing

/-!
# Options of the command line

The arguments are read from left to right. An option with a value takes it from behind an equals
sign or from the next argument, unless that one starts with a dash; a dash alone is a value. Behind
two dashes every argument is an input. There is exactly one input, and no option is given twice.
All arguments are texts.
-/

namespace Machine86

inductive Format
  | text
  | json
  deriving Repr, DecidableEq

structure Options where
  input : String
  config : Config
  skip : Nat
  len : Option Nat
  format : Format
  out : Option String
  checkDir : String
  deriving Repr, DecidableEq

/-- What the command line asks for. -/
inductive Invocation
  | run (o : Options)
  | help
  | version
  | misused
  deriving Repr, DecidableEq

inductive Switch
  | exec
  | debug
  | check
  deriving Repr, DecidableEq

inductive Setting
  | maxSteps
  | skip
  | len
  | format
  | out
  | checkDir
  deriving Repr, DecidableEq

def Switch.ofName? : String → Option Switch
  | "exec" => some exec
  | "debug" => some debug
  | "check" => some check
  | _ => none

def Setting.ofName? : String → Option Setting
  | "max-steps" => some maxSteps
  | "skip" => some skip
  | "len" => some len
  | "format" => some format
  | "out" => some out
  | "check-dir" => some checkDir
  | _ => none

/-- The arguments read so far. -/
structure Given where
  input : Option String := none
  switches : List Switch := []
  maxSteps : Option Nat := none
  skip : Option Nat := none
  len : Option Nat := none
  format : Option Format := none
  out : Option String := none
  checkDir : Option String := none
  deriving Repr, DecidableEq

/-- The first number that has more than 64 bits. -/
def countBound : Nat := 18446744073709551616

def count? (value : String) : Option Nat := Numeral.unsigned? 10 countBound value.toList

def path? (value : String) : Option String := if value.isEmpty then none else some value

def Format.ofName? : String → Option Format
  | "text" => some text
  | "json" => some json
  | _ => none

namespace Given

def once {α : Type} (old : Option α) (new : Option α) : Option (Option α) :=
  match old, new with
  | none, some a => some (some a)
  | _, _ => none

def addInput (g : Given) (path : String) : Option Given := do
  return { g with input := ← once g.input (path? path) }

def addSwitch (g : Given) (s : Switch) : Option Given :=
  if s ∈ g.switches then none else some { g with switches := s :: g.switches }

def addSetting (g : Given) (value : String) : Setting → Option Given
  | .maxSteps => do return { g with maxSteps := ← once g.maxSteps (count? value) }
  | .skip => do return { g with skip := ← once g.skip (count? value) }
  | .len => do return { g with len := ← once g.len (count? value) }
  | .format => do return { g with format := ← once g.format (Format.ofName? value) }
  | .out => do return { g with out := ← once g.out (path? value) }
  | .checkDir => do return { g with checkDir := ← once g.checkDir (path? value) }

/-- The options, with defaults for what was not given. Without an input there are none. -/
def options? (g : Given) : Option Options := do
  let input ← g.input
  let defaults : Config := {}
  return {
    input
    config := {
      debug := .debug ∈ g.switches
      execute := .exec ∈ g.switches
      check := .check ∈ g.switches
      maxSteps := g.maxSteps.getD defaults.maxSteps }
    skip := g.skip.getD 0
    len := g.len
    format := g.format.getD .text
    out := g.out
    checkDir := g.checkDir.getD "." }

def invocation (g : Given) : Invocation :=
  match g.options? with
  | some o => .run o
  | none => .misused

end Given

inductive Argument
  | plain (text : String)
  | dashes
  | long (name : String) (value : Option String)
  | short (letters : List Char)
  deriving Repr, DecidableEq

/-- The form of an argument. The name of a long one ends before an equals sign. -/
def Argument.ofString (arg : String) : Argument :=
  match arg.toList with
  | ['-', '-'] => dashes
  | '-' :: '-' :: rest =>
    let (name, value) := rest.span (· != '=')
    long (String.ofList name) (value.tail?.map String.ofList)
  | '-' :: c :: rest => short (c :: rest)
  | _ => plain arg

/-- What letters behind one dash ask for. -/
def invocationOfLetters : List Char → Invocation
  | 'h' :: _ => .help
  | 'V' :: _ => .version
  | _ => .misused

namespace Given

def readInputs (g : Given) : List String → Invocation
  | [] => g.invocation
  | arg :: rest =>
    match g.addInput arg with
    | some g' => g'.readInputs rest
    | none => .misused

/-- Goes on to read with `next` after an argument that can be taken. -/
def followedBy (g : Option Given) (next : Given → Invocation) : Invocation :=
  match g with
  | some g' => next g'
  | none => .misused

/-- Reads arguments; a setting that waits for its value takes the first of them. -/
def readArgs (g : Given) (waiting : Option Setting) : List String → Invocation
  | [] => if waiting.isSome then .misused else g.invocation
  | arg :: rest =>
    match waiting, Argument.ofString arg with
    | some s, .plain value => followedBy (g.addSetting value s) (·.readArgs none rest)
    | some _, _ => .misused
    | none, .plain path => followedBy (g.addInput path) (·.readArgs none rest)
    | none, .dashes => g.readInputs rest
    | none, .short letters => invocationOfLetters letters
    | none, .long "help" none => .help
    | none, .long "version" none => .version
    | none, .long name value =>
      match Switch.ofName? name, Setting.ofName? name, value with
      | some s, _, none => followedBy (g.addSwitch s) (·.readArgs none rest)
      | _, some s, some value => followedBy (g.addSetting value s) (·.readArgs none rest)
      | _, some s, none => g.readArgs (some s) rest
      | _, _, _ => .misused

end Given

def Invocation.ofArgs (args : List String) : Invocation := ({} : Given).readArgs none args

end Machine86
