import Machine86.Text.Numeral

/-!
# Chains of errors

An error that comes about through others is told from the outside in: what could not be done, and
then each cause. A chain is written on one line, or as a report over several.
-/

namespace Machine86

structure ErrorChain where
  message : String
  causes : List String := []
  deriving Repr, DecidableEq

namespace ErrorChain

/-- All messages on one line. -/
def oneLine (c : ErrorChain) : String := ": ".intercalate (c.message :: c.causes)

/-- A chain with one more message outside. -/
def within (outer : String) (c : ErrorChain) : ErrorChain := ⟨outer, c.message :: c.causes⟩

/-- A text with `indent` before each of its lines but the first. -/
def indentRest (indent text : String) : String :=
  String.ofList (text.toList.flatMap fun c => if c = '\n' then '\n' :: indent.toList else [c])

/-- A cause with its number, in five columns, before it. -/
def numbered (cause : String) (n : Nat) : String :=
  let digits := Numeral.decimal n
  String.ofList (List.replicate (5 - digits.length) ' ') ++ digits ++ ": " ++
    indentRest "       " cause

/-- The causes, each on a line of its own; several are numbered. -/
def causeLines : List String → List String
  | [] => []
  | [cause] => ["    " ++ indentRest "    " cause]
  | causes => causes.zipIdx.map fun (cause, n) => numbered cause n

/-- The message, and below it the causes. -/
def report (c : ErrorChain) : String :=
  let causes := "\n\nCaused by:\n" ++ "\n".intercalate (causeLines c.causes)
  "Error: " ++ c.message ++ (if c.causes.isEmpty then "" else causes) ++ "\n"

end ErrorChain

end Machine86
