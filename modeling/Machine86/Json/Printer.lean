import Machine86.Json.Basic
import Machine86.Text.Numeral

/-!
# JSON texts

`Json.pretty` writes a value over several lines: each item of an array and each member of an
object has a line of its own, indented by two spaces more than the bracket that opens it. Empty
arrays and objects stay on one line.

In a string, the quote, the backslash and the control characters are escaped; five of the controls
have a letter, the others their number. Every other character stands for itself.
-/

namespace Machine86.Json

def escape (c : Char) : List Char :=
  if c = '"' then ['\\', '"']
  else if c = '\\' then ['\\', '\\']
  else if c = '\x08' then ['\\', 'b']
  else if c = '\x0c' then ['\\', 'f']
  else if c = '\n' then ['\\', 'n']
  else if c = '\r' then ['\\', 'r']
  else if c = '\t' then ['\\', 't']
  else if c.toNat < 0x20 then
    ['\\', 'u', '0', '0', Nat.digitChar (c.toNat / 16), Nat.digitChar (c.toNat % 16)]
  else [c]

def quote (s : String) : String :=
  "\"" ++ String.ofList (s.toList.flatMap escape) ++ "\""

/-- A line break and the indentation of `depth`. -/
def lineBreak (depth : Nat) : String :=
  String.ofList ('\n' :: List.replicate (2 * depth) ' ')

/-- Items between two brackets, each on its own line one level below `depth`. -/
def block (depth : Nat) (opening closing : String) (items : List String) : String :=
  if items.isEmpty then opening ++ closing
  else
    let inner := lineBreak (depth + 1)
    opening ++ inner ++ ("," ++ inner).intercalate items ++ lineBreak depth ++ closing

mutual

/-- The text of a value inside `depth` brackets. -/
def prettyAt (depth : Nat) : Json → String
  | null => "null"
  | bool b => if b then "true" else "false"
  | number n => Numeral.signed n
  | string s => quote s
  | array items => block depth "[" "]" (prettyItems (depth + 1) items)
  | object members => block depth "\x7b" "\x7d" (prettyMembers (depth + 1) members)

def prettyItems (depth : Nat) : List Json → List String
  | [] => []
  | j :: rest => prettyAt depth j :: prettyItems depth rest

def prettyMembers (depth : Nat) : List (String × Json) → List String
  | [] => []
  | (key, j) :: rest => (quote key ++ ": " ++ prettyAt depth j) :: prettyMembers depth rest

end

def pretty (j : Json) : String := prettyAt 0 j

end Machine86.Json
