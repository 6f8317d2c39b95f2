import Machine86.Text.Numeral

/-!
# Structure texts

One-line texts that show a value with its structure: a record lists its fields by name, a variant
holds one value in parentheses, a list stands in brackets.
-/

namespace Machine86.Record

def truth (b : Bool) : String := if b then "true" else "false"

def list (items : List String) : String := "[" ++ ", ".intercalate items ++ "]"

def variant (name value : String) : String := name ++ "(" ++ value ++ ")"

/-- The name of a record and its fields, each with its name, in braces. -/
def record (name : String) (fields : List (String × String)) : String :=
  let shown := fields.map fun (field, value) => field ++ ": " ++ value
  name ++ " \x7b " ++ ", ".intercalate shown ++ " \x7d"

end Machine86.Record
