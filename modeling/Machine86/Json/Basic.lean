/-!
# JSON values

Values with integers for numbers; the members of an object keep their order. Beside the type
stand the readers of its parts: each gives `none` where the value has another shape or a number
lies outside the range asked for.
-/

namespace Machine86

inductive Json
  | null
  | bool (b : Bool)
  | number (n : Int)
  | string (s : String)
  | array (items : List Json)
  | object (members : List (String × Json))
  deriving Repr, Inhabited

namespace Json

def member? (key : String) : Json → Option Json
  | object members => members.lookup key
  | _ => none

def bool? : Json → Option Bool
  | bool b => some b
  | _ => none

def string? : Json → Option String
  | string s => some s
  | _ => none

def array? : Json → Option (List Json)
  | array items => some items
  | _ => none

/-- The name of a case without parts: a text, or the key of the one member of an object, which is
null. -/
def tag? : Json → Option String
  | string s => some s
  | object [(key, null)] => some key
  | _ => none

/-- A record with the fields `names`: an object as it is, or an array of all fields in that order.
-/
def record? (names : List String) : Json → Option Json
  | object members => some (object members)
  | array items =>
    if items.length = names.length then some (object (names.zip items)) else none
  | _ => none

/-- A number from `lo` up to and without `hi`. -/
def int? (lo hi : Int) : Json → Option Int
  | number n => if lo ≤ n ∧ n < hi then some n else none
  | _ => none

def nat? (bound : Nat) (j : Json) : Option Nat := (j.int? 0 bound).map Int.toNat

def uint8? (j : Json) : Option UInt8 := (j.nat? UInt8.size).map UInt8.ofNat

def uint16? (j : Json) : Option UInt16 := (j.nat? UInt16.size).map UInt16.ofNat

def int8? (j : Json) : Option Int8 := (j.int? (-128) 128).map Int8.ofInt

def int16? (j : Json) : Option Int16 := (j.int? (-32768) 32768).map Int16.ofInt

/-- What `read` makes of a value that may be missing or null. -/
def optional? {α : Type} (read : Json → Option α) : Option Json → Option (Option α)
  | none => some none
  | some null => some none
  | some j => (read j).map some

def ofNat (n : Nat) : Json := number n

def ofOption {α : Type} (write : α → Json) : Option α → Json
  | none => null
  | some a => write a

end Json

end Machine86
