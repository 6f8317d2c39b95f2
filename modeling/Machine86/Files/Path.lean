/-!
# Paths

A path is a text whose components are separated by slashes; bytes that are no UTF-8 make no path
here. Empty components and `.` name nothing of their own; what a path names is its last other
component.

Names and paths have sizes that a system does not go beyond, counted in bytes.
-/

namespace Machine86.Path

def components (path : String) : List String :=
  (path.toList.splitOn '/').map String.ofList

def isAbsolute (path : String) : Bool := path.toList.head? == some '/'

/-- The components that lead somewhere. -/
def steps (path : String) : List String :=
  (components path).filter fun c => c != "" && c != "."

/-- The name of the file that a path leads to. A path that ends in `..` or leads nowhere has
none. -/
def fileName? (path : String) : Option String :=
  match (steps path).getLast? with
  | some ".." => none
  | last => last

/-- The size of the longest name that a directory can hold. -/
def maxNameSize : Nat := 255

def maxPathSize : Nat := 4095

def isTooLong (path : String) : Bool := maxPathSize < path.utf8ByteSize

def isLongName (component : String) : Bool := maxNameSize < component.utf8ByteSize

/-- Whether there is a NUL in a text, which then cannot be given to a system. -/
def hasNul (text : String) : Bool := text.toList.contains '\x00'

/-- The path of `name` as seen from the directory `dir`; a name that starts at the root stays as it
is. -/
def join (dir name : String) : String :=
  if isAbsolute name || dir.isEmpty then name
  else if dir.toList.getLast? == some '/' then dir ++ name
  else dir ++ "/" ++ name

end Machine86.Path
