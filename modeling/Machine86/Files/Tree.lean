import Machine86.Files.Host
import Machine86.Files.Path

/-!
# Trees of files

A system in memory: directories, files and sinks by their components from the root, a working
directory, and an assembler that does always the same. It is a `Host`, so that the command can be
run and reasoned about without a real one.
-/

namespace Machine86

inductive Node
  | directory
  | file (content : List UInt8)
  /-- Takes whatever is written to it and has nothing to be read. -/
  | sink
  deriving Repr, DecidableEq

/-- Nodes by the components of their paths, an entry before another one of the same path. The root
is always a directory. -/
structure FileTree where
  workingDir : List String
  entries : List (List String × Node)
  deriving Repr, DecidableEq

namespace FileTree

def node? (t : FileTree) : List String → Option Node
  | [] => some .directory
  | place => t.entries.lookup place

def put (t : FileTree) (place : List String) (node : Node) : FileTree :=
  { t with entries := (place, node) :: t.entries.filter (·.1 != place) }

/-- Where a component leads from a directory. -/
def stepFrom (place : List String) (component : String) : List String :=
  if component = "" ∨ component = "." then place
  else if component = ".." then place.dropLast
  else place ++ [component]

def requireDirectory (t : FileTree) (place : List String) : Except HostError Unit :=
  match t.node? place with
  | none => .error .notFound
  | some .directory => .ok ()
  | some (.file _) | some .sink => .error .notDirectory

/-- Where a component leads from a place, which must be a directory. -/
def enter (t : FileTree) (place : List String) (component : String) :
    Except HostError (List String) := do
  t.requireDirectory place
  if Path.isLongName component then .error .nameTooLong else return stepFrom place component

/-- The place that some components lead to. All places on the way must be directories. -/
def descend (t : FileTree) (place : List String) (components : List String) :
    Except HostError (List String) :=
  components.foldlM t.enter place

def origin (t : FileTree) (path : String) : List String :=
  if Path.isAbsolute path then [] else t.workingDir

/-- Refuses a path that leads nowhere in any tree. -/
def checkPath (path : String) : Except HostError Unit :=
  if Path.hasNul path then .error .nulInName
  else if path.isEmpty then .error .notFound
  else if Path.isTooLong path then .error .nameTooLong
  else .ok ()

def read (t : FileTree) (path : String) : Except HostError (List UInt8) := do
  checkPath path
  match t.node? (← t.descend (t.origin path) (Path.components path)) with
  | none => .error .notFound
  | some .directory => .error .isDirectory
  | some (.file content) => return content
  | some .sink => return []

/-- Whether the last component can name a file: it is there, not a dot name, and no slash follows
it. -/
def namesFile (path name : String) : Bool :=
  name != "." && name != ".." && path.toList.getLast? != some '/'

/-- The tree with a file at a place. A directory stays, and a sink takes the content. -/
def putFile (t : FileTree) (place : List String) (content : List UInt8) :
    Except HostError FileTree :=
  match t.node? place with
  | some .directory => .error .isDirectory
  | some .sink => .ok t
  | some (.file _) | none => .ok (t.put place (.file content))

/-- The tree after a write to `path`. A file that is not there is made, a directory is not. -/
def write (t : FileTree) (path : String) (content : List UInt8) : Except HostError FileTree := do
  checkPath path
  let parts := (Path.components path).filter (· != "")
  match parts.getLast? with
  | none => .error .isDirectory
  | some name =>
    let parent ← t.descend (t.origin path) parts.dropLast
    t.requireDirectory parent
    if namesFile path name then t.putFile (← t.enter parent name) content
    else .error .isDirectory

end FileTree

/-- An assembler that writes the same bytes in every run, or none, and ends the same way. -/
structure Assembler where
  output : Option (List UInt8)
  completion : Completion
  deriving Repr, DecidableEq

structure World where
  tree : FileTree
  assembler : Option Assembler
  deriving Repr, DecidableEq

namespace World

def writeFile (path : String) (content : List UInt8) : StateM World (Except HostError Unit) :=
  fun w =>
    match w.tree.write path content with
    | .ok tree => (.ok (), { w with tree })
    | .error e => (.error e, w)

/-- The size of the longest argument that a program can be given. -/
def maxArgumentSize : Nat := 131071

/-- A run of the assembler. Where it cannot write its output there is none. -/
def assemble (source target : String) : StateM World (Except HostError Completion) := fun w =>
  if Path.hasNul source || Path.hasNul target then (.error .nulInArgument, w)
  else
    match w.assembler with
    | none => (.error .notFound, w)
    | some a =>
      if maxArgumentSize < max source.utf8ByteSize target.utf8ByteSize then
        (.error .argumentsTooLong, w)
      else
        match a.output with
        | none => (.ok a.completion, w)
        | some content => (.ok a.completion, (writeFile target content w).2)

instance : Host (StateM World) where
  readFile path := fun w => (w.tree.read path, w)
  writeFile := writeFile
  assemble := assemble

end World

end Machine86
