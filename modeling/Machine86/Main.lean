import Machine86.Command.Basic

/-!
# The program

The command on a real system. Files are those of the system; no assembler can be started from
here, so a check ends where it would run one.
-/

namespace Machine86

/-- The error of the system behind a failed operation, in the words of `HostError` where it
has them. The number may come with a minus sign. -/
def hostErrorOf (e : IO.Error) : HostError :=
  match e with
  | .noFileOrDirectory _ n d | .inappropriateType _ n d | .permissionDenied _ n d
  | .alreadyExists _ n d | .invalidArgument _ n d | .resourceExhausted _ n d
  | .noSuchThing _ n d | .illegalOperation n d | .unsupportedOperation n d | .otherError n d =>
    let number := n.toInt32.toInt.natAbs
    let known := [HostError.notFound, .notDirectory, .isDirectory, .nameTooLong]
    (known.find? (·.number? == some number)).getD (.system number d)
  | e => .system 0 (toString e)

instance : Host IO where
  readFile path := do
    if Path.hasNul path then return .error .nulInName
    try return .ok (← IO.FS.readBinFile path).toList
    catch e => return .error (hostErrorOf e)
  writeFile path content := do
    if Path.hasNul path then return .error .nulInName
    try
      IO.FS.writeBinFile path (ByteArray.mk content.toArray)
      return .ok ()
    catch e => return .error (hostErrorOf e)
  assemble source target :=
    return .error (if Path.hasNul source || Path.hasNul target then .nulInArgument else .notFound)

end Machine86

def main (args : List String) : IO UInt32 := do
  let outcome ← (Machine86.Invocation.ofArgs args).perform (m := IO)
  (← IO.getStdout).putStr outcome.output
  (← IO.getStderr).putStr outcome.errorOutput
  return outcome.status
