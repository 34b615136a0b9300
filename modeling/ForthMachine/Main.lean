import ForthMachine.CommandLine.Session

namespace ForthMachine.CommandLine

def folderCode : UInt32 := 21

/-- Reads a file of the system. A name that is no text is that of no file. -/
def readFile (name : Octets) : IO File := do
  match File.refusal? name, name.toString? with
  | some reason, _ => pure (.unopened reason)
  | none, none => pure (.unopened File.notFound)
  | none, some path =>
    try
      let bytes ← IO.FS.readBinFile path
      pure (.opened bytes.toList .endOfInput)
    catch
      | .noFileOrDirectory .. => pure (.unopened File.notFound)
      | .inappropriateType _ code _ =>
        pure (if code = folderCode then .ofFolder name else .unopened File.notFolder)
      | .invalidArgument .. => pure (.unopened File.tooLong)
      | .permissionDenied .. => pure (.unopened "permission denied")
      | e => pure (.unopened (toString e))

def inputFailure (e : IO.Error) : Ending :=
  let reason := match e with
    | .inappropriateType _ code _ => if code = folderCode then File.isFolder else toString e
    | e => toString e
  .failure ("read /dev/stdin: " ++ reason)

/-- Reads on from a stream until it ends or fails. -/
partial def readOn (stream : IO.FS.Stream) (before : ByteArray) : IO (List UInt8 × Ending) := do
  let chunk ← try Except.ok <$> stream.read 4096 catch e => pure (Except.error e)
  match chunk with
  | .error e => pure (before.toList, inputFailure e)
  | .ok bytes =>
    if bytes.isEmpty then pure (before.toList, .endOfInput) else readOn stream (before ++ bytes)

def readInput : IO (List UInt8 × Ending) := do
  readOn (← IO.getStdin) .empty

/-- Runs a session to its end, printing what it says as it goes. -/
partial def converse (s : Session) : IO UInt8 := do
  let (output, errors, s) := s.drain
  IO.print output
  IO.eprint errors
  (← IO.getStdout).flush
  match s.stage with
  | .ended code => pure code
  | _ => converse (s.advance 10000)

def command (arguments : List String) : IO UInt8 := do
  match ← (Session.ofDevices readFile readInput arguments).run with
  | .error verdict =>
    IO.eprint verdict.errors
    pure verdict.code
  | .ok session => converse session

end ForthMachine.CommandLine

def main (arguments : List String) : IO UInt32 := do
  pure (← ForthMachine.CommandLine.command arguments).toUInt32
