import SumStar.CommandLine.Planning

/-! The executable carries out the plan of its arguments on the real file system and streams. -/

namespace SumStar

/-- The system's number and description of an error, where it has one. -/
def systemCause : IO.Error → Option (UInt32 × String)
  | .noFileOrDirectory _ code description => some (code, description)
  | .inappropriateType _ code description => some (code, description)
  | .permissionDenied _ code description => some (code, description)
  | .resourceExhausted _ code description => some (code, description)
  | .invalidArgument _ code description => some (code, description)
  | .noSuchThing _ code description => some (code, description)
  | .alreadyExists _ code description => some (code, description)
  | .otherError code description => some (code, description)
  | .resourceBusy code description => some (code, description)
  | .hardwareFault code description => some (code, description)
  | .unsupportedOperation code description => some (code, description)
  | .illegalOperation code description => some (code, description)
  | _ => none

def fileError (error : IO.Error) : FileError :=
  match systemCause error with
  | some (2, _) => .notFound
  | some (13, _) => .permissionDenied
  | some (20, _) => .notDirectory
  | some (21, _) => .isDirectory
  | some (36, _) => .nameTooLong
  | some (code, description) => .other code.toNat description.toList
  | none => .other 0 (toString error).toList

def attempt (action : IO α) : IO (Except FileError α) := do
  try
    return .ok (← action)
  catch error =>
    return .error (fileError error)

/-- Reads byte by byte, so that nothing behind the line is taken from the stream. -/
partial def readLineFrom (stream : IO.FS.Stream) (line : ByteArray) : IO ByteArray := do
  let bytes ← stream.read 1
  match bytes.toList with
  | [] => return line
  | byte :: _ =>
    if byte = lineFeed then return line.push byte
    else readLineFrom stream (line.push byte)

/-- Whole lines are handed on at once, the rest when it is asked for. -/
def printOn (handle : IO.FS.Stream) (text : Text) : IO Unit := do
  handle.putStr (String.ofList text)
  if text.getLast? = some '\n' then
    handle.flush

/-- Paths go by the names they are shown with. -/
def Plan.execute : Plan → IO UInt32
  | .readFile path next => do
    let reply ← attempt (IO.FS.readBinFile (String.ofList path.display))
    (next reply).execute
  | .writeFile path content next => do
    let reply ← attempt (IO.FS.writeBinFile (String.ofList path.display) content)
    (next reply).execute
  | .flush next => do
    let reply ← attempt (do (← IO.getStdout).flush)
    (next reply).execute
  | .readLine next => do
    let reply ← attempt (do readLineFrom (← IO.getStdin) .empty)
    (next reply).execute
  | .print stream text next => do
    let handle ← match stream with
      | .output => IO.getStdout
      | .errors => IO.getStderr
    match ← attempt (printOn handle text) with
    | .ok () => next.execute
    | .error _ => return givenUp.toUInt32
  | .exit code => return code.toUInt32

/-- Colours are for terminals unless the environment asks for them, or asks not to have them. -/
def wantsColours : IO Bool := do
  if let some forced ← IO.getEnv "CLICOLOR_FORCE" then
    if forced ≠ "0" then
      return true
  if (← IO.getEnv "NO_COLOR").isSome then
    return false
  if (← IO.getEnv "CLICOLOR") = some "0" then
    return false
  (← IO.getStdout).isTty

end SumStar

def main (arguments : List String) : IO UInt32 := do
  let coloured ← SumStar.wantsColours
  let parsed := SumStar.Invocation.ofArguments (arguments.map String.toList)
  (SumStar.Plan.ofArguments coloured parsed).execute
