import PvsIndex.Command.Directory
import PvsIndex.Command.Pvs
import PvsIndex.Command.PvsLsp

/-! The two commands on the files and streams of the system. The name of the program tells which
one is meant. -/

namespace PvsIndex

/-- The system's numbers for a path through a file, a directory read as a file, and a path with a
name that is too long. -/
def FileError.ofSystem (code : UInt32) (message : String) : FileError :=
  let code := code.toInt32.toInt.natAbs
  if code = 20 then .notADirectory
  else if code = 21 then .isADirectory
  else if code = 36 then .nameTooLong
  else .system code message

def FileError.ofError : IO.Error → FileError
  | .noFileOrDirectory .. => .notFound
  | .inappropriateType _ code details => .ofSystem code details
  | .invalidArgument _ code details => .ofSystem code details
  | .permissionDenied _ code details => .ofSystem code details
  | .otherError code details => .ofSystem code details
  | error => .system 0 (toString error)

def readFile (path : String) : IO (Except FileError String) := do
  try
    return Directory.decodeFile (← IO.FS.readBinFile path).toList
  catch error =>
    return .error (.ofError error)

def readFiles (words : List String) : IO FileReader := do
  let contents ← words.mapM fun word => return (word, ← readFile word)
  return fun path => (contents.lookup path).getD (.error .notFound)

def Outcome.print (outcome : Outcome) : IO UInt32 := do
  IO.print outcome.stdout
  IO.eprint outcome.stderr
  return outcome.exit.toUInt32

partial def serveStream (server : Server) (ended : Bool) (stream : List UInt8) : IO UInt32 := do
  match PvsLsp.turn server ended stream with
  | .answer text next rest =>
    let stdout ← IO.getStdout
    stdout.putStr text
    stdout.flush
    match next with
    | none => return 0
    | some server => serveStream server ended rest
  | .wait =>
    let bytes ← (← IO.getStdin).read 4096
    serveStream server bytes.isEmpty (stream ++ bytes.toList)
  | .stop => return 0
  | .fail fault =>
    IO.eprintln fault.message
    return PvsLsp.faultExit.toUInt32

def runPvs (words : List String) : IO UInt32 := do
  (Pvs.run (← readFiles words) words).print

def runPvsLsp (words : List String) : IO UInt32 := do
  match PvsLsp.Arguments.ofWords words with
  | .ok (.start mode) => serveStream (.start mode) false []
  | _ => (PvsLsp.run words []).print

end PvsIndex

def main (words : List String) : IO UInt32 := do
  let program ← IO.appPath
  if program.fileName = some PvsIndex.Server.name then PvsIndex.runPvsLsp words
  else PvsIndex.runPvs words
