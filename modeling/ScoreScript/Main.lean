import ScoreScript.CommandLine.Run

set_option autoImplicit false

namespace ScoreScript.CommandLine

def readFile (path : Text) : IO FileContent := do
  let name := Text.shown path
  try
    return .bytes (← IO.FS.readBinFile name)
  catch error =>
    match error with
    | .noFileOrDirectory .. => return .missing
    | _ => return .unreadable

def parent (path : Text) : String :=
  Text.shown ((Text.of "/").intercalate (path.splitOn (.char '/')).dropLast)

def writeFile (path : Text) (artifact : Artifact) : IO (Option Obstacle) := do
  try
    if artifact matches .selection _ then IO.FS.createDirAll (parent path)
    IO.FS.writeBinFile path.shown artifact.bytes
    return none
  catch error =>
    match error with
    | .alreadyExists .. => return some .fileForDirectory
    | .inappropriateType .. => return some .directory
    | _ => return some .other

def usage : String :=
  "usage: scorescript --in FILE [--out FILE] [--config FILE] [--selection FILE] [--check] [--strict]"

end ScoreScript.CommandLine

open ScoreScript ScoreScript.CommandLine in
def main (arguments : List String) : IO UInt32 := do
  let directory := Text.of (toString (← IO.currentDir))
  let userConfig := (← IO.getEnv "HOME").map fun home =>
    Text.of (home ++ "/.config/scorescript/config.yaml")
  match ← run ⟨readFile, writeFile⟩ directory userConfig (arguments.map Text.of) with
  | .error fault =>
    IO.eprintln (fault.message.getD "invalid settings or selection").shown
    return 1
  | .ok outcome =>
    outcome.output.forM fun line => IO.println line.shown
    outcome.errors.forM fun line => IO.eprintln line.shown
    match outcome.ending with
    | .help => IO.println usage
    | .misuse => IO.eprintln usage
    | .faulty fault => IO.eprintln (fault.message.getD "fault").shown
    | _ => pure ()
    return UInt32.ofNat outcome.ending.exitCode
