import ScoreScript.CommandLine.File
import ScoreScript.CommandLine.Options
import ScoreScript.Compilation
import ScoreScript.Midi.File

set_option autoImplicit false

namespace ScoreScript.CommandLine

structure Disk (m : Type → Type) where
  read : Text → m FileContent
  write : Text → Artifact → m (Option Obstacle)

inductive Ending where
  -- All is done.
  | done
  -- The script cannot be read.
  | unreadable
  -- The compiler or the export has a fault.
  | faulty (fault : Fault)
  -- The script has blocking reports, which were asked to count.
  | blocked
  -- The arguments ask for help.
  | help
  -- The arguments make no sense.
  | misuse
deriving DecidableEq, Repr

def Ending.exitCode : Ending → Nat
  | done | help => 0
  | unreadable => 1
  | faulty _ | misuse => 2
  | blocked => 3

structure Outcome where
  output : List Text := []
  errors : List Text := []
  ending : Ending := .done

namespace Outcome

def line (t : Text) : Text := "[cli] " ++ t

def print (o : Outcome) (t : Text) : Outcome := { o with output := o.output ++ [line t] }

def printError (o : Outcome) (t : Text) : Outcome := { o with errors := o.errors ++ [line t] }

def endWith (o : Outcome) (ending : Ending) : Outcome := { o with ending }

end Outcome

def reportLine (d : Diagnostic) : Text :=
  (if d.isBlocking then "ERROR: " else "WARNING: ") ++ d.messageAndLine

def summary (c : Compilation) : Text :=
  let count (name : String) (n : Nat) : Text := name ++ "=" ++ Text.digits 10 n
  (Text.of " ").intercalate ["Done.", count "sections" c.score.sections.length,
    count "measures" c.score.measureCount, count "notes" c.timeline.noteOnCount,
    count "diagnostics" c.reports.length]

def given (value : Option Text) : Option Text := value.filter (· ≠ [])

variable {m : Type → Type} [Monad m]

def readDocument (disk : Disk m) (path : Option Text) :
    m (Except Fault (Option Settings.Value)) := do
  match path with
  | none => return .ok none
  | some path => return (← disk.read path).document

def writeMidi (disk : Disk m) (settings : Settings) (path : Text) (c : Compilation) (o : Outcome) :
    m Outcome := do
  let chunks : Except Fault (List (List Nat)) := do
    Midi.file c.timeline (Midi.resolutionOr (some (← settings.resolution)))
  match chunks with
  | .error fault => return o.endWith (.faulty fault)
  | .ok chunks =>
    match ← disk.write path (.midi chunks) with
    | none => return o.print ("midi      -> " ++ path)
    | some obstacle => return o.endWith (.faulty (.notWritable obstacle))

def finish (disk : Disk m) (settings : Settings) (input : Text) (output selection : Option Text)
    (options : Options) (c : Compilation) (o : Outcome) : m (Except Fault Outcome) := do
  let o := c.reports.foldl (fun o d => o.printError (reportLine d)) o
  let kept : Except Fault Outcome ← match selection with
    | none => pure (.ok o)
    | some path => do
      match ← disk.write path (.selection c.selection) with
      | none => pure (.ok (o.print ("selection -> " ++ path)))
      | some obstacle => pure (.error (.notWritable obstacle))
  match kept with
  | .error fault => return .error fault
  | .ok o =>
    if options.strict && !c.isPlayable then
      return .ok ((o.printError "blocking diagnostics, no output written").endWith .blocked)
    else
      let o ← if options.check then pure o
        else writeMidi disk settings (output.getD (besideScript input)) c o
      if o.ending = .done then return .ok (o.print (summary c)) else return .ok o

def compileScript (disk : Disk m) (directory : Text) (userConfig : Option Text) (input : Text)
    (options : Options) (text : Text) : m (Except Fault Outcome) := do
  let configPath := match given options.config with
    | some path => some (locate directory path)
    | none => userConfig
  let config ← readDocument disk configPath
  let selectionPath := (given options.selection).map (resolve directory)
  let selectionDocument ← readDocument disk selectionPath
  let prepared : Except Fault (Settings × Option Selection) := do
    let settings ← Settings.load (some (.table Settings.packaged)) (← config)
    match selectionPath with
    | none => return (settings, none)
    | some _ => return (settings, some (← Selection.ofDocument (← selectionDocument)))
  match prepared with
  | .error fault => return .error fault
  | .ok (settings, earlier) =>
    let o := Outcome.print {} ("infile = " ++ input)
    match Compilation.ofText settings earlier text with
    | .error fault => return .ok (o.endWith (.faulty fault))
    | .ok c =>
      finish disk settings input ((given options.output).map (resolve directory)) selectionPath
        options c o

/-- Runs the command line in a directory. A fault in a settings or selection file, or a selection that
cannot be written, ends the run without an outcome. -/
def run (disk : Disk m) (directory : Text) (userConfig : Option Text) (arguments : List Text) :
    m (Except Fault Outcome) := do
  match Request.ofArguments arguments with
  | .help => return .ok { ending := .help }
  | .misuse => return .ok { ending := .misuse }
  | .options input options =>
    let input := resolve directory input
    match (← disk.read input).script input with
    | .error error =>
      return .ok ((Outcome.printError {} ("ERROR: " ++ error.message)).endWith .unreadable)
    | .ok text => compileScript disk directory userConfig input options text

end ScoreScript.CommandLine
