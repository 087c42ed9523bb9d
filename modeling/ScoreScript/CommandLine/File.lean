import ScoreScript.Midi.File
import ScoreScript.Selection
import ScoreScript.Settings.Document

set_option autoImplicit false

namespace ScoreScript.CommandLine

inductive FileContent where
  | missing
  -- Something that cannot be read, such as a directory.
  | unreadable
  | bytes (content : ByteArray)

inductive LoadError where
  | notFound (path : Text)
  | notText (path : Text)
deriving DecidableEq, Repr

namespace LoadError

def path : LoadError → Text
  | notFound path | notText path => path

def message : LoadError → Text
  | notFound path => "Cannot open file: '" ++ path ++ "'"
  | notText path => "Cannot read '" ++ path ++ "' as UTF-8 text"

end LoadError

def withNewlines : Text → Text
  | .char '\r' :: .char '\n' :: rest => '\n' :: withNewlines rest
  | .char '\r' :: rest => '\n' :: withNewlines rest
  | c :: rest => c :: withNewlines rest
  | [] => []

namespace FileContent

def text? : FileContent → Option Text
  | .missing | .unreadable => none
  | .bytes content => (String.fromUTF8? content).map fun s => withNewlines (.of s)

def script (path : Text) (file : FileContent) : Except LoadError Text :=
  match file with
  | .missing => .error (.notFound path)
  | file =>
    match file.text? with
    | some text => .ok text
    | none => .error (.notText path)

def document (file : FileContent) : Except Fault (Option Settings.Value) :=
  match file.text? with
  | none => .ok none
  | some text => Settings.Value.ofDocument text

end FileContent

inductive Artifact where
  -- The chunks of a MIDI file.
  | midi (chunks : List (List Nat))
  | selection (selection : Selection)

def Artifact.bytes : Artifact → ByteArray
  | midi chunks => ⟨(chunks.flatten.map UInt8.ofNat).toArray⟩
  | selection s => (s.toDocument.toDocument ++ "\n").shown.toUTF8

def resolveSegments (done : List Text) : List Text → List Text
  | [] => done
  | segment :: rest =>
    if segment = [] ∨ segment = "." then resolveSegments done rest
    else if segment = ".." then resolveSegments done.dropLast rest
    else resolveSegments (done ++ [segment]) rest

def segmentsFrom (directory path : Text) : List Text :=
  (if path.head? = some '/' then path else directory ++ "/" ++ path).splitOn (.char '/')

def ofSegments (segments : List Text) : Text := '/' :: (Text.of "/").intercalate segments

def resolve (directory path : Text) : Text :=
  ofSegments (resolveSegments [] (segmentsFrom directory path))

/-- The absolute path of a path in which two points are left as they stand: they take a segment back only
where that segment is a directory. -/
def locate (directory path : Text) : Text :=
  ofSegments ((segmentsFrom directory path).filter fun segment => segment ≠ [] ∧ segment ≠ ".")

def stem (segment : Text) : Text :=
  let reversed := segment.reverse
  let ending := reversed.takeWhile (· ≠ .char '.')
  match reversed.drop ending.length with
  | _ :: name => if ending = [] ∨ name = [] then segment else name.reverse
  | [] => segment

def besideScript (path : Text) : Text :=
  let segments := path.splitOn (.char '/')
  (Text.of "/").intercalate (segments.dropLast ++ [stem (segments.getLast?.getD []) ++ ".mid"])

end ScoreScript.CommandLine
