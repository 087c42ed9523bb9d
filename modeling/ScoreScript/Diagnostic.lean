import ScoreScript.Text.Basic

set_option autoImplicit false

namespace ScoreScript

inductive Diagnostic.Kind where
  | missingSection
  | undefinedSection
  | invalidSectionName
  | unexpectedTextOutsideSection
  | invalidKey
  | unexpectedKeyword
  | unsupportedTimeSignature
  | invalidTransposition
  | ccSyntaxError
  | syntaxError
  | invalidNote
  | noteTooLow
  | noteTooHigh
  | invalidDrum
  | invalidChord
  | fileNotFound
  | invalidEndpoint
  | deviceError
deriving DecidableEq, Repr

/-- A report on a line of the script; lines are numbered from one, and all else is an unknown line. -/
structure Diagnostic where
  kind : Diagnostic.Kind
  info : Text := []
  line : Int := 0
deriving DecidableEq, Repr

namespace Diagnostic

def Kind.isBlocking : Kind → Bool
  | .missingSection | .undefinedSection | .fileNotFound | .invalidEndpoint | .deviceError => true
  | _ => false

def Kind.phrase : Kind → String
  | .fileNotFound => "Cannot open file: "
  | .missingSection => "The section "
  | .undefinedSection => "The section "
  | .invalidEndpoint => "Failed to open the MIDI endpoint: "
  | .deviceError => "MIDI device error: "
  | .unexpectedKeyword => "Unexpected keyword: "
  | .unsupportedTimeSignature => "Unsupported time signature: "
  | .invalidTransposition => "Unsupported transposition: "
  | .invalidSectionName => "The section name "
  | .unexpectedTextOutsideSection => "Unexpected text outside of a section: "
  | .invalidKey => "The key name "
  | .invalidNote => "Invalid note: "
  | .noteTooHigh => "Note is too high: "
  | .noteTooLow => "Note is too low: "
  | .invalidDrum => "Invalid drum note: "
  | .invalidChord => "Invalid chord: "
  | .syntaxError => "Syntax error at: "
  | .ccSyntaxError => "Expected a CC name=number pair"

def Kind.ending : Kind → String
  | .missingSection => " is mandatory and cannot be found"
  | .undefinedSection => " cannot be found"
  | .invalidSectionName => " has an invalid syntax"
  | .invalidKey => " has an invalid syntax"
  | _ => ""

def isBlocking (d : Diagnostic) : Bool := d.kind.isBlocking

def message (d : Diagnostic) : Text :=
  let quoted : Text := if d.kind = .ccSyntaxError then [] else "'" ++ d.info ++ "'"
  d.kind.phrase ++ quoted ++ d.kind.ending

def messageAndLine (d : Diagnostic) : Text :=
  if d.line ≤ 0 then d.message
  else d.message ++ " (Error at line " ++ Text.ofInt d.line ++ ")"

def anyBlocking (reports : List Diagnostic) : Bool := reports.any isBlocking

end Diagnostic

end ScoreScript
