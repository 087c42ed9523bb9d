import ScoreScript.Notation.Part
import ScoreScript.Step.Draft

set_option autoImplicit false

namespace ScoreScript.Notation

def tie : Text := "-"

def isDotted (word : Text) : Bool := 1 < word.length && word.getLast? = some '-'

def undotted (word : Text) : Text := if isDotted word then word.dropLast else word

def dottedLength (word : Text) (length : Int) : Int :=
  if isDotted word then length + length / 2 else length

def addPart (ctx : Context) (d : Step.Draft) : Part → Step.Draft
  | .literal name pitch => d.addLiteral name pitch (ctx.category = .drum)
  | .sample name => d.addSample name
  | .ornament ornament => d.addOrnament ornament
  | .drums letters => d.addDrums letters
  | .text text isChord =>
    let d := d.addText text
    if isChord && text ≠ "." && !ctx.chords.knows text then d.fail .invalidChord else d
  | .degrees word => d.addDegrees word ctx.octave ctx.transposition
  | .invalid kind text => (d.fail kind).mark text

def addPartText (ctx : Context) (chord : Text) (d : Step.Draft) (part : Text) : Step.Draft :=
  if part = [] then d.fail .syntaxError else addPart ctx d (.resolve ctx part chord)

def draftOf (ctx : Context) (chord word : Text) : Step.Draft :=
  ((word.splitOn (.char '/')).foldl (addPartText ctx chord) {}).markIfError word

def stepOf (ctx : Context) (word : Text) (length : Int) (chord : Text) : Step :=
  (draftOf ctx chord (undotted word)).finish ctx.velocity (dottedLength word length)

end ScoreScript.Notation
