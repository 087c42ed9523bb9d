import ScoreScript.Text.Basic
import ScoreScript.Text.Digit

set_option autoImplicit false

namespace ScoreScript.Script

def isWordChar (extra : Text) (c : CodePoint) : Bool := c.isAlphanum || extra.contains c

def isKeyword : Text → Bool
  | [] => false
  | c :: rest => c.isAlpha && rest.all (isWordChar "_-")

def isSectionName (name : Text) : Bool := isKeyword name

def withoutSlash : Text → Text
  | .char '/' :: rest => rest
  | key => key

def isPath (key : Text) : Bool :=
  let segments := (withoutSlash key).splitOn (.char '/')
  2 ≤ segments.length && segments.all (· ≠ []) &&
    (withoutSlash key).head?.any CodePoint.isAlpha &&
    segments.all (·.all (isWordChar "_-."))

def isKey (key : Text) : Bool := isKeyword key || isPath key

/-- The name of the section whose lines a section starts with: `verse` for `verse2`. -/
def parentName? (name : Text) : Option Text :=
  if 1 < name.length ∧ name.getLast?.any Text.showsDigit then some name.dropLast else none

example : parentName? "verse2" = some "verse" := by decide

end ScoreScript.Script
