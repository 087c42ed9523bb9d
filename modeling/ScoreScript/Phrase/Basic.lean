import ScoreScript.Text.Basic
import ScoreScript.Text.Blank

set_option autoImplicit false

namespace ScoreScript.Phrase

def split (t : Text) : List Text := Text.fields '|' t

def name (phrase : Text) : Text := Text.trim (phrase.takeWhile (· ≠ '('))

def silence : Text := "."

end ScoreScript.Phrase
