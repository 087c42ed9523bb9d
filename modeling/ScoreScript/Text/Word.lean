import ScoreScript.Text.Blank

set_option autoImplicit false

namespace ScoreScript.Text

def isBracket (c : CodePoint) : Bool :=
  c = '(' || c = ')' || c = '[' || c = ']' || c = '{' || c = '}'

def words (t : Text) : List Text :=
  go [] t
where
  -- The words of a text that starts inside the word `pending`.
  go (pending : Text) : Text → List Text
    | [] => finished pending
    | c :: rest =>
      if isBlank c then finished pending ++ go [] rest
      else if isBracket c then finished pending ++ [c] :: go [] rest
      else go (pending ++ [c]) rest
  -- A word that has ended, unless nothing was read of it.
  finished (pending : Text) : List Text :=
    if pending = [] then [] else [pending]

def readCall? (t : Text) : Option (Text × List Text) :=
  match cut '(' (trim t) with
  | (_, none) => none
  | (name, some rest) =>
    if .char '(' ∈ rest then none
    else
      match cut ')' rest with
      | (_, none) => none
      | (inner, some tail) =>
        if trim tail ≠ [] then none
        else
          let blanked : Text := inner.map fun c => if c = .char ',' then ' ' else c
          some (trim name, blankSeparated blanked)

def splitOutsideParens (separator : CodePoint) (t : Text) : List Text :=
  go [] 0 t
where
  -- The items of a text that starts inside `item`, with `depth` parentheses open.
  go (item : Text) (depth : Nat) : Text → List Text
    | [] => finished item
    | c :: rest =>
      let depth := if c = '(' then depth + 1 else if c = ')' then depth - 1 else depth
      if c = separator ∧ depth = 0 then finished item ++ go [] 0 rest
      else go (item ++ [c]) depth rest
  -- An item that has ended, unless it is blank.
  finished (item : Text) : List Text :=
    if trim item = [] then [] else [item]

def unquote (t : Text) : Text :=
  trimBoth (fun (c : CodePoint) => c = '"' || c = '\'') (trim t)

end ScoreScript.Text
