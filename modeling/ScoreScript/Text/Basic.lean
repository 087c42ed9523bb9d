import ScoreScript.Text.CodePoint

set_option autoImplicit false

namespace ScoreScript

namespace Text

def trimRight (drop : CodePoint → Bool) (t : Text) : Text :=
  (t.reverse.dropWhile drop).reverse

def trimBoth (drop : CodePoint → Bool) (t : Text) : Text :=
  trimRight drop (t.dropWhile drop)

def cut (separator : CodePoint) : Text → Text × Option Text
  | [] => ([], none)
  | c :: rest =>
    if c = separator then ([], some rest)
    else (c :: (cut separator rest).1, (cut separator rest).2)

theorem cut_eq_none_iff {separator : CodePoint} {t : Text} :
    (cut separator t).2 = none ↔ separator ∉ t := by
  induction t with
  | nil => simp [cut]
  | cons c rest ih =>
    by_cases same : c = separator
    · simp [cut, same]
    · simp [cut, same, ih, Ne.symm same]

theorem cut_append {separator : CodePoint} {first : Text} (rest : Text) (absent : separator ∉ first) :
    cut separator (first ++ separator :: rest) = (first, some rest) := by
  induction first with
  | nil => simp [cut]
  | cons c first ih =>
    simp only [List.mem_cons, not_or] at absent
    simp [cut, Ne.symm absent.1, ih absent.2]

theorem splitOn_of_notMem {separator : CodePoint} {t : Text} (absent : separator ∉ t) :
    t.splitOn separator = [t] := by
  rw [List.splitOn_eq_splitOnP]
  refine List.splitOnP_eq_singleton fun c member => ?_
  exact beq_eq_false_iff_ne.2 fun same => absent (same ▸ member)

def fields (separator : CodePoint) (t : Text) : List Text :=
  (t.splitOn separator).filter (· ≠ [])

/-- The pieces between the occurrences of a word, taken from the left without overlap.
The word must not be empty: an empty word cuts nowhere. -/
def splitOnWord (word : Text) (t : Text) : List Text :=
  if _cuts : word ≠ [] ∧ word.isPrefixOf t ∧ t ≠ [] then
    [] :: splitOnWord word (t.drop word.length)
  else
    match t with
    | [] => [[]]
    | c :: rest => (splitOnWord word rest).modifyHead (c :: ·)
termination_by t.length
decreasing_by
  · have := List.length_pos_iff.2 _cuts.1
    have := List.length_pos_iff.2 _cuts.2.2
    simp only [List.length_drop]; omega
  · simp

def replaceAll (word new : Text) (t : Text) : Text :=
  new.intercalate (splitOnWord word t)

def hasWord (word : Text) : Text → Bool
  | [] => word.isEmpty
  | c :: rest => word.isPrefixOf (c :: rest) || hasWord word rest

def beforeWord (word : Text) : Text → Text
  | [] => []
  | c :: rest => if word.isPrefixOf (c :: rest) then [] else c :: beforeWord word rest

def lower (t : Text) : Text := t.map CodePoint.toLower

def ofInt (n : Int) : Text :=
  match n with
  | .ofNat m => Text.digits 10 m
  | .negSucc m => '-' :: Text.digits 10 (m + 1)

def le : Text → Text → Bool
  | [], _ => true
  | _ :: _, [] => false
  | a :: s, b :: t => a.toNat < b.toNat || (a = b && le s t)

end Text

end ScoreScript
