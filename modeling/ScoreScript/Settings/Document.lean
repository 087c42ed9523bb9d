import ScoreScript.Settings.Value
import ScoreScript.Text.Quoted

set_option autoImplicit false

/-!
# Documents of values

The text of a value: lists in square brackets, tables in braces with a colon between key and value,
texts in double quotes with backslash escapes. A quoted text may go over several lines, which are
folded into one. An empty document holds nothing. A document that is broken anywhere has no value.
-/

namespace ScoreScript.Settings

inductive Lexeme where
  -- A bracket, a brace, a comma or a colon.
  | mark (c : CodePoint)
  -- A text, or a value that is written without quotes; it may be a key if a colon follows it soon
  -- enough.
  | scalar (value : Value) (isKey : Bool)
  -- A whole number with more digits than are read.
  | longNumeral (digits : Nat)

namespace Lexeme

def isBreak (c : CodePoint) : Bool := c = '\n' || c = '\x85' || c = '\u2028' || c = '\u2029'

def isSpace (c : CodePoint) : Bool := c = ' ' || isBreak c

def isMark (c : CodePoint) : Bool :=
  c = '[' || c = ']' || c = '\x7b' || c = '\x7d' || c = ',' || c = ':'

def isAllowed (c : CodePoint) : Bool :=
  let n := c.toNat
  n = 0x09 || n = 0x0A || n = 0x0D || (0x20 ≤ n && n ≤ 0x7E) || n = 0x85 ||
    (0xA0 ≤ n && n ≤ 0xD7FF) || (0xE000 ≤ n && n ≤ 0xFFFD) || 0x10000 ≤ n

def isWhole (t : Text) : Bool :=
  t ≠ [] && t.all CodePoint.isDigit && (t.length = 1 || t.head? ≠ some '0')

/-- A number with a decimal point; an exponent needs its sign. -/
def readReal? (negative : Bool) (t : Text) : Option Value :=
  let (mantissa, exponent) := Text.cutExponent t
  match Text.cut '.' mantissa with
  | (_, none) => none
  | (whole, some fraction) =>
    let signed := match exponent with
      | none => true
      | some (.char '+' :: digits) | some (.char '-' :: digits) =>
        digits ≠ [] && digits.all CodePoint.isDigit
      | some _ => false
    if whole ≠ [] && whole.all CodePoint.isDigit && fraction.all CodePoint.isDigit && signed then
      (Text.readDecimal? t).map fun x => .real (if negative then x.neg else x)
    else none

def ofPlain (t : Text) (isKey : Bool) : Lexeme :=
  let (negative, size) := match t with
    | .char '-' :: rest => (true, rest)
    | _ => (false, t)
  if t = "null" then scalar .null isKey
  else if t = "true" then scalar (.bool true) isKey
  else if t = "false" then scalar (.bool false) isKey
  else if isWhole size then
    if Text.digitLimit < size.length then longNumeral size.length
    else
      let n : Int := Text.toIntOrZero size
      scalar (.int (if negative then -n else n)) isKey
  else scalar ((readReal? negative size).getD (.text t)) isKey

inductive Piece where
  | char (c : CodePoint)
  -- A blank or a line end, which may be folded.
  | space (c : CodePoint)
  -- An escaped line end.
  | join

def hexValue? (c : CodePoint) : Option Nat :=
  (Text.of "0123456789abcdef").idxOf? c.toLower

def hexNumber? (t : Text) : Option Nat :=
  (t.mapM hexValue?).map (·.foldl (fun n digit => 16 * n + digit) 0)

def simpleEscape? : CodePoint → Option CodePoint
  | .char '0' => some '\x00'
  | .char 'a' => some '\x07'
  | .char 'b' => some '\x08'
  | .char 't' | .char '\t' => some '\t'
  | .char 'n' => some '\n'
  | .char 'v' => some '\x0b'
  | .char 'f' => some '\x0c'
  | .char 'r' => some '\r'
  | .char 'e' => some '\x1b'
  | .char 'N' => some '\x85'
  | .char '_' => some '\xa0'
  | .char 'L' => some '\u2028'
  | .char 'P' => some '\u2029'
  | c => if c = ' ' ∨ c = '"' ∨ c = '\\' ∨ c = '/' then some c else none

def escapeWidth? : CodePoint → Option Nat
  | .char 'x' => some 2
  | .char 'u' => some 4
  | .char 'U' => some 8
  | _ => none

def readNumber? (width : Nat) (t : Text) : Option (CodePoint × Text) := do
  let c ← CodePoint.ofNat? (← hexNumber? (t.take width))
  if width ≤ t.length then some (c, t.drop width) else none

/-- Whether a text starts with three dashes or points by themselves, which would end the document at the
start of a line. -/
def isDocumentEnd (t : Text) : Bool :=
  (t.take 3 = "---" || t.take 3 = "...") &&
    (t.drop 3).head?.all fun (c : CodePoint) => isSpace c || c = '\t'

def readEscape? : Text → Option (Piece × Text)
  | [] => none
  | c :: rest =>
    if isBreak c then if isDocumentEnd rest then none else some (.join, rest)
    else
      match simpleEscape? c, escapeWidth? c with
      | some escaped, _ => some (.char escaped, rest)
      | none, some width => (readNumber? width rest).map fun read => (.char read.1, read.2)
      | none, none => none

theorem length_lt_of_readEscape? {t rest : Text} {piece : Piece}
    (found : readEscape? t = some (piece, rest)) : rest.length < t.length := by
  cases t with
  | nil => simp [readEscape?] at found
  | cons c others =>
    simp only [readEscape?] at found
    split at found
    · split at found
      · simp at found
      · simp only [Option.some.injEq, Prod.mk.injEq] at found
        obtain ⟨_, rfl⟩ := found
        simp
    · split at found
      · simp only [Option.some.injEq, Prod.mk.injEq] at found
        obtain ⟨_, rfl⟩ := found
        simp
      · obtain ⟨⟨read, after⟩, number, same⟩ := Option.map_eq_some_iff.1 found
        simp only [Prod.mk.injEq] at same
        obtain ⟨_, rfl⟩ := same
        simp only [readNumber?, Option.bind_eq_bind, Option.bind_eq_some_iff] at number
        obtain ⟨_, _, _, _, number⟩ := number
        split at number
        · simp only [Option.some.injEq, Prod.mk.injEq] at number
          obtain ⟨_, rfl⟩ := number
          simp only [List.length_drop, List.length_cons]; omega
        · simp at number
      · simp at found

def readQuoted? (t : Text) : Option (List Piece × Text) :=
  match t with
  | [] => none
  | c :: rest =>
    if c = '"' then some ([], rest)
    else if c = '\\' then
      match _h : readEscape? rest with
      | none => none
      | some (piece, others) => (readQuoted? others).map fun read => (piece :: read.1, read.2)
    else if isBreak c && isDocumentEnd rest then none
    else
      let piece : Piece := if isSpace c || c = '\t' then .space c else .char c
      (readQuoted? rest).map fun read => (piece :: read.1, read.2)
termination_by t.length
decreasing_by
  · have := length_lt_of_readEscape? _h
    simp only [List.length_cons]; omega
  · simp

theorem length_lt_of_readQuoted? {t rest : Text} {pieces : List Piece}
    (found : readQuoted? t = some (pieces, rest)) : rest.length < t.length := by
  fun_induction readQuoted? t generalizing pieces with
  | case1 => simp at found
  | case2 => simp_all
  | case3 => simp at found
  | case4 _ _ _ escape _ ih =>
    obtain ⟨⟨_, _⟩, read, same⟩ := Option.map_eq_some_iff.1 found
    simp only [Prod.mk.injEq] at same
    obtain ⟨_, rfl⟩ := same
    have := length_lt_of_readEscape? escape
    have := ih read
    simp only [List.length_cons]; omega
  | case5 => simp at found
  | case6 =>
    rename_i ih
    obtain ⟨⟨_, _⟩, read, same⟩ := Option.map_eq_some_iff.1 found
    simp only [Prod.mk.injEq] at same
    obtain ⟨_, rfl⟩ := same
    have := ih read
    simp only [List.length_cons]; omega

/-- What blanks and line ends between other pieces stand for. Blanks around a line end do not count. A
line end becomes a blank, or nothing if it was escaped; further line ends are kept, and so are the two
separators of lines and paragraphs. -/
def foldSpaces (joined : Bool) (spaces : Text) : Text :=
  let breaks : Text := (spaces.filter isBreak).map fun c => if c = .char '\x85' then '\n' else c
  match joined, breaks with
  | true, breaks => breaks
  | false, [] => spaces
  | false, first :: others =>
    if first ≠ '\n' then first :: others else if others = [] then " " else others

def fold (joined : Bool) (spaces : Text) : List Piece → Text
  | [] => foldSpaces joined spaces
  | .char c :: rest => foldSpaces joined spaces ++ c :: fold false [] rest
  | .space c :: rest => fold joined (spaces ++ [c]) rest
  | .join :: rest => foldSpaces joined spaces ++ fold true [] rest

def keyLimit : Nat := 1024

def isKeyBefore (t rest : Text) : Bool :=
  let after := rest.dropWhile fun (c : CodePoint) => c = ' '
  after.head? = some ':' && t.length - after.length ≤ keyLimit &&
    !(t.take (t.length - rest.length)).any isBreak

def all? (t : Text) : Option (List Lexeme) :=
  match t with
  | [] => some []
  | c :: rest =>
    if isSpace c then all? rest
    else if isMark c then (all? rest).map (mark c :: ·)
    else if c = '"' then
      match _h : readQuoted? rest with
      | none => none
      | some (pieces, others) =>
        (all? others).map (scalar (.text (fold false [] pieces)) (isKeyBefore (c :: rest) others) :: ·)
    else
      let plain := rest.takeWhile fun (c : CodePoint) => !isSpace c && !isMark c && c ≠ '"' && c ≠ '\t'
      let others := rest.drop plain.length
      if c = '\t' then none
      else
        (all? others).map (ofPlain (c :: plain) (isKeyBefore (c :: rest) others) :: ·)
termination_by t.length
decreasing_by
  · simp
  · simp
  · have := length_lt_of_readQuoted? _h
    simp only [List.length_cons]; omega
  · simp only [List.length_cons, List.length_drop]; omega

end Lexeme

/-- What is read from pieces: a value, and the numerals in it that are too long, by the number of their
digits. They stand in rows: the first row holds the value itself, the next one its items, and so on down.
Values are built row by row, so the first numeral of the first row that has one is the one to report. -/
structure Reading where
  value : Value
  excess : List (List Nat) := []

namespace Reading

def beside : List (List Nat) → List (List Nat) → List (List Nat)
  | [], right => right
  | left, [] => left
  | row :: left, other :: right => (row ++ other) :: beside left right

def rowsAbove (items : List Reading) : List (List Nat) :=
  [] :: (items.map Reading.excess).foldr beside []

def ofItems (items : List Reading) : Reading := ⟨.list (items.map Reading.value), rowsAbove items⟩

def ofEntries (entries : List (Text × Reading)) : Reading :=
  ⟨.table (entries.foldl (fun table entry => Table.insert table entry.1 entry.2.value) []),
    rowsAbove (entries.map Prod.snd)⟩

def firstExcess? (r : Reading) : Option Nat := r.excess.flatten.head?

mutual

def ofLexemes? : Nat → List Lexeme → Option (Reading × List Lexeme)
  | 0, _ => none
  | fuel + 1, pieces =>
    match pieces with
    | .scalar value _ :: rest => some (⟨value, []⟩, rest)
    | .longNumeral digits :: rest => some (⟨.null, [[digits]]⟩, rest)
    | .mark (.char '[') :: rest => readItems? fuel [] rest
    | .mark (.char '\x7b') :: rest => readEntries? fuel [] rest
    | _ => none

def readItems? : Nat → List Reading → List Lexeme → Option (Reading × List Lexeme)
  | 0, _, _ => none
  | fuel + 1, items, pieces =>
    match pieces with
    | .mark (.char ']') :: rest => some (ofItems items.reverse, rest)
    | _ =>
      match ofLexemes? fuel pieces with
      | some (item, .mark (.char ',') :: rest) => readItems? fuel (item :: items) rest
      | some (item, .mark (.char ']') :: rest) => some (ofItems (item :: items).reverse, rest)
      | _ => none

def readEntries? : Nat → List (Text × Reading) → List Lexeme → Option (Reading × List Lexeme)
  | 0, _, _ => none
  | fuel + 1, entries, pieces =>
    match pieces with
    | .mark (.char '\x7d') :: rest => some (ofEntries entries.reverse, rest)
    | .scalar (.text key) true :: .mark (.char ':') :: rest =>
      match ofLexemes? fuel rest with
      | some (value, .mark (.char ',') :: rest) => readEntries? fuel ((key, value) :: entries) rest
      | some (value, .mark (.char '\x7d') :: rest) =>
        some (ofEntries ((key, value) :: entries).reverse, rest)
      | _ => none
    | _ => none

end

end Reading

namespace Value

/-- The value of a document, if it has one; a mark of byte order at its start does not count. It is a
fault if the document is well written but has too long a numeral. -/
def ofDocument (t : Text) : Except Fault (Option Value) :=
  let t := match t with
    | .char '\uFEFF' :: rest => rest
    | t => t
  if !t.all Lexeme.isAllowed then .ok none
  else
    match Lexeme.all? t with
    | none => .ok none
    | some [] => .ok (some .null)
    | some pieces =>
      match Reading.ofLexemes? (2 * pieces.length + 1) pieces with
      | some (reading, []) =>
        match reading.firstExcess? with
        | none => .ok (some reading.value)
        | some digits => .error (.numeralTooLong digits)
      | _ => .ok none

def escaped (c : CodePoint) : Text :=
  let n := c.toNat
  if c = '"' ∨ c = '\\' then ['\\', c]
  else if 0x20 ≤ n ∧ n ≤ 0x7E then [c]
  else if n < 0x10000 then '\\' :: 'u' :: Text.hexDigits 4 n
  else '\\' :: 'U' :: Text.hexDigits 8 n

def documentText (t : Text) : Text :=
  "\"" ++ t.flatMap escaped ++ "\""

mutual

def toDocument : Value → Text
  | null => "null"
  | bool value => if value then "true" else "false"
  | int value => Text.ofInt value
  | real value => value.display
  | text value => documentText value
  | list items => "[" ++ documentItems items ++ "]"
  | table entries => "\x7b" ++ documentEntries entries ++ "\x7d"

def documentItems : List Value → Text
  | [] => []
  | [item] => toDocument item
  | item :: rest => toDocument item ++ ", " ++ documentItems rest

def documentEntries : List (Text × Value) → Text
  | [] => []
  | [(key, value)] => documentText key ++ ": " ++ toDocument value
  | (key, value) :: rest =>
    documentText key ++ ": " ++ toDocument value ++ ", " ++ documentEntries rest

end

end Value

end ScoreScript.Settings
