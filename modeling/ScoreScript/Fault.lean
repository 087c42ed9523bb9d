import ScoreScript.Text.Quoted

set_option autoImplicit false

/-!
# Faults

The reasons for which an operation gives no answer at all. What is wrong with a script is never a
fault: it is reported as a diagnostic, and the script still compiles.
-/

namespace ScoreScript

inductive Obstacle where
  -- A directory stands in its place.
  | directory
  -- A file stands in the place of its directory.
  | fileForDirectory
  -- A file stands in the place of a directory further up.
  | fileOnTheWay
  | other
deriving DecidableEq, Repr

inductive Fault where
  -- An infinite value stands where a whole number is needed.
  | infiniteNumber
  -- An undefined value stands where a whole number is needed.
  | undefinedNumber
  -- A whole number is beyond the range of double precision.
  | numberTooLarge
  -- A quotient of whole numbers is beyond the range of double precision.
  | quotientTooLarge
  -- A text that is no numeral stands where a whole number is needed.
  | notANumeral (text : Text)
  -- A numeral has more digits than are read.
  | numeralTooLong (digits : Nat)
  -- A list, a table or nothing stands where a whole number is needed.
  | notNumeric
  -- Another value stands where a table is needed.
  | notATable
  -- An entry was to be set in a value that has no entries.
  | noEntries
  -- A number stands where a list is needed.
  | notAList
  -- A text was to be cut at the empty word.
  | emptySeparator
  -- The tempo does not fit into three bytes.
  | tempoOutOfRange
  -- The beats of a measure do not fit into one byte.
  | beatsOutOfRange
  -- A message would have to be written before its predecessor.
  | negativeDelta
  -- A text has a character outside Latin-1.
  | textNotLatin
  -- The ticks of a beat do not fit into two signed bytes.
  | resolutionOutOfRange
  -- A position outside a row is asked for.
  | outOfRange
  -- There is no score, or no selection, to work on yet.
  | nothingCompiled
  -- A file cannot be written.
  | notWritable (obstacle : Obstacle)
deriving DecidableEq, Repr

def Fault.message : Fault → Option Text
  | .infiniteNumber => some "cannot convert float infinity to integer"
  | .undefinedNumber => some "cannot convert float NaN to integer"
  | .numberTooLarge => some "int too large to convert to float"
  | .quotientTooLarge => some "integer division result too large for a float"
  | .notANumeral text =>
    -- Of a long text only the start is shown.
    some ("invalid literal for int() with base 10: " ++ (Text.quote text).take 200)
  | .numeralTooLong digits =>
    some ("Exceeds the limit (4300 digits) for integer string conversion: value has " ++
      Text.digits 10 digits ++
      " digits; use sys.set_int_max_str_digits() to increase the limit")
  | .emptySeparator => some "empty separator"
  | .tempoOutOfRange => some "attribute must be in range 0..16777215"
  | .beatsOutOfRange => some "attribute must be in range 0..255"
  | .negativeDelta => some "message time must be non-negative in MIDI file"
  | .notNumeric | .notATable | .noEntries | .notAList | .textNotLatin | .resolutionOutOfRange
  | .outOfRange | .nothingCompiled | .notWritable _ => none

namespace Fault

variable {α β : Type}

theorem bind_eq_ok {first : Except Fault α} {next : α → Except Fault β} {result : β} :
    first >>= next = .ok result ↔ ∃ value, first = .ok value ∧ next value = .ok result := by
  cases first with
  | error fault =>
    constructor
    · exact fun failed => nomatch failed
    · rintro ⟨_, failed, _⟩
      cases failed
  | ok value =>
    constructor
    · exact fun done => ⟨value, rfl, done⟩
    · rintro ⟨_, same, done⟩
      cases same
      exact done

theorem exists_ok_of_any {outcome : Except Fault α} {test : α → Bool}
    (passed : outcome.toOption.any test = true) : ∃ value, outcome = .ok value ∧ test value = true := by
  cases outcome with
  | error fault => cases passed
  | ok value => exact ⟨value, rfl, passed⟩

theorem foldlM_invariant_of_mem {step : β → α → Except Fault β} (keeps : β → Prop) {items : List α}
    (kept : ∀ item ∈ items, ∀ {state after}, keeps state → step state item = .ok after → keeps after)
    {state result : β} (start : keeps state) (done : items.foldlM step state = .ok result) :
    keeps result := by
  induction items generalizing state with
  | nil =>
    cases done
    exact start
  | cons item rest ih =>
    rw [List.foldlM_cons] at done
    obtain ⟨after, here, later⟩ := bind_eq_ok.1 done
    exact ih (fun other member => kept other (by simp [member])) (kept item (by simp) start here) later

theorem foldlM_invariant {step : β → α → Except Fault β} (keeps : β → Prop)
    (kept : ∀ {state item after}, keeps state → step state item = .ok after → keeps after)
    {items : List α} {state result : β} (start : keeps state)
    (done : items.foldlM step state = .ok result) : keeps result :=
  foldlM_invariant_of_mem keeps (fun _ _ => kept) start done

end Fault

end ScoreScript
