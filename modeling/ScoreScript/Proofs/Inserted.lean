import ScoreScript.Compilation
import ScoreScript.Proofs.ReportLines
import ScoreScript.Proofs.RawLines
import ScoreScript.Proofs.Reading
import ScoreScript.Proofs.Trimmed

set_option autoImplicit false

namespace ScoreScript

namespace Text

theorem not_mem_of_mem_splitOn {separator : CodePoint} {t part : Text}
    (member : part ∈ t.splitOn separator) : separator ∉ part := by
  rw [List.splitOn_eq_splitOnP] at member
  intro inside
  simpa using (mem_of_mem_splitOnP member separator inside).2

def insertLine (text : Text) (above : Nat) (line : Text) : Text :=
  let lines := text.splitOn (.char '\n')
  [.char '\n'].intercalate (lines.take above ++ line :: lines.drop above)

theorem splitOn_insertLine (text : Text) (above : Nat) {line : Text} (single : .char '\n' ∉ line) :
    (text.insertLine above line).splitOn (.char '\n') =
      (text.splitOn (.char '\n')).take above ++ line :: (text.splitOn (.char '\n')).drop above := by
  refine List.splitOn_intercalate _ (fun piece member => ?_) (by simp)
  rcases List.mem_append.1 member with front | member
  · exact not_mem_of_mem_splitOn (List.mem_of_mem_take front)
  · rcases List.mem_cons.1 member with rfl | back
    · exact single
    · exact not_mem_of_mem_splitOn (List.mem_of_mem_drop back)

theorem trim_slashes (comment : Text) : trim ("//" ++ comment) = "//" ++ trimRight isBlank comment :=
  trim_append_of_ends (by decide) (by decide) (by decide) comment

def IsRemark (line : Text) : Prop :=
  .char '\n' ∉ line ∧ ∃ w, AllBlank w ∧ (line = w ∨ ∃ comment : Text, line = w ++ "//" ++ comment)

end Text

namespace Script

theorem content_of_isRemark {line : Text} (remark : line.IsRemark) : content line = [] := by
  obtain ⟨-, w, blank, rfl | ⟨comment, rfl⟩⟩ := remark
  · rw [content, Text.trim_eq_nil blank]
    rfl
  · rw [content, List.append_assoc, Text.trim_append_left blank, Text.trim_slashes]
    rfl

namespace Reading

variable (f : Nat → Nat) (r : Reading)

def renumber (r : Reading) : Reading :=
  { r with
    closed := r.closed.map (Section.renumber f)
    current := r.current.map (Section.renumber f)
    reports := r.reports.map (Diagnostic.renumber f) }

@[simp]
theorem current_renumber : (r.renumber f).current = r.current.map (Section.renumber f) := rfl

@[simp]
theorem key_renumber : (r.renumber f).key = r.key := rfl

theorem report_renumber (kind : Diagnostic.Kind) (info : Text) (n : Nat) :
    (r.renumber f).report kind info (f n) = (r.report kind info n).renumber f := by
  simp only [report, renumber, List.map_append]
  rfl

theorem close_renumber : (r.renumber f).close = r.close.renumber f := by
  cases opened : r.current with
  | none => simp only [close, renumber, opened, Option.map]
  | some s =>
    by_cases valid : isSectionName s.name = true <;>
      simp [close, renumber, opened, Section.renumber, valid, report]

theorem inherited_renumber (name : Text) :
    (r.renumber f).inherited name = (r.inherited name).map (Line.renumber f) := by
  unfold inherited
  cases parentName? name with
  | none => rfl
  | some parent =>
    rw [Option.bind_some, Option.bind_some]
    dsimp only [renumber]
    rw [find?_map_renumber]
    cases find? r.closed parent <;> rfl

theorem openSection_renumber (name : Text) (n : Nat) :
    (r.renumber f).openSection name (f n) = (r.openSection name n).renumber f := by
  simp only [openSection, close_renumber, inherited_renumber]
  rfl

theorem enter_renumber (s : Section) (l : Line) :
    (r.renumber f).enter (s.renumber f) (l.renumber f) = (r.enter s l).renumber f := by
  by_cases valid : isKey l.key = true <;>
    simp [enter, renumber, Section.renumber, Line.renumber, valid, report]

theorem line_renumber (raw : Text) (n : Nat) :
    (r.renumber f).line raw (f n) = (r.line raw n).renumber f := by
  unfold line
  dsimp only
  cases shapeOf (content raw) with
  | blank => rfl
  | header name => exact openSection_renumber f r name n
  | pair key value =>
    cases opened : r.current with
    | none =>
      rw [current_renumber, opened]
      exact report_renumber f r _ _ n
    | some s =>
      rw [current_renumber, opened]
      exact enter_renumber f r s ⟨key, value, n⟩
  | plain =>
    cases opened : r.current with
    | none =>
      rw [current_renumber, opened]
      exact report_renumber f r _ _ n
    | some s =>
      rw [current_renumber, opened]
      by_cases unnamed : r.key = []
      · simp only [Option.map, key_renumber, unnamed, if_true]
        exact report_renumber f r _ _ n
      · simp only [Option.map, key_renumber, unnamed, if_false]
        exact enter_renumber f r s ⟨r.key, content raw, n⟩

theorem lines_renumber (n k : Nat) (raws : List Text) (moved : ∀ i < raws.length, f (n + i) = k + i) :
    (r.renumber f).lines k raws = (r.lines n raws).renumber f := by
  induction raws generalizing r n k with
  | nil => rfl
  | cons raw rest ih =>
    have here : f n = k := moved 0 (by simp)
    rw [lines, lines, ← here, line_renumber, here]
    refine ih _ _ _ fun i inside => ?_
    rw [Nat.add_right_comm, Nat.add_right_comm k]
    exact moved (i + 1) (by simpa using inside)

end Reading

def pushed (above n : Nat) : Nat := if above < n then n + 1 else n

theorem parse_insertLine (text : Text) (above : Nat) {line : Text} (remark : line.IsRemark) :
    parse (text.insertLine above line) =
      (parse text).map (List.map (Section.renumber (pushed above)))
        (List.map (Diagnostic.renumber (pushed above))) := by
  have blank := content_of_isRemark remark
  have raws := List.take_append_drop above (text.splitOn (.char '\n'))
  generalize front : (text.splitOn (.char '\n')).take above = before at raws
  generalize back : (text.splitOn (.char '\n')).drop above = after at raws
  have size : before.length = min above (before.length + after.length) := by
    rw [← front, ← back, List.length_take, List.length_drop]
    omega
  have kept : (Reading.lines {} 1 before).renumber (pushed above) = Reading.lines {} 1 before := by
    refine (Reading.lines_renumber (pushed above) {} 1 1 before fun i inside => ?_).symm
    exact if_neg (by omega)
  have moved : (Reading.lines {} 1 before).lines (1 + before.length + 1) after =
      ((Reading.lines {} 1 before).lines (1 + before.length) after).renumber (pushed above) := by
    rw [← Reading.lines_renumber _ _ _ (1 + before.length + 1), kept]
    intro i inside
    rw [pushed, if_pos (by omega), Nat.add_right_comm]
  simp only [parse, text.splitOn_insertLine above remark.1, front, back]
  rw [← raws, Reading.lines_append, Reading.lines, Reading.line_of_blank _ blank, moved,
    Reading.close_renumber, ← Reading.lines_append]
  rfl

end Script

namespace Compilation

open Script

/-- A blank line or a comment, wherever it is put, changes nothing but the numbers of the lines that stand
below it in the reports. -/
theorem inserted_line_pushes_reports (settings : Settings) (earlier : Option Selection) (text : Text)
    (above : Nat) (line : Text) (remark : line.IsRemark) :
    ofText settings earlier (text.insertLine above line) =
      (ofText settings earlier text).map fun c =>
        { c with reports := c.reports.map (Diagnostic.renumber (pushed above)) } := by
  have zero : pushed above 0 = 0 := if_neg (Nat.not_lt_zero _)
  unfold ofText
  rw [parse_insertLine text above remark]
  dsimp only [Prod.map]
  rw [Score.ofSections_renumber _ zero]
  refine bind_map_view (fun reading => ?_) _
  dsimp only [Score.Reading.score_renumber]
  refine bind_same_view (fun timeline => ?_) _
  simp only [Score.Reading.renumber, ← List.map_append]
  rfl

def faultyTune : Text :=
  "a tune\n[composition]\nplaylist: a, b\n[instruments]\nsynth: octave=3\n[a]\nsynth: 1 ?"

def hiddenHeader : Text := "\t // [b]"

theorem isRemark_hiddenHeader : hiddenHeader.IsRemark :=
  ⟨by decide, "\t ", by simp only [Text.AllBlank]; decide, .inr ⟨" [b]", rfl⟩⟩

theorem inserted_line_pushes_reports_of_faultyTune :
    hiddenHeader.IsRemark ∧
      ofText bareSettings none (faultyTune.insertLine 2 hiddenHeader) =
        (ofText bareSettings none faultyTune).map fun c =>
          { c with reports := c.reports.map (Diagnostic.renumber (pushed 2)) } :=
  ⟨isRemark_hiddenHeader,
    inserted_line_pushes_reports bareSettings none faultyTune 2 hiddenHeader isRemark_hiddenHeader⟩

example : ((ofText bareSettings none (faultyTune.insertLine 2 hiddenHeader)).toOption.map fun c =>
    c.reports.map fun d => (d.kind, d.line)) =
      some [(.unexpectedTextOutsideSection, 1), (.syntaxError, 8), (.undefinedSection, 4)] := by
  decide +kernel

end Compilation

end ScoreScript
