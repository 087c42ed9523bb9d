import ScoreScript.Proofs.RawLines

set_option autoImplicit false

namespace ScoreScript

namespace Script

namespace Reading

structure GrowsTo (r after : Reading) : Prop where
  closed : r.closed <+: after.closed
  reports : r.reports <+: after.reports

variable {r next after : Reading}

theorem GrowsTo.refl (r : Reading) : r.GrowsTo r := ⟨List.prefix_refl _, List.prefix_refl _⟩

theorem GrowsTo.trans (first : r.GrowsTo next) (second : next.GrowsTo after) : r.GrowsTo after :=
  ⟨first.closed.trans second.closed, first.reports.trans second.reports⟩

theorem growsTo_close (r : Reading) : r.GrowsTo r.close := by
  constructor
  · rw [closed_close]
    exact List.prefix_append _ _
  · rw [reports_close]
    exact List.prefix_append _ _

theorem growsTo_report (r : Reading) (kind : Diagnostic.Kind) (info : Text) (n : Nat) :
    r.GrowsTo (r.report kind info n) :=
  ⟨List.prefix_refl _, List.prefix_append _ _⟩

theorem growsTo_enter (r : Reading) (s : Section) (l : Line) : r.GrowsTo (r.enter s l) := by
  constructor
  · simp
  · rw [reports_enter]
    exact List.prefix_append _ _

theorem growsTo_openSection (r : Reading) (name : Text) (n : Nat) :
    r.close.GrowsTo (r.openSection name n) :=
  ⟨List.prefix_refl _, List.prefix_refl _⟩

theorem growsTo_line (r : Reading) (raw : Text) (n : Nat) : r.GrowsTo (r.line raw n) := by
  unfold line
  dsimp only
  cases shapeOf (content raw) with
  | blank => exact .refl r
  | header name => exact (growsTo_close r).trans (growsTo_openSection r name n)
  | pair key value =>
    cases r.current with
    | none => exact growsTo_report r _ _ n
    | some s => exact growsTo_enter r s _
  | plain =>
    cases r.current with
    | none => exact growsTo_report r _ _ n
    | some s =>
      dsimp only
      split
      · exact growsTo_report r _ _ n
      · exact growsTo_enter r s _

theorem growsTo_lines (r : Reading) (n : Nat) (raws : List Text) : r.GrowsTo (r.lines n raws) := by
  induction raws generalizing r n with
  | nil => exact .refl r
  | cons raw rest ih => exact (growsTo_line r raw n).trans (ih _ _)

theorem growsTo_headed (r : Reading) (n : Nat) {raws : List Text}
    (headed : ∀ raw ∈ raws.find? (content · ≠ []), isHeader (content raw) = true) :
    r.close.GrowsTo (r.lines n raws).close := by
  cases found : raws.find? (content · ≠ []) with
  | none =>
    have blank : ∀ raw ∈ raws, content raw = [] := by simpa using List.find?_eq_none.1 found
    rw [lines_of_blank blank]
    exact .refl _
  | some raw =>
    obtain ⟨-, before, later, rfl, blank⟩ := List.find?_eq_some_iff_append.1 found
    have blank : ∀ raw ∈ before, content raw = [] := by simpa using blank
    rw [lines_append, lines_of_blank blank, lines, line_of_header _ (headed raw found)]
    exact ((growsTo_openSection r _ _).trans (growsTo_lines _ _ later)).trans (growsTo_close _)

end Reading

/-- Text whose first line that is not blank is a header leaves the sections and the reports of the text
before it as they are, and puts its own behind them. -/
theorem appended_sections_stand_behind (first second : Text)
    (headed : ∀ raw ∈ (second.splitOn (.char '\n')).find? (content · ≠ []),
      isHeader (content raw) = true) :
    (parse first).1 <+: (parse (first ++ .char '\n' :: second)).1 ∧
      (parse first).2 <+: (parse (first ++ .char '\n' :: second)).2 := by
  have grows := Reading.growsTo_headed (Reading.lines {} 1 (first.splitOn (.char '\n')))
    (1 + (first.splitOn (.char '\n')).length) headed
  rw [← Reading.lines_append, ← splitOn_append] at grows
  exact ⟨grows.closed, grows.reports⟩

def verse : Text := "chords\n[verse]\ns: 1 2 // twice\n3 4\n[]"

def secondVerse : Text := "  // again\n\n[verse2]\ns: 5\n: 6"

theorem appended_sections_stand_behind_verse :
    (∀ raw ∈ (secondVerse.splitOn (.char '\n')).find? (content · ≠ []), isHeader (content raw) = true) ∧
      (parse verse).1 <+: (parse (verse ++ .char '\n' :: secondVerse)).1 ∧
      (parse verse).2 <+: (parse (verse ++ .char '\n' :: secondVerse)).2 := by
  have headed : ∀ raw ∈ (secondVerse.splitOn (.char '\n')).find? (content · ≠ []),
      isHeader (content raw) = true := by decide +kernel
  exact ⟨headed, appended_sections_stand_behind verse secondVerse headed⟩

end Script

end ScoreScript
