import Mathlib.Data.List.TakeWhile
import Mathlib.Tactic.SplitIfs
import ScoreScript.Script.Section

set_option autoImplicit false

namespace ScoreScript

theorem Text.cut_eq (c : CodePoint) (t : Text) :
    cut c t = (t.takeWhile (· ≠ c), if c ∈ t then some ((t.dropWhile (· ≠ c)).drop 1) else none) := by
  induction t with
  | nil => rfl
  | cons a rest ih =>
    by_cases here : a = c
    · simp [cut, here]
    · simp [cut, here, ih, Ne.symm here]

namespace Script

open Text

def isHeader (t : Text) : Bool := t.head? = some (.char '[') && t.getLast? = some (.char ']')

def headerName (t : Text) : Text := trim (t.drop 1).dropLast

def hasColon (t : Text) : Bool := .char ':' ∈ t

def keyOf (t : Text) : Text := trim (t.takeWhile (· ≠ .char ':'))

def valueOf (t : Text) : Text := trim ((t.dropWhile (· ≠ .char ':')).drop 1)

theorem bracketed?_eq (t : Text) :
    bracketed? t = if isHeader t then some (t.drop 1).dropLast else none := by
  unfold bracketed?
  split
  next rest =>
    cases rest with
    | nil => rfl
    | cons c rest => simp [isHeader]
  next other =>
    have closed : isHeader t = false := by
      cases t with
      | nil => rfl
      | cons c rest =>
        have differs : c ≠ .char '[' := fun same => other rest (by rw [same])
        simp [isHeader, differs]
    simp [closed]

theorem shapeOf_eq (t : Text) :
    shapeOf t = if isHeader t then .header (headerName t)
      else if hasColon t then .pair (keyOf t) (valueOf t)
      else if t = [] then .blank else .plain := by
  unfold shapeOf
  rw [bracketed?_eq, cut_eq]
  by_cases header : isHeader t = true
  · simp [header, headerName]
  · by_cases colon : CodePoint.char ':' ∈ t <;> simp [header, hasColon, colon, keyOf, valueOf]

namespace Reading

variable (r : Reading) (s : Section) (l : Line)

theorem closed_close : r.close.closed = r.closed ++ r.current.toList := by
  unfold close
  split
  next none => simp [none]
  next s found =>
    dsimp only
    split_ifs <;> simp [report, found]

@[simp]
theorem closed_enter : (r.enter s l).closed = r.closed := by
  simp only [enter, apply_ite Reading.closed, report, ite_self]

@[simp]
theorem current_enter : (r.enter s l).current = some { s with lines := s.lines ++ [l] } := by
  simp only [enter, apply_ite Reading.current, report, ite_self]

@[simp]
theorem key_enter : (r.enter s l).key = l.key := by
  simp only [enter, apply_ite Reading.key, report, ite_self]

theorem reports_enter :
    (r.enter s l).reports = r.reports ++ if isKey l.key then [] else [⟨.invalidKey, l.key, l.number⟩] := by
  unfold enter
  dsimp only
  split_ifs <;> simp [report]

def nameReports (s : Section) : List Diagnostic :=
  if isSectionName s.name then [] else [⟨.invalidSectionName, s.name, s.number⟩]

theorem reports_close : r.close.reports = r.reports ++ r.current.toList.flatMap nameReports := by
  unfold close
  split
  next none => simp [none]
  next s found =>
    dsimp only
    split_ifs with valid <;> simp [report, found, nameReports, valid]

variable {r} {raw : Text} (number : Nat)

theorem line_of_blank (blank : content raw = []) : r.line raw number = r := by
  rw [line, blank]
  rfl

theorem line_of_header (header : isHeader (content raw) = true) :
    r.line raw number = r.openSection (headerName (content raw)) number := by
  rw [line, shapeOf_eq, if_pos header]

theorem line_of_outside (present : content raw ≠ []) (plain : isHeader (content raw) = false)
    (outside : r.current = none) :
    r.line raw number = r.report .unexpectedTextOutsideSection (content raw) number := by
  rw [line, shapeOf_eq, plain, if_neg Bool.false_ne_true, if_neg present, outside]
  by_cases colon : hasColon (content raw) = true
  · rw [if_pos colon]
  · rw [if_neg colon]

variable {s}

theorem line_of_pair (plain : isHeader (content raw) = false) (colon : hasColon (content raw) = true)
    (opened : r.current = some s) :
    r.line raw number = r.enter s ⟨keyOf (content raw), valueOf (content raw), number⟩ := by
  rw [line, shapeOf_eq, plain, if_pos colon, opened]
  rfl

theorem line_of_plain (present : content raw ≠ []) (plain : isHeader (content raw) = false)
    (colonless : hasColon (content raw) = false) (opened : r.current = some s) :
    r.line raw number =
      if r.key = [] then r.report .unexpectedTextOutsideSection (content raw) number
      else r.enter s ⟨r.key, content raw, number⟩ := by
  rw [line, shapeOf_eq, plain, colonless, if_neg present, opened]
  rfl

theorem lines_append (r : Reading) (n : Nat) (raws more : List Text) :
    r.lines n (raws ++ more) = (r.lines n raws).lines (n + raws.length) more := by
  induction raws generalizing r n with
  | nil => rfl
  | cons raw rest ih =>
    rw [List.cons_append, Reading.lines, ih, Reading.lines, List.length_cons, Nat.add_right_comm, Nat.add_assoc]

theorem lines_of_blank {raws : List Text} (blank : ∀ raw ∈ raws, content raw = []) (n : Nat) :
    r.lines n raws = r := by
  induction raws generalizing n with
  | nil => rfl
  | cons raw rest ih =>
    obtain ⟨here, later⟩ := List.forall_mem_cons.1 blank
    rw [Reading.lines, line_of_blank n here, ih later]

end Reading

theorem splitOn_append (c : CodePoint) (t u : Text) :
    (t ++ c :: u).splitOn c = t.splitOn c ++ u.splitOn c := by
  rw [List.splitOn_eq_splitOnP, List.splitOnP_append_cons _ _ (by simp)]
  rfl

end Script

end ScoreScript
