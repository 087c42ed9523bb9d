import ScoreScript.Script.Section
import ScoreScript.Score.Script
import ScoreScript.Selection
import ScoreScript.Timeline.Performance

set_option autoImplicit false

namespace ScoreScript

structure Compilation where
  score : Score
  timeline : Timeline
  reports : List Diagnostic
  selection : Selection

namespace Compilation

def isPlayable (c : Compilation) : Bool := !Diagnostic.anyBlocking c.reports

def timelineOf (settings : Settings) (score : Score) : Except Fault Timeline := do
  score.timeline (← settings.velocityFloor.toInt)

def ofText (settings : Settings) (earlier : Option Selection) (text : Text) :
    Except Fault Compilation := do
  let (sections, reports) := Script.parse text
  let reading ← Score.ofSections settings sections
  let score := reading.score.restore earlier
  let timeline ← timelineOf settings score
  return {
    score
    timeline
    reports := reports ++ reading.reports
    selection := Selection.after reading.score earlier }

end Compilation

def defaultLines : List String :=
  ["[composition]",
   "title: \"Untitled\"",
   "by: \"Someone\"",
   "time: 4/4",
   "BPM: 120",
   "transposition: 0",
   "playlist: intro",
   "",
   "[instruments]",
   "synth: \"MIDI Input\", channel=1, octave=3, velocity=80",
   "",
   "[intro]",
   "synth: 1 2 3 4 | 5 6 7 1'"]

def defaultScript : Text := defaultLines.flatMap fun line => Text.of line ++ "\n"

end ScoreScript
