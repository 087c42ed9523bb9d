import ScoreScript.Compilation
import ScoreScript.Position

set_option autoImplicit false

namespace ScoreScript

structure Session where
  score : Option Score := none
  selection : Option Selection := none

namespace Session

def compile (s : Session) (settings : Settings) (restores : Bool) (text : Text) :
    Except Fault (Session × Compilation) := do
  let c ← Compilation.ofText settings (if restores then s.selection else none) text
  return (⟨some c.score, some c.selection⟩, c)

def select (s : Session) (change : Selection → Selection) : Except Fault (Session × Selection) :=
  match s.selection with
  | none => .error .nothingCompiled
  | some selection => .ok ({ s with selection := some (change selection) }, change selection)

def timeline (s : Session) (settings : Settings) (restores : Bool) :
    Except Fault (Session × Score × Timeline) := do
  let floor ← settings.velocityFloor.toInt
  match s.score with
  | none => throw .nothingCompiled
  | some score =>
    let score := score.restore (if restores then s.selection else none)
    return ({ s with score := some score }, score, ← score.timeline floor)

def changeInstrument (s : Session) (position : Int) (change : Instrument → Instrument) :
    Except Fault (Session × Instrument) :=
  match s.score with
  | none => .error .nothingCompiled
  | some score =>
    match placeOf? score.instruments.length position with
    | none => .error .outOfRange
    | some place =>
      let i := change score.instruments[place]
      let instruments := score.instruments.set place i
      .ok ({ s with score := some { score with instruments } }, i)

end Session

end ScoreScript
