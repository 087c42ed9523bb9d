import ScoreScript.Score.Control
import ScoreScript.Score.Instruments
import ScoreScript.Score.Music
import ScoreScript.Score.Sounds

set_option autoImplicit false

namespace ScoreScript.Score

def ofSections (settings : Settings) (sections : List Script.Section) : Except Fault Reading := do
  let r ← readHeader {} (Script.find? sections compositionName)
  let r ← readInstruments settings r (Script.find? sections instrumentsName)
  let r := readSequences r (Script.find? sections sequencesName)
  let r ← readSounds settings r (Script.find? sections soundsName)
  let r ← readMusic settings sections r
  readControl r (Script.find? sections controlName)

end ScoreScript.Score
