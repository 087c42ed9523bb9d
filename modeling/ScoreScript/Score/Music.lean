import ScoreScript.Notation.Line
import ScoreScript.Phrase.Repetition
import ScoreScript.Score.Header
import ScoreScript.Settings

set_option autoImplicit false

namespace ScoreScript.Score

/-- The instrument of a line; one that the script does not declare has no octave. -/
def instrumentOf (c : Score) (stepVelocity : Int) (name : Text) : Instrument :=
  (c.instrument? name).getD { name, velocity := stepVelocity }

def contextOf (c : Score) (i : Instrument) : Notation.Context :=
  { grid := c.grid
    transposition := c.transposition
    octave := i.midiOctave
    velocity := i.velocity
    category := i.category
    literals := c.literals
    samples := c.samples
    ornaments := c.ornaments.map fun entry => (entry.1, some entry.2) }

def readMusicLine (c : Score) (stepVelocity : Int) (depth : Nat)
    (done : MusicalSection × List Diagnostic) (line : Script.Line) :
    MusicalSection × List Diagnostic :=
  let (s, reports) := done
  let (phrases, phraseReports) :=
    Phrase.ofLine c.sequences s.length depth line.number line.value
  let (measures, stepReports) :=
    Notation.addLine (contextOf c (instrumentOf c stepVelocity line.key))
      s.chordAt line.number (s.measuresOf line.key) phrases
  ({ s with measures := s.measures.insert line.key measures },
    reports ++ phraseReports ++ stepReports)

def readMusicLines (c : Score) (stepVelocity : Int) (depth : Nat) (s : Script.Section) :
    MusicalSection × List Diagnostic :=
  (s.moveFirst MusicalSection.chordInstrument).lines.foldl (readMusicLine c stepVelocity depth)
    ({ name := s.name }, [])

def readMusicalSection (settings : Settings) (c : Score) (s : Script.Section) :
    Except Fault (MusicalSection × List Diagnostic) := do
  let depth ← settings.maxDepth.toInt
  let stepVelocity ← settings.stepVelocity.toInt
  return readMusicLines c stepVelocity depth.toNat s

def readPlaylistItem (settings : Settings) (sections : List Script.Section) (line : Nat)
    (r : Reading) (name : Text) : Except Fault Reading :=
  match Script.find? sections name with
  | none => return r.report .undefinedSection name line
  | some s => do
    let (musical, reports) ← readMusicalSection settings r.score s
    return { score := { r.score with sections := r.score.sections ++ [musical] }
             reports := r.reports ++ reports }

def playedNames (c : Score) : List Text := (c.playlist.map (·.name)).eraseDups

def readMusic (settings : Settings) (sections : List Script.Section) (r : Reading) :
    Except Fault Reading :=
  let line := ((Script.find? sections compositionName).map
    (·.numberOf "playlist")).getD 0
  (playedNames r.score).foldlM (readPlaylistItem settings sections line) r

end ScoreScript.Score
