import ScoreScript.Main
import ScoreScript.Proofs.Tie
import ScoreScript.Proofs.Line
import ScoreScript.Proofs.TiedNotes
import ScoreScript.Proofs.StuckNotes
import ScoreScript.Proofs.Parts
import ScoreScript.Proofs.Playlist
import ScoreScript.Proofs.SlotOrder
import ScoreScript.Proofs.Events
import ScoreScript.Proofs.Origin
import ScoreScript.Sequencer.Rehearsal
import ScoreScript.Session
import ScoreScript.Proofs.Faults
import ScoreScript.Proofs.Totality
import ScoreScript.Proofs.Representable
import ScoreScript.Proofs.Cancellation
import ScoreScript.Proofs.Controlled
import ScoreScript.Proofs.Rounding
import ScoreScript.Proofs.SoundAlike
import ScoreScript.Proofs.Ticks
import ScoreScript.Proofs.StrumTime
import ScoreScript.Proofs.Replacement
import ScoreScript.Proofs.Ascent
import ScoreScript.Proofs.Export
import ScoreScript.Proofs.TrackTimes
import ScoreScript.Proofs.CurrentChord
import ScoreScript.Proofs.MeasureCount
import ScoreScript.Proofs.Continuation
import ScoreScript.Proofs.Ensemble
import ScoreScript.Proofs.SectionSize
import ScoreScript.Proofs.LineOrder
import ScoreScript.Proofs.Exchanged
import ScoreScript.Proofs.CoveredBar
import ScoreScript.Proofs.Ledger
import ScoreScript.Proofs.Inserted
import ScoreScript.Proofs.Appended
import ScoreScript.Proofs.Marks
import ScoreScript.Proofs.Restored
import ScoreScript.Proofs.WellFormed
import ScoreScript.Proofs.Blocking
import ScoreScript.Proofs.Recased
import ScoreScript.Proofs.UserSettings
import ScoreScript.Proofs.StrumDecay
import ScoreScript.Proofs.Arpeggio
import ScoreScript.Proofs.DegreeNotes
import ScoreScript.Proofs.PhraseWords
import ScoreScript.Proofs.SingleRounding
import ScoreScript.Proofs.ErrorReports
import ScoreScript.Proofs.ChordRequests
import ScoreScript.Proofs.DegreeGrammar
import ScoreScript.Proofs.Expansion
import ScoreScript.Proofs.Repetitions
import ScoreScript.Proofs.Substitution
import ScoreScript.Proofs.Playback
import ScoreScript.Proofs.KeyPatterns
import ScoreScript.Proofs.WordLayout
