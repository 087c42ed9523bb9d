import ScoreScript.Settings.Value

set_option autoImplicit false

namespace ScoreScript

structure Settings where
  document : Table Settings.Value
  ticksPerBeat : Settings.Value
  stepVelocity : Settings.Value
  endpoint : Settings.Value
  instrumentVelocity : Settings.Value
  sound : Table Settings.Value
  velocityFloor : Settings.Value
  maxDepth : Settings.Value

namespace Settings

def entryOr (table : Table Value) (name : String) (default : Value) : Value :=
  (table.find? name).getD default

def subtable (table : Table Value) (name : String) : Except Fault (Table Value) :=
  match table.find? name with
  | none => .ok []
  | some (.table entries) => .ok entries
  | some _ => .error .notATable

def withEntries (table : Table Value) (defaults : List (String × Value)) : Table Value :=
  defaults.foldl (fun table entry => table.insertIfNew entry.1 entry.2) table

def soundDefaults : List (String × Value) :=
  [("volume", .int 100), ("step", .int 6), ("duration", .int 6), ("msec", .int 10), ("vdec", .int 3)]

def complete (document : Table Value) : Except Fault Settings := do
  let document := withEntries document [("ticks_per_beat", .int 960)]
  let defaults := withEntries (← subtable document "defaults") [("step_velocity", .int 80)]
  let instrument := withEntries (← subtable defaults "instrument")
    [("endpoint", .text "MIDI Input"), ("velocity", .int 100)]
  let sound := withEntries (← subtable defaults "sound") soundDefaults
  let strum := withEntries (← subtable document "strum") [("velocity_floor", .int 20)]
  let sequences := withEntries (← subtable document "sequences") [("max_depth", .int 8)]
  let defaults := (defaults.insert "instrument" (.table instrument)).insert
    "sound" (.table sound)
  return {
    document := ((document.insert "defaults" (.table defaults)).insert
      "strum" (.table strum)).insert "sequences" (.table sequences)
    ticksPerBeat := entryOr document "ticks_per_beat" (.int 960)
    stepVelocity := entryOr defaults "step_velocity" (.int 80)
    endpoint := entryOr instrument "endpoint" (.text "MIDI Input")
    instrumentVelocity := entryOr instrument "velocity" (.int 100)
    sound := sound
    velocityFloor := entryOr strum "velocity_floor" (.int 20)
    maxDepth := entryOr sequences "max_depth" (.int 8) }

def packaged : Table Value :=
  [("ticks_per_beat", .int 960),
    ("defaults", .table
      [("step_velocity", .int 80),
        ("instrument", .table
          [("endpoint", .text "MIDI Input"), ("velocity", .int 100)]),
        ("sound", .table (soundDefaults.map fun entry => (.of entry.1, entry.2)))]),
    ("strum", .table [("velocity_floor", .int 20)]),
    ("sequences", .table [("max_depth", .int 8)])]

def override (base overrides : Value) : Except Fault Settings :=
  match base, overrides with
  | .table base, .table entries => complete (Value.mergeEntries base entries)
  | _, .table ((_, .table _) :: _) => .error .notATable
  | _, .table (_ :: _) => .error .noEntries
  | _, _ => .error .notATable

/-- Settings from a partial document over the packaged ones. A document that says nothing changes
nothing. -/
def ofPartial (overrides : Value) : Except Fault Settings :=
  override (.table packaged) (if overrides.isTrue then overrides else .table [])

def documentOrEmpty (file : Option Value) : Value :=
  match file with
  | none => .table []
  | some value => if value.isTrue then value else .table []

def load (base user : Option Value) : Except Fault Settings :=
  override (documentOrEmpty base) (documentOrEmpty user)

def resolution (s : Settings) : Except Fault Int :=
  match s.ticksPerBeat.toInt with
  | .ok ticks => .ok ticks
  | .error .infiniteNumber => .error .infiniteNumber
  | .error _ => .ok 960

end Settings

end ScoreScript
