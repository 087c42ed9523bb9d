import ScoreScript.Text.Digit

set_option autoImplicit false

namespace ScoreScript.CommandLine

inductive Switch where
  | input
  | output
  | config
  | selection
  | check
  | strict
  | help
deriving DecidableEq, Repr

namespace Switch

def spellings : List (Text × Switch) :=
  [("-h", help), ("--help", help), ("--in", input), ("--out", output), ("--config", config),
    ("--selection", selection), ("--check", check), ("--strict", strict)].map
      fun entry => (.of entry.1, entry.2)

def takesValue : Switch → Bool
  | input | output | config | selection => true
  | check | strict | help => false

end Switch

inductive Argument where
  -- A value of an option, or a word out of place.
  | value
  -- Two dashes, after which no options are read.
  | separator
  | switch (switch : Switch) (value : Option Text)
  | unknown
  | ambiguous
deriving DecidableEq, Repr

def withoutLineEnd (t : Text) : Text := if t.getLast? = some '\n' then t.dropLast else t

def isNegativeNumber (t : Text) : Bool :=
  match withoutLineEnd t with
  | .char '-' :: rest =>
    let digits (t : Text) : Bool := t.all fun c => (Text.digitValue? c).isSome
    match Text.cut '.' rest with
    | (whole, none) => whole ≠ [] && digits whole
    | (whole, some fraction) => digits whole && fraction ≠ [] && digits fraction
  | _ => false

/-- The options that an argument may be short for, each with its value. A letter after a single dash
may be repeated. -/
def abbreviations (t : Text) : List (Switch × Option Text) :=
  if (Text.of "--").isPrefixOf t then
    let (start, value) := Text.cut '=' t
    (Switch.spellings.filter fun entry => start.isPrefixOf entry.1).map fun entry => (entry.2, value)
  else
    Switch.spellings.filterMap fun entry =>
      if entry.1 = t.take 2 then
        some (entry.2, if (t.drop 2).all (entry.1.getLast? = some ·) then none else some (t.drop 2))
      else if t.isPrefixOf entry.1 then some (entry.2, none)
      else none

def Argument.ofText (t : Text) : Argument :=
  if t.head? ≠ some '-' ∨ t.length = 1 then .value
  else if t = "--" then .separator
  else
    let exact (t : Text) : Option Switch := Switch.spellings.lookup t
    let (start, given) := Text.cut '=' t
    match exact t, if given.isSome then exact start else none with
    | some found, _ => .switch found none
    | none, some found => .switch found given
    | none, none =>
        match abbreviations t with
        | [(found, short)] => .switch found short
        | _ :: _ :: _ => .ambiguous
        | [] => if isNegativeNumber t || ' ' ∈ t then .value else .unknown

structure Options where
  input : Option Text := none
  output : Option Text := none
  config : Option Text := none
  selection : Option Text := none
  check : Bool := false
  strict : Bool := false
deriving DecidableEq, Repr

inductive Request where
  | options (input : Text) (options : Options)
  | help
  | misuse
deriving DecidableEq, Repr

namespace Options

def set (o : Options) (switch : Switch) (value : Text) : Options :=
  match switch with
  | .input => { o with input := some value }
  | .output => { o with output := some value }
  | .config => { o with config := some value }
  | .selection => { o with selection := some value }
  | .check | .strict | .help => o

def turnOn (o : Options) (switch : Switch) : Options :=
  match switch with
  | .check => { o with check := true }
  | .strict => { o with strict := true }
  | .input | .output | .config | .selection | .help => o

def read (o : Options) (stray : Bool) : List Text → Request
  | [] =>
    match o.input with
    | some input => if stray then .misuse else .options input o
    | none => .misuse
  | argument :: rest =>
    match Argument.ofText argument with
    | .value | .unknown => read o true rest
    | .separator | .ambiguous => .misuse
    | .switch .help none => .help
    | .switch switch value =>
      if switch.takesValue then
        match value with
        | some value => read (o.set switch value) stray rest
        | none =>
          match rest with
          | [] => .misuse
          | next :: others =>
            if Argument.ofText next = .value then read (o.set switch next) stray others else .misuse
      else if value.isSome then .misuse
      else read (o.turnOn switch) stray rest

end Options

def Request.ofArguments (arguments : List Text) : Request :=
  let read := arguments.takeWhile fun argument => Argument.ofText argument ≠ .separator
  if read.any fun argument => Argument.ofText argument = .ambiguous then .misuse
  else Options.read {} false arguments

end ScoreScript.CommandLine
