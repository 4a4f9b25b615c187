import SetCover.Event
import SetCover.Statistics.Casing

/-!
# Recording statistics

A `Recorder` writes each statistic as a line with a label, the name and the value, once it has been
configured.  Only its first configuration counts.  A line that cannot be written is lost, which is
reported as an event.
-/

namespace SetCover

/-- Where the lines go. -/
inductive Writer where
  | buffer
  | standardOutput
  /-- Nowhere: every line is lost for a reason. -/
  | failing (reason : String)
deriving DecidableEq, Repr

/-- How statistics are written. -/
structure RecorderOptions where
  /-- What every line starts with. -/
  label : String
  /-- The line that closes the statistics of a run. -/
  closing : Option String := none
  /-- How names are spelled, unless they are kept. -/
  casing : Option Casing := none
  writer : Writer := .standardOutput
deriving DecidableEq, Repr

/-- The configuration, and the text written so far to either place. -/
structure Recorder where
  options : Option RecorderOptions := none
  buffer : String := ""
  standardOutput : String := ""
deriving DecidableEq, Repr

/-- The name of a statistic, made of parts. -/
structure StatisticName where
  text : String := ""
deriving DecidableEq, Repr

namespace StatisticName

/-- The parts joined by underscores. -/
def ofParts (parts : List String) : StatisticName := ⟨"_".intercalate parts⟩

/-- The name with a further part.  An empty name takes the part as it is. -/
def attach (name : StatisticName) (part : String) : StatisticName :=
  if name.text.isEmpty then ⟨part⟩ else ⟨s!"{name.text}_{part}"⟩

end StatisticName

namespace Recorder

/-- Sets the options, unless they have been set. -/
def configure (r : Recorder) (options : RecorderOptions) : Recorder :=
  match r.options with
  | none => { r with options := some options }
  | some _ => r

/-- Whether the options have been set. -/
def isConfigured (r : Recorder) : Bool := r.options.isSome

/-- Writes a line. -/
def write (r : Recorder) (writer : Writer) (line : String) : Recorder × List Event :=
  match writer with
  | .buffer => ({ r with buffer := s!"{r.buffer}{line}\n" }, [])
  | .standardOutput => ({ r with standardOutput := s!"{r.standardOutput}{line}\n" }, [])
  | .failing reason => (r, [.statisticLost reason])

/-- Writes a statistic, if the recorder is configured. -/
def record (r : Recorder) (name value : String) : Recorder × List Event :=
  match r.options with
  | none => (r, [])
  | some o =>
    let name := match o.casing with
      | some casing => casing.convert name
      | none => name
    r.write o.writer s!"{o.label} {name}={value}"

/-- Writes the closing line, if there is one. -/
def close (r : Recorder) : Recorder × List Event :=
  match r.options with
  | some ⟨_, some closing, _, writer⟩ => r.write writer closing
  | _ => (r, [])

/-- Writes several statistics whose names start alike. -/
def recordAll (r : Recorder) (name : StatisticName) :
    List (String × Nat) → Recorder × List Event
  | [] => (r, [])
  | (part, value) :: rest =>
    let (r, lost) := r.record (name.attach part).text (toString value)
    let (r, moreLost) := r.recordAll name rest
    (r, lost ++ moreLost)

/-- Writes the statistics of a run and the closing line. -/
def recordRun (r : Recorder) (name : StatisticName) (fields : List (String × Nat)) :
    Recorder × List Event :=
  let (r, lost) := r.recordAll name fields
  let (r, moreLost) := r.close
  (r, lost ++ moreLost)

end Recorder

end SetCover
