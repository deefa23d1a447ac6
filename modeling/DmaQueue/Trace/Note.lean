/-
  DmaQueue.Trace.Note

  Diagnostic notes: a level and a line of text.  A reader chooses a level and
  sees the notes of that level and of the more severe ones.
-/
import DmaQueue.Act

namespace DmaQueue

/-- How severe a note is; `warn` is the most severe level. -/
inductive Level where
  | warn
  | info
  | debug
  | trace
  deriving DecidableEq, Repr

namespace Level

/-- The place of a level, counted from the most severe one. -/
def rank : Level → Nat
  | .warn => 1
  | .info => 2
  | .debug => 3
  | .trace => 4

/-- The name of a level in a printed note. -/
def label : Level → String
  | .warn => "WARN"
  | .info => "INFO"
  | .debug => "DEBUG"
  | .trace => "TRACE"

end Level

/-- A line of diagnostic text. -/
structure Note where
  /-- How severe the note is. -/
  level : Level
  /-- What it says. -/
  text : String
  deriving DecidableEq, Repr

namespace Note

/-- Whether a reader at `threshold` sees the note. -/
def visibleAt (threshold : Level) (note : Note) : Bool :=
  note.level.rank ≤ threshold.rank

/-- The printed note: level, blank, text. -/
def line (note : Note) : String :=
  note.level.label ++ " " ++ note.text

end Note

end DmaQueue
