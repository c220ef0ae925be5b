/-!
# Events

What a decomposer reports while it prepares or selects.
-/

namespace QuboSplit

/-- What happened. -/
inductive EventKind where
  | sizeAdapted
  | rollingRewind
  | variablesSelected
  | endOfStream
  | tilesGenerated
  | constraintGraphBuilt
  deriving DecidableEq

namespace EventKind

def text : EventKind → String
  | sizeAdapted => "size_adapted"
  | rollingRewind => "rolling_rewind"
  | variablesSelected => "variables_selected"
  | endOfStream => "end_of_stream"
  | tilesGenerated => "tiles_generated"
  | constraintGraphBuilt => "constraint_graph_built"

def all : List EventKind :=
  [sizeAdapted, rollingRewind, variablesSelected, endOfStream, tilesGenerated,
    constraintGraphBuilt]

/-- The kind of the given written form. -/
def ofText? (name : String) : Option EventKind := all.find? (·.text = name)

end EventKind

/-- A report: its kind, the name of the decomposer that makes it, the quantity it is about, and a
message that may be empty. -/
structure Event where
  kind : EventKind
  source : String
  value : Int
  message : String
  deriving DecidableEq

namespace Event

def text (e : Event) : String :=
  e.source ++ ": " ++ e.kind.text ++ " (" ++ toString e.value ++ ")" ++
    (if e.message = "" then "" else " " ++ e.message)

/-- Events written one after another, each on a line of its own. -/
def log (events : List Event) : String :=
  String.join (events.map fun e => e.text ++ "\n")

end Event

end QuboSplit
