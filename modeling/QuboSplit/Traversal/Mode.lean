import QuboSplit.Fault

/-!
# Traversal modes

The orders in which ranked variables can be selected.
-/

namespace QuboSplit

/-- An order of selection: by gain alone, breadth first, or by gain along interactions. -/
inductive Traversal where
  | energy
  | breadthFirst
  | priorityFirst
  deriving DecidableEq

namespace Traversal

def text : Traversal → String
  | energy => "energy"
  | breadthFirst => "bfs"
  | priorityFirst => "pfs"

/-- The mode of the given written form. -/
def ofText (name : String) : Except Fault Traversal :=
  if name = energy.text then .ok energy
  else if name = breadthFirst.text then .ok breadthFirst
  else if name = priorityFirst.text then .ok priorityFirst
  else .error (.unknownTraversal name)

end Traversal

end QuboSplit
