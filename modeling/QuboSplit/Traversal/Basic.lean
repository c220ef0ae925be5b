import QuboSplit.Ranking
import QuboSplit.Traversal.Mode
import QuboSplit.Traversal.Search

/-!
# Traversing a ranking

A traversal selects up to a number of variables that have not been visited. By energy it follows
the ranking alone. The other two modes follow the interactions of the model: they start from the
best ranked variable and go on to variables that interact with selected ones, in the order found or
by gain.
-/

namespace QuboSplit

open Scalar (less aboveLeast)

variable {α : Type}

/-- The first ranked variables that have not been visited. -/
def Ranking.walk (ranking : Ranking α) (visited : List Label) (size : Int) : List Label :=
  ((ranking.map Prod.fst).filter (· ∉ visited)).take size.toNat

/-! ### Scores -/

/-- A gain, or the lowest score of all for a variable that is not ranked. -/
abbrev Score (α : Type) := Option α

/-- The first score is greater. -/
def Score.exceeds [Scalar α] : Score α → Score α → Bool
  | some x, some y => less y x
  | some x, none => aboveLeast x
  | none, _ => false

namespace Model

/-- The indices of the variables that interact with the one of index `i`, increasing. -/
def links (m : Model α) (i : Nat) : List Nat := (m.row i).map Prod.fst

/-- The indices of those labels that the model has. -/
def knownIndices (m : Model α) (labels : List Label) : List Nat := labels.filterMap m.index?

/-- Searches the interaction graph without the visited variables. -/
def search (m : Model α) (pick : Search.Discipline) (seeds : List Nat) (visited : List Label)
    (size : Int) : List Label :=
  (Search.run m.links pick seeds size.toNat [] (m.knownIndices visited)).filterMap m.label?

/-- The score of an index: the gain of the last entry that names it. -/
def scoreOf (entries : List (Nat × α)) (i : Nat) : Score α := entries.reverse.lookup i

variable [Scalar α]

/-- Selects up to `size` variables. All but the first mode need every ranked variable to be in the
model. -/
def traverse (m : Model α) (mode : Traversal) (ranking : Ranking α) (visited : List Label)
    (size : Int) : Except Fault (List Label) :=
  match mode with
  | .energy => .ok (ranking.walk visited size)
  | .breadthFirst => do
    let seeds ← (ranking.map Prod.fst).mapM m.index
    return m.search Search.firstFound seeds visited size
  | .priorityFirst => do
    let seeds ← (ranking.map Prod.fst).mapM m.index
    let score := scoreOf (seeds.zip (ranking.map Prod.snd))
    return m.search (Search.bestFound fun i j => (score i).exceeds (score j)) seeds visited size

end Model

end QuboSplit
