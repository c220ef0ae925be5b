/-!
# Searching a graph from several seeds

A search selects nodes one at a time. The frontier holds the nodes found next to selected ones, in
the order in which they were found. As long as it is not empty a discipline picks the next node
from it; once it is empty the search starts again from the first seed that is still open.
-/

namespace QuboSplit.Search

/-- Which node of a frontier comes next. -/
abbrev Discipline := List Nat → Option Nat

/-- The node found first. -/
def firstFound : Discipline := List.head?

/-- The best node, and the one found first among equally good ones. -/
def bestFound (better : Nat → Nat → Bool) : Discipline
  | [] => none
  | x :: rest => some (rest.foldl (fun best y => if better y best then y else best) x)

/-- The node to select next: from the frontier, or else the first seed that is not closed. -/
def next? (pick : Discipline) (seeds frontier closed : List Nat) : Option Nat :=
  match frontier with
  | [] => seeds.find? (· ∉ closed)
  | _ => pick frontier

/-- The frontier after selecting `u`: without `u`, and with its open neighbours at the end. -/
def advance (links : Nat → List Nat) (u : Nat) (frontier closed : List Nat) : List Nat :=
  frontier.erase u ++ (links u).filter fun v => v ∉ frontier ∧ v ∉ u :: closed

/-- Up to `budget` nodes in the order in which the search selects them. Closed nodes are those
removed from the graph and those already selected. -/
def run (links : Nat → List Nat) (pick : Discipline) (seeds : List Nat) :
    (budget : Nat) → (frontier closed : List Nat) → List Nat
  | 0, _, _ => []
  | budget + 1, frontier, closed =>
    match next? pick seeds frontier closed with
    | none => []
    | some u =>
      u :: run links pick seeds budget (advance links u frontier closed) (u :: closed)

end QuboSplit.Search
