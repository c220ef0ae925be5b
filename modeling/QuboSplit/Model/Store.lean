import QuboSplit.Model.Basic

/-!
# The containers of a model

The containers in which a model is built: its labels, the index of each label, the linear biases,
and for each variable the indices of its neighbors beside the biases of these couplings. An entry is
found by halving, and every insertion is made in each container on its own.
-/

namespace QuboSplit

open Scalar (ofInt)

/-- The first of `count` positions from `first` on whose entry is not below `x`, by halving. -/
def lowerBound (xs : List Nat) (x first count : Nat) : Nat :=
  if count = 0 then first
  else if xs.getD (first + count / 2) 0 < x then
    lowerBound xs x (first + count / 2 + 1) (count - count / 2 - 1)
  else lowerBound xs x first (count / 2)
termination_by count

/-- The couplings of a variable: `neighbors` holds the indices of the other variables in increasing
order, `biases` their biases, and `smaller` counts the smaller indices. -/
structure Neighborhood (α : Type) where
  smaller : Nat
  neighbors : List Nat
  biases : List α
  deriving DecidableEq

namespace Neighborhood

variable {α : Type}

/-- No couplings. -/
def empty : Neighborhood α := ⟨0, [], []⟩

/-- The position of the index `j` among the neighbors, or the one where it belongs. -/
def position (a : Neighborhood α) (j : Nat) : Nat := lowerBound a.neighbors j 0 a.neighbors.length

/-- The bias of the coupling with the variable of index `j`, if there is one. -/
def bias? (a : Neighborhood α) (j : Nat) : Option α :=
  if a.neighbors[a.position j]? = some j then a.biases[a.position j]? else none

/-- Revises the coupling with the variable of index `j` for the variable of index `i`. A coupling
that is missing is made with the bias `zero` first. -/
def couple (zero : α) (i j : Nat) (f : α → α) (a : Neighborhood α) : Neighborhood α :=
  let p := a.position j
  if a.neighbors[p]? = some j then { a with biases := a.biases.modify p f }
  else
    { smaller := if j < i then a.smaller + 1 else a.smaller
      neighbors := a.neighbors.insertIdx p j
      biases := (a.biases.insertIdx p zero).modify p f }

end Neighborhood

/-- The containers of a model. -/
@[ext]
structure Store (α : Type) where
  vartype : Vartype
  offset : α
  labels : List Label
  indices : List (Label × Nat)
  linear : List α
  adjacency : List (Neighborhood α)
  deriving DecidableEq

namespace Store

variable {α : Type}

/-- The model that the containers hold. -/
def model (s : Store α) : Model α where
  vartype := s.vartype
  offset := s.offset
  nodes := (s.labels.zip (s.linear.zip s.adjacency)).map fun (v, bias, a) =>
    ⟨v, bias, a.smaller, a.neighbors.zip a.biases⟩

/-! ### Reading -/

/-- The index of a variable, which must be present. -/
def index (s : Store α) (v : Label) : Except Fault Nat :=
  match s.indices.lookup v with
  | some i => .ok i
  | none => .error (.unknownVariable v)

/-- The couplings of the variable of an index. -/
def neighborhood (s : Store α) (i : Nat) : Neighborhood α := s.adjacency.getD i .empty

/-- The number of interacting pairs. -/
def interactions (s : Store α) : Nat := s.adjacency.foldr (fun a total => a.smaller + total) 0

/-- Both variables are present and they interact. -/
def hasInteraction (s : Store α) (u v : Label) : Bool :=
  match s.indices.lookup u, s.indices.lookup v with
  | some i, some j => ((s.neighborhood i).bias? j).isSome
  | _, _ => false

/-- The variables that interact with `v`, in the order of their indices. -/
def neighbors (s : Store α) (v : Label) : Except Fault (List Label) := do
  let i ← s.index v
  return (s.neighborhood i).neighbors.filterMap fun j => s.labels[j]?

variable [Scalar α]

/-- The linear bias of a variable. -/
def linearOf (s : Store α) (v : Label) : Except Fault α := do
  let i ← s.index v
  return s.linear.getD i (ofInt 0)

/-- The quadratic bias of two variables, zero if they do not interact. -/
def quadratic (s : Store α) (u v : Label) : Except Fault α := do
  let i ← s.index u
  let j ← s.index v
  return ((s.neighborhood i).bias? j).getD (ofInt 0)

/-! ### Building -/

/-- No variables. -/
def empty (vartype : Vartype) : Store α := ⟨vartype, ofInt 0, [], [], [], []⟩

def setOffset (s : Store α) (bias : α) : Store α := { s with offset := bias }

/-- Adds a bias to the variable `v`, for which a new variable is appended to every container, and
returns its index. -/
def addVariable (s : Store α) (v : Label) (bias : α) : Store α × Nat :=
  match s.indices.lookup v with
  | some i => ({ s with linear := s.linear.modify i (· + bias) }, i)
  | none =>
    let i := s.labels.length
    ({ s with
        labels := s.labels ++ [v]
        indices := s.indices ++ [(v, i)]
        linear := s.linear ++ [bias]
        adjacency := s.adjacency ++ [.empty] }, i)

/-- Replaces the linear bias of `v`. -/
def setLinear (s : Store α) (v : Label) (bias : α) : Store α :=
  let (s, i) := s.addVariable v (ofInt 0)
  { s with linear := s.linear.set i bias }

/-- Adds a bias to the linear bias of `v`. -/
def addLinear (s : Store α) (v : Label) (bias : α) : Store α := (s.addVariable v bias).1

/-- Revises the coupling with index `j` that is kept for index `i`. -/
def couple (s : Store α) (i j : Nat) (f : α → α) : Store α :=
  { s with adjacency := s.adjacency.modify i (.couple (ofInt 0) i j f) }

/-- Revises the quadratic bias of two different variables at one end and then at the other. -/
def reviseQuadratic (s : Store α) (u v : Label) (f : α → α) : Except Fault (Store α) :=
  if u = v then .error .selfLoop
  else
    let (s, i) := s.addVariable u (ofInt 0)
    let (s, j) := s.addVariable v (ofInt 0)
    .ok ((s.couple i j f).couple j i f)

/-- Replaces the quadratic bias of two variables. -/
def setQuadratic (s : Store α) (u v : Label) (bias : α) : Except Fault (Store α) :=
  s.reviseQuadratic u v fun _ => bias

/-- Adds a bias to the quadratic bias of two variables. -/
def addQuadratic (s : Store α) (u v : Label) (bias : α) : Except Fault (Store α) :=
  s.reviseQuadratic u v (· + bias)

end Store

end QuboSplit
