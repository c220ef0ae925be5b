import QuboSplit.Fault
import QuboSplit.Number.Scalar
import QuboSplit.Vartype

/-!
# Binary quadratic models

A model is an offset, a linear bias for each variable and a quadratic bias for some pairs of
variables. Its variables are indexed in order of first appearance. Each variable keeps the row of
its couplings, by the index of the other variable, so every interaction is stored at both of its
ends with one bias.
-/

namespace QuboSplit

open Scalar (ofInt)

/-- The couplings of a variable: indices of other variables in increasing order, with biases. -/
abbrev Row (α : Type) := List (Nat × α)

namespace Row

variable {α : Type}

/-- Replaces the bias at index `j` by its image under `f`; a missing bias counts as `zero`. -/
def revise (zero : α) (j : Nat) (f : α → α) : Row α → Row α
  | [] => [(j, f zero)]
  | (k, b) :: rest =>
    if k < j then (k, b) :: revise zero j f rest
    else if k = j then (k, f b) :: rest
    else (j, f zero) :: (k, b) :: rest

/-- The bias at an index, if there is one. -/
def bias? (row : Row α) (j : Nat) : Option α := row.lookup j

end Row

/-- A variable of a model. `smaller` counts the couplings to smaller indices, which come first in
the row. -/
structure Node (α : Type) where
  label : Label
  linear : α
  smaller : Nat
  row : Row α
  deriving DecidableEq

namespace Node

variable {α : Type}

/-- A variable without couplings. -/
def isolated (v : Label) (bias : α) : Node α := ⟨v, bias, 0, []⟩

/-- Revises the coupling of this variable, which has index `i`, with the one of index `j`. -/
def couple (zero : α) (i j : Nat) (f : α → α) (node : Node α) : Node α :=
  { node with
    smaller := if j < i ∧ (node.row.bias? j).isNone then node.smaller + 1 else node.smaller
    row := node.row.revise zero j f }

end Node

/-- A binary quadratic model. -/
structure Model (α : Type) where
  vartype : Vartype
  offset : α
  nodes : List (Node α)
  deriving DecidableEq

namespace Model

variable {α : Type}

/-! ### Reading -/

/-- The number of variables. -/
def size (m : Model α) : Nat := m.nodes.length

/-- The number of interacting pairs. -/
def interactions (m : Model α) : Nat := m.nodes.foldr (fun n total => n.smaller + total) 0

/-- The variables by index. -/
def labels (m : Model α) : List Label := m.nodes.map Node.label

/-- The variable of an index. -/
def label? (m : Model α) (i : Nat) : Option Label := m.nodes[i]?.map Node.label

/-- The index of a variable. -/
def index? (m : Model α) (v : Label) : Option Nat := m.nodes.findIdx? (·.label = v)

/-- The index of a variable, which must be in the model. -/
def index (m : Model α) (v : Label) : Except Fault Nat :=
  match m.index? v with
  | some i => .ok i
  | none => .error (.unknownVariable v)

/-- The model has the variable. -/
def hasVariable (m : Model α) (v : Label) : Bool := (m.index? v).isSome

/-- The couplings of the variable of an index. -/
def row (m : Model α) (i : Nat) : Row α := (m.nodes[i]?.map Node.row).getD []

/-- The model has both variables and they interact. -/
def hasInteraction (m : Model α) (u v : Label) : Bool :=
  match m.index? u, m.index? v with
  | some i, some j => ((m.row i).bias? j).isSome
  | _, _ => false

/-- The variables that interact with `v`, in the order of their indices. -/
def neighbors (m : Model α) (v : Label) : Except Fault (List Label) := do
  let i ← m.index v
  return (m.row i).filterMap fun c => m.label? c.1

variable [Scalar α]

/-- The linear bias of the variable of an index. -/
def linearAt (m : Model α) (i : Nat) : α := (m.nodes[i]?.map Node.linear).getD (ofInt 0)

/-- The linear bias of a variable. -/
def linear (m : Model α) (v : Label) : Except Fault α := do
  let i ← m.index v
  return m.linearAt i

/-- The quadratic bias of two variables, zero if they do not interact. -/
def quadratic (m : Model α) (u v : Label) : Except Fault α := do
  let i ← m.index u
  let j ← m.index v
  return ((m.row i).bias? j).getD (ofInt 0)

/-! ### Building -/

/-- The model without variables. -/
def empty (vartype : Vartype) : Model α := ⟨vartype, ofInt 0, []⟩

def setOffset (m : Model α) (bias : α) : Model α := { m with offset := bias }

/-- Revises the linear bias of `v`, or appends `v` with the bias `fresh`. -/
def reviseLinear (m : Model α) (v : Label) (fresh : α) (f : α → α) : Model α :=
  match m.index? v with
  | some i => { m with nodes := m.nodes.modify i fun n => { n with linear := f n.linear } }
  | none => { m with nodes := m.nodes ++ [.isolated v fresh] }

/-- Adds a bias to the variable `v`, which is appended if it is new. -/
def addVariable (m : Model α) (v : Label) (bias : α) : Model α :=
  m.reviseLinear v bias (· + bias)

/-- Adds a bias to the linear bias of `v`. -/
def addLinear (m : Model α) (v : Label) (bias : α) : Model α := m.addVariable v bias

/-- Replaces the linear bias of `v`. -/
def setLinear (m : Model α) (v : Label) (bias : α) : Model α :=
  m.reviseLinear v bias fun _ => bias

/-- Revises the quadratic bias of two different variables at both ends. Both variables are added
with the bias zero first. -/
def reviseQuadratic (m : Model α) (u v : Label) (f : α → α) : Except Fault (Model α) :=
  if u = v then .error .selfLoop
  else
    let m := (m.addVariable u (ofInt 0)).addVariable v (ofInt 0)
    match m.index? u, m.index? v with
    | some i, some j =>
      .ok { m with
        nodes := (m.nodes.modify i (.couple (ofInt 0) i j f)).modify j (.couple (ofInt 0) j i f) }
    | _, _ => .ok m

/-- Replaces the quadratic bias of two variables. -/
def setQuadratic (m : Model α) (u v : Label) (bias : α) : Except Fault (Model α) :=
  m.reviseQuadratic u v fun _ => bias

/-- Adds a bias to the quadratic bias of two variables. -/
def addQuadratic (m : Model α) (u v : Label) (bias : α) : Except Fault (Model α) :=
  m.reviseQuadratic u v (· + bias)

end Model

end QuboSplit
