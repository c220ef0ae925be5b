import QuboSplit.Adjoin
import QuboSplit.Model.Energy

/-!
# Induced models

The model induced by some variables keeps their linear biases and the interactions between them.
Every other variable is fixed at its value in a sample, and each interaction with it moves into the
linear bias of its selected end.
-/

namespace QuboSplit.Model

variable {α : Type} [Scalar α]

/-- The variables of the given indices with their linear biases, without interactions. -/
def restriction (m : Model α) (chosen : List Nat) : Model α :=
  { m with nodes := chosen.filterMap fun i => m.nodes[i]?.map fun n => .isolated n.label n.linear }

/-- Carries one coupling of the selected variable `v` of index `i` over to `sub`. A coupling of two
selected variables is copied from its smaller end only. -/
def inherit (m : Model α) (chosen : List Nat) (s : Sample α) (i : Nat) (v : Label)
    (sub : Model α) (coupling : Nat × α) : Except Fault (Model α) :=
  match m.label? coupling.1 with
  | none => .ok sub
  | some w =>
    if coupling.1 ∈ chosen then
      if i < coupling.1 then sub.setQuadratic v w coupling.2 else .ok sub
    else
      match s.get? w with
      | none => .error (.missingValue w)
      | some x => .ok (sub.addLinear v (coupling.2 * x))

/-- Carries the row of the selected variable of index `i` over to `sub`. -/
def inheritRow (m : Model α) (chosen : List Nat) (s : Sample α) (sub : Model α) (i : Nat) :
    Except Fault (Model α) :=
  match m.label? i with
  | none => .ok sub
  | some v => (m.row i).foldlM (m.inherit chosen s i v) sub

/-- The model induced by the selected variables, of which there must be some, all others being
fixed as in the sample. -/
def induced (m : Model α) (selection : List Label) (s : Sample α) : Except Fault (Model α) :=
  if selection = [] then .error .noSelection
  else do
    let indices ← selection.mapM m.index
    let chosen := distinct indices
    chosen.foldlM (m.inheritRow chosen s) (m.restriction chosen)

end QuboSplit.Model
