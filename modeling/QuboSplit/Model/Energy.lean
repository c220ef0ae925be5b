import QuboSplit.Model.Basic
import QuboSplit.Sample

/-!
# Energies

The energy of a sample is the offset plus each linear bias times a value plus each quadratic bias
times two values. Both the pull on a variable and the total are accumulated in the wide kind of
number and rounded once.
-/

namespace QuboSplit

open Scalar (Wide ofInt equal widen narrow wideAdd wideMul accumulate)

variable {α : Type} [Scalar α]

/-- The value of an index. -/
def valueAt (values : List α) (i : Nat) : α := values.getD i (ofInt 0)

/-- The wide sum of a linear bias and of couplings weighted by the values at their far ends. -/
def pull (values : List α) (linear : α) (couplings : Row α) : Wide α :=
  accumulate linear (couplings.map fun c => valueAt values c.1 * c.2)

namespace Model

/-- The values of a sample by index. Every variable of the model must have one. -/
def values (m : Model α) (s : Sample α) : Except Fault (List α) :=
  m.nodes.mapM fun n =>
    match s.get? n.label with
    | some x => .ok x
    | none => .error (.missingValue n.label)

/-- Adds the contribution of the variable of index `i`: its value times its linear bias and its
couplings to smaller indices. A value of zero contributes nothing. -/
def addContribution (values : List α) (total : Wide α) (entry : Node α × Nat) : Wide α :=
  let x := valueAt values entry.2
  if equal x (ofInt 0) then total
  else
    wideAdd total (wideMul (widen x)
      (pull values entry.1.linear (entry.1.row.take entry.1.smaller)))

/-- The energy of values given by index. -/
def energyOf (m : Model α) (values : List α) : α :=
  narrow (m.nodes.zipIdx.foldl (addContribution values) (widen m.offset))

/-- The energy of a sample. -/
def energy (m : Model α) (s : Sample α) : Except Fault α := do
  let values ← m.values s
  return m.energyOf values

/-- The sample with every variable at its lowest value. -/
def lowestSample (m : Model α) : Sample α :=
  .ofList (m.labels.map fun v => (v, m.vartype.lowest))

end Model

end QuboSplit
