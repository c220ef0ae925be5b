import QuboSplit.Model.Energy

/-!
# Ranking variables by gain

The gain of a variable is the energy that a sample loses when that variable alone takes its other
value. A ranking lists variables by decreasing gain, equal gains in index order.
-/

namespace QuboSplit

open Scalar (less widen narrow wideMul)

/-- Variables with their gains. -/
abbrev Ranking (α : Type) := List (Label × α)

namespace Model

variable {α : Type} [Scalar α]

/-- The gain of flipping the variable of index `i` in the given values. -/
def gainAt (m : Model α) (values : List α) (i : Nat) : α :=
  let x := valueAt values i
  let delta := m.vartype.flip x - x
  narrow (wideMul (widen (-delta)) (pull values (m.linearAt i) (m.row i)))

/-- The gain of flipping one variable of a sample. -/
def flipGain (m : Model α) (s : Sample α) (v : Label) : Except Fault α := do
  let i ← m.index v
  let values ← m.values s
  return m.gainAt values i

/-- The gains of all variables, by index. -/
def gains (m : Model α) (values : List α) : Ranking α :=
  m.labels.zipIdx.map fun entry => (entry.1, m.gainAt values entry.2)

/-- A gain is kept unless it is less than the least one asked for. -/
def keepsGain (minGain : Option α) (gain : α) : Bool := !minGain.any (less gain)

/-- The ranking of the variables whose gain is not less than `minGain`. -/
def ranking (m : Model α) (s : Sample α) (minGain : Option α) : Except Fault (Ranking α) := do
  let values ← m.values s
  return stableSort (fun a b => less b.2 a.2)
    ((m.gains values).filter fun entry => keepsGain minGain entry.2)

end Model

end QuboSplit
