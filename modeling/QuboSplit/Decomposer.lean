import QuboSplit.Strategy.Constraint
import QuboSplit.Strategy.EnergyImpact
import QuboSplit.Strategy.RandomSubset
import QuboSplit.Strategy.Tiling
import QuboSplit.Strategy.Whole

/-!
# Decomposers

A decomposer is a strategy with its settings and its current memory. It may be observed; the events
of an unobserved one are not reported.
-/

namespace QuboSplit

variable {α : Type} [Scalar α]

/-- A strategy for choosing subproblems, with its memory. -/
inductive Strategy (α : Type) [Scalar α] where
  | whole
  | energyImpact (settings : EnergyImpact α) (memory : EnergyImpact.Memory α)
  | randomSubset (settings : RandomSubset) (engine : Engine)
  | tiling (settings : Tiling) (memory : Tiling.Memory)
  | constraint (settings : Constraint) (memory : Constraint.Memory)

namespace Strategy

/-- The name under which events are reported. -/
def name : Strategy α → String
  | whole => Whole.name
  | energyImpact .. => EnergyImpact.name
  | randomSubset .. => RandomSubset.name
  | tiling .. => Tiling.name
  | constraint .. => Constraint.name

/-- The strategy with its settings in written form. -/
def text : Strategy α → String
  | whole => Whole.name ++ "()"
  | energyImpact settings _ => settings.text
  | randomSubset settings _ => settings.text
  | tiling settings _ => settings.text
  | constraint settings _ => settings.text

/-- Prepares for the problem of a state. Only tilings and constraints need it. -/
def setup (strategy : Strategy α) (s : State α) : Step (Strategy α) Unit :=
  match strategy with
  | tiling settings memory => (settings.setup memory s).mapMemory (tiling settings)
  | constraint settings memory => (settings.setup memory s).mapMemory (constraint settings)
  | _ => ⟨.ok (), strategy, []⟩

/-- Selects the next subproblem of a state. -/
def select [DecidableEq α] (strategy : Strategy α) (s : State α) :
    Step (Strategy α) (Selection α) :=
  match strategy with
  | whole => (Whole.select s).mapMemory fun _ => whole
  | energyImpact settings memory =>
    (settings.select memory s).mapMemory (energyImpact settings)
  | randomSubset settings engine =>
    (settings.select engine s).mapMemory (randomSubset settings)
  | tiling settings memory => (settings.select memory s).mapMemory (tiling settings)
  | constraint settings memory => (settings.select memory s).mapMemory (constraint settings)

end Strategy

/-- A strategy that is observed or not. -/
structure Decomposer (α : Type) [Scalar α] where
  strategy : Strategy α
  observed : Bool := true

namespace Decomposer

/-- A step of the strategy, with its events only if the decomposer is observed. -/
def ofStep {ρ : Type} (d : Decomposer α) (step : Step (Strategy α) ρ) :
    Step (Decomposer α) ρ :=
  ⟨step.result, { d with strategy := step.memory }, if d.observed then step.events else []⟩

/-- Prepares for the problem of a state. -/
def setup (d : Decomposer α) (s : State α) : Step (Decomposer α) Unit :=
  d.ofStep (d.strategy.setup s)

/-- Selects the next subproblem of a state. -/
def select [DecidableEq α] (d : Decomposer α) (s : State α) : Step (Decomposer α) (Selection α) :=
  d.ofStep (d.strategy.select s)

end Decomposer

end QuboSplit
