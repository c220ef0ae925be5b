import QuboSplit.Event
import QuboSplit.State

/-!
# Steps of a strategy

A strategy for choosing subproblems keeps a memory between selections. One step of it yields a
result or a fault, the memory afterwards and the events it reported, in order. A step that fails
still has a memory: what it changed before the fault stays changed.
-/

namespace QuboSplit

/-- What a selection yields: a state with the next subproblem, or the end of a cycle of them. -/
inductive Selection (α : Type) [Scalar α] where
  | state (s : State α)
  | endOfStream
  deriving DecidableEq

/-- One step of a strategy with memory `μ`. -/
structure Step (μ ρ : Type) where
  result : Except Fault ρ
  memory : μ
  events : List Event

namespace Step

variable {μ ν ρ : Type}

/-- The step with earlier events before its own. -/
def after (earlier : List Event) (step : Step μ ρ) : Step μ ρ :=
  { step with events := earlier ++ step.events }

/-- The step with its memory seen as part of another. -/
def mapMemory (f : μ → ν) (step : Step μ ρ) : Step ν ρ :=
  ⟨step.result, f step.memory, step.events⟩

end Step

/-- The report of a selection of variables. -/
def Event.selected (source : String) (labels : List Label) : Event :=
  ⟨.variablesSelected, source, labels.length, Label.listText labels⟩

/-- The size of a subproblem. -/
structure Size where
  value : Nat
  pos : 0 < value

/-- The given size, which must be positive. -/
def Size.ofInt (size : Int) : Except Fault Size :=
  if h : size ≤ 0 then .error .sizeNotPositive else .ok ⟨size.toNat, by omega⟩

variable {α : Type} [Scalar α]

/-- The subproblem induced by the selected variables at the best sample of the state. -/
def State.selectAtBest (s : State α) (labels : List Label)
    (embedding : Option Embedding := none) : Except Fault (Selection α) := do
  let sample ← s.bestSample
  return .state (← s.select labels sample embedding)

end QuboSplit
