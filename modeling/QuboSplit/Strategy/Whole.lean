import QuboSplit.Strategy.Step

/-!
# The whole problem

The simplest strategy selects the problem itself as its subproblem.
-/

namespace QuboSplit.Whole

/-- The name under which events are reported. -/
def name : String := "IdentityDecomposer"

/-- The state with its problem as the subproblem. -/
def select {α : Type} [Scalar α] (s : State α) : Step Unit (Selection α) where
  result := .ok (.state (s.withSubproblem s.problem.model))
  memory := ()
  events := [⟨.variablesSelected, name, s.problem.model.size, ""⟩]

end QuboSplit.Whole
