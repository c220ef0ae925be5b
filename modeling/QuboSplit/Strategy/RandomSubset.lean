import QuboSplit.Random.Selection
import QuboSplit.Strategy.Step

/-!
# Random subsets

This strategy selects a fixed number of variables at random. Its memory is the random engine, which
stays advanced when a selection fails after drawing.
-/

namespace QuboSplit

/-- The settings of the strategy. -/
structure RandomSubset where
  size : Size

namespace RandomSubset

def name : String := "RandomSubproblemDecomposer"

/-- The given size, which must be positive. -/
def ofSize (size : Int) : Except Fault RandomSubset := do
  let size ← Size.ofInt size
  return ⟨size⟩

def text (c : RandomSubset) : String := name ++ "(size=" ++ toString c.size.value ++ ")"

/-- One selection. -/
def select {α : Type} [Scalar α] (c : RandomSubset) (g : Engine) (s : State α) :
    Step Engine (Selection α) :=
  match s.problem.model.randomVariables c.size.value g with
  | .error fault => ⟨.error fault, g, []⟩
  | .ok (labels, g) => ⟨s.selectAtBest labels, g, [.selected name labels]⟩

end RandomSubset

end QuboSplit
