import QuboSplit.Chimera.Tile
import QuboSplit.Model.Induced
import QuboSplit.SampleSet

/-!
# States

A state is what passes between the stages of a workflow: a problem with samples, and perhaps a
subproblem of it and an embedding of that. States are values; a stage returns a new one.
-/

namespace QuboSplit

/-- A model held under a handle. Two problems with one handle and one model are the same object. -/
structure Problem (α : Type) where
  handle : Nat
  model : Model α
  deriving DecidableEq

/-- The state of a workflow. -/
structure State (α : Type) [Scalar α] where
  problem : Problem α
  samples : SampleSet α
  subproblem : Option (Model α) := none
  embedding : Option Embedding := none
  deriving DecidableEq

namespace State

variable {α : Type} [Scalar α]

/-- The state of a problem with samples, both of which must be present. -/
def ofParts (problem : Option (Problem α)) (samples : Option (SampleSet α)) :
    Except Fault (State α) :=
  match problem, samples with
  | none, _ => .error .noProblem
  | some _, none => .error .noSampleSet
  | some problem, some samples => .ok { problem, samples }

/-- The state with other samples. -/
def withSamples (s : State α) (samples : SampleSet α) : State α := { s with samples }

/-- The state with another subproblem. Its embedding stays unless a new one is given. -/
def withSubproblem (s : State α) (subproblem : Model α) (embedding : Option Embedding := none) :
    State α :=
  { s with subproblem := some subproblem, embedding := embedding.or s.embedding }

/-- The state of a problem with one sample. -/
def ofSample (problem : Problem α) (sample : Sample α) : Except Fault (State α) := do
  let samples ← SampleSet.ofSamples problem.model [sample]
  return { problem, samples }

/-- The state of a problem with the sample that has every variable at its lowest value. -/
def ofProblem (problem : Problem α) : Except Fault (State α) :=
  ofSample problem problem.model.lowestSample

/-- The sample of least energy, in the vartype of the problem. -/
def bestSample (s : State α) : Except Fault (Sample α) := do
  let samples ← s.samples.changeVartype s.problem.model.vartype
  let entry ← samples.first
  return entry.sample

/-- The state whose subproblem is induced by the selected variables at the given sample. -/
def select (s : State α) (labels : List Label) (sample : Sample α)
    (embedding : Option Embedding := none) : Except Fault (State α) := do
  let subproblem ← s.problem.model.induced labels sample
  return s.withSubproblem subproblem embedding

end State

end QuboSplit
