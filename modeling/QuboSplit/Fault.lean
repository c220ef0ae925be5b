import QuboSplit.Label

/-!
# Faults

Why a model, a sample set, a state or a decomposer cannot be made, and why a selection fails.
`Fault.kind` is the class by which a caller catches a fault, `Fault.message` holds the wording.
-/

namespace QuboSplit

/-- A reason for refusing a request. -/
inductive Fault where
  | unknownVartype (name : String)
  | unknownTraversal (name : String)
  | unknownVariable (label : Label)
  | selfLoop
  | missingValue (label : Label)
  | foreignValue (label : Label)
  | emptySampleSet
  | noSelection
  | negativeSize
  | oversized
  | sizeNotPositive
  | historyOutOfRange
  | rowsNotPositive
  | columnsNotPositive
  | shoreNotPositive
  | tileTooLarge
  | notLatticeNode (label : Label)
  | noConstraints
  | emptyConstraint
  | constraintTooLarge
  | foreignConstraintVariable (label : Label)
  | graphNotBuilt
  | unknownConstraint
  | noProblem
  | noSampleSet
  deriving DecidableEq

/-- The classes of faults. -/
inductive FaultKind where
  | invalidArgument
  | outOfRange
  | domainError
  | logicError
  deriving DecidableEq

namespace Fault

/-- The class of a fault. -/
def kind : Fault → FaultKind
  | unknownVartype _ => .domainError
  | unknownVariable _ | emptySampleSet | unknownConstraint => .outOfRange
  | graphNotBuilt => .logicError
  | unknownTraversal _ | selfLoop | missingValue _ | foreignValue _ | noSelection | negativeSize
  | oversized | sizeNotPositive | historyOutOfRange | rowsNotPositive | columnsNotPositive
  | shoreNotPositive | tileTooLarge | notLatticeNode _ | noConstraints | emptyConstraint
  | constraintTooLarge | foreignConstraintVariable _ | noProblem | noSampleSet => .invalidArgument

/-- The full wording of a fault; an unknown constraint has none. -/
def wording : Fault → Option String
  | unknownVartype name => some ("unknown vartype: " ++ name)
  | unknownTraversal name => some ("traversal mode not supported: " ++ name)
  | unknownVariable v => some ("variable " ++ v.text ++ " is not in the model")
  | selfLoop => some "self-loops are not allowed"
  | missingValue v => some ("sample is missing variable " ++ v.text)
  | foreignValue v => some ("sample value for variable " ++ v.text ++ " does not match the vartype")
  | emptySampleSet => some "sample set is empty"
  | noSelection => some "cannot induce a subproblem from an empty set of variables"
  | negativeSize => some "size must be non-negative"
  | oversized => some "subproblem size cannot be greater than the problem size"
  | sizeNotPositive => some "size must be positive"
  | historyOutOfRange => some "rolling_history must be a float in range [0.0, 1.0]"
  | rowsNotPositive => some "m must be positive"
  | columnsNotPositive => some "n must be positive"
  | shoreNotPositive => some "t must be positive"
  | tileTooLarge => some "tile shore size cannot be larger than the lattice shore size"
  | notLatticeNode v => some ("variable " ++ v.text ++ " is not a node of the Chimera lattice")
  | noConstraints => some "constraints should be a non-empty list of variable groups"
  | emptyConstraint => some "constraints should not contain empty variable groups"
  | constraintTooLarge => some "size must be able to contain the largest constraint"
  | foreignConstraintVariable v =>
    some ("constraint variable " ++ v.text ++ " is not in the problem")
  | graphNotBuilt => some "the constraint graph has not been built"
  | unknownConstraint => none
  | noProblem => some "a state requires a problem"
  | noSampleSet => some "a state requires a sample set"

/-- What is reported: the wording up to the first null character. -/
def message (fault : Fault) : Option String :=
  fault.wording.map fun text => String.ofList (text.toList.takeWhile (· ≠ '\x00'))

end Fault

end QuboSplit
