/-!
# Labels

A label names a variable: a whole number or a text. Numbers come before texts, numbers by value
and texts character by character.
-/

namespace QuboSplit

/-- The name of a variable. -/
inductive Label where
  | number (value : Int)
  | name (text : String)
  deriving DecidableEq

namespace Label

/-- The strict order of labels. -/
def less : Label → Label → Bool
  | .number m, .number n => m < n
  | .number _, .name _ => true
  | .name _, .number _ => false
  | .name s, .name t => s < t

/-- The written form: a number in decimal, a text as it is. -/
def text : Label → String
  | .number value => toString value
  | .name text => text

/-- The written form of a list of labels. -/
def listText (labels : List Label) : String :=
  "[" ++ ", ".intercalate (labels.map text) ++ "]"

end Label

end QuboSplit
