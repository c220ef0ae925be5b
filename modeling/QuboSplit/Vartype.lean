import QuboSplit.Fault
import QuboSplit.Number.Scalar

/-!
# Vartypes

The variables of a model all range over zero and one, or all over minus one and one.
-/

namespace QuboSplit

/-- The pair of values over which the variables of a model range. -/
inductive Vartype where
  | binary
  | spin
  deriving DecidableEq

namespace Vartype

open Scalar (ofInt equal half)

def text : Vartype → String
  | binary => "BINARY"
  | spin => "SPIN"

/-- The vartype of the given written form. -/
def ofText (name : String) : Except Fault Vartype :=
  if name = binary.text then .ok binary
  else if name = spin.text then .ok spin
  else .error (.unknownVartype name)

variable {α : Type} [Scalar α]

/-- The smaller of the two values. -/
def lowest : Vartype → α
  | binary => ofInt 0
  | spin => ofInt (-1)

/-- The number is one of the two values. -/
def admits (x : α) : Vartype → Bool
  | binary => equal x (ofInt 0) || equal x (ofInt 1)
  | spin => equal x (ofInt (-1)) || equal x (ofInt 1)

/-- The other of the two values; it applies to any number. -/
def flip (x : α) : Vartype → α
  | binary => ofInt 1 - x
  | spin => -x

/-- Carries a value of one vartype to the corresponding value of another; it applies to any
number. -/
def convert (source target : Vartype) (x : α) : α :=
  match source, target with
  | binary, spin => ofInt 2 * x - ofInt 1
  | spin, binary => half (x + ofInt 1)
  | _, _ => x

end Vartype

end QuboSplit
