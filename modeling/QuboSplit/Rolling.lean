import QuboSplit.Adjoin
import QuboSplit.Fault
import QuboSplit.Number.Scalar

/-!
# Rolling

A rolling selection remembers the variables that it has exposed. It is exhausted once these reach a
given share of all variables, and then starts again.
-/

namespace QuboSplit

open Scalar (ofInt ofNat atMost)

/-- A share between none and all. -/
structure History (α : Type) [Scalar α] where
  share : α
  inRange : (atMost (ofInt 0) share && atMost share (ofInt 1)) = true

/-- The history of the given share, which must lie between zero and one. -/
def History.ofShare {α : Type} [Scalar α] (share : α) : Except Fault (History α) :=
  if h : (atMost (ofInt 0) share && atMost share (ofInt 1)) = true then .ok ⟨share, h⟩
  else .error .historyOutOfRange

/-- The variables exposed since the last rewind. -/
structure Rolling where
  visited : List Label
  deriving DecidableEq

namespace Rolling

/-- Nothing is exposed. -/
def fresh : Rolling := ⟨[]⟩

/-- The number of exposed variables. -/
def size (r : Rolling) : Nat := r.visited.length

/-- Exposes more variables. -/
def expose (r : Rolling) (labels : List Label) : Rolling := ⟨adjoin r.visited labels⟩

/-- Some variables are exposed, and at least the given share of `total`. -/
def exhausted {α : Type} [Scalar α] (r : Rolling) (history : History α) (total : Int) : Bool :=
  r.visited ≠ [] && atMost (history.share * ofInt total) (ofNat r.size : α)

end Rolling

end QuboSplit
