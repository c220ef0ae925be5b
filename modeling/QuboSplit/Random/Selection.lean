import QuboSplit.Model.Basic
import QuboSplit.Random.Engine

/-!
# Random selections

Selection sampling goes through a list once and takes each element with the chance that the number
still needed has among the number still left. Elements are considered two at a time with one draw
if the range of a draw covers all pairs of positions, and else one at a time.
-/

namespace QuboSplit

namespace Engine

variable {β : Type}

/-- `need` elements of the list at random, with one draw for each element considered. -/
def sampleSingly : List β → (need : Nat) → Engine → List β × Engine
  | [], _, g => ([], g)
  | _, 0, g => ([], g)
  | x :: rest, need + 1, g =>
    let (choice, g) := g.uniform (rest.length + 1)
    if choice < need + 1 then
      let (more, g) := sampleSingly rest need g
      (x :: more, g)
    else sampleSingly rest (need + 1) g

/-- `need` elements of the list at random, with one draw for every two elements considered. -/
def samplePairs : List β → (need : Nat) → Engine → List β × Engine
  | x :: y :: rest, need + 1, g =>
    let others := rest.length + 1
    let (choice, g) := g.uniform ((others + 1) * others)
    if choice / others < need + 1 then
      let takesSecond : Bool := choice % others < need
      let (more, g) := samplePairs rest (if takesSecond then need - 1 else need) g
      (x :: (if takesSecond then y :: more else more), g)
    else
      let takesSecond : Bool := choice % others < need + 1
      let (more, g) := samplePairs rest (if takesSecond then need else need + 1) g
      (if takesSecond then y :: more else more, g)
  | xs, need, g => sampleSingly xs need g

/-- `need` elements of the list at random, in the order of the list. -/
def sample (xs : List β) (need : Nat) (g : Engine) : List β × Engine :=
  if xs.length ≤ (modulus - 2) / xs.length then samplePairs xs need g else sampleSingly xs need g

end Engine

/-- `size` variables of the model at random, in index order. The engine is used only if there are
so many. -/
def Model.randomVariables {α : Type} (m : Model α) (size : Int) (g : Engine) :
    Except Fault (List Label × Engine) :=
  if size < 0 then .error .negativeSize
  else if (m.size : Int) < size then .error .oversized
  else .ok (Engine.sample m.labels size.toNat g)

end QuboSplit
