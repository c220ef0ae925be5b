import QuboSplit.Number.Bits
import QuboSplit.Number.Decimal

/-!
# Scalars

Models, samples and gains are written once for every kind of number. A `Scalar` has its own
arithmetic, a wider kind of number in which long sums are accumulated, and the comparisons of
numbers. There are two instances: floating-point numbers of 53 significant bits with an accumulator
of 64, and rational numbers, whose accumulator is exact.
-/

namespace QuboSplit

/-- A kind of number for biases, values and energies. -/
class Scalar (α : Type) extends Add α, Sub α, Mul α, Neg α where
  /-- The kind of number in which sums are accumulated. -/
  Wide : Type
  /-- The sum of two wide numbers. -/
  wideAdd : Wide → Wide → Wide
  /-- The product of two wide numbers. -/
  wideMul : Wide → Wide → Wide
  /-- The same number as a wide one. -/
  widen : α → Wide
  /-- The nearest number to a wide one. -/
  narrow : Wide → α
  /-- The nearest number to an integer. -/
  ofInt : Int → α
  /-- A number divided by two. -/
  half : α → α
  /-- Numerical equality, which need not be reflexive. -/
  equal : α → α → Bool
  /-- Numerical order, which need not be total. -/
  less : α → α → Bool
  /-- Lies above minus infinity. -/
  aboveLeast : α → Bool
  /-- A digest that agrees on numerically equal numbers. -/
  digest : α → UInt64
  /-- The written form. -/
  text : α → String

namespace Scalar

variable {α : Type} [Scalar α]

/-- The number of some things, as a scalar. -/
def ofNat (n : Nat) : α := ofInt n

/-- At most: less or equal, and so false where the order does not apply. -/
def atMost (x y : α) : Bool := less x y || equal x y

/-- The wide sum of a scalar and a list of terms, added from the left. -/
def accumulate (start : α) (terms : List α) : Wide α :=
  terms.foldl (fun total x => wideAdd total (widen x)) (widen start)

end Scalar

/-! ### Floating-point scalars -/

/-- The interchange form, or zero for either zero. -/
def Binary64.digest (x : Binary64) : UInt64 :=
  if x.equal (.ofInt 0) then 0 else x.toBits

/-- Exceeds minus infinity. -/
def Binary64.aboveLeast : Binary64 → Bool
  | .nan => false
  | .infinite negative => !negative
  | .finite .. => true

instance : Scalar Binary64 where
  Wide := Floating .extended
  wideAdd := Floating.add
  wideMul := Floating.mul
  widen := Floating.convert .extended
  narrow := Floating.convert .double
  ofInt := Floating.ofInt
  half := Floating.half
  equal := Floating.equal
  less := Floating.less
  aboveLeast := Binary64.aboveLeast
  digest := Binary64.digest
  text := Floating.text

/-! ### Exact scalars -/

/-- A rational is written as its numerator, over its denominator unless that is one. -/
def ratText (q : Rat) : String :=
  if q.den = 1 then toString q.num else toString q.num ++ "/" ++ toString q.den

instance : Scalar Rat where
  Wide := Rat
  wideAdd := (· + ·)
  wideMul := (· * ·)
  widen := id
  narrow := id
  ofInt := fun i => (i : Rat)
  half := fun q => q / 2
  equal := fun p q => p = q
  less := fun p q => p < q
  aboveLeast := fun _ => true
  digest := fun q => .ofInt q.num + 31 * .ofNat q.den
  text := ratText

end QuboSplit
