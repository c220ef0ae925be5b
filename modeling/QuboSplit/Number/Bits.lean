import QuboSplit.Number.Floating

/-!
# The 64-bit interchange form of a number

One sign bit, eleven bits of exponent and 52 bits of fraction. An exponent of zero counts steps
directly; any other exponent `e` puts a leading one before the fraction and shifts by `e - 1`; the
largest exponent marks infinities and `nan`.
-/

namespace QuboSplit.Binary64

/-- The number with the given interchange form. -/
def ofBits (bits : UInt64) : Binary64 :=
  let word := bits.toNat
  let negative : Bool := word / twoPow 63 = 1
  let exponent := word / twoPow 52 % twoPow 11
  let fraction := word % twoPow 52
  if exponent = 2047 then
    if fraction = 0 then .infinite negative else .nan
  else if exponent = 0 then .ofMagnitude negative fraction 0
  else .ofMagnitude negative ((twoPow 52 + fraction) * twoPow (exponent - 1)) 0

/-- The sign bit. -/
def signBit (negative : Bool) : Nat := if negative then twoPow 63 else 0

/-- The exponent and the fraction of a finite magnitude, as one number. -/
def magnitudeBits (steps : Nat) : Nat :=
  let shift := bitLength steps - 53
  shift * twoPow 52 + steps / twoPow shift

/-- The interchange form of a number. -/
def toBits : Binary64 → UInt64
  | .nan => .ofNat (2047 * twoPow 52 + twoPow 51)
  | .infinite negative => .ofNat (signBit negative + 2047 * twoPow 52)
  | .finite negative steps _ => .ofNat (signBit negative + magnitudeBits steps)

/-- The integer that a number equals, if any. -/
def toInt? : Binary64 → Option Int
  | .finite negative steps _ =>
    if steps % Format.double.one = 0 then
      some (Floating.signed negative (steps / Format.double.one))
    else none
  | _ => none

end QuboSplit.Binary64
