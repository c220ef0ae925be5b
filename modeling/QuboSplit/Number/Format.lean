/-!
# Binary floating-point formats

A format keeps a fixed number of significant bits, has a grid of smallest steps and overflows at a
power of two. All magnitudes of a format are whole numbers of its smallest step, so its arithmetic
is arithmetic on natural numbers followed by one rounding.

`Format.round` is that rounding, to nearest with ties to even; `Format.Fits` says which magnitudes a
format has.
-/

namespace QuboSplit

/-- Two to the power `n`. -/
def twoPow (n : Nat) : Nat := Nat.pow 2 n

/-- The number of binary digits of `n`, with none for zero. -/
def bitLength (n : Nat) : Nat := if n = 0 then 0 else n.log2 + 1

/-- The quotient `n / d` rounded to the nearest natural number, and to the even one of two equally
near. -/
def divideHalfEven (n d : Nat) : Nat :=
  if d < 2 * (n % d) ∨ (d = 2 * (n % d) ∧ n / d % 2 = 1) then n / d + 1 else n / d

/-- A binary floating-point format: `precision` significant bits, `2 ^ fraction` steps to one,
finite magnitudes below `2 ^ limit`. -/
structure Format where
  precision : Nat
  fraction : Nat
  limit : Nat
  precision_pos : 0 < precision

namespace Format

/-- The number of low bits of `n` beyond the precision. -/
def excess (f : Format) (n : Nat) : Nat := bitLength n - f.precision

/-- The number of steps to one. -/
def one (f : Format) : Nat := twoPow f.fraction

/-- The first number of steps that is too large. -/
def bound (f : Format) : Nat := twoPow (f.limit + f.fraction)

/-- So many steps are a magnitude of the format: not too large, and zero beyond the precision. -/
def Fits (f : Format) (steps : Nat) : Prop :=
  steps < f.bound ∧ steps % twoPow (f.excess steps) = 0

instance (f : Format) (steps : Nat) : Decidable (f.Fits steps) := by
  unfold Fits; infer_instance

/-- The number of steps nearest to `n` parts, where a step has `2 ^ parts` of them. -/
def round (f : Format) (n parts : Nat) : Nat :=
  let shift := max (f.excess n) parts
  divideHalfEven n (twoPow shift) * twoPow (shift - parts)

/-- The format of biases and energies: 53 significant bits. -/
def double : Format := ⟨53, 1074, 1024, by decide⟩

/-- The format in which sums are accumulated: 64 significant bits, steps fine enough for any product
of two doubles, and a range beyond all sums of such products. -/
def extended : Format := ⟨64, 2148, 4096, by decide⟩

end Format

end QuboSplit
