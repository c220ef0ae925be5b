import QuboSplit.Number.Floating

/-!
# Decimal text of a number

A number is written with at most six significant digits, correctly rounded with ties to even and
without trailing zeros. Numbers from a ten-thousandth up to a million are written positionally, all
others with an exponent of at least two digits.
-/

namespace QuboSplit.Decimal

/-- A positive decimal number: the digits, with a point after the first, times ten to the
exponent. -/
structure Scientific where
  digits : Nat
  exponent : Int

/-- The number of significant digits. -/
def significant : Nat := 6

/-- Ten to the power `n`. -/
def tenPow (n : Nat) : Nat := Nat.pow 10 n

/-- The number of decimal digits. -/
def places (n : Nat) : Nat := (Nat.toDigits 10 n).length

/-- The exponent of the leading decimal digit of the quotient `n / d`. -/
def leadingExponent (n d : Nat) : Int :=
  if d ≤ n then (places (n / d) : Int) - 1
  else
    let gap := places (d / n)
    if n * tenPow (gap - 1) = d then 1 - (gap : Int) else -(gap : Int)

/-- The quotient `n / d` rounded to the significant digits. -/
def ofQuotient (n d : Nat) : Scientific :=
  let exponent := leadingExponent n d
  let shift : Int := significant - 1 - exponent
  let digits := divideHalfEven (n * tenPow shift.toNat) (d * tenPow (-shift).toNat)
  if digits = tenPow significant then ⟨tenPow (significant - 1), exponent + 1⟩
  else ⟨digits, exponent⟩

/-- A list without its trailing zeros. -/
def dropTrailingZeros (cs : List Char) : List Char := (cs.reverse.dropWhile (· = '0')).reverse

/-- An integral part and the decimals after it, with a point only if some remain. -/
def withPoint (whole decimals : List Char) : List Char :=
  match dropTrailingZeros decimals with
  | [] => whole
  | rest => whole ++ '.' :: rest

/-- An exponent with its sign and at least two digits. -/
def exponentText (exponent : Int) : List Char :=
  let digits := Nat.toDigits 10 exponent.natAbs
  'e' :: (if exponent < 0 then '-' else '+') ::
    (if digits.length < 2 then '0' :: digits else digits)

/-- The written form of a positive number. -/
def Scientific.text (s : Scientific) : List Char :=
  let digits := Nat.toDigits 10 s.digits
  if s.exponent < -4 ∨ (significant : Int) ≤ s.exponent then
    withPoint (digits.take 1) (digits.drop 1) ++ exponentText s.exponent
  else if s.exponent < 0 then
    withPoint ['0'] (List.replicate (s.exponent.natAbs - 1) '0' ++ digits)
  else withPoint (digits.take (s.exponent.toNat + 1)) (digits.drop (s.exponent.toNat + 1))

end QuboSplit.Decimal

namespace QuboSplit.Floating

/-- A sign, if any, before a written magnitude. -/
def withSign (negative : Bool) (cs : List Char) : String :=
  String.ofList (if negative then '-' :: cs else cs)

/-- The written form of a number. -/
def text {f : Format} : Floating f → String
  | .nan => "nan"
  | .infinite negative => withSign negative ['i', 'n', 'f']
  | .finite negative steps _ =>
    withSign negative
      (if steps = 0 then ['0'] else (Decimal.ofQuotient steps f.one).text)

end QuboSplit.Floating
