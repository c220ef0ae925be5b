import QuboSplit.Number.Format

/-!
# Floating-point numbers

A number of a format is a signed whole number of the format's steps, an infinity, or the value that
stands for no number. Each operation computes the exact result in steps and rounds it once, to
nearest with ties to even. Zero has a sign; there is one `nan`.
-/

namespace QuboSplit

/-- A floating-point number of the format `f`. -/
inductive Floating (f : Format) where
  | nan
  | infinite (negative : Bool)
  | finite (negative : Bool) (steps : Nat) (fits : f.Fits steps)
  deriving DecidableEq

/-- The numbers of models and samples. -/
abbrev Binary64 := Floating .double

namespace Floating

variable {f : Format}

/-- The number nearest to the given magnitude, which counts parts of `2 ^ parts` to a step. A
rounded magnitude has no bits beyond the precision, so it fits unless it is too large. -/
def ofMagnitude (negative : Bool) (n : Nat) (parts : Nat) : Floating f :=
  let steps := f.round n parts
  if fits : f.Fits steps then .finite negative steps fits else .infinite negative

/-- The number nearest to an integer. -/
def ofInt (i : Int) : Floating f := ofMagnitude (i < 0) (i.natAbs * f.one) 0

/-- A signed number of steps; the sign of zero is lost. -/
def signed (negative : Bool) (steps : Nat) : Int := if negative then -steps else steps

def neg : Floating f → Floating f
  | .nan => .nan
  | .infinite negative => .infinite (!negative)
  | .finite negative steps fits => .finite (!negative) steps fits

/-- The rounded sum. Opposite infinities have none, and a zero sum is negative only if both
summands are. -/
def add : Floating f → Floating f → Floating f
  | .nan, _ => .nan
  | _, .nan => .nan
  | .infinite a, .infinite b => if a = b then .infinite a else .nan
  | .infinite a, .finite .. => .infinite a
  | .finite .., .infinite b => .infinite b
  | .finite a m _, .finite b n _ =>
    let total := signed a m + signed b n
    ofMagnitude (if total = 0 then a && b else total < 0) total.natAbs 0

def sub (x y : Floating f) : Floating f := x.add y.neg

/-- The rounded product. Zero times an infinity has none. -/
def mul : Floating f → Floating f → Floating f
  | .nan, _ => .nan
  | _, .nan => .nan
  | .infinite a, .infinite b => .infinite (a != b)
  | .infinite a, .finite b n _ => if n = 0 then .nan else .infinite (a != b)
  | .finite a m _, .infinite b => if m = 0 then .nan else .infinite (a != b)
  | .finite a m _, .finite b n _ => ofMagnitude (a != b) (m * n) f.fraction

/-- The rounded half. -/
def half : Floating f → Floating f
  | .nan => .nan
  | .infinite negative => .infinite negative
  | .finite negative steps _ => ofMagnitude negative steps 1

/-- The nearest number of another format. -/
def convert (g : Format) : Floating f → Floating g
  | .nan => .nan
  | .infinite negative => .infinite negative
  | .finite negative steps _ =>
    ofMagnitude negative (steps * twoPow (g.fraction - f.fraction)) (f.fraction - g.fraction)

/-- Numerical equality: both zeros are equal, and `nan` equals nothing. -/
def equal : Floating f → Floating f → Bool
  | .infinite a, .infinite b => a == b
  | .finite a m _, .finite b n _ => signed a m == signed b n
  | _, _ => false

/-- Numerical order, in which `nan` is related to nothing. -/
def less : Floating f → Floating f → Bool
  | .infinite a, .infinite b => a && !b
  | .infinite a, .finite .. => a
  | .finite .., .infinite b => !b
  | .finite a m _, .finite b n _ => signed a m < signed b n
  | _, _ => false

instance : Neg (Floating f) := ⟨neg⟩
instance : Add (Floating f) := ⟨add⟩
instance : Sub (Floating f) := ⟨sub⟩
instance : Mul (Floating f) := ⟨mul⟩

end Floating

end QuboSplit
