/-!
# A random engine

A multiplicative congruential generator: each state is the previous one times 16807 modulo the
prime `2 ^ 31 - 1`. Bounded draws reject the uneven rest of the range, and take several draws for
more numbers than one draw can give.
-/

namespace QuboSplit

/-- The state of the engine. -/
structure Engine where
  state : Nat
  deriving DecidableEq

namespace Engine

/-- The prime modulus. States lie between one and its predecessor. -/
def modulus : Nat := 2147483647

def multiplier : Nat := 16807

/-- The engine started from a seed. A seed of zero modulo the prime counts as one. -/
def ofSeed (seed : Nat) : Engine := ⟨if seed % modulus = 0 then 1 else seed % modulus⟩

/-- The engine after one draw. -/
def next (g : Engine) : Engine := ⟨multiplier * g.state % modulus⟩

/-- The number drawn last, counted from zero. -/
def draw (g : Engine) : Nat := g.state - 1

/-- One draw: a number below the greatest state, and the engine after it. -/
def drawOne (g : Engine) : Nat × Engine := (g.next.draw, g.next)

/-- Draws until the number drawn is below the limit, at most so many times, and then gives up with
zero. -/
def drawBelow (draw : Engine → Nat × Engine) (limit : Nat) : (tries : Nat) → Engine → Nat × Engine
  | 0, g => (0, g)
  | tries + 1, g =>
    let (x, g) := draw g
    if x < limit then (x, g) else drawBelow draw limit tries g

/-- An even choice among the numbers below `k`. Of few numbers each stands for equally many of those
that one draw can give; of more numbers than these the higher digit is chosen first and one draw is
the lower. The engine passes through all its states in fewer draws than its modulus, so that many
tries stop no search that would succeed. -/
def uniform (g : Engine) (k : Nat) : Nat × Engine :=
  if k < modulus - 1 then
    let scaling := (modulus - 2) / k
    let (drawn, g) := drawBelow drawOne (k * scaling) modulus g
    (drawn / scaling, g)
  else if k = modulus - 1 then drawOne g
  else
    let twoDigits := fun g =>
      let (high, g) := uniform g ((k - 1) / (modulus - 1) + 1)
      let (low, g) := drawOne g
      ((modulus - 1) * high + low, g)
    drawBelow twoDigits k modulus g
termination_by k
decreasing_by
  unfold modulus at *
  omega

end Engine

end QuboSplit
