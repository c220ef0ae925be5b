import QuboSplit.Proofs.Number.Equality
import QuboSplit.Vartype

/-!
# Conversion of values

A vartype admits its two values, zeros of either sign included (`admits_iff`). Conversion carries
these to the two values of the target (`admits_convert`), and conversion back recovers them
(`convert_convert`). They are recovered as numbers only: a negative zero comes back as a positive
one.
-/

namespace QuboSplit.Vartype

variable {source target vartype : Vartype} {x y : Binary64}

theorem lowest_ne_nan : (vartype.lowest : Binary64) ≠ .nan := by
  cases vartype <;> decide +kernel

theorem one_ne_nan : (Scalar.ofInt 1 : Binary64) ≠ .nan := by decide +kernel

theorem admits_iff :
    vartype.admits x = true ↔ x.Same vartype.lowest ∨ x.Same (Scalar.ofInt 1) := by
  have hadmits : vartype.admits x = (x.equal vartype.lowest || x.equal (Scalar.ofInt 1)) := by
    cases vartype <;> rfl
  rw [hadmits, Bool.or_eq_true, Floating.equal_iff_same lowest_ne_nan,
    Floating.equal_iff_same one_ne_nan]

theorem convert_same (source target : Vartype) (h : x.Same y) :
    (source.convert target x).Same (source.convert target y) := by
  have htwo : (Floating.ofInt 2 : Binary64).Same (.ofInt 2) := .refl _
  have hone : (Floating.ofInt 1 : Binary64).Same (.ofInt 1) := .refl _
  cases source with
  | binary =>
    cases target with
    | binary => exact h
    | spin => exact (htwo.mul h).sub hone
  | spin =>
    cases target with
    | binary => exact (h.add hone).half
    | spin => exact h

theorem convert_lowest (source target : Vartype) :
    source.convert target (source.lowest : Binary64) = target.lowest := by
  cases source <;> cases target <;> decide +kernel

theorem convert_one (source target : Vartype) :
    source.convert target (Scalar.ofInt 1 : Binary64) = Scalar.ofInt 1 := by
  cases source <;> cases target <;> decide +kernel

/-- Every admitted value is carried to an admitted one. -/
theorem admits_convert (target : Vartype) (h : source.admits x = true) :
    target.admits (source.convert target x) = true := by
  rw [admits_iff] at h ⊢
  rcases h with h | h
  · exact .inl (convert_lowest source target ▸ convert_same source target h)
  · exact .inr (convert_one source target ▸ convert_same source target h)

/-- Conversion and conversion back yield a number equal to the one that was admitted. -/
theorem convert_convert (target : Vartype) (h : source.admits x = true) :
    x.equal (target.convert source (source.convert target x)) = true := by
  -- each of the two values comes back exactly, and `x` is one of them up to the sign of a zero
  have hback : ∀ value : Binary64, value ≠ .nan → x.Same value →
      target.convert source (source.convert target value) = value →
      x.equal (target.convert source (source.convert target x)) = true := by
    intro value hnan hx hvalue
    have hsame := convert_same target source (convert_same source target hx)
    rw [hvalue] at hsame
    exact Floating.equal_trans (hx.equal hnan) (Floating.equal_symm (hsame.equal hnan))
  rcases admits_iff.1 h with h | h
  · exact hback _ lowest_ne_nan h (by rw [convert_lowest, convert_lowest])
  · exact hback _ one_ne_nan h (by rw [convert_one, convert_one])

end QuboSplit.Vartype
