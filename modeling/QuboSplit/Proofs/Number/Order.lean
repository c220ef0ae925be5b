import Mathlib.Tactic
import QuboSplit.Number.Floating

/-!
# Numerical order

The order of floating-point numbers is asymmetric, and negatively transitive as long as the number
in the middle is one: `nan` is related to nothing, so it would pass for equal to everything. Numbers
of which neither is less are equal. Where equal numbers are ordered by something else, the whole
stays asymmetric (`asymm_of_ties`).
-/

namespace QuboSplit.Floating

variable {f : Format} {x y z : Floating f}

theorem less_asymm (h : x.less y = true) : y.less x = false := by
  cases x <;> cases y <;> simp_all [less]
  omega

theorem not_less_of_equal (h : x.equal y = true) : x.less y = false := by
  cases x <;> cases y <;> simp_all [less, equal]

/-- By decreasing number, and among equal numbers by a strict order. -/
theorem asymm_of_ties {P Q : Prop} (hPQ : P → ¬ Q)
    (h : y.less x = true ∨ x.equal y = true ∧ P) : ¬ (x.less y = true ∨ y.equal x = true ∧ Q) := by
  rintro (hless | ⟨hequal, hQ⟩)
  · rcases h with h | ⟨h, -⟩
    · exact Bool.noConfusion (hless.symm.trans (less_asymm h))
    · exact Bool.noConfusion (hless.symm.trans (not_less_of_equal h))
  · rcases h with h | ⟨-, hP⟩
    · exact Bool.noConfusion (h.symm.trans (not_less_of_equal hequal))
    · exact hPQ hP hQ

/-- Negative transitivity through a number. -/
theorem not_less_trans (hy : y ≠ .nan) (h : y.less x = false) (h' : z.less y = false) :
    z.less x = false := by
  cases x <;> cases y <;> cases z <;> simp_all [less]
  omega

/-- Numbers are comparable. -/
theorem equal_of_not_less (hx : x ≠ .nan) (hy : y ≠ .nan) (h : x.less y = false)
    (h' : y.less x = false) : x.equal y = true := by
  cases x <;> cases y <;> simp_all [less, equal]
  · next a b => cases a <;> cases b <;> simp_all
  · omega

end QuboSplit.Floating
