/-!
# Stable sorting

Sorting by insertion: an element passes those that are less than it and stops before the first that
is not, so elements of which neither is less keep their order. The order need not be total.
-/

namespace QuboSplit

variable {β : Type}

/-- Puts `x` before the first element that is not less than it. -/
def insertBy (less : β → β → Bool) (x : β) : List β → List β
  | [] => [x]
  | y :: rest => if less y x then y :: insertBy less x rest else x :: y :: rest

/-- The elements in increasing order, ties in their order of appearance. -/
def stableSort (less : β → β → Bool) (xs : List β) : List β := xs.foldr (insertBy less) []

theorem insertBy_perm (less : β → β → Bool) (x : β) (xs : List β) :
    (insertBy less x xs).Perm (x :: xs) := by
  induction xs with
  | nil => exact .refl _
  | cons y rest ih =>
    unfold insertBy
    split
    · exact (ih.cons y).trans (.swap x y rest)
    · exact .refl _

/-- Sorting loses and repeats nothing. -/
theorem stableSort_perm (less : β → β → Bool) (xs : List β) : (stableSort less xs).Perm xs := by
  induction xs with
  | nil => exact .refl _
  | cons x xs ih => exact (insertBy_perm less x _).trans (ih.cons x)

end QuboSplit
