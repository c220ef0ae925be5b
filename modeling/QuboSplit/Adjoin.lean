/-!
# Lists without repeats

A list stands for a finite set in order of first appearance. `adjoin` is the union of such a list
with the elements of another.
-/

namespace QuboSplit

variable {β : Type} [DecidableEq β]

/-- The list with the elements of `ys` that it lacks at its end, each once. -/
def adjoin (xs ys : List β) : List β :=
  ys.foldl (fun seen y => if y ∈ seen then seen else seen ++ [y]) xs

/-- The elements of a list in order of first appearance. -/
def distinct (ys : List β) : List β := adjoin [] ys

theorem adjoin_cons (xs : List β) (y : β) (ys : List β) :
    adjoin xs (y :: ys) = adjoin (if y ∈ xs then xs else xs ++ [y]) ys := rfl

theorem mem_adjoin {x : β} {xs ys : List β} : x ∈ adjoin xs ys ↔ x ∈ xs ∨ x ∈ ys := by
  induction ys generalizing xs with
  | nil => simp [adjoin]
  | cons y ys ih =>
    rw [adjoin_cons, ih]
    by_cases h : y ∈ xs
    · rw [if_pos h, List.mem_cons]
      exact ⟨fun o => o.imp id Or.inr, fun o => o.elim Or.inl
        fun o => o.elim (fun e => Or.inl (e ▸ h)) Or.inr⟩
    · rw [if_neg h]
      simp [or_assoc]

theorem nodup_adjoin {xs : List β} (h : xs.Nodup) (ys : List β) : (adjoin xs ys).Nodup := by
  induction ys generalizing xs with
  | nil => exact h
  | cons y ys ih =>
    rw [adjoin_cons]
    split
    · exact ih h
    · next hy =>
      refine ih (List.nodup_append.2 ⟨h, by simp, ?_⟩)
      intro a ha b hb
      rw [List.mem_singleton] at hb
      exact fun e => hy (hb ▸ e ▸ ha)

theorem nodup_distinct (ys : List β) : (distinct ys).Nodup := nodup_adjoin List.nodup_nil ys

theorem mem_distinct {y : β} {ys : List β} : y ∈ distinct ys ↔ y ∈ ys := by
  simp [distinct, mem_adjoin]

end QuboSplit
