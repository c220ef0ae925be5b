import Mathlib.Data.List.Forall2
import QuboSplit.StableSort

/-!
# What sorting yields

An order that is asymmetric and negatively transitive sorts a list: nothing is less than what comes
before it (`stableSort_sorted`), and the first of the least elements comes first
(`isFirstLeast_of_stableSort_eq_cons`). Whatever the order, elements change places only if one is
less than the other (`stableSort_keeps`), so a sorted list stays as it is (`stableSort_eq_self`).
Sorting looks at its elements through the order only, so lists that the order cannot tell apart are
sorted alike (`stableSort_forall₂`).
-/

namespace QuboSplit

open List (Forall₂)

variable {β γ : Type} {less : β → β → Bool} {less' : γ → γ → Bool}

/-! ### Order -/

/-- The element is the first of the least ones: less than any before it, and none after it is
less. -/
def IsFirstLeast (less : β → β → Bool) (x : β) (xs : List β) : Prop :=
  ∃ before after, xs = before ++ x :: after ∧ (∀ y ∈ before, less x y = true) ∧
    ∀ y ∈ after, less y x = false

section Sorted

variable {P : β → Prop} (hasymm : ∀ a b, less a b = true → less b a = false)
  (htrans : ∀ a b c, P b → less b a = false → less c b = false → less c a = false)

include hasymm htrans

theorem insertBy_sorted (x : β) {xs : List β} (hP : ∀ y ∈ xs, P y)
    (h : xs.Pairwise fun a b => less b a = false) :
    (insertBy less x xs).Pairwise fun a b => less b a = false := by
  induction xs with
  | nil => exact List.pairwise_singleton _ x
  | cons y rest ih =>
    obtain ⟨hy, hrest⟩ := List.pairwise_cons.1 h
    obtain ⟨hPy, hPrest⟩ := List.forall_mem_cons.1 hP
    unfold insertBy
    split
    · next hless =>
      refine List.pairwise_cons.2 ⟨fun z hz => ?_, ih hPrest hrest⟩
      rcases List.mem_cons.1 ((insertBy_perm less x rest).mem_iff.1 hz) with rfl | hz
      · exact hasymm y z hless
      · exact hy z hz
    · next hless =>
      rw [Bool.not_eq_true] at hless
      refine List.pairwise_cons.2 ⟨fun z hz => ?_, h⟩
      rcases List.mem_cons.1 hz with rfl | hz
      · exact hless
      · exact htrans x y z hPy hless (hy z hz)

/-- The order may be transitive through the elements of the list only. -/
theorem stableSort_sorted {xs : List β} (hP : ∀ x ∈ xs, P x) :
    (stableSort less xs).Pairwise fun a b => less b a = false := by
  induction xs with
  | nil => exact List.Pairwise.nil
  | cons x xs ih =>
    have hP := (List.forall_mem_cons.1 hP).2
    exact insertBy_sorted hasymm htrans x
      (fun y hy => hP y ((stableSort_perm less xs).mem_iff.1 hy)) (ih hP)

/-- What is sorted to the front is the first of the least elements. -/
theorem isFirstLeast_of_stableSort_eq_cons {xs rest : List β} {x : β} (hP : ∀ y ∈ xs, P y)
    (h : stableSort less xs = x :: rest) : IsFirstLeast less x xs := by
  induction xs generalizing x rest with
  | nil => cases h
  | cons y xs ih =>
    obtain ⟨hPy, hP⟩ := List.forall_mem_cons.1 hP
    change insertBy less y (stableSort less xs) = x :: rest at h
    cases hsorted : stableSort less xs with
    | nil =>
      have hnil : xs = [] := (hsorted ▸ stableSort_perm less xs).symm.eq_nil
      rw [hsorted] at h
      obtain ⟨rfl, -⟩ := List.cons.inj h
      exact ⟨[], xs, rfl, by simp, by simp [hnil]⟩
    | cons z sorted =>
      have hz := ih hP hsorted
      rw [hsorted] at h
      unfold insertBy at h
      split at h
      · next hless =>
        obtain ⟨rfl, -⟩ := List.cons.inj h
        obtain ⟨before, after, hsplit, hbefore, hafter⟩ := hz
        refine ⟨y :: before, after, by rw [hsplit]; rfl, ?_, hafter⟩
        exact List.forall_mem_cons.2 ⟨hless, hbefore⟩
      · next hless =>
        obtain ⟨rfl, -⟩ := List.cons.inj h
        refine ⟨[], xs, rfl, by simp, fun w hw => ?_⟩
        have hall : (z :: sorted).Pairwise fun a b => less b a = false :=
          hsorted ▸ stableSort_sorted hasymm htrans hP
        have hzP : P z := hP z ((stableSort_perm less xs).mem_iff.1 (hsorted ▸ List.mem_cons_self))
        have hw' : w ∈ z :: sorted := hsorted ▸ (stableSort_perm less xs).mem_iff.2 hw
        rw [Bool.not_eq_true] at hless
        rcases List.mem_cons.1 hw' with rfl | hw'
        · exact hless
        · exact htrans y z w hzP hless ((List.pairwise_cons.1 hall).1 w hw')

end Sorted

/-! ### Sorted lists -/

theorem insertBy_eq_cons {x : β} {xs : List β} (h : ∀ y ∈ xs, less y x = false) :
    insertBy less x xs = x :: xs := by
  cases xs with
  | nil => rfl
  | cons y rest =>
    have hy : ¬ less y x = true := by simp [h y List.mem_cons_self]
    exact if_neg hy

theorem stableSort_eq_self {xs : List β} (h : xs.Pairwise fun a b => less b a = false) :
    stableSort less xs = xs := by
  induction xs with
  | nil => rfl
  | cons x xs ih =>
    obtain ⟨hx, hxs⟩ := List.pairwise_cons.1 h
    show insertBy less x (stableSort less xs) = x :: xs
    rw [ih hxs, insertBy_eq_cons hx]

/-! ### Stability -/

section Stable

variable {r : β → β → Prop}

/-- An element that comes before others gets behind those only that are less. -/
theorem insertBy_keeps {x : β} {xs : List β} (hx : ∀ y ∈ xs, r x y)
    (h : xs.Pairwise fun a b => less a b = true ∨ r a b) :
    (insertBy less x xs).Pairwise fun a b => less a b = true ∨ r a b := by
  induction xs with
  | nil => exact List.pairwise_singleton _ x
  | cons y rest ih =>
    obtain ⟨hy, hrest⟩ := List.pairwise_cons.1 h
    unfold insertBy
    split
    · next hless =>
      obtain ⟨-, hxrest⟩ := List.forall_mem_cons.1 hx
      refine List.pairwise_cons.2 ⟨fun z hz => ?_, ih hxrest hrest⟩
      rcases List.mem_cons.1 ((insertBy_perm less x rest).mem_iff.1 hz) with rfl | hz
      · exact .inl hless
      · exact hy z hz
    · exact List.pairwise_cons.2 ⟨fun z hz => .inr (hx z hz), h⟩

/-- Of two sorted elements the first is less, or it came first before. -/
theorem stableSort_keeps {xs : List β} (h : xs.Pairwise r) :
    (stableSort less xs).Pairwise fun a b => less a b = true ∨ r a b := by
  induction xs with
  | nil => exact List.Pairwise.nil
  | cons x xs ih =>
    obtain ⟨hx, hxs⟩ := List.pairwise_cons.1 h
    exact insertBy_keeps (fun y hy => hx y ((stableSort_perm less xs).mem_iff.1 hy)) (ih hxs)

end Stable

/-! ### Congruence -/

section Congruence

variable {R : β → γ → Prop}
  (hless : ∀ a a' b b', R a a' → R b b' → less a b = less' a' b')

include hless

theorem insertBy_forall₂ {x : β} {x' : γ} {xs : List β} {xs' : List γ} (hx : R x x')
    (h : Forall₂ R xs xs') : Forall₂ R (insertBy less x xs) (insertBy less' x' xs') := by
  induction h with
  | nil => exact .cons hx .nil
  | cons hy hrest ih =>
    unfold insertBy
    rw [hless _ _ _ _ hy hx]
    split
    · exact .cons hy ih
    · exact .cons hx (.cons hy hrest)

theorem stableSort_forall₂ {xs : List β} {xs' : List γ} (h : Forall₂ R xs xs') :
    Forall₂ R (stableSort less xs) (stableSort less' xs') := by
  induction h with
  | nil => exact .nil
  | cons hx _ ih => exact insertBy_forall₂ hless hx ih

end Congruence

end QuboSplit
