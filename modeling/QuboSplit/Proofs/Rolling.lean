import Mathlib.Tactic
import QuboSplit.Proofs.Lists
import QuboSplit.Proofs.Number.Rounding
import QuboSplit.Rolling

/-!
# When rolling is exhausted

The rounded share of a number of variables is at most that number (`atMost_total`), so rolling is
exhausted at the latest when every variable is exposed. With a share of one it is exhausted no
earlier, as long as counts are exact numbers (`exhausted_iff_of_share_one`).
-/

namespace QuboSplit

open Scalar (ofInt ofNat atMost)

theorem atMost_eq (x y : Binary64) : atMost x y = Floating.atMost x y := rfl

theorem ofInt_eq (i : Int) : (ofInt i : Binary64) = Floating.ofInt i := rfl

theorem ofNat_eq_ofInt {α : Type} [Scalar α] (n : Nat) : (ofNat n : α) = ofInt n := rfl

theorem ofNat_eq (n : Nat) : (ofNat n : Binary64) = Floating.ofInt n :=
  (ofNat_eq_ofInt n).trans (ofInt_eq n)

theorem History.atMost_total (history : History Binary64) {n : Nat} (hn : n < 2 ^ 64) :
    atMost (history.share * ofInt n) (ofNat n : Binary64) = true := by
  obtain ⟨share, hrange⟩ := history
  obtain ⟨hlow, hhigh⟩ := (Bool.and_eq_true _ _).mp hrange
  have hlimit : 64 < Format.double.limit := by decide
  rw [atMost_eq, ofInt_eq] at hlow hhigh
  rw [atMost_eq, ofInt_eq, ofNat_eq]
  exact Floating.atMost_mul_ofInt (Nat.le_of_lt hn) hlimit hlow hhigh

namespace Rolling

theorem exhausted_iff {α : Type} [Scalar α] {r : Rolling} {history : History α} {total : Int} :
    r.exhausted history total = true ↔
      r.visited ≠ [] ∧ atMost (history.share * ofInt total) (ofNat r.size : α) = true := by
  unfold exhausted
  rw [Bool.and_eq_true, decide_eq_true_eq]

/-- Rolling is exhausted when all variables are exposed. -/
theorem exhausted_of_size_eq {r : Rolling} {history : History Binary64} {n : Nat} (hpos : 0 < n)
    (hn : n < 2 ^ 64) (hsize : r.size = n) : r.exhausted history n = true := by
  subst hsize
  exact exhausted_iff.2 ⟨List.ne_nil_of_length_pos hpos, history.atMost_total hn⟩

/-- With a share of one rolling is exhausted only then. -/
theorem exhausted_iff_of_share_one {r : Rolling} {history : History Binary64} {n : Nat}
    (hshare : history.share = ofInt 1) (hn : n ≤ 2 ^ 53) (hsize : r.size ≤ n) :
    r.exhausted history n = true ↔ r.visited ≠ [] ∧ r.size = n := by
  have hlimit : 53 < Format.double.limit := by decide
  have hone : (Floating.ofInt 1 * Floating.ofInt n : Binary64) = Floating.ofInt n :=
    Floating.ofInt_one_mul hn hlimit
  have hcompare : Floating.atMost (Floating.ofInt n : Binary64) (Floating.ofInt r.size) = true ↔
      n ≤ r.size :=
    Floating.atMost_ofInt_iff hlimit hn (hsize.trans hn) hn (hsize.trans hn)
  have hmul : (ofInt 1 * ofInt n : Binary64) = Floating.ofInt n := hone
  rw [exhausted_iff, hshare, hmul, atMost_eq, ofNat_eq, hcompare]
  constructor
  · rintro ⟨hne, hle⟩
    exact ⟨hne, by omega⟩
  · rintro ⟨hne, he⟩
    exact ⟨hne, by omega⟩

/-- Exposing new variables puts them after the others. -/
theorem visited_expose {r : Rolling} {labels : List Label} (hr : r.visited.Nodup)
    (hlabels : labels.Nodup) (hnew : ∀ v ∈ labels, v ∉ r.visited) :
    (r.expose labels).visited = r.visited ++ labels := by
  refine adjoin_eq_append (List.nodup_append.2 ⟨hr, hlabels, ?_⟩)
  intro v hv w hw e
  exact hnew w hw (e ▸ hv)

end Rolling

end QuboSplit
