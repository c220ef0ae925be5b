import Mathlib.Tactic
import QuboSplit.Model.Basic

/-!
# Rows in increasing order

A row whose far ends increase is a finite map from indices to biases. `Row.revise` changes that map
at one index (`bias?_revise`) and keeps the order (`increasing_revise`); the couplings to indices
below a bound are a first part of the row (`take_countP_lt`).
-/

namespace QuboSplit.Row

variable {α : Type}

/-- The far ends of the couplings increase strictly. -/
def Increasing (row : Row α) : Prop := (row.map Prod.fst).Pairwise (· < ·)

theorem increasing_nil : Increasing ([] : Row α) := List.Pairwise.nil

theorem increasing_cons {k : Nat} {b : α} {row : Row α} :
    Increasing ((k, b) :: row) ↔ (∀ j ∈ row.map Prod.fst, k < j) ∧ Increasing row := by
  unfold Increasing
  rw [List.map_cons, List.pairwise_cons]

/-! ### Biases by index -/

theorem bias?_nil (j : Nat) : bias? ([] : Row α) j = none := rfl

theorem bias?_cons (k : Nat) (b : α) (row : Row α) (j : Nat) :
    bias? ((k, b) :: row) j = if j = k then some b else bias? row j := by
  unfold bias?
  rw [List.lookup_cons]
  by_cases h : j = k
  · simp [h]
  · rw [beq_false_of_ne h, if_neg h]

theorem bias?_eq_none_iff {row : Row α} {j : Nat} :
    bias? row j = none ↔ j ∉ row.map Prod.fst := by
  induction row with
  | nil => simp [bias?_nil]
  | cons c row ih =>
    obtain ⟨k, b⟩ := c
    rw [bias?_cons, List.map_cons, List.mem_cons]
    by_cases h : j = k
    · simp [h]
    · rw [if_neg h, ih]
      simp [h]

theorem mem_of_bias?_eq_some {row : Row α} {j : Nat} {b : α} (h : bias? row j = some b) :
    (j, b) ∈ row := by
  induction row with
  | nil => simp [bias?_nil] at h
  | cons c row ih =>
    obtain ⟨k, b'⟩ := c
    rw [bias?_cons] at h
    split at h
    · next hk => simp_all
    · exact List.mem_cons_of_mem _ (ih h)

theorem mem_iff_bias?_eq_some {row : Row α} (h : Increasing row) {j : Nat} {b : α} :
    (j, b) ∈ row ↔ bias? row j = some b := by
  refine ⟨fun hm => ?_, mem_of_bias?_eq_some⟩
  induction row with
  | nil => simp at hm
  | cons c row ih =>
    obtain ⟨k, b'⟩ := c
    obtain ⟨hk, hrow⟩ := increasing_cons.1 h
    rw [bias?_cons]
    rcases List.mem_cons.1 hm with e | hm
    · cases e
      rw [if_pos rfl]
    · have hlt : k < j := hk j (List.mem_map_of_mem hm)
      rw [if_neg (by omega), ih hrow hm]

/-! ### Revising a bias -/

theorem mem_keys_revise (zero : α) (j : Nat) (f : α → α) (row : Row α) (k : Nat) :
    k ∈ (row.revise zero j f).map Prod.fst ↔ k = j ∨ k ∈ row.map Prod.fst := by
  induction row with
  | nil => simp [revise]
  | cons c row ih =>
    obtain ⟨i, b⟩ := c
    unfold revise
    by_cases hlt : i < j
    · rw [if_pos hlt, List.map_cons, List.mem_cons, ih, List.map_cons, List.mem_cons]
      tauto
    · rw [if_neg hlt]
      by_cases he : i = j <;> simp [he]

theorem increasing_revise {row : Row α} (h : Increasing row) (zero : α) (j : Nat) (f : α → α) :
    Increasing (row.revise zero j f) := by
  induction row with
  | nil => exact increasing_cons.2 ⟨by simp, increasing_nil⟩
  | cons c row ih =>
    obtain ⟨i, b⟩ := c
    obtain ⟨hi, hrow⟩ := increasing_cons.1 h
    unfold revise
    by_cases hlt : i < j
    · rw [if_pos hlt]
      refine increasing_cons.2 ⟨fun k hk => ?_, ih hrow⟩
      rcases (mem_keys_revise zero j f row k).1 hk with rfl | hk
      · exact hlt
      · exact hi k hk
    · rw [if_neg hlt]
      by_cases he : i = j
      · rw [if_pos he]
        exact increasing_cons.2 ⟨hi, hrow⟩
      · rw [if_neg he]
        refine increasing_cons.2 ⟨fun k hk => ?_, h⟩
        rcases List.mem_cons.1 hk with e | hk
        · have e : k = i := e
          omega
        · have := hi k hk
          omega

/-- Only the bias at the revised index changes. -/
theorem bias?_revise {row : Row α} (h : Increasing row) (zero : α) (j : Nat) (f : α → α) (k : Nat) :
    bias? (row.revise zero j f) k =
      if k = j then some (f ((bias? row j).getD zero)) else bias? row k := by
  induction row with
  | nil => simp [revise, bias?_cons, bias?_nil]
  | cons c row ih =>
    obtain ⟨i, b⟩ := c
    obtain ⟨hi, hrow⟩ := increasing_cons.1 h
    unfold revise
    by_cases hlt : i < j
    · rw [if_pos hlt, bias?_cons, ih hrow, bias?_cons, bias?_cons, if_neg (by omega : ¬ j = i)]
      by_cases hk : k = i
      · rw [if_pos hk, if_pos hk, if_neg (by omega)]
      · rw [if_neg hk, if_neg hk]
    · rw [if_neg hlt]
      by_cases he : i = j
      · rw [if_pos he, bias?_cons, bias?_cons, bias?_cons, he, if_pos rfl]
        by_cases hk : k = j <;> simp [hk]
      · have hj : bias? ((i, b) :: row) j = none := by
          refine bias?_eq_none_iff.2 fun hm => ?_
          rcases List.mem_cons.1 hm with e | hm
          · exact he e.symm
          · have := hi j hm
            omega
        rw [if_neg he, hj, bias?_cons]
        rfl

/-! ### Couplings below a bound -/

/-- A revision adds a coupling below `i` only if it adds one at all. -/
theorem countP_lt_revise {row : Row α} (h : Increasing row) (zero : α) (j : Nat) (f : α → α)
    (i : Nat) :
    (row.revise zero j f).countP (·.1 < i) =
      row.countP (·.1 < i) + if j < i ∧ (bias? row j).isNone then 1 else 0 := by
  induction row with
  | nil => by_cases hj : j < i <;> simp [revise, bias?_nil, hj]
  | cons c row ih =>
    obtain ⟨k, b⟩ := c
    obtain ⟨hk, hrow⟩ := increasing_cons.1 h
    unfold revise
    by_cases hlt : k < j
    · rw [if_pos hlt, List.countP_cons, ih hrow, List.countP_cons, bias?_cons,
        if_neg (by omega : ¬ j = k)]
      omega
    · rw [if_neg hlt]
      by_cases he : k = j
      · rw [if_pos he, bias?_cons, if_pos he.symm]
        simp [List.countP_cons]
      · have hj : bias? ((k, b) :: row) j = none := by
          refine bias?_eq_none_iff.2 fun hm => ?_
          rcases List.mem_cons.1 hm with e | hm
          · exact he e.symm
          · have := hk j hm
            omega
        rw [if_neg he, hj, List.countP_cons]
        simp

/-- The couplings below a bound come first. -/
theorem take_countP_lt {row : Row α} (h : Increasing row) (i : Nat) :
    row.take (row.countP (·.1 < i)) = row.filter (·.1 < i) := by
  induction row with
  | nil => rfl
  | cons c row ih =>
    obtain ⟨k, b⟩ := c
    obtain ⟨hk, hrow⟩ := increasing_cons.1 h
    by_cases hlt : k < i
    · rw [List.countP_cons_of_pos (by simpa using hlt), List.take_succ_cons,
        List.filter_cons_of_pos (by simpa using hlt), ih hrow]
    · have hnone : ∀ c ∈ row, ¬ c.1 < i := by
        intro c hc
        have := hk c.1 (List.mem_map_of_mem hc)
        omega
      rw [List.countP_cons_of_neg (by simpa using hlt),
        List.filter_cons_of_neg (by simpa using hlt),
        List.countP_eq_zero.2 (by simpa using hnone),
        List.filter_eq_nil_iff.2 (by simpa using hnone)]
      rfl

end QuboSplit.Row
