import Mathlib.Tactic
import Mathlib.Algebra.BigOperators.Ring.Finset
import QuboSplit.Proofs.Model.Entries
import QuboSplit.Proofs.Sample

/-!
# Energies as polynomials

Over the rational numbers the energy of a sample is the polynomial of the model in the values of its
variables (`energy_eq_polynomial`). The energy loops go over indices and visit a coupling from its
larger end only; the polynomial sums over labels and takes half of the sum over both ends.
-/

namespace QuboSplit.Model

open Finset (range)
open Scalar (Wide ofInt widen narrow wideAdd wideMul accumulate)

/-! ### Values -/

theorem valueAt_map_labels {α : Type} [Scalar α] {m : Model α} (x : Label → α) {i : Nat}
    {v : Label} (h : m.label? i = some v) : valueAt (m.labels.map x) i = x v := by
  rw [label?_eq_getElem?] at h
  unfold valueAt
  rw [List.getD_eq_getElem?_getD, List.getElem?_map, h]
  rfl

/-! ### Sums over couplings -/

theorem foldl_add_eq (start : Rat) (terms : List Rat) :
    terms.foldl (· + ·) start = start + terms.sum := by
  induction terms generalizing start with
  | nil => simp
  | cons x terms ih => rw [List.foldl_cons, ih, List.sum_cons, add_assoc]

theorem accumulate_eq (start : Rat) (terms : List Rat) :
    (accumulate start terms : Rat) = start + terms.sum := foldl_add_eq start terms

/-- A sum over the couplings of a row is one over the indices it can reach. -/
theorem sum_row_eq {row : Row Rat} (h : Row.Increasing row) {n : Nat} (hn : ∀ c ∈ row, c.1 < n)
    (g : Nat → Rat) :
    (row.map fun c => g c.1 * c.2).sum = ∑ j ∈ range n, g j * (Row.bias? row j).getD 0 := by
  induction row with
  | nil => simp [Row.bias?_nil]
  | cons c row ih =>
    obtain ⟨k, b⟩ := c
    obtain ⟨hk, hrow⟩ := Row.increasing_cons.1 h
    have hnone : Row.bias? row k = none :=
      Row.bias?_eq_none_iff.2 fun hm => absurd (hk k hm) (by omega)
    have hsplit : ∀ j, g j * (Row.bias? ((k, b) :: row) j).getD 0 =
        (if j = k then g k * b else 0) + g j * (Row.bias? row j).getD 0 := by
      intro j
      rw [Row.bias?_cons]
      by_cases hj : j = k
      · subst hj
        rw [if_pos rfl, if_pos rfl, hnone]
        simp
      · rw [if_neg hj, if_neg hj, zero_add]
    rw [List.map_cons, List.sum_cons, ih hrow fun c hc => hn c (List.mem_cons_of_mem _ hc),
      Finset.sum_congr rfl fun j _ => hsplit j, Finset.sum_add_distrib, Finset.sum_ite_eq',
      if_pos (Finset.mem_range.2 (hn (k, b) List.mem_cons_self))]

theorem sum_filter_row_eq {row : Row Rat} (h : Row.Increasing row) {n : Nat}
    (hn : ∀ c ∈ row, c.1 < n) {i : Nat} (hi : i ≤ n) (g : Nat → Rat) :
    ((row.filter (·.1 < i)).map fun c => g c.1 * c.2).sum =
      ∑ j ∈ range i, g j * (Row.bias? row j).getD 0 := by
  have hfilter : ((row.filter (·.1 < i)).map fun c => g c.1 * c.2).sum =
      (row.map fun c => (if c.1 < i then g c.1 else 0) * c.2).sum := by
    clear h hn
    induction row with
    | nil => rfl
    | cons c row ih =>
      by_cases hc : c.1 < i
      · rw [List.filter_cons_of_pos (by simpa using hc), List.map_cons, List.map_cons,
          List.sum_cons, List.sum_cons, ih, if_pos hc]
      · rw [List.filter_cons_of_neg (by simpa using hc), List.map_cons, List.sum_cons, ih,
          if_neg hc, zero_mul, zero_add]
  rw [hfilter, sum_row_eq h hn fun j => if j < i then g j else 0]
  have hsub : range i ⊆ range n := Finset.range_subset_range.2 hi
  rw [← Finset.sum_subset hsub]
  · refine Finset.sum_congr rfl fun j hj => ?_
    rw [if_pos (Finset.mem_range.1 hj)]
  · intro j _ hj
    rw [if_neg fun hlt => hj (Finset.mem_range.2 hlt), zero_mul]

/-- Summing below the diagonal is half of summing everywhere. -/
theorem sum_below_eq_half {a : Nat → Nat → Rat} (hs : ∀ i j, a i j = a j i)
    (hd : ∀ i, a i i = 0) (n : Nat) :
    ∑ i ∈ range n, ∑ j ∈ range i, a i j = (∑ i ∈ range n, ∑ j ∈ range n, a i j) / 2 := by
  induction n with
  | zero => simp
  | succ n ih =>
    have hrow : ∑ i ∈ range n, ∑ j ∈ range (n + 1), a i j =
        ∑ i ∈ range n, ∑ j ∈ range n, a i j + ∑ i ∈ range n, a n i := by
      rw [← Finset.sum_add_distrib]
      refine Finset.sum_congr rfl fun i _ => ?_
      rw [Finset.sum_range_succ, hs i n]
    rw [Finset.sum_range_succ, ih, Finset.sum_range_succ, hrow, Finset.sum_range_succ, hd]
    ring

/-! ### The polynomial -/

/-- The linear bias of a variable, zero if the model lacks it. -/
def bias (m : Model Rat) (v : Label) : Rat := (m.linear? v).getD 0

/-- The bias of the interaction of two variables, zero without one. -/
def strength (m : Model Rat) (u v : Label) : Rat := (m.coupling? u v).getD 0

theorem WellFormed.strength_comm {m : Model Rat} (h : m.WellFormed) (u v : Label) :
    m.strength u v = m.strength v u := by
  unfold strength
  rw [h.coupling?_comm]

/-- The polynomial of the model in the values of its variables. -/
def polynomial (m : Model Rat) (x : Label → Rat) : Rat :=
  m.offset + ∑ v ∈ m.labels.toFinset, m.bias v * x v +
    (∑ u ∈ m.labels.toFinset, ∑ v ∈ m.labels.toFinset, m.strength u v * x u * x v) / 2

/-- A sum over indices is one over labels. -/
theorem sum_range_size {α : Type} {m : Model α} (h : m.labels.Nodup) {g : Nat → Rat}
    {f : Label → Rat}
    (hgf : ∀ i v, m.label? i = some v → g i = f v) :
    ∑ i ∈ range m.size, g i = ∑ v ∈ m.labels.toFinset, f v := by
  rw [List.sum_toFinset f h, ← length_labels]
  have hmap : (List.range m.labels.length).map g = m.labels.map f := by
    refine List.ext_getElem (by simp) fun i hi _ => ?_
    have hlt : i < m.labels.length := by simpa using hi
    rw [List.getElem_map, List.getElem_map, List.getElem_range]
    exact hgf i _ (by rw [label?_eq_getElem?, List.getElem?_eq_getElem hlt])
  rw [← hmap]
  rfl

theorem bias_of_label? {m : Model Rat} (h : m.WellFormed) {i : Nat} {v : Label}
    (hi : m.label? i = some v) : m.linearAt i = m.bias v := by
  unfold linearAt bias linear?
  rw [h.index?_iff.2 hi]
  rfl

theorem strength_of_label? {m : Model Rat} (h : m.WellFormed) {i j : Nat} {u v : Label}
    (hi : m.label? i = some u) (hj : m.label? j = some v) :
    (Row.bias? (m.row i) j).getD 0 = m.strength u v := by
  unfold strength
  rw [coupling?_of_index? (h.index?_iff.2 hi) (h.index?_iff.2 hj)]

/-- What one variable adds to the energy: its linear term and its couplings to smaller indices. -/
theorem addContribution_eq {m : Model Rat} (h : m.WellFormed) {i : Nat} {n : Node Rat}
    (hn : m.nodes[i]? = some n) (values : List Rat) (total : Rat) :
    (addContribution values total (n, i) : Rat) =
      total + valueAt values i * (m.linearAt i +
        ∑ j ∈ range i, valueAt values j * (Row.bias? (m.row i) j).getD 0) := by
  have hs := h.sound i n hn
  have hi : i < m.size := lt_size_of_label? (label?_of_node hn)
  have hlinear : m.linearAt i = n.linear := by unfold linearAt; rw [hn]; rfl
  have hpull : (pull values n.linear (n.row.take n.smaller) : Rat) = m.linearAt i +
      ∑ j ∈ range i, valueAt values j * (Row.bias? (m.row i) j).getD 0 := by
    unfold pull
    rw [accumulate_eq, hs.take_smaller, hlinear, row_of_node hn]
    congr 1
    exact sum_filter_row_eq hs.increasing hs.in_range (Nat.le_of_lt hi) (valueAt values)
  rw [← hpull]
  unfold addContribution
  dsimp only
  split
  · next hzero =>
    have hzero : valueAt values i = 0 := by
      have := of_decide_eq_true hzero
      simpa [ofInt] using this
    rw [hzero, zero_mul, add_zero]
  · rfl

theorem foldl_zipIdx_eq {nodes : List (Node Rat)} {step : Rat → Node Rat × Nat → Rat}
    {t : Nat → Rat} {k : Nat}
    (h : ∀ i n total, nodes[i]? = some n → step total (n, k + i) = total + t (k + i))
    (total : Rat) :
    (nodes.zipIdx k).foldl step total = total + ∑ i ∈ range nodes.length, t (k + i) := by
  induction nodes generalizing k total with
  | nil => simp
  | cons n nodes ih =>
    have hrest : ∀ i n' total, nodes[i]? = some n' →
        step total (n', k + 1 + i) = total + t (k + 1 + i) := by
      intro i n' total hi
      rw [Nat.add_assoc, Nat.add_comm 1 i]
      exact h (i + 1) n' total hi
    have hfirst : step total (n, k) = total + t k := h 0 n total rfl
    rw [List.zipIdx_cons, List.foldl_cons, ih hrest, hfirst, List.length_cons,
      Finset.sum_range_succ', add_assoc, add_comm (t k)]
    simp only [Nat.add_assoc, Nat.add_comm 1, Nat.add_zero]

theorem energyOf_eq {m : Model Rat} (h : m.WellFormed) (values : List Rat) :
    m.energyOf values = m.offset + ∑ i ∈ range m.size, valueAt values i * (m.linearAt i +
      ∑ j ∈ range i, valueAt values j * (Row.bias? (m.row i) j).getD 0) := by
  have hstep : ∀ (i : Nat) (n : Node Rat) (total : Rat), m.nodes[i]? = some n →
      (addContribution values total (n, 0 + i) : Rat) = total + valueAt values (0 + i) *
        (m.linearAt (0 + i) +
          ∑ j ∈ range (0 + i), valueAt values j * (Row.bias? (m.row (0 + i)) j).getD 0) := by
    intro i n total hn
    rw [Nat.zero_add]
    exact addContribution_eq h hn values total
  have hfold := foldl_zipIdx_eq (t := fun i => valueAt values i * (m.linearAt i +
    ∑ j ∈ range i, valueAt values j * (Row.bias? (m.row i) j).getD 0)) hstep m.offset
  simp only [Nat.zero_add] at hfold
  exact hfold

/-- The energy of a sample is the polynomial in its values. -/
theorem energy_eq_polynomial {m : Model Rat} (h : m.WellFormed) {s : Sample Rat}
    {x : Label → Rat} (hs : ∀ v ∈ m.labels, s.get? v = some (x v)) :
    m.energy s = .ok (m.polynomial x) := by
  have hvalue : ∀ {i v}, m.label? i = some v → valueAt (m.labels.map x) i = x v :=
    fun hi => valueAt_map_labels x hi
  have hsym : ∀ i j, (Row.bias? (m.row i) j).getD 0 * valueAt (m.labels.map x) i *
      valueAt (m.labels.map x) j = (Row.bias? (m.row j) i).getD 0 * valueAt (m.labels.map x) j *
      valueAt (m.labels.map x) i := by
    intro i j
    rw [h.symmetric i j]
    ring
  have hdiag : ∀ i, (Row.bias? (m.row i) i).getD 0 * valueAt (m.labels.map x) i *
      valueAt (m.labels.map x) i = 0 := by
    intro i
    rw [h.bias?_self]
    simp
  have hterm : ∀ i, valueAt (m.labels.map x) i * (m.linearAt i +
      ∑ j ∈ range i, valueAt (m.labels.map x) j * (Row.bias? (m.row i) j).getD 0) =
      m.linearAt i * valueAt (m.labels.map x) i +
        ∑ j ∈ range i, (Row.bias? (m.row i) j).getD 0 * valueAt (m.labels.map x) i *
          valueAt (m.labels.map x) j := by
    intro i
    rw [mul_add, Finset.mul_sum, mul_comm]
    congr 1
    exact Finset.sum_congr rfl fun j _ => by ring
  have hlinear : ∑ i ∈ range m.size, m.linearAt i * valueAt (m.labels.map x) i =
      ∑ v ∈ m.labels.toFinset, m.bias v * x v :=
    sum_range_size h.labels_nodup fun i v hi => by rw [bias_of_label? h hi, hvalue hi]
  have hquadratic : ∑ i ∈ range m.size, ∑ j ∈ range m.size,
      (Row.bias? (m.row i) j).getD 0 * valueAt (m.labels.map x) i * valueAt (m.labels.map x) j =
      ∑ u ∈ m.labels.toFinset, ∑ v ∈ m.labels.toFinset, m.strength u v * x u * x v :=
    sum_range_size h.labels_nodup fun i u hi => sum_range_size h.labels_nodup fun j v hj => by
      rw [strength_of_label? h hi hj, hvalue hi, hvalue hj]
  unfold energy
  rw [values_eq_ok hs]
  show Except.ok (m.energyOf (m.labels.map x)) = _
  rw [energyOf_eq h, Finset.sum_congr rfl fun i _ => hterm i, Finset.sum_add_distrib,
    sum_below_eq_half hsym hdiag, hlinear, hquadratic]
  congr 1
  unfold polynomial
  ring

end QuboSplit.Model
