import Mathlib.Tactic
import Mathlib.Algebra.BigOperators.Ring.Finset
import QuboSplit.Proofs.Model.Induced
import QuboSplit.Proofs.Model.Polynomial

/-!
# Energies of problems and of induced models

Over the rational numbers an induced model has the energies of the problem up to a constant: among
assignments that agree outside its variables, both polynomials differ by what the other variables
contribute alone (`Inherits.polynomial_eq`).
-/

namespace QuboSplit.Model

open Finset (range)

/-! ### The linear biases of an induced model -/

theorem sum_filterMap {β : Type} (f : β → Option Rat) (xs : List β) :
    (xs.filterMap f).sum = (xs.map fun x => (f x).getD 0).sum := by
  induction xs with
  | nil => rfl
  | cons x xs ih =>
    cases hx : f x with
    | none =>
      rw [List.filterMap_cons_none hx, List.map_cons, List.sum_cons, ih, hx]
      simp
    | some y =>
      rw [List.filterMap_cons_some hx, List.map_cons, List.sum_cons, List.sum_cons, ih, hx]
      rfl

theorem sum_couplings (m : Model Rat) (chosen : List Nat) (f : Nat × Nat × Rat → Rat) :
    ((m.couplings chosen).map f).sum =
      (chosen.map fun i => ((m.row i).map fun c => f (i, c)).sum).sum := by
  unfold couplings
  induction chosen with
  | nil => rfl
  | cons i chosen ih =>
    rw [List.flatMap_cons, List.map_append, List.sum_append, ih, List.map_cons, List.sum_cons,
      List.map_map]
    rfl

variable {m sub : Model Rat} {chosen : List Nat} {s : Sample Rat} {x : Label → Rat}

/-- What the couplings of a selected variable hand over: those to other variables, each weighted by
the value there. -/
theorem sum_shifts (hm : m.WellFormed) (hs : ∀ v ∈ m.labels, (s.get? v).getD 0 = x v) {k : Nat}
    {v : Label} (hk : m.label? k = some v) (i : Nat) :
    ((m.row i).map fun c => (m.shift? chosen s v (i, c)).getD 0).sum =
      if i = k then ((m.row i).map fun c =>
        (if c.1 ∈ chosen then 0 else (m.label? c.1).elim 0 x) * c.2).sum
      else 0 := by
  have hterm : ∀ c ∈ m.row i, (m.shift? chosen s v (i, c)).getD 0 =
      if i = k then (if c.1 ∈ chosen then 0 else (m.label? c.1).elim 0 x) * c.2 else 0 := by
    intro c hc
    obtain ⟨n, hn⟩ := exists_node (hm.lt_of_mem_row hc).1
    have hw := label?_of_node hn
    have hlabel : m.label? i = some v ↔ i = k := by
      constructor
      · intro hi
        exact Option.some.inj ((hm.index?_iff.2 hi).symm.trans (hm.index?_iff.2 hk))
      · rintro rfl
        exact hk
    unfold shift?
    dsimp only
    by_cases hj : c.1 ∈ chosen
    · rw [if_pos hj, if_pos hj, zero_mul, ite_self]
      split <;> rfl
    · rw [if_neg hj, if_neg hj]
      by_cases hi : i = k
      · rw [if_pos (hlabel.2 hi), if_pos hi, hw, Option.bind_some, Option.elim_some,
          ← hs n.label (mem_labels_of_label? hw)]
        cases s.get? n.label with
        | none => simp
        | some y => exact mul_comm _ _
      · rw [if_neg fun h => hi (hlabel.1 h), if_neg hi]
        rfl
  rw [List.map_congr_left hterm]
  split
  · rfl
  · simp

/-- An induced linear bias is the one of `m` plus the interactions with the other variables. -/
theorem Inherits.bias_eq (h : Inherits m chosen s (m.couplings chosen) sub) (hm : m.WellFormed)
    (hchosen : chosen.Nodup) (hs : ∀ v ∈ m.labels, (s.get? v).getD 0 = x v) {v : Label}
    (hv : v ∈ sub.labels) :
    sub.bias v = m.bias v +
      ∑ w ∈ m.labels.toFinset \ sub.labels.toFinset, m.strength v w * x w := by
  rw [h.labels_eq] at hv
  obtain ⟨k, hkchosen, hk⟩ := List.mem_filterMap.1 hv
  have hshift : ((m.couplings chosen).filterMap (m.shift? chosen s v)).sum =
      ((m.row k).map fun c =>
        (if c.1 ∈ chosen then 0 else (m.label? c.1).elim 0 x) * c.2).sum := by
    rw [sum_filterMap, sum_couplings, List.map_congr_left fun i _ => sum_shifts hm hs hk i,
      ← List.sum_toFinset _ hchosen, Finset.sum_ite_eq', if_pos (List.mem_toFinset.2 hkchosen)]
  have hlabel : ∀ i w, m.label? i = some w → (i ∈ chosen ↔ w ∈ sub.labels) := by
    intro i w hi
    refine ⟨fun hmem => h.mem_labels hmem hi, fun hmem => ?_⟩
    rw [h.labels_eq] at hmem
    obtain ⟨j, hj, hjw⟩ := List.mem_filterMap.1 hmem
    rwa [Option.some.inj ((hm.index?_iff.2 hi).symm.trans (hm.index?_iff.2 hjw))]
  have hrow : ((m.row k).map fun c =>
      (if c.1 ∈ chosen then 0 else (m.label? c.1).elim 0 x) * c.2).sum =
      ∑ w ∈ m.labels.toFinset, if w ∈ sub.labels then 0 else m.strength v w * x w := by
    rw [sum_row_eq (hm.increasing k) (fun c hc => (hm.lt_of_mem_row hc).1) fun j =>
      if j ∈ chosen then 0 else (m.label? j).elim 0 x]
    refine sum_range_size hm.labels_nodup fun j w hj => ?_
    rw [strength_of_label? hm hk hj, hj]
    by_cases hmem : j ∈ chosen
    · rw [if_pos hmem, if_pos ((hlabel j w hj).1 hmem), zero_mul]
    · rw [if_neg hmem, if_neg fun hw => hmem ((hlabel j w hj).2 hw)]
      exact mul_comm _ _
  have hlinear : sub.linear? v = (m.linear? v).map fun b =>
      b + ((m.couplings chosen).filterMap (m.shift? chosen s v)).sum := by
    rw [h.linear_eq v (h.labels_eq ▸ hv)]
    congr 1
    funext b
    exact foldl_add_eq b _
  have hsome : ∃ b, m.linear? v = some b := by
    cases hb : m.linear? v with
    | none => exact absurd (mem_labels_of_label? hk) (linear?_eq_none_iff.1 hb)
    | some b => exact ⟨b, rfl⟩
  obtain ⟨b, hb⟩ := hsome
  unfold bias
  rw [hlinear, hb, hshift, hrow, Finset.sdiff_eq_filter, Finset.sum_filter]
  refine congrArg (b + ·) (Finset.sum_congr rfl fun w _ => ?_)
  by_cases hw : w ∈ sub.labels <;> simp [hw]

/-! ### Energies up to a constant -/

/-- What the variables outside of `inside` contribute to the polynomial alone. -/
def remainder (m : Model Rat) (inside : Finset Label) (x : Label → Rat) : Rat :=
  ∑ v ∈ m.labels.toFinset \ inside, m.bias v * x v +
    (∑ u ∈ m.labels.toFinset \ inside, ∑ v ∈ m.labels.toFinset \ inside,
      m.strength u v * x u * x v) / 2

/-- The polynomials of the problem and of an induced model differ by what the other variables
contribute, on every assignment that has the values of the sample there. -/
theorem Inherits.polynomial_eq (h : Inherits m chosen s (m.couplings chosen) sub)
    (hm : m.WellFormed) (hchosen : chosen.Nodup) (hs : ∀ v ∈ m.labels, s.get? v = some (x v))
    {y : Label → Rat} (hy : ∀ v, v ∉ sub.labels → y v = x v) :
    m.polynomial y = sub.polynomial y + m.remainder sub.labels.toFinset x := by
  have hsubset : sub.labels.toFinset ⊆ m.labels.toFinset := by
    intro v hv
    rw [List.mem_toFinset, h.labels_eq] at hv
    obtain ⟨i, -, hi⟩ := List.mem_filterMap.1 hv
    exact List.mem_toFinset.2 (mem_labels_of_label? hi)
  have hout : ∀ v ∈ m.labels.toFinset \ sub.labels.toFinset, y v = x v := fun v hv =>
    hy v fun hmem => (Finset.mem_sdiff.1 hv).2 (List.mem_toFinset.2 hmem)
  have hsplit : ∀ f : Label → Rat, ∑ v ∈ m.labels.toFinset, f v =
      ∑ v ∈ sub.labels.toFinset, f v + ∑ v ∈ m.labels.toFinset \ sub.labels.toFinset, f v :=
    fun f => by rw [add_comm, Finset.sum_sdiff hsubset]
  -- interactions between inside and outside are seen from both ends
  have hcross : ∑ u ∈ m.labels.toFinset \ sub.labels.toFinset, ∑ v ∈ sub.labels.toFinset,
      m.strength u v * y u * y v = ∑ u ∈ sub.labels.toFinset,
        ∑ v ∈ m.labels.toFinset \ sub.labels.toFinset, m.strength u v * y u * y v := by
    rw [Finset.sum_comm]
    refine Finset.sum_congr rfl fun u _ => Finset.sum_congr rfl fun v _ => ?_
    rw [hm.strength_comm]
    ring
  have hlinear : ∑ v ∈ sub.labels.toFinset, sub.bias v * y v =
      ∑ v ∈ sub.labels.toFinset, m.bias v * y v + ∑ v ∈ sub.labels.toFinset,
        ∑ w ∈ m.labels.toFinset \ sub.labels.toFinset, m.strength v w * y v * y w := by
    rw [← Finset.sum_add_distrib]
    refine Finset.sum_congr rfl fun v hv => ?_
    rw [h.bias_eq (x := x) hm hchosen (fun w hw => by rw [hs w hw]; rfl) (List.mem_toFinset.1 hv),
      add_mul, Finset.sum_mul]
    refine congrArg (m.bias v * y v + ·) (Finset.sum_congr rfl fun w hw => ?_)
    rw [hout w hw]
    ring
  have hquadratic : ∑ u ∈ sub.labels.toFinset, ∑ v ∈ sub.labels.toFinset,
      sub.strength u v * y u * y v = ∑ u ∈ sub.labels.toFinset, ∑ v ∈ sub.labels.toFinset,
        m.strength u v * y u * y v := by
    refine Finset.sum_congr rfl fun u hu => Finset.sum_congr rfl fun v hv => ?_
    unfold strength
    rw [h.coupling?_eq hm (List.mem_toFinset.1 hu) (List.mem_toFinset.1 hv)]
  have hremainder : m.remainder sub.labels.toFinset x = m.remainder sub.labels.toFinset y := by
    unfold remainder
    congr 1
    · exact Finset.sum_congr rfl fun v hv => by rw [hout v hv]
    · congr 1
      exact Finset.sum_congr rfl fun u hu => Finset.sum_congr rfl fun v hv => by
        rw [hout u hu, hout v hv]
  rw [hremainder]
  unfold polynomial remainder
  rw [h.offset_eq, hlinear, hquadratic, hsplit, hsplit fun u => ∑ v ∈ m.labels.toFinset, _]
  simp only [hsplit fun v => m.strength _ v * y _ * y v, Finset.sum_add_distrib]
  rw [hcross]
  ring

end QuboSplit.Model
