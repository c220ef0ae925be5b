import QuboSplit.Proofs.Model.Content
import QuboSplit.Proofs.Ranking
import QuboSplit.Proofs.StableSort

/-!
# Gains as polynomials

Over the rational numbers the gain of a variable is a polynomial in the values of all variables
(`flipGain_eq_ok_iff`). It is therefore the same in models of one content (`flipGain_congr`), as the
energy is (`energy_congr`), and a ranking lists gains in non-increasing order (`ranking_sorted`).
-/

namespace QuboSplit.Model

open Scalar (Equals)

/-- What the energy loses when `v` alone takes its other value. -/
def gain (m : Model Rat) (x : Label → Rat) (v : Label) : Rat :=
  -(m.vartype.flip (x v) - x v) *
    (m.bias v + ∑ u ∈ m.labels.toFinset, x u * m.strength v u)

theorem gainAt_eq {m : Model Rat} (h : m.WellFormed) (x : Label → Rat) {i : Nat} {v : Label}
    (hi : m.label? i = some v) : m.gainAt (m.labels.map x) i = m.gain x v := by
  have hvalue : ∀ {j u}, m.label? j = some u → valueAt (m.labels.map x) j = x u :=
    fun hj => valueAt_map_labels x hj
  have hpull : (pull (m.labels.map x) (m.linearAt i) (m.row i) : Rat) =
      m.bias v + ∑ u ∈ m.labels.toFinset, x u * m.strength v u := by
    unfold pull
    rw [accumulate_eq, bias_of_label? h hi, sum_row_eq (h.increasing i)
      (fun c hc => (h.lt_of_mem_row hc).1) (valueAt (m.labels.map x)),
      sum_range_size h.labels_nodup fun j u hj => by rw [strength_of_label? h hi hj, hvalue hj]]
  unfold gainAt gain
  rw [hvalue hi, ← hpull]
  rfl

/-- A gain is found for the variables of a model at a sample of all of them. -/
theorem flipGain_eq_ok_iff {m : Model Rat} (h : m.WellFormed) {s : Sample Rat} {v : Label}
    {g : Rat} : m.flipGain s v = .ok g ↔
      m.Assigned s ∧ v ∈ m.labels ∧ m.gain (fun u => (s.get? u).getD 0) v = g := by
  have hvalues : m.Assigned s →
      m.values s = .ok (m.labels.map fun u => (s.get? u).getD 0) := fun hs =>
    values_eq_ok fun u hu => hs.get?_eq 0 hu
  constructor
  · intro hgain
    obtain ⟨i, hi, hgain⟩ := exists_of_bind_eq_ok hgain
    obtain ⟨values, hok, hgain⟩ := exists_of_bind_eq_ok hgain
    cases hgain
    have hs := assigned_of_values hok
    have hlabel : m.label? i = some v := by
      unfold index at hi
      split at hi
      · next j hj =>
        cases hi
        exact label?_of_index? hj
      · cases hi
    rw [hvalues hs] at hok
    cases hok
    exact ⟨hs, mem_labels_of_label? hlabel, (gainAt_eq h _ hlabel).symm⟩
  · rintro ⟨hs, hv, rfl⟩
    obtain ⟨i, hi⟩ := exists_index?_of_mem hv
    unfold flipGain index
    rw [hi, hvalues hs, ← gainAt_eq h _ (label?_of_index? hi)]
    rfl

theorem matches_refl (m : Model Rat) : m.Matches m where
  vartype_eq := rfl
  offset_equal := Scalar.equal_rat_iff.2 rfl
  linear := fun _ => Scalar.equals_rat_iff.2 rfl
  coupling := fun _ _ => Scalar.equals_rat_iff.2 rfl

/-! ### Models of one content -/

/-- An energy is found for the samples of all variables. -/
theorem energy_eq_ok_iff {m : Model Rat} (h : m.WellFormed) {s : Sample Rat} {e : Rat} :
    m.energy s = .ok e ↔ m.Assigned s ∧ m.polynomial (fun u => (s.get? u).getD 0) = e := by
  have hpolynomial : m.Assigned s →
      m.energy s = .ok (m.polynomial fun u => (s.get? u).getD 0) := fun hs =>
    energy_eq_polynomial h fun u hu => hs.get?_eq 0 hu
  constructor
  · intro he
    obtain ⟨values, hvalues, -⟩ := exists_of_bind_eq_ok he
    have hs := assigned_of_values hvalues
    exact ⟨hs, Except.ok.inj ((hpolynomial hs).symm.trans he)⟩
  · rintro ⟨hs, rfl⟩
    exact hpolynomial hs

namespace Matches

variable {m m' : Model Rat} (h : m.Matches m')

include h

theorem toFinset_labels : m.labels.toFinset = m'.labels.toFinset := by
  ext u
  rw [List.mem_toFinset, List.mem_toFinset, h.mem_labels_iff]

theorem bias_eq (u : Label) : m.bias u = m'.bias u :=
  congrArg (Option.getD · 0) (Scalar.equals_rat_iff.1 (h.linear u))

theorem strength_eq (u v : Label) : m.strength u v = m'.strength u v :=
  congrArg (Option.getD · 0) (Scalar.equals_rat_iff.1 (h.coupling u v))

theorem assigned_iff {s t : Sample Rat} (hst : ∀ v, s.get? v = t.get? v) :
    m.Assigned s ↔ m'.Assigned t :=
  ⟨fun hs u hu => hst u ▸ hs u ((h.mem_labels_iff u).2 hu),
    fun ht u hu => (hst u).symm ▸ ht u ((h.mem_labels_iff u).1 hu)⟩

end Matches

section Congruence

variable {m m' : Model Rat} (hm : m.WellFormed) (hm' : m'.WellFormed) (h : m.Matches m')
  {s t : Sample Rat} (hst : ∀ v, s.get? v = t.get? v)

include hm hm' h hst

/-- The energy of a sample depends on the contents of the model and of the sample only. -/
theorem energy_congr {e : Rat} : m.energy s = .ok e ↔ m'.energy t = .ok e := by
  rw [energy_eq_ok_iff hm, energy_eq_ok_iff hm', h.assigned_iff hst]
  unfold polynomial
  simp only [hst, h.toFinset_labels, h.bias_eq, h.strength_eq,
    Scalar.equal_rat_iff.1 h.offset_equal]

/-- The gain of a variable depends on the contents of the model and of the sample only. -/
theorem flipGain_congr {v : Label} {g : Rat} :
    m.flipGain s v = .ok g ↔ m'.flipGain t v = .ok g := by
  rw [flipGain_eq_ok_iff hm, flipGain_eq_ok_iff hm', h.assigned_iff hst, h.mem_labels_iff]
  unfold gain
  simp only [hst, h.toFinset_labels, h.bias_eq, h.strength_eq, h.vartype_eq]

end Congruence

/-! ### Rankings -/

theorem keepsGain_iff {minGain : Option Rat} {g : Rat} :
    keepsGain minGain g = true ↔ ∀ least, minGain = some least → least ≤ g := by
  rw [keepsGain_iff_not_less]
  refine forall₂_congr fun least _ => ?_
  show decide (g < least) = false ↔ _
  rw [decide_eq_false_iff_not, not_lt]

theorem ranking_sorted {m : Model Rat} {s : Sample Rat} {minGain : Option Rat}
    {ranking : Ranking Rat} (h : m.ranking s minGain = .ok ranking) :
    (ranking.map Prod.snd).Pairwise (· ≥ ·) := by
  obtain ⟨values, -, h⟩ := exists_of_bind_eq_ok h
  cases h
  have hless : ∀ a b : Label × Rat, Scalar.less b.2 a.2 = false ↔ b.2 ≥ a.2 := by
    intro a b
    show decide (b.2 < a.2) = false ↔ _
    rw [decide_eq_false_iff_not, not_lt]
  have hsorted : (stableSort (fun a b : Label × Rat => Scalar.less b.2 a.2)
      ((m.gains values).filter fun entry => keepsGain minGain entry.2)).Pairwise
        fun a b => Scalar.less a.2 b.2 = false := stableSort_sorted (P := fun _ => True)
    (fun a b hab => (hless b a).2 (le_of_lt (of_decide_eq_true hab)))
    (fun a b c _ hab hbc => (hless c a).2 (ge_trans ((hless b a).1 hab) ((hless c b).1 hbc)))
    fun _ _ => trivial
  exact List.pairwise_map.2 (hsorted.imp fun hab => (hless _ _).1 hab)

end QuboSplit.Model
