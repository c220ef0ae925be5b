import Mathlib.Data.Finset.Sym
import QuboSplit.Proofs.Model.Pairs
import QuboSplit.Proofs.Model.Recomposition

/-!
# The energy landscape of an induced model

A double sum over interactions meets each of them from both ends (`sum_strength_eq`). So the part of
the polynomial that does not depend on the selected variables is their linear terms and one term for
each pair of interacting variables, and an induced model has the energies of its problem but for
that constant (`energy_sub_induced`).
-/

namespace QuboSplit.Model

/-! ### Sums over interactions -/

/-- The bias of an interaction times the values of its variables. -/
def WellFormed.pairTerm {m : Model Rat} (hm : m.WellFormed) (x : Label → Rat) : Sym2 Label → Rat :=
  Sym2.lift ⟨fun u v => m.strength u v * x u * x v, fun u v => by
    show m.strength u v * x u * x v = m.strength v u * x v * x u
    rw [hm.strength_comm]
    ring⟩

section Sums

variable {m : Model Rat} (hm : m.WellFormed)

@[simp] theorem WellFormed.pairTerm_mk (x : Label → Rat) (u v : Label) :
    hm.pairTerm x s(u, v) = m.strength u v * x u * x v := rfl

include hm

theorem strength_eq_zero {u v : Label} (h : s(u, v) ∉ m.pairs) : m.strength u v = 0 := by
  rw [hm.mem_pairs_iff, not_not] at h
  unfold strength
  rw [h]
  rfl

/-- The ordered pairs of an interaction are its two directions. -/
theorem sum_directions {inside : Finset Label} {p : Sym2 Label} (hp : p ∈ m.pairs)
    (hinside : p ∈ inside.sym2) (f : Sym2 Label → Rat) :
    ∑ e ∈ inside ×ˢ inside with s(e.1, e.2) = p, f s(e.1, e.2) = 2 * f p := by
  induction p using Sym2.ind with
  | h u v =>
    have hne : u ≠ v := by
      rintro rfl
      exact hm.mem_pairs_iff.1 hp (hm.coupling?_self u)
    obtain ⟨hu, hv⟩ := Finset.mk_mem_sym2_iff.1 hinside
    have hdirections : (inside ×ˢ inside).filter (fun e => s(e.1, e.2) = s(u, v)) =
        {(u, v), (v, u)} := by
      ext ⟨a, b⟩
      simp only [Finset.mem_filter, Finset.mem_product, Finset.mem_insert, Finset.mem_singleton,
        Prod.mk.injEq, Sym2.eq_iff]
      constructor
      · exact fun h => h.2
      · rintro (⟨rfl, rfl⟩ | ⟨rfl, rfl⟩)
        · exact ⟨⟨hu, hv⟩, .inl ⟨rfl, rfl⟩⟩
        · exact ⟨⟨hv, hu⟩, .inr ⟨rfl, rfl⟩⟩
    rw [hdirections, Finset.sum_pair (by simp [hne])]
    show f s(u, v) + f s(v, u) = 2 * f s(u, v)
    rw [Sym2.eq_swap]
    ring

/-- Summing over both ends counts every interaction twice. -/
theorem sum_strength_eq (inside : Finset Label) (x : Label → Rat) :
    ∑ u ∈ inside, ∑ v ∈ inside, m.strength u v * x u * x v =
      2 * ∑ p ∈ m.pairs.toFinset with p ∈ inside.sym2, hm.pairTerm x p := by
  have hmaps : ∀ e ∈ inside ×ˢ inside, s(e.1, e.2) ∈ inside.sym2 := by
    rintro ⟨u, v⟩ he
    exact Finset.mk_mem_sym2_iff.2 (Finset.mem_product.1 he)
  calc ∑ u ∈ inside, ∑ v ∈ inside, m.strength u v * x u * x v
      = ∑ e ∈ inside ×ˢ inside, hm.pairTerm x s(e.1, e.2) :=
        (Finset.sum_product' inside inside _).symm
    _ = ∑ p ∈ inside.sym2, ∑ e ∈ inside ×ˢ inside with s(e.1, e.2) = p,
          hm.pairTerm x s(e.1, e.2) := (Finset.sum_fiberwise_of_maps_to hmaps _).symm
    _ = ∑ p ∈ inside.sym2, if p ∈ m.pairs then 2 * hm.pairTerm x p else 0 := by
        refine Finset.sum_congr rfl fun p hp => ?_
        split
        · next hmem => exact sum_directions hm hmem hp _
        · next hnot =>
          refine Finset.sum_eq_zero fun e he => ?_
          obtain ⟨-, rfl⟩ := Finset.mem_filter.1 he
          simp [strength_eq_zero hm hnot]
    _ = 2 * ∑ p ∈ m.pairs.toFinset with p ∈ inside.sym2, hm.pairTerm x p := by
        have hswap : inside.sym2.filter (· ∈ m.pairs) =
            m.pairs.toFinset.filter (· ∈ inside.sym2) := by
          ext p
          simp [and_comm]
        rw [← Finset.sum_filter, hswap, Finset.mul_sum]

/-- What the other variables contribute alone, with every interaction counted once. -/
theorem remainder_eq (inside : Finset Label) (x : Label → Rat) :
    m.remainder inside x = ∑ w ∈ m.labels.toFinset \ inside, m.bias w * x w +
      ∑ p ∈ m.pairs.toFinset with p ∈ (m.labels.toFinset \ inside).sym2, hm.pairTerm x p := by
  unfold remainder
  rw [sum_strength_eq hm]
  ring

end Sums

/-! ### Energies -/

/-- Wherever its variables are moved, an induced model has the energy of its problem but a constant:
the linear terms of the other variables and the terms of their interactions, each once. -/
theorem energy_sub_induced {m : Model Rat} (h : m.Reachable) {selection : List Label}
    {s : Sample Rat} (hne : selection ≠ []) (hknown : ∀ v ∈ selection, v ∈ m.labels)
    (hs : ∀ v ∈ m.labels, (s.get? v).isSome) :
    ∃ sub, m.induced selection s = .ok sub ∧
      ∀ x : Sample Rat, (∀ v ∈ selection, (x.get? v).isSome) →
        ∃ e f, m.energy (s.overwrite (x.restrict selection)) = .ok e ∧ sub.energy x = .ok f ∧
          e - f =
            ∑ w ∈ m.labels.toFinset \ selection.toFinset, m.bias w * (s.get? w).getD 0 +
            ∑ p ∈ m.pairs.toFinset with p ∈ (m.labels.toFinset \ selection.toFinset).sym2,
              h.wellFormed.pairTerm (fun w => (s.get? w).getD 0) p := by
  have hm := h.wellFormed
  have hassigned : m.Assigned s := hs
  obtain ⟨sub, hsub, hinherits⟩ := exists_induced hm hne hknown hassigned
  refine ⟨sub, hsub, fun x hx => ?_⟩
  have hlabels : ∀ v, v ∈ sub.labels ↔ v ∈ selection := fun v => hinherits.mem_labels_iff hknown
  let y : Label → Rat := fun v => if v ∈ selection then (x.get? v).getD 0 else (s.get? v).getD 0
  have hinside : ∀ v ∈ selection, x.get? v = some (y v) := by
    intro v hv
    obtain ⟨b, hb⟩ := Option.isSome_iff_exists.1 (hx v hv)
    simp [y, hv, hb]
  have hmoved : ∀ v ∈ m.labels, (s.overwrite (x.restrict selection)).get? v = some (y v) := by
    intro v hv
    rw [Sample.get?_overwrite, Sample.get?_restrict]
    by_cases hmem : v ∈ selection
    · rw [if_pos hmem, hinside v hmem]
      rfl
    · rw [if_neg hmem, Option.none_or, hassigned.get?_eq 0 hv]
      simp [y, hmem]
  have hpolynomial := hinherits.polynomial_eq hm (nodup_distinct _)
    (fun v hv => hassigned.get?_eq 0 hv) (y := y)
    fun v hv => if_neg fun hmem => hv ((hlabels v).2 hmem)
  refine ⟨_, _, energy_eq_polynomial hm hmoved,
    energy_eq_polynomial hinherits.wellFormed fun v hv => hinside v ((hlabels v).1 hv), ?_⟩
  rw [hpolynomial, hinherits.toFinset_labels hknown, remainder_eq hm]
  ring

/-- The first half of a path, selected out of order and with a repeat, and moved against the sample.
The other half has an interaction of its own. -/
theorem energy_sub_induced_path :
    let m : Model Rat := .ofEdits .spin
      [.setOffset 7, .setLinear (.number 0) (-1), .setQuadratic (.number 0) (.number 1) 3,
        .addQuadratic (.number 2) (.number 1) (-2), .setQuadratic (.number 2) (.number 3) 5,
        .addLinear (.number 3) 4]
    let selection : List Label := [.number 1, .number 0, .number 1]
    let s : Sample Rat :=
      ⟨[(.number 0, 1), (.number 1, 1), (.number 2, 1), (.number 3, -1)], by decide⟩
    let x : Sample Rat := ⟨[(.number 0, -1), (.number 1, -1)], by decide⟩
    ∃ sub, m.induced selection s = .ok sub ∧
      ∃ e f, m.energy (s.overwrite (x.restrict selection)) = .ok e ∧ sub.energy x = .ok f ∧
        e - f = -9 := by
  intro m selection s x
  have hknown : ∀ v ∈ selection, v ∈ m.labels := by decide +kernel
  have hs : ∀ v ∈ m.labels, (s.get? v).isSome := by decide +kernel
  obtain ⟨sub, hsub, hshift⟩ :=
    energy_sub_induced (m := m) ⟨.spin, _, rfl⟩ (List.cons_ne_nil _ _) hknown hs
  obtain ⟨e, f, he, hf, hef⟩ := hshift x (by decide)
  refine ⟨sub, hsub, e, f, he, hf, hef.trans ?_⟩
  decide +kernel

end QuboSplit.Model
