import QuboSplit.Proofs.Model.Gain

/-!
# Gains as losses of energy

A gain is computed from the whole row of one variable, an energy from every coupling at its larger
end. Both read one polynomial over the rational numbers: moving one variable changes it by the step
times the pull on the variable (`polynomial_sub_update`). So a gain is what the energy loses when
the variable takes its other value, and every gain that a ranking lists is
(`flipGain_eq_energy_loss`).
-/

namespace QuboSplit.Model

open Function (update)

/-! ### Moving one variable -/

section Moves

variable {m : Model Rat} (x : Label → Rat) {v : Label} (hv : v ∈ m.labels) (y : Rat)

include hv

/-- A weighted sum of the values moves by the weight of the one that moves. -/
theorem sum_mul_update (weight : Label → Rat) :
    ∑ u ∈ m.labels.toFinset, weight u * update x v y u =
      ∑ u ∈ m.labels.toFinset, weight u * x u + weight v * (y - x v) := by
  have hstep : ∀ u, weight u * update x v y u =
      weight u * x u + if u = v then weight v * (y - x v) else 0 := by
    intro u
    by_cases hu : u = v
    · subst hu
      rw [Function.update_self, if_pos rfl]
      ring
    · rw [Function.update_of_ne hu, if_neg hu, add_zero]
  rw [Finset.sum_congr rfl fun u _ => hstep u, Finset.sum_add_distrib, Finset.sum_ite_eq',
    if_pos (List.mem_toFinset.2 hv)]

/-- The interactions of the variable that moves are met from both ends. -/
theorem WellFormed.sum_strength_update (h : m.WellFormed) :
    ∑ u ∈ m.labels.toFinset, ∑ w ∈ m.labels.toFinset,
        m.strength u w * update x v y u * update x v y w =
      ∑ u ∈ m.labels.toFinset, ∑ w ∈ m.labels.toFinset, m.strength u w * x u * x w +
        2 * ((y - x v) * ∑ u ∈ m.labels.toFinset, x u * m.strength v u) := by
  have hself : m.strength v v = 0 := by
    unfold strength
    rw [h.coupling?_self]
    rfl
  have hfactor : ∀ z : Label → Rat,
      ∑ u ∈ m.labels.toFinset, ∑ w ∈ m.labels.toFinset, m.strength u w * z u * z w =
        ∑ u ∈ m.labels.toFinset, (∑ w ∈ m.labels.toFinset, m.strength u w * z w) * z u := by
    intro z
    refine Finset.sum_congr rfl fun u _ => ?_
    rw [Finset.sum_mul]
    exact Finset.sum_congr rfl fun w _ => by ring
  have hrow : ∀ u, ∑ w ∈ m.labels.toFinset, m.strength u w * update x v y w =
      ∑ w ∈ m.labels.toFinset, m.strength u w * x w + m.strength v u * (y - x v) := fun u => by
    rw [sum_mul_update x hv y (m.strength u), h.strength_comm v u]
  have hend : ∑ u ∈ m.labels.toFinset, m.strength v u * x u =
      ∑ u ∈ m.labels.toFinset, x u * m.strength v u :=
    Finset.sum_congr rfl fun u _ => mul_comm _ _
  have hpart : ∑ u ∈ m.labels.toFinset, (∑ w ∈ m.labels.toFinset, m.strength u w * x w +
      m.strength v u * (y - x v)) * x u =
      ∑ u ∈ m.labels.toFinset, (∑ w ∈ m.labels.toFinset, m.strength u w * x w) * x u +
        (y - x v) * ∑ u ∈ m.labels.toFinset, x u * m.strength v u := by
    rw [Finset.mul_sum, ← Finset.sum_add_distrib]
    exact Finset.sum_congr rfl fun u _ => by ring
  calc ∑ u ∈ m.labels.toFinset, ∑ w ∈ m.labels.toFinset,
        m.strength u w * update x v y u * update x v y w
      = ∑ u ∈ m.labels.toFinset, (∑ w ∈ m.labels.toFinset, m.strength u w * x w +
          m.strength v u * (y - x v)) * update x v y u := by
        rw [hfactor]
        exact Finset.sum_congr rfl fun u _ => by rw [hrow]
    _ = ∑ u ∈ m.labels.toFinset, (∑ w ∈ m.labels.toFinset, m.strength u w * x w +
          m.strength v u * (y - x v)) * x u +
          (∑ w ∈ m.labels.toFinset, m.strength v w * x w) * (y - x v) := by
        rw [sum_mul_update x hv y, hself, zero_mul, add_zero]
    _ = _ := by
        rw [hpart, hend, hfactor]
        ring

/-- What the polynomial loses when one variable moves: the step back times the pull on it. -/
theorem WellFormed.polynomial_sub_update (h : m.WellFormed) :
    m.polynomial x - m.polynomial (update x v y) =
      (x v - y) * (m.bias v + ∑ u ∈ m.labels.toFinset, x u * m.strength v u) := by
  unfold polynomial
  rw [sum_mul_update x hv y m.bias, h.sum_strength_update x hv y]
  ring

end Moves

/-! ### Flips -/

/-- Giving a variable another value changes an assignment at that variable only. -/
theorem Assigned.get?_insert {m : Model Rat} {s : Sample Rat} (hs : m.Assigned s) (v : Label)
    (y : Rat) : ∀ u ∈ m.labels,
      (s.insert v y).get? u = some (update (fun u => (s.get? u).getD 0) v y u) := by
  intro u hu
  rw [Sample.get?_insert]
  by_cases huv : u = v
  · subst huv
    rw [if_pos rfl, Function.update_self]
  · rw [if_neg huv, Function.update_of_ne huv]
    exact hs.get?_eq 0 hu

/-- At a sample of all variables the gain of a variable is found, and it is what the energy loses
when that variable takes its other value. Every ranking of the sample lists the variable with that
gain, unless the gain is below the least one asked for, and with no other. -/
theorem flipGain_eq_energy_loss {m : Model Rat} (hm : m.Reachable) {s : Sample Rat}
    (hs : ∀ u ∈ m.labels, (s.get? u).isSome) {v : Label} (hv : v ∈ m.labels) {x : Rat}
    (hx : s.get? v = some x) :
    ∃ before after, m.energy s = .ok before ∧
      m.energy (s.insert v (m.vartype.flip x)) = .ok after ∧
      m.flipGain s v = .ok (before - after) ∧
      ∀ minGain, ∃ ranking, m.ranking s minGain = .ok ranking ∧
        ∀ g, (v, g) ∈ ranking ↔ g = before - after ∧ ∀ least, minGain = some least → least ≤ g := by
  have hwf := hm.wellFormed
  have hassigned : m.Assigned s := hs
  let values : Label → Rat := fun u => (s.get? u).getD 0
  have hvalue : values v = x := by
    show (s.get? v).getD 0 = x
    rw [hx]
    rfl
  have hloss : m.polynomial values - m.polynomial (update values v (m.vartype.flip x)) =
      m.gain values v := by
    rw [hwf.polynomial_sub_update values hv]
    unfold gain
    rw [hvalue, neg_sub]
  have hgain : m.flipGain s v = .ok (m.gain values v) :=
    (flipGain_eq_ok_iff hwf).2 ⟨hassigned, hv, rfl⟩
  refine ⟨m.polynomial values, m.polynomial (update values v (m.vartype.flip x)),
    energy_eq_polynomial hwf fun u hu => hassigned.get?_eq 0 hu,
    energy_eq_polynomial hwf (hassigned.get?_insert v _), hloss.symm ▸ hgain, fun minGain => ?_⟩
  obtain ⟨ranking, hranking⟩ := exists_ranking hassigned minGain
  refine ⟨ranking, hranking, fun g => ?_⟩
  rw [mem_ranking_iff hwf.labels_nodup hranking, keepsGain_iff, hgain, hloss, Except.ok.injEq,
    eq_comm]

/-- The middle of a path of spins, built from both ends with a refused edit in between, at a sample
with a value that is no spin. The gain is negative, and too small for a ranking from zero on. -/
theorem flipGain_eq_energy_loss_path :
    let m : Model Rat := .ofEdits .spin
      [.setOffset 7, .setQuadratic (.number 2) (.number 1) 3,
        .setQuadratic (.number 1) (.number 1) 5,
        .addQuadratic (.number 0) (.number 1) (-2), .addLinear (.number 1) (1 / 2)]
    let s : Sample Rat := ⟨[(.number 0, 1), (.number 1, 3), (.number 2, -1)], by decide⟩
    ∃ before after, m.energy s = .ok before ∧ m.energy (s.insert (.number 1) (-3)) = .ok after ∧
      m.flipGain s (.number 1) = .ok (before - after) ∧ before - after = -27 ∧
      ∃ ranking, m.ranking s (some 0) = .ok ranking ∧ ∀ g, (.number 1, g) ∉ ranking := by
  intro m s
  have hs : ∀ u ∈ m.labels, (s.get? u).isSome := by decide +kernel
  have hv : Label.number 1 ∈ m.labels := by decide +kernel
  obtain ⟨before, after, hbefore, hafter, hgain, hranked⟩ :=
    flipGain_eq_energy_loss ⟨.spin, _, rfl⟩ hs hv (x := 3) (by decide +kernel)
  have hvalue : m.flipGain s (.number 1) = .ok (-27) := by decide +kernel
  have hloss : before - after = -27 := Except.ok.inj (hgain.symm.trans hvalue)
  obtain ⟨ranking, hranking, hlisted⟩ := hranked (some 0)
  refine ⟨before, after, hbefore, hafter, hgain, hloss, ranking, hranking, fun g hg => ?_⟩
  obtain ⟨rfl, hleast⟩ := (hlisted g).1 hg
  exact absurd (hleast 0 rfl) (by rw [hloss]; decide)

end QuboSplit.Model
