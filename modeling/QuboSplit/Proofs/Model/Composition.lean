import Mathlib.Tactic
import QuboSplit.Proofs.Model.Boundary

/-!
# Inducing step by step

Variables may be fixed in two steps. What is kept between the variables selected last does not
depend on the step between (`Restricts.trans`), and over the rational numbers the linear biases do
not either: an excluded neighbour is folded in at the step that excludes it, and at that step alone
(`Inherits.bias_trans`).
-/

namespace QuboSplit.Model

/-! ### What is kept -/

section Restricts

variable {α : Type} [Scalar α] {m sub narrow : Model α} {selection narrower : List Label}

/-- What is kept of what is kept is what is kept at once. -/
theorem Restricts.trans (h : m.Restricts selection sub) (h' : sub.Restricts narrower narrow)
    (hinside : ∀ v ∈ narrower, v ∈ selection) : m.Restricts narrower narrow where
  vartype_eq := h'.vartype_eq.trans h.vartype_eq
  offset_eq := h'.offset_eq.trans h.offset_eq
  labels_eq := h'.labels_eq
  hasInteraction_iff u v := by
    rw [h'.hasInteraction_iff, h.hasInteraction_iff]
    constructor
    · rintro ⟨hmem, -, huv⟩
      exact ⟨hmem, huv⟩
    · rintro ⟨hmem, huv⟩
      exact ⟨hmem, ⟨hinside u hmem.1, hinside v hmem.2⟩, huv⟩
  quadratic_eq u hu v hv :=
    (h'.quadratic_eq u hu v hv).trans (h.quadratic_eq u (hinside u hu) v (hinside v hv))

end Restricts

/-! ### Over the rational numbers -/

section Rational

variable {m sub narrow direct : Model Rat} {selection narrower : List Label} {s : Sample Rat}

/-- Models that keep the same part of a model and have the same linear biases have the same
content. -/
theorem Restricts.matches (h : m.Restricts selection sub) (h' : m.Restricts selection direct)
    (hknown : ∀ v ∈ selection, v ∈ m.labels)
    (hbias : ∀ v ∈ selection, sub.bias v = direct.bias v) : sub.Matches direct := by
  have hmem : ∀ v, v ∈ sub.labels ↔ v ∈ selection := fun v => by rw [h.labels_eq, mem_distinct]
  have hmem' : ∀ v, v ∈ direct.labels ↔ v ∈ selection := fun v => by
    rw [h'.labels_eq, mem_distinct]
  refine matches_iff_readings.2 ⟨h.vartype_eq.trans h'.vartype_eq.symm, ?_,
    fun v => (hmem v).trans (hmem' v).symm, fun v hv => ?_, fun u v => ?_, fun u v huv => ?_⟩
  · exact Scalar.equal_rat_iff.2 (h.offset_eq.trans h'.offset_eq.symm)
  · have hselected := (hmem v).1 hv
    exact ⟨_, _, linear_eq_bias hv, linear_eq_bias ((hmem' v).2 hselected),
      Scalar.equal_rat_iff.2 (hbias v hselected)⟩
  · rw [Bool.eq_iff_iff, h.hasInteraction_iff, h'.hasInteraction_iff]
  · obtain ⟨⟨hu, hv⟩, -⟩ := (h.hasInteraction_iff u v).1 huv
    have hread := quadratic_eq_strength (hknown u hu) (hknown v hv)
    exact ⟨_, _, (h.quadratic_eq u hu v hv).trans hread, (h'.quadratic_eq u hu v hv).trans hread,
      Scalar.equal_rat_iff.2 rfl⟩

/-- Linear biases induced in two steps are those induced at once. -/
theorem Inherits.bias_trans
    (h : Inherits m (m.chosen selection) s (m.couplings (m.chosen selection)) sub)
    (h' : Inherits sub (sub.chosen narrower) s (sub.couplings (sub.chosen narrower)) narrow)
    (h'' : Inherits m (m.chosen narrower) s (m.couplings (m.chosen narrower)) direct)
    (hm : m.WellFormed) (hknown : ∀ v ∈ selection, v ∈ m.labels)
    (hinside : ∀ v ∈ narrower, v ∈ selection) {v : Label} (hv : v ∈ narrower) :
    narrow.bias v = direct.bias v := by
  have hnarrower : ∀ v ∈ narrower, v ∈ sub.labels := fun v hv =>
    (h.mem_labels_iff hknown).2 (hinside v hv)
  have hsub : selection.toFinset ⊆ m.labels.toFinset := fun w hw =>
    List.mem_toFinset.2 (hknown w (List.mem_toFinset.1 hw))
  have hnarrow : narrower.toFinset ⊆ selection.toFinset := fun w hw =>
    List.mem_toFinset.2 (hinside w (List.mem_toFinset.1 hw))
  -- an excluded variable is excluded by the first step or by the second
  have hsplit : ∀ f : Label → Rat, ∑ w ∈ m.labels.toFinset \ narrower.toFinset, f w =
      ∑ w ∈ m.labels.toFinset \ selection.toFinset, f w +
        ∑ w ∈ selection.toFinset \ narrower.toFinset, f w := by
    intro f
    rw [← Finset.sdiff_union_sdiff_cancel hsub hnarrow]
    exact Finset.sum_union
      (Finset.disjoint_of_subset_right Finset.sdiff_subset Finset.sdiff_disjoint)
  have hsecond : ∑ w ∈ selection.toFinset \ narrower.toFinset,
      sub.strength v w * (s.get? w).getD 0 =
      ∑ w ∈ selection.toFinset \ narrower.toFinset, m.strength v w * (s.get? w).getD 0 := by
    refine Finset.sum_congr rfl fun w hw => ?_
    have hw' := (h.mem_labels_iff hknown).2 (List.mem_toFinset.1 (Finset.mem_sdiff.1 hw).1)
    unfold strength
    rw [h.coupling?_eq hm (hnarrower v hv) hw']
  rw [h'.bias_eq_sdiff h.wellFormed hnarrower hv, h.toFinset_labels hknown, hsecond,
    h.bias_eq_sdiff hm hknown (hinside v hv),
    h''.bias_eq_sdiff hm (fun w hw => hknown w (hinside w hw)) hv, hsplit, add_assoc]

/-- Variables of a model, and then some of these, induce what the latter induce at once: a model of
the same content that lists its variables in the same order. -/
theorem induced_induced {m : Model Rat} (hm : m.Reachable) {s : Sample Rat}
    (hs : ∀ v ∈ m.labels, (s.get? v).isSome) {selection narrower : List Label}
    (hne : selection ≠ []) (hknown : ∀ v ∈ selection, v ∈ m.labels) (hne' : narrower ≠ [])
    (hinside : ∀ v ∈ narrower, v ∈ selection) :
    ∃ sub narrow direct, m.induced selection s = .ok sub ∧ sub.induced narrower s = .ok narrow ∧
      m.induced narrower s = .ok direct ∧ narrow.sameContent direct = true ∧
      narrow.labels = direct.labels := by
  have hwell := hm.wellFormed
  have hknown' : ∀ v ∈ narrower, v ∈ m.labels := fun v hv => hknown v (hinside v hv)
  obtain ⟨sub, hsub, h⟩ := exists_induced hwell hne hknown hs
  obtain ⟨direct, hdirect, h''⟩ := exists_induced hwell hne' hknown' hs
  have hmem : ∀ v, v ∈ sub.labels ↔ v ∈ selection := fun v => h.mem_labels_iff hknown
  have hnarrower : ∀ v ∈ narrower, v ∈ sub.labels := fun v hv => (hmem v).2 (hinside v hv)
  have hassigned : sub.Assigned s := fun v hv => hs v (hknown v ((hmem v).1 hv))
  obtain ⟨narrow, hnarrow, h'⟩ := exists_induced h.wellFormed hne' hnarrower hassigned
  have hrestricts := (h.restricts hwell hknown).trans (h'.restricts h.wellFormed hnarrower) hinside
  have hrestricts' := h''.restricts hwell hknown'
  refine ⟨sub, narrow, direct, hsub, hnarrow, hdirect, ?_,
    hrestricts.labels_eq.trans hrestricts'.labels_eq.symm⟩
  have hbias : ∀ v ∈ narrower, narrow.bias v = direct.bias v := fun v hv =>
    h.bias_trans h' h'' hwell hknown hinside hv
  exact (sameContent_iff h'.wellFormed h''.wellFormed).2
    (hrestricts.matches hrestricts' hknown' hbias)

/-- A triangle with a tail, of which an edge is selected after a repetitive selection of the
triangle. Each step excludes a neighbour of the variable at the tail. -/
theorem induced_induced_triangle :
    let m : Model Rat := .ofEdits .spin
      [.setOffset 7, .setQuadratic (.number 0) (.number 1) 3, .setLinear (.number 0) (1 / 2),
        .addQuadratic (.number 2) (.number 1) (-2), .setQuadratic (.number 2) (.number 0) 5,
        .setQuadratic (.number 0) (.number 3) 11]
    let s : Sample Rat :=
      ⟨[(.number 0, 1), (.number 1, -1), (.number 2, 2), (.number 3, -1)], by decide⟩
    ∃ sub narrow direct,
      m.induced [.number 2, .number 1, .number 2, .number 0] s = .ok sub ∧
      sub.induced [.number 1, .number 0] s = .ok narrow ∧
      m.induced [.number 1, .number 0] s = .ok direct ∧ narrow.sameContent direct = true ∧
      narrow.labels = direct.labels := by
  intro m s
  exact induced_induced (m := m) ⟨.spin, _, rfl⟩ (by decide +kernel) (List.cons_ne_nil _ _)
    (by decide +kernel) (List.cons_ne_nil _ _) (by decide)

end Rational

end QuboSplit.Model
