import Mathlib.Tactic
import QuboSplit.Proofs.Model.Energy

/-!
# Which selections induce a model

The boundary of a selection are the excluded neighbours of the selected variables. Whatever else a
sample lacks, some known variables induce a model exactly if it has a value at their boundary, which
is all that inducing reads of it (`needed_chosen`). What is induced is the part of the model between
the selected variables (`Inherits.restricts`), the boundary being folded into the linear biases
(`Inherits.bias_eq_sum`). With all variables selected the boundary is empty, and the model itself is
induced up to the signs of zeros (`Inherits.matches_whole`).
-/

namespace QuboSplit

open Scalar (ofInt Equals)

namespace Model

variable {α : Type}

/-! ### The boundary -/

/-- The excluded neighbours of the selected variables, in the order in which they are met. -/
def boundary (m : Model α) (selection : List Label) : List Label :=
  (distinct selection).flatMap fun v => (m.partners (m.indexOf v)).filter (· ∉ selection)

section Boundary

variable {m : Model α} (hm : m.WellFormed) {selection : List Label}
  (hknown : ∀ v ∈ selection, v ∈ m.labels)

include hm hknown

theorem mem_boundary_iff {w : Label} : w ∈ m.boundary selection ↔
    w ∉ selection ∧ ∃ v ∈ selection, m.hasInteraction v w = true := by
  have hpartner : ∀ v ∈ selection,
      (w ∈ m.partners (m.indexOf v) ↔ m.hasInteraction v w = true) := by
    intro v hv
    rw [hm.mem_partners_iff (index?_indexOf (hknown v hv)), hasInteraction_eq,
      Option.isSome_iff_ne_none]
  unfold boundary
  rw [List.mem_flatMap]
  constructor
  · rintro ⟨v, hv, hw⟩
    rw [mem_distinct] at hv
    obtain ⟨hpartners, hout⟩ := List.mem_filter.1 hw
    exact ⟨by simpa using hout, v, hv, (hpartner v hv).1 hpartners⟩
  · rintro ⟨hout, v, hv, hinteract⟩
    refine ⟨v, mem_distinct.2 hv, List.mem_filter.2 ⟨(hpartner v hv).2 hinteract, ?_⟩⟩
    simpa using hout

theorem mem_chosen_iff {j : Nat} {w : Label} (hj : m.label? j = some w) :
    j ∈ m.chosen selection ↔ w ∈ selection := by
  rw [mem_chosen]
  constructor
  · rintro ⟨v, hv, rfl⟩
    obtain rfl := Option.some.inj (hj.symm.trans (label?_indexOf (hknown v hv)))
    exact hv
  · intro hw
    refine ⟨w, hw, ?_⟩
    exact Option.some.inj ((index?_indexOf (hknown w hw)).symm.trans (hm.index?_iff.2 hj))

/-- The values that inducing needs are those at the boundary. -/
theorem needed_chosen : m.needed (m.chosen selection) = m.boundary selection := by
  have hrow : ∀ i, ((m.row i).map fun c => (i, c)).filterMap (m.needs? (m.chosen selection)) =
      (m.partners i).filter (· ∉ selection) := by
    intro i
    unfold partners
    rw [List.filterMap_map, List.filter_filterMap]
    refine List.filterMap_congr fun c hc => ?_
    obtain ⟨n, hn⟩ := exists_node (hm.lt_of_mem_row hc).1
    have hlabel := label?_of_node hn
    have hmem := mem_chosen_iff hm hknown hlabel
    rw [Function.comp_apply, hlabel]
    unfold needs?
    by_cases hin : c.1 ∈ m.chosen selection
    · rw [if_pos hin, Option.filter_some, if_neg (by simpa using hmem.1 hin)]
    · rw [if_neg hin, hlabel, Option.filter_some, if_pos (by simpa using mt hmem.2 hin)]
  unfold needed couplings boundary
  rw [List.filterMap_flatMap, chosen_eq hknown, List.flatMap_map, ← chosen_eq hknown]
  simp only [hrow]

end Boundary

/-! ### What is kept -/

/-- The model `sub` has the selected variables of `m`, each once in order of first appearance, and
of its interactions those between two of them. -/
structure Restricts [Scalar α] (m : Model α) (selection : List Label) (sub : Model α) : Prop where
  vartype_eq : sub.vartype = m.vartype
  offset_eq : sub.offset = m.offset
  labels_eq : sub.labels = distinct selection
  hasInteraction_iff : ∀ u v, sub.hasInteraction u v = true ↔
    (u ∈ selection ∧ v ∈ selection) ∧ m.hasInteraction u v = true
  quadratic_eq : ∀ u ∈ selection, ∀ v ∈ selection, sub.quadratic u v = m.quadratic u v

theorem Inherits.restricts [Scalar α] {m sub : Model α} {selection : List Label} {s : Sample α}
    (h : Inherits m (m.chosen selection) s (m.couplings (m.chosen selection)) sub)
    (hm : m.WellFormed) (hknown : ∀ v ∈ selection, v ∈ m.labels) : m.Restricts selection sub where
  vartype_eq := h.vartype_eq
  offset_eq := h.offset_eq
  labels_eq := h.labels_eq_distinct hknown
  hasInteraction_iff u v := by
    rw [← h.mem_labels_iff hknown, ← h.mem_labels_iff hknown]
    constructor
    · intro huv
      obtain ⟨hu, hv⟩ := mem_labels_of_hasInteraction huv
      rw [hasInteraction_eq, h.coupling?_eq hm hu hv, ← hasInteraction_eq] at huv
      exact ⟨⟨hu, hv⟩, huv⟩
    · rintro ⟨⟨hu, hv⟩, huv⟩
      rwa [hasInteraction_eq, h.coupling?_eq hm hu hv, ← hasInteraction_eq]
  quadratic_eq u hu v hv := by
    have hu' := (h.mem_labels_iff hknown).2 hu
    have hv' := (h.mem_labels_iff hknown).2 hv
    rw [quadratic_of_mem hu' hv', quadratic_of_mem (hknown u hu) (hknown v hv),
      h.coupling?_eq hm hu' hv']

section Folding

variable {m sub : Model Rat} {selection : List Label} {s : Sample Rat}
  (h : Inherits m (m.chosen selection) s (m.couplings (m.chosen selection)) sub)
  (hm : m.WellFormed) (hknown : ∀ v ∈ selection, v ∈ m.labels) {v : Label} (hv : v ∈ selection)

include h hm hknown hv

theorem Inherits.bias_eq_sdiff : sub.bias v = m.bias v +
    ∑ w ∈ m.labels.toFinset \ selection.toFinset, m.strength v w * (s.get? w).getD 0 := by
  rw [← h.toFinset_labels hknown]
  exact h.bias_eq hm (nodup_distinct _) (fun _ _ => rfl) ((h.mem_labels_iff hknown).2 hv)

/-- The linear bias of a selected variable takes up its interactions with excluded ones. -/
theorem Inherits.bias_eq_sum : sub.bias v = m.bias v +
    ∑ w ∈ m.labels.toFinset with w ∉ selection ∧ m.hasInteraction v w = true,
      m.strength v w * (s.get? w).getD 0 := by
  rw [h.bias_eq_sdiff hm hknown hv]
  congr 1
  symm
  refine Finset.sum_subset (fun w hw => ?_) fun w hw hnot => ?_
  · obtain ⟨hlabel, hout, -⟩ := Finset.mem_filter.1 hw
    exact Finset.mem_sdiff.2 ⟨hlabel, fun hmem => hout (List.mem_toFinset.1 hmem)⟩
  · -- an excluded variable that is not counted does not interact with `v`
    obtain ⟨hlabel, hout⟩ := Finset.mem_sdiff.1 hw
    have hinteract : ¬ (m.coupling? v w).isSome = true := by
      rw [← hasInteraction_eq]
      exact fun hvw => hnot
        (Finset.mem_filter.2 ⟨hlabel, fun hmem => hout (List.mem_toFinset.2 hmem), hvw⟩)
    rw [Option.not_isSome_iff_eq_none] at hinteract
    unfold strength
    rw [hinteract]
    exact zero_mul _

end Folding

/-! ### All variables -/

section Whole

variable {m sub : Model Binary64} {chosen : List Nat} {s : Sample Binary64}

/-- Where every coupling stays inside, only zeros are added to a linear bias. -/
theorem Inherits.linear_equals (h : Inherits m chosen s (m.couplings chosen) sub)
    (hin : ∀ e ∈ m.couplings chosen, e.2.1 ∈ chosen) (hnan : m.NanFree) {v : Label}
    (hv : v ∈ sub.labels) : Equals (sub.linear? v) (m.linear? v) := by
  rw [h.linear_eq v hv]
  cases hb : m.linear? v with
  | none => exact .none
  | some b =>
    refine .some ((Floating.Same.foldl_zeros (fun t ht => ?_) b).equal ?_)
    · obtain ⟨e, he, hshift⟩ := List.mem_filterMap.1 ht
      unfold shift? at hshift
      rw [if_pos (hin e he)] at hshift
      split at hshift
      · exact (Option.some.inj hshift).symm
      · cases hshift
    · rintro rfl
      exact hnan.linear v hb

/-- With all variables selected the model itself is induced, up to the signs of zeros. -/
theorem Inherits.matches_whole (h : Inherits m chosen s (m.couplings chosen) sub)
    (hm : m.WellFormed) (hin : ∀ e ∈ m.couplings chosen, e.2.1 ∈ chosen) (hnan : m.NanFree)
    (hall : ∀ v, v ∈ sub.labels ↔ v ∈ m.labels) : sub.Matches m where
  vartype_eq := h.vartype_eq
  offset_equal := by
    rw [h.offset_eq]
    exact Floating.equal_self_iff.2 hnan.offset
  linear := rel_linear? hall fun _ hv => h.linear_equals hin hnan hv
  coupling := rel_coupling? hall fun u hu v hv => by
    rw [h.coupling?_eq hm hu hv]
    exact equals_self_iff.2 (hnan.coupling u v)

/-- A selection of all variables has no boundary, so it needs no sample, and induces a model of the
same content. -/
theorem exists_induced_whole (hm : m.WellFormed) (hnan : m.NanFree) {selection : List Label}
    (hne : selection ≠ []) (hall : ∀ v, v ∈ selection ↔ v ∈ m.labels) (s : Sample Binary64) :
    ∃ sub, m.induced selection s = .ok sub ∧ sub.sameContent m = true := by
  have hknown : ∀ v ∈ selection, v ∈ m.labels := fun v => (hall v).1
  have hboundary : m.boundary selection = [] := by
    rw [List.eq_nil_iff_forall_not_mem]
    intro w hw
    obtain ⟨hout, v, -, hvw⟩ := (mem_boundary_iff hm hknown).1 hw
    exact hout ((hall w).2 (mem_labels_of_hasInteraction hvw).2)
  obtain ⟨sub, hsub, hinherits⟩ := exists_induced_of_needed (s := s) hm hne hknown (by
    rw [needed_chosen hm hknown, hboundary]
    exact fun w hw => absurd hw List.not_mem_nil)
  have hin : ∀ e ∈ m.couplings (m.chosen selection), e.2.1 ∈ m.chosen selection := by
    intro e he
    obtain ⟨-, w, -, hw, -⟩ := hm.exists_labels he
    exact (mem_chosen_iff hm hknown hw).2 ((hall w).2 (mem_labels_of_label? hw))
  refine ⟨sub, hsub, (sameContent_iff hinherits.wellFormed hm).2 ?_⟩
  exact hinherits.matches_whole hm hin hnan fun v =>
    (hinherits.mem_labels_iff hknown).trans (hall v)

end Whole

/-! ### Refusal and result -/

section Refused

variable {α : Type} [Scalar α] {m : Model α} {selection : List Label} {s : Sample α}

theorem induced_of_unknown {v : Label} (hv : selection.find? (· ∉ m.labels) = some v) :
    m.induced selection s = .error (.unknownVariable v) := by
  have hne : selection ≠ [] := by
    rintro rfl
    cases hv
  unfold induced
  rw [if_neg hne, mapM_index_eq_error hv]
  rfl

variable (hm : m.WellFormed) (hknown : ∀ v ∈ selection, v ∈ m.labels)

include hm hknown

theorem induced_of_missing {w : Label}
    (hw : (m.boundary selection).find? (fun w => (s.get? w).isNone) = some w) :
    m.induced selection s = .error (.missingValue w) := by
  have hne : selection ≠ [] := by
    rintro rfl
    cases hw
  exact induced_eq_error hm hne hknown (needed_chosen hm hknown ▸ hw)

theorem exists_restricts (hne : selection ≠ [])
    (hs : ∀ w ∈ m.boundary selection, s.get? w ≠ none) :
    ∃ sub, m.induced selection s = .ok sub ∧ m.Restricts selection sub := by
  obtain ⟨sub, hsub, hinherits⟩ :=
    exists_induced_of_needed hm hne hknown (needed_chosen hm hknown ▸ hs)
  exact ⟨sub, hsub, hinherits.restricts hm hknown⟩

omit hknown

/-- An unknown variable is out of range, and all else that is refused an invalid argument. -/
theorem kind_of_induced_error {fault : Fault} (hfault : m.induced selection s = .error fault) :
    fault.kind = if ∃ v ∈ selection, v ∉ m.labels then .outOfRange else .invalidArgument := by
  by_cases hknown : ∀ v ∈ selection, v ∈ m.labels
  · rw [if_neg (by simpa using hknown)]
    by_cases hne : selection = []
    · subst hne
      cases hfault
      rfl
    · cases hw : (m.boundary selection).find? (fun w => (s.get? w).isNone) with
      | some w =>
        cases (induced_of_missing hm hknown hw).symm.trans hfault
        rfl
      | none =>
        have hs : ∀ w ∈ m.boundary selection, s.get? w ≠ none := by
          simpa [Option.ne_none_iff_isSome] using List.find?_eq_none.1 hw
        obtain ⟨sub, hsub, -⟩ := exists_restricts hm hknown hne hs
        cases hsub.symm.trans hfault
  · have hunknown : (selection.find? (· ∉ m.labels)).isSome := by
      simpa [List.find?_isSome] using hknown
    obtain ⟨v, hv⟩ := Option.isSome_iff_exists.1 hunknown
    rw [if_pos (by simpa using hknown)]
    cases (induced_of_unknown hv).symm.trans hfault
    rfl

end Refused

/-- A selection is refused if it is empty, else for its first unknown variable, else for the first
excluded neighbour that the sample gives no value. Otherwise the part of the model between the
selected variables is induced, in which each linear bias takes up the interactions with excluded
neighbours, and which is the model itself if all variables are selected. -/
theorem induced_or_refused {α : Type} [Scalar α] {m : Model α} (hm : m.Reachable)
    (selection : List Label) (s : Sample α) :
    (selection = [] → m.induced selection s = .error .noSelection) ∧
    (∀ v, selection.find? (· ∉ m.labels) = some v →
      m.induced selection s = .error (.unknownVariable v)) ∧
    ((∀ v ∈ selection, v ∈ m.labels) →
      (∀ w, w ∈ m.boundary selection ↔
        w ∉ selection ∧ ∃ v ∈ selection, m.hasInteraction v w = true) ∧
      (∀ w, (m.boundary selection).find? (fun w => (s.get? w).isNone) = some w →
        m.induced selection s = .error (.missingValue w)) ∧
      (selection ≠ [] → (∀ w ∈ m.boundary selection, s.get? w ≠ none) →
        ∃ sub, m.induced selection s = .ok sub ∧ m.Restricts selection sub)) ∧
    (∀ fault, m.induced selection s = .error fault →
      fault.kind = if ∃ v ∈ selection, v ∉ m.labels then .outOfRange else .invalidArgument) ∧
    (∀ (k sub : Model Rat) (t : Sample Rat), k.Reachable → k.induced selection t = .ok sub →
      ∀ v ∈ selection, k.linear v = .ok (k.bias v) ∧
        (∀ w ∈ k.labels, k.quadratic v w = .ok (k.strength v w)) ∧
        sub.linear v = .ok (k.bias v +
          ∑ w ∈ k.labels.toFinset with w ∉ selection ∧ k.hasInteraction v w = true,
            k.strength v w * (t.get? w).getD 0)) ∧
    (∀ (k : Model Binary64) (t : Sample Binary64), k.Reachable → k.NanFree → selection ≠ [] →
      (∀ v, v ∈ selection ↔ v ∈ k.labels) →
      ∃ sub, k.induced selection t = .ok sub ∧ sub.sameContent k = true) := by
  have hwell := hm.wellFormed
  refine ⟨?empty, fun v => induced_of_unknown, fun hknown =>
    ⟨fun w => mem_boundary_iff hwell hknown, fun w => induced_of_missing hwell hknown,
      exists_restricts hwell hknown⟩,
    fun fault => kind_of_induced_error hwell, ?linear, ?whole⟩
  case empty =>
    rintro rfl
    rfl
  case linear =>
    intro k sub t hk hsub v hv
    have hknown := (of_induced_eq_ok hsub).2
    have hinherits := inherits_of_induced_eq_ok hk.wellFormed hsub
    refine ⟨linear_eq_bias (hknown v hv), fun w hw => quadratic_eq_strength (hknown v hv) hw, ?_⟩
    rw [linear_eq_bias ((hinherits.mem_labels_iff hknown).2 hv),
      hinherits.bias_eq_sum hk.wellFormed hknown hv]
  case whole =>
    intro k t hk hnan hne hall
    exact exists_induced_whole hk.wellFormed hnan hne hall t

/-- Part of a path, selected out of order and with a repeat. A sample of the one excluded neighbour
is enough, and without it, with unknown variables or with none the selection is refused. All of a
pair, in which a zero is negative, is selected at a sample of nothing. -/
theorem induced_or_refused_path :
    let m : Model Rat := .ofEdits .spin
      [.setOffset 7, .setLinear (.number 0) (-1), .setQuadratic (.number 0) (.number 1) 3,
        .addQuadratic (.number 2) (.number 1) (-2), .setQuadratic (.number 2) (.number 3) 5]
    let s : Sample Rat := ⟨[(.number 2, 1 / 2)], by decide⟩
    let k : Model Binary64 := .ofEdits .binary
      [.setLinear (.number 0) (-.ofInt 0), .setQuadratic (.number 1) (.number 0) (.ofInt 2)]
    m.induced [] s = .error .noSelection ∧
      m.induced [.number 1, .name "y", .number 2, .name "x"] s =
        .error (.unknownVariable (.name "y")) ∧
      m.induced [.number 1, .number 0, .number 1] .empty = .error (.missingValue (.number 2)) ∧
      (∃ sub, m.induced [.number 1, .number 0, .number 1] s = .ok sub ∧ sub.offset = 7 ∧
        sub.labels = [.number 1, .number 0] ∧ sub.quadratic (.number 0) (.number 1) = .ok 3 ∧
        sub.linear (.number 1) = .ok (-1)) ∧
      ∃ sub, k.induced [.number 1, .number 0, .number 1] .empty = .ok sub ∧
        sub.sameContent k = true := by
  intro m s k
  have hm : m.Reachable := ⟨.spin, _, rfl⟩
  obtain ⟨hempty, -⟩ := induced_or_refused hm [] s
  obtain ⟨-, hunknown, -⟩ :=
    induced_or_refused hm [.number 1, .name "y", .number 2, .name "x"] s
  obtain ⟨-, -, hmissing, -⟩ := induced_or_refused hm [.number 1, .number 0, .number 1] .empty
  obtain ⟨-, -, hinduced, -, hlinear, hwhole⟩ :=
    induced_or_refused hm [.number 1, .number 0, .number 1] s
  have hknown : ∀ v ∈ [Label.number 1, .number 0, .number 1], v ∈ m.labels := by decide +kernel
  refine ⟨hempty rfl, hunknown _ (by decide +kernel), (hmissing hknown).2.1 _ (by decide +kernel),
    ?_, ?_⟩
  · obtain ⟨sub, hsub, hrestricts⟩ :=
      (hinduced hknown).2.2 (List.cons_ne_nil _ _) (by decide +kernel)
    refine ⟨sub, hsub, hrestricts.offset_eq.trans (by decide +kernel),
      hrestricts.labels_eq.trans (by decide), ?_, ?_⟩
    · rw [hrestricts.quadratic_eq _ (by decide) _ (by decide)]
      decide +kernel
    · rw [(hlinear m sub s hm hsub (.number 1) (by decide)).2.2]
      decide +kernel
  · have hnan : k.NanFree := by
      refine matches_self_iff.1 ((sameContent_iff ?_ ?_).1 (by decide +kernel)) <;>
        exact ofEdits_wellFormed _ _
    have hlabels : k.labels = [.number 0, .number 1] := by decide +kernel
    refine hwhole k .empty ⟨.binary, _, rfl⟩ hnan (List.cons_ne_nil _ _) fun v => ?_
    rw [hlabels]
    simp only [List.mem_cons, List.not_mem_nil, or_false]
    tauto

end Model

end QuboSplit
