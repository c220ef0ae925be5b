import QuboSplit.Proofs.Model.Equivalence
import QuboSplit.Proofs.Model.Gain
import QuboSplit.Proofs.Model.Landscape

/-!
# Energies

The energy of a sample is the polynomial of the model: over the rational numbers it is the offset,
one term for each variable and one for each pair of interacting variables, whatever the order of the
variables (`polynomial_eq_sum_pairs`). It fails just if the sample lacks a variable, and names the
first one it lacks (`energy_eq_error_iff`).
-/

namespace QuboSplit.Model

/-! ### Missing values -/

section Missing

variable {α : Type} {m : Model α} {s : Sample α}

theorem missing?_spec {v : Label} (h : m.missing? s = some v) :
    v ∈ m.labels ∧ s.get? v = none := by
  unfold missing? at h
  have hnone := List.find?_some h
  exact ⟨List.mem_of_find?_eq_some h, Option.isNone_iff_eq_none.1 hnone⟩

/-- Some variable is missing exactly if there is a first one. -/
theorem exists_missing?_iff : (∃ v, m.missing? s = some v) ↔ ∃ v ∈ m.labels, s.get? v = none := by
  rw [← Option.ne_none_iff_exists', Ne, missing?_eq_none_iff]
  unfold Assigned
  simp only [Option.isSome_iff_ne_none, not_forall, not_not, exists_prop]

variable [Scalar α]

/-- An energy fails on the first variable without a value, and on nothing else. -/
theorem energy_eq_error_iff {fault : Fault} :
    m.energy s = .error fault ↔ ∃ v, m.missing? s = some v ∧ fault = .missingValue v := by
  unfold energy
  cases hmissing : m.missing? s with
  | none =>
    have hs := missing?_eq_none_iff.1 hmissing
    rw [values_eq_ok fun v hv => hs.get?_eq (Scalar.ofInt 0) hv]
    exact ⟨nofun, nofun⟩
  | some v =>
    rw [values_eq_error hmissing]
    constructor
    · intro h
      cases h
      exact ⟨v, rfl, rfl⟩
    · rintro ⟨w, hw, rfl⟩
      cases hw
      rfl

end Missing

/-! ### The polynomial over pairs -/

section Polynomial

variable {m : Model Rat}

theorem pairs_subset_sym2 (hm : m.WellFormed) {p : Sym2 Label} (hp : p ∈ m.pairs) :
    p ∈ m.labels.toFinset.sym2 := by
  induction p using Sym2.ind with
  | h u v =>
    obtain ⟨b, hb⟩ := Option.ne_none_iff_exists'.1 (hm.mem_pairs_iff.1 hp)
    have hv := mem_labels_of_coupling? hb
    have hu := mem_labels_of_coupling? ((hm.coupling?_comm v u).trans hb)
    exact Finset.mk_mem_sym2_iff.2 ⟨List.mem_toFinset.2 hu, List.mem_toFinset.2 hv⟩

/-- The polynomial has one term for each interaction. -/
theorem polynomial_eq_sum_pairs (hm : m.WellFormed) (x : Label → Rat) :
    m.polynomial x = m.offset + ∑ v ∈ m.labels.toFinset, m.bias v * x v +
      ∑ p ∈ m.pairs.toFinset, hm.pairTerm x p := by
  have hall : m.pairs.toFinset.filter (· ∈ m.labels.toFinset.sym2) = m.pairs.toFinset :=
    Finset.filter_true_of_mem fun p hp => pairs_subset_sym2 hm (List.mem_toFinset.1 hp)
  unfold polynomial
  rw [sum_strength_eq hm, hall]
  ring

theorem linear_eq_bias {v : Label} (hv : v ∈ m.labels) : m.linear v = .ok (m.bias v) := by
  obtain ⟨b, hb⟩ := Option.isSome_iff_exists.1 (isSome_linear?_iff.2 hv)
  unfold bias
  rw [linear_of_linear? hb, hb]
  rfl

theorem quadratic_eq_strength {u v : Label} (hu : u ∈ m.labels) (hv : v ∈ m.labels) :
    m.quadratic u v = .ok (m.strength u v) :=
  quadratic_of_mem hu hv

theorem mem_pairs_iff_hasInteraction (hm : m.WellFormed) {u v : Label} :
    s(u, v) ∈ m.pairs ↔ m.hasInteraction u v = true := by
  rw [hm.mem_pairs_iff, hasInteraction_eq, Option.isSome_iff_ne_none]

end Polynomial

/-! ### Energies -/

/-- The energy of a sample of all variables is the offset, the sum of the linear biases times the
values, and the sum of the quadratic biases times both values over the interacting pairs. Models of
the same content have the same energies. Whatever the numbers, an energy fails exactly if a variable
is missing. -/
theorem energy_is_polynomial {m : Model Rat} (hm : m.Reachable) (s : Sample Rat) :
    ((∀ v ∈ m.labels, (s.get? v).isSome) →
      m.energy s = .ok (m.offset + ∑ v ∈ m.labels.toFinset, m.bias v * (s.get? v).getD 0 +
        ∑ p ∈ m.pairs.toFinset, hm.wellFormed.pairTerm (fun v => (s.get? v).getD 0) p)) ∧
    (∀ v ∈ m.labels, m.linear v = .ok (m.bias v)) ∧
    (∀ u ∈ m.labels, ∀ v ∈ m.labels, m.quadratic u v = .ok (m.strength u v)) ∧
    (∀ u v, s(u, v) ∈ m.pairs ↔ m.hasInteraction u v = true) ∧
    (∀ m' : Model Rat, m'.Reachable → m.sameContent m' = true →
      ∀ e, m.energy s = .ok e ↔ m'.energy s = .ok e) ∧
    ∀ {α : Type} [Scalar α] (k : Model α) (t : Sample α),
      ((∃ fault, k.energy t = .error fault) ↔ ∃ v ∈ k.labels, t.get? v = none) ∧
      ∀ fault, k.energy t = .error fault →
        ∃ v ∈ k.labels, t.get? v = none ∧ fault = .missingValue v ∧
          fault.kind = .invalidArgument := by
  have hwell := hm.wellFormed
  refine ⟨fun hs => ?_, fun v => linear_eq_bias, fun u hu v => quadratic_eq_strength hu,
    fun u v => mem_pairs_iff_hasInteraction hwell, fun m' hm' h e => ?_, fun k t => ⟨?_, ?_⟩⟩
  · exact (energy_eq_ok_iff hwell).2 ⟨hs, polynomial_eq_sum_pairs hwell _⟩
  · have hwell' := hm'.wellFormed
    exact energy_congr hwell hwell' ((sameContent_iff hwell hwell').1 h) fun _ => rfl
  · rw [← exists_missing?_iff]
    constructor
    · rintro ⟨fault, h⟩
      obtain ⟨v, hv, -⟩ := energy_eq_error_iff.1 h
      exact ⟨v, hv⟩
    · rintro ⟨v, hv⟩
      exact ⟨_, energy_eq_error_iff.2 ⟨v, hv, rfl⟩⟩
  · intro fault h
    obtain ⟨v, hv, rfl⟩ := energy_eq_error_iff.1 h
    exact ⟨v, (missing?_spec hv).1, (missing?_spec hv).2, rfl, rfl⟩

/-- A triangle built against the order of its variables, at values that include zero, the same
triangle built in their order, and a sample that lacks a variable. -/
theorem energy_is_polynomial_triangle :
    let m : Model Rat := .ofEdits .spin
      [.setOffset 7, .setQuadratic (.number 2) (.number 1) 3,
        .addQuadratic (.number 1) (.number 0) 5, .setQuadratic (.number 0) (.number 2) (-2),
        .setQuadratic (.number 1) (.number 1) 9, .addLinear (.number 0) (1 / 2)]
    let m' : Model Rat := .ofEdits .spin
      [.setLinear (.number 0) (1 / 2), .setQuadratic (.number 0) (.number 1) 5,
        .setQuadratic (.number 0) (.number 2) (-2), .addQuadratic (.number 1) (.number 2) 3,
        .setOffset 7]
    let s : Sample Rat := ⟨[(.number 0, 3), (.number 1, 0), (.number 2, -1 / 3)], by decide⟩
    let t : Sample Rat := ⟨[(.number 0, 3), (.number 1, 0)], by decide⟩
    m.energy s = .ok (21 / 2) ∧ m'.energy s = .ok (21 / 2) ∧
      m.energy t = .error (.missingValue (.number 2)) := by
  intro m m' s t
  obtain ⟨henergy, -, -, -, hsame, hfails⟩ :=
    energy_is_polynomial (m := m) ⟨.spin, _, rfl⟩ s
  have hs : m.energy s = .ok (21 / 2) := by
    rw [henergy (by decide +kernel)]
    decide +kernel
  refine ⟨hs, (hsame m' ⟨.spin, _, rfl⟩ (by decide +kernel) _).1 hs, ?_⟩
  obtain ⟨fault, hfault⟩ := (hfails m t).1.2 ⟨.number 2, by decide +kernel, by decide⟩
  obtain ⟨v, hv, hnone, rfl, -⟩ := (hfails m t).2 fault hfault
  have honly : ∀ w ∈ m.labels, t.get? w = none → w = .number 2 := by decide +kernel
  rw [hfault, honly v hv hnone]

end QuboSplit.Model
