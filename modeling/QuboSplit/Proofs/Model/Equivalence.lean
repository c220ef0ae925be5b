import QuboSplit.Proofs.Model.Content
import QuboSplit.Proofs.Model.Ledger

/-!
# Equality of content by readings

Models have the same content exactly if they read alike: the same vartype, the same variables and
interactions, and equal offsets and biases wherever there are any (`matches_iff_readings`). In which
order and from which end anything was added does not show. So equality of content is symmetric and
transitive, and a model has the content of itself unless it holds a `nan` (`matches_self_iff`).
-/

namespace QuboSplit

open Scalar (equal Equals)

theorem Floating.equal_self_iff {f : Format} {x : Floating f} : x.equal x = true ↔ x ≠ .nan := by
  cases x <;> simp [equal]

/-- Optional numbers are equal exactly if both are there or neither, and any two that are there are
equal. -/
theorem Scalar.equals_iff {α : Type} [Scalar α] {a b : Option α} : Equals a b ↔
    a.isSome = b.isSome ∧
      (a.isSome = true → ∃ x y, a = some x ∧ b = some y ∧ equal x y = true) := by
  constructor
  · intro h
    cases h with
    | none => exact ⟨rfl, nofun⟩
    | some hxy => exact ⟨rfl, fun _ => ⟨_, _, rfl, rfl, hxy⟩⟩
  · rintro ⟨hsome, hequal⟩
    cases a with
    | none =>
      rw [Option.isNone_iff_eq_none.1 (Option.isSome_eq_false_iff.1 hsome.symm)]
      exact .none
    | some x =>
      obtain ⟨_, y, hx, rfl, hxy⟩ := hequal rfl
      cases hx
      exact .some hxy

namespace Model

variable {α : Type} {m m' : Model α} {u v : Label}

/-! ### Readings -/

theorem isSome_linear?_iff : (m.linear? v).isSome = true ↔ v ∈ m.labels := by
  rw [Option.isSome_iff_ne_none, Ne, linear?_eq_none_iff, not_not]

variable [Scalar α]

theorem linear_eq_ok_iff {b : α} : m.linear v = .ok b ↔ m.linear? v = some b := by
  refine ⟨fun h => ?_, linear_of_linear?⟩
  cases hx : m.linear? v with
  | none =>
    rw [linear_eq_error (linear?_eq_none_iff.1 hx)] at h
    cases h
  | some x =>
    rw [linear_of_linear? hx] at h
    cases h
    rfl

/-- The bias of an interaction is what is stored for it. -/
theorem quadratic_eq_ok_iff (h : m.hasInteraction u v = true) {b : α} :
    m.quadratic u v = .ok b ↔ m.coupling? u v = some b := by
  obtain ⟨hu, hv⟩ := mem_labels_of_hasInteraction h
  rw [hasInteraction_eq] at h
  obtain ⟨x, hx⟩ := Option.isSome_iff_exists.1 h
  rw [quadratic_of_mem hu hv, hx, Option.getD_some, Except.ok.injEq, Option.some.injEq]

theorem linear_equals_iff : Equals (m.linear? v) (m'.linear? v) ↔
    (v ∈ m.labels ↔ v ∈ m'.labels) ∧ (v ∈ m.labels →
      ∃ x y, m.linear v = .ok x ∧ m'.linear v = .ok y ∧ equal x y = true) := by
  rw [Scalar.equals_iff, Bool.eq_iff_iff, isSome_linear?_iff, isSome_linear?_iff]
  simp only [linear_eq_ok_iff]

theorem coupling_equals_iff : Equals (m.coupling? u v) (m'.coupling? u v) ↔
    m.hasInteraction u v = m'.hasInteraction u v ∧ (m.hasInteraction u v = true →
      ∃ x y, m.quadratic u v = .ok x ∧ m'.quadratic u v = .ok y ∧ equal x y = true) := by
  rw [Scalar.equals_iff, ← hasInteraction_eq, ← hasInteraction_eq]
  refine and_congr_right fun hsame => imp_congr_right fun h => ?_
  simp only [quadratic_eq_ok_iff h, quadratic_eq_ok_iff (hsame ▸ h)]

/-- Models match exactly if they read alike. -/
theorem matches_iff_readings : m.Matches m' ↔
    m.vartype = m'.vartype ∧ equal m.offset m'.offset = true ∧
    (∀ v, v ∈ m.labels ↔ v ∈ m'.labels) ∧
    (∀ v ∈ m.labels, ∃ x y, m.linear v = .ok x ∧ m'.linear v = .ok y ∧ equal x y = true) ∧
    (∀ u v, m.hasInteraction u v = m'.hasInteraction u v) ∧
    ∀ u v, m.hasInteraction u v = true →
      ∃ x y, m.quadratic u v = .ok x ∧ m'.quadratic u v = .ok y ∧ equal x y = true := by
  constructor
  · intro h
    have hlinear := fun v => linear_equals_iff.1 (h.linear v)
    have hcoupling := fun u v => coupling_equals_iff.1 (h.coupling u v)
    exact ⟨h.vartype_eq, h.offset_equal, fun v => (hlinear v).1, fun v => (hlinear v).2,
      fun u v => (hcoupling u v).1, fun u v => (hcoupling u v).2⟩
  · rintro ⟨hvartype, hoffset, hlabels, hlinear, hinteraction, hquadratic⟩
    exact ⟨hvartype, hoffset, fun v => linear_equals_iff.2 ⟨hlabels v, hlinear v⟩,
      fun u v => coupling_equals_iff.2 ⟨hinteraction u v, hquadratic u v⟩⟩

/-! ### Models without `nan` -/

/-- Offset and biases are numbers. -/
structure NanFree (m : Model Binary64) : Prop where
  offset : m.offset ≠ .nan
  linear : ∀ v, m.linear? v ≠ some .nan
  coupling : ∀ u v, m.coupling? u v ≠ some .nan

theorem equals_self_iff {a : Option Binary64} : Equals a a ↔ a ≠ some .nan := by
  cases a with
  | none => exact ⟨fun _ => nofun, fun _ => .none⟩
  | some x =>
    rw [Ne, Option.some.injEq, ← Ne, ← Floating.equal_self_iff]
    constructor
    · rintro ⟨h⟩
      assumption
    · exact fun h => .some h

/-- A model has the content of itself exactly if it holds no `nan`. -/
theorem matches_self_iff {m : Model Binary64} : m.Matches m ↔ m.NanFree := by
  constructor
  · intro h
    exact ⟨Floating.equal_self_iff.1 h.offset_equal, fun v => equals_self_iff.1 (h.linear v),
      fun u v => equals_self_iff.1 (h.coupling u v)⟩
  · intro h
    exact ⟨rfl, Floating.equal_self_iff.2 h.offset, fun v => equals_self_iff.2 (h.linear v),
      fun u v => equals_self_iff.2 (h.coupling u v)⟩

/-! ### Equality of content -/

/-- Models have the same content exactly if they have the same vartype, equal offsets, the same
variables with equal linear biases and the same interactions with equal quadratic biases. Equality
of content is symmetric and transitive, and reflexive just for models without `nan`. -/
theorem content_equality {m m' : Model Binary64} (hm : m.Reachable) (hm' : m'.Reachable) :
    (m.sameContent m' = true ↔
      m.vartype = m'.vartype ∧ m.offset.equal m'.offset = true ∧
      (∀ v, v ∈ m.labels ↔ v ∈ m'.labels) ∧
      (∀ v ∈ m.labels, ∃ x y, m.linear v = .ok x ∧ m'.linear v = .ok y ∧ x.equal y = true) ∧
      (∀ u v, m.hasInteraction u v = m'.hasInteraction u v) ∧
      ∀ u v, m.hasInteraction u v = true →
        ∃ x y, m.quadratic u v = .ok x ∧ m'.quadratic u v = .ok y ∧ x.equal y = true) ∧
    (m.sameContent m' = true → m'.sameContent m = true) ∧
    (∀ m'' : Model Binary64, m''.Reachable → m.sameContent m' = true →
      m'.sameContent m'' = true → m.sameContent m'' = true) ∧
    (m.sameContent m = true ↔ m.NanFree) := by
  have hwell := hm.wellFormed
  have hwell' := hm'.wellFormed
  refine ⟨(sameContent_iff hwell hwell').trans matches_iff_readings, fun h => ?_,
    fun m'' hm'' h h' => ?_, (sameContent_iff hwell hwell).trans matches_self_iff⟩
  · exact (sameContent_iff hwell' hwell).2 ((sameContent_iff hwell hwell').1 h).symm
  · have hwell'' := hm''.wellFormed
    exact (sameContent_iff hwell hwell'').2
      (((sameContent_iff hwell hwell').1 h).trans ((sameContent_iff hwell' hwell'').1 h'))

/-- Two variables coupled from either end, a third one at either zero, and an infinite offset. -/
theorem content_equality_reordered :
    let m : Model Binary64 := .ofEdits .spin
      [.setOffset (.infinite true), .setQuadratic (.number 0) (.number 1) (.ofInt 2),
        .addLinear (.name "a") (.ofInt 0)]
    let m' : Model Binary64 := .ofEdits .spin
      [.addVariable (.name "a") (-.ofInt 0), .setQuadratic (.number 1) (.number 1) (.ofInt 5),
        .addQuadratic (.number 1) (.number 0) (.ofInt 2), .setOffset (.infinite true)]
    m.labels ≠ m'.labels ∧ m.sameContent m' = true ∧ m'.sameContent m = true ∧ m.NanFree ∧
      ∃ x y, m.linear (.name "a") = .ok x ∧ m'.linear (.name "a") = .ok y ∧ x ≠ y ∧
        x.equal y = true := by
  intro m m'
  have hm : m.Reachable := ⟨.spin, _, rfl⟩
  have hm' : m'.Reachable := ⟨.spin, _, rfl⟩
  have hsame : m.sameContent m' = true := by decide +kernel
  obtain ⟨hreadings, hsymm, htrans, hself⟩ := content_equality hm hm'
  obtain ⟨-, -, -, hlinear, -, -⟩ := hreadings.1 hsame
  have hnan : m.NanFree := hself.1 (htrans m hm hsame (hsymm hsame))
  obtain ⟨x, y, hx, hy, hxy⟩ := hlinear (.name "a") (by decide +kernel)
  refine ⟨by decide +kernel, hsame, hsymm hsame, hnan, x, y, hx, hy, ?_, hxy⟩
  rintro rfl
  exact absurd (hx.trans hy.symm) (by decide +kernel)

end Model

end QuboSplit
