import QuboSplit.Proofs.Lists
import QuboSplit.Proofs.Model.Layout

/-!
# Models by label

What a model says about its variables, whatever their indices: `linear? v` is the linear bias of
`v` and `coupling? u v` the bias of the interaction of `u` and `v`. Each way of building a model
changes exactly the entries that it names.
-/

namespace QuboSplit

open Scalar (ofInt)

variable {α : Type}

namespace Model

/-! ### Indices and labels -/

theorem index?_eq_findIdx? (m : Model α) (v : Label) :
    m.index? v = m.labels.findIdx? (· = v) := by
  unfold index? labels
  rw [List.findIdx?_map]
  rfl

theorem index?_congr {m m' : Model α} (h : m'.labels = m.labels) (v : Label) :
    m'.index? v = m.index? v := by
  rw [index?_eq_findIdx?, index?_eq_findIdx?, h]

theorem exists_index?_of_mem {m : Model α} {v : Label} (h : v ∈ m.labels) :
    ∃ i, m.index? v = some i := by
  cases hi : m.index? v with
  | none => exact absurd h (index?_eq_none_iff.1 hi)
  | some i => exact ⟨i, rfl⟩

/-- The index of a variable of the model. -/
def indexOf (m : Model α) (v : Label) : Nat := (m.index? v).getD 0

theorem index?_indexOf {m : Model α} {v : Label} (hv : v ∈ m.labels) :
    m.index? v = some (m.indexOf v) := by
  obtain ⟨i, hi⟩ := exists_index?_of_mem hv
  unfold indexOf
  rw [hi]
  rfl

theorem label?_indexOf {m : Model α} {v : Label} (hv : v ∈ m.labels) :
    m.label? (m.indexOf v) = some v := label?_of_index? (index?_indexOf hv)

theorem indexOf_injOn {m : Model α} {u v : Label} (hu : u ∈ m.labels) (hv : v ∈ m.labels)
    (h : m.indexOf u = m.indexOf v) : u = v := by
  have hu' := label?_indexOf hu
  rw [h] at hu'
  exact Option.some.inj (hu'.symm.trans (label?_indexOf hv))

/-- Variables are read back from their indices. -/
theorem filterMap_label?_map_indexOf {m : Model α} {labels : List Label}
    (h : ∀ v ∈ labels, v ∈ m.labels) : (labels.map m.indexOf).filterMap m.label? = labels := by
  rw [List.filterMap_map]
  exact (List.filterMap_congr fun v hv => label?_indexOf (h v hv)).trans List.filterMap_some

theorem mapM_index {m : Model α} {labels : List Label} (h : ∀ v ∈ labels, v ∈ m.labels) :
    labels.mapM m.index = .ok (labels.map m.indexOf) := by
  refine mapM_eq_ok fun v hv => ?_
  unfold index
  rw [index?_indexOf (h v hv)]

/-- The first unknown variable is named. -/
theorem mapM_index_eq_error {m : Model α} {labels : List Label} {v : Label}
    (h : labels.find? (· ∉ m.labels) = some v) :
    labels.mapM m.index = .error (.unknownVariable v) := by
  have hunknown : v ∉ m.labels := by simpa using List.find?_some h
  refine mapM_eq_error h ?_ fun w _ hw => ⟨m.indexOf w, ?_⟩
  · unfold index
    rw [index?_eq_none_iff.2 hunknown]
  · unfold index
    rw [index?_indexOf (by simpa using hw)]

theorem mem_labels_of_index? {m : Model α} {v : Label} {i : Nat} (h : m.index? v = some i) :
    v ∈ m.labels := by
  by_contra hv
  rw [index?_eq_none_iff.2 hv] at h
  cases h

theorem mem_labels_of_label? {m : Model α} {v : Label} {i : Nat} (h : m.label? i = some v) :
    v ∈ m.labels := by
  rw [label?_eq_getElem?] at h
  exact List.mem_of_getElem? h

theorem index?_append (m : Model α) {v : Label} (hv : v ∉ m.labels) (n : Node α)
    (hn : n.label = v) (w : Label) :
    index? { m with nodes := m.nodes ++ [n] } w = if w = v then some m.size else m.index? w := by
  have hnone := index?_eq_none_iff.2 hv
  unfold index? at hnone ⊢
  rw [List.findIdx?_append]
  by_cases hw : w = v
  · subst hw
    rw [hnone]
    simp [hn, size]
  · have : ¬ n.label = w := fun e => hw (e.symm.trans hn)
    simp [this, hw]

/-! ### Entries -/

/-- The linear bias of a variable, if the model has it. -/
def linear? (m : Model α) (v : Label) : Option α :=
  (m.index? v).bind fun i => m.nodes[i]?.map Node.linear

/-- The bias of the interaction of two variables, if they have one. -/
def coupling? (m : Model α) (u v : Label) : Option α :=
  (m.index? u).bind fun i => (m.index? v).bind fun j => Row.bias? (m.row i) j

theorem linear?_of_index? {m : Model α} {v : Label} {i : Nat} {n : Node α}
    (hi : m.index? v = some i) (hn : m.nodes[i]? = some n) : m.linear? v = some n.linear := by
  unfold linear?
  rw [hi, Option.bind_some, hn]
  rfl

theorem coupling?_of_index? {m : Model α} {u v : Label} {i j : Nat} (hi : m.index? u = some i)
    (hj : m.index? v = some j) : m.coupling? u v = Row.bias? (m.row i) j := by
  unfold coupling?
  rw [hi, hj]
  rfl

theorem hasInteraction_eq (m : Model α) (u v : Label) :
    m.hasInteraction u v = (m.coupling? u v).isSome := by
  unfold hasInteraction coupling?
  cases m.index? u with
  | none => rfl
  | some i => cases m.index? v <;> rfl

theorem linear?_eq_none_iff {m : Model α} {v : Label} : m.linear? v = none ↔ v ∉ m.labels := by
  rw [← index?_eq_none_iff]
  cases hi : m.index? v with
  | none => unfold linear?; rw [hi]; simp
  | some i =>
    obtain ⟨n, hn⟩ := exists_node (lt_size_of_index? hi)
    rw [linear?_of_index? hi hn]
    simp

theorem coupling?_eq_none_left {m : Model α} {u v : Label} (h : u ∉ m.labels) :
    m.coupling? u v = none := by
  unfold coupling?
  rw [index?_eq_none_iff.2 h]
  rfl

theorem coupling?_eq_none_right {m : Model α} {u v : Label} (h : v ∉ m.labels) :
    m.coupling? u v = none := by
  unfold coupling?
  rw [index?_eq_none_iff.2 h]
  cases m.index? u <;> rfl

theorem mem_labels_of_coupling? {m : Model α} {u v : Label} {b : α}
    (h : m.coupling? u v = some b) : v ∈ m.labels := by
  by_contra hv
  rw [coupling?_eq_none_right hv] at h
  cases h

theorem mem_labels_of_hasInteraction {m : Model α} {u v : Label} (h : m.hasInteraction u v) :
    u ∈ m.labels ∧ v ∈ m.labels := by
  rw [hasInteraction_eq] at h
  constructor
  · by_contra hu
    rw [coupling?_eq_none_left hu] at h
    cases h
  · by_contra hv
    rw [coupling?_eq_none_right hv] at h
    cases h

section Related

variable {R : α → α → Prop} {m m' : Model α} (hlabels : ∀ v, v ∈ m.labels ↔ v ∈ m'.labels)

include hlabels

/-- Linear biases of models with the same variables need to be compared on these only. -/
theorem rel_linear? (h : ∀ v ∈ m.labels, Option.Rel R (m.linear? v) (m'.linear? v)) (v : Label) :
    Option.Rel R (m.linear? v) (m'.linear? v) := by
  by_cases hv : v ∈ m.labels
  · exact h v hv
  · rw [linear?_eq_none_iff.2 hv, linear?_eq_none_iff.2 (mt (hlabels v).2 hv)]
    exact .none

/-- So do interactions. -/
theorem rel_coupling? (h : ∀ u ∈ m.labels, ∀ v ∈ m.labels,
      Option.Rel R (m.coupling? u v) (m'.coupling? u v)) (u v : Label) :
    Option.Rel R (m.coupling? u v) (m'.coupling? u v) := by
  by_cases hu : u ∈ m.labels
  · by_cases hv : v ∈ m.labels
    · exact h u hu v hv
    · rw [coupling?_eq_none_right hv, coupling?_eq_none_right (mt (hlabels v).2 hv)]
      exact .none
  · rw [coupling?_eq_none_left hu, coupling?_eq_none_left (mt (hlabels u).2 hu)]
    exact .none

end Related

namespace WellFormed

variable {m : Model α}

theorem coupling?_comm (h : m.WellFormed) (u v : Label) : m.coupling? u v = m.coupling? v u := by
  by_cases hu : u ∈ m.labels
  · by_cases hv : v ∈ m.labels
    · obtain ⟨i, hi⟩ := exists_index?_of_mem hu
      obtain ⟨j, hj⟩ := exists_index?_of_mem hv
      rw [coupling?_of_index? hi hj, coupling?_of_index? hj hi, h.symmetric i j]
    · rw [coupling?_eq_none_left hv, coupling?_eq_none_right hv]
  · rw [coupling?_eq_none_left hu, coupling?_eq_none_right hu]

theorem coupling?_self (h : m.WellFormed) (v : Label) : m.coupling? v v = none := by
  cases hi : m.index? v with
  | none => exact coupling?_eq_none_left (index?_eq_none_iff.1 hi)
  | some i => exact (coupling?_of_index? hi hi).trans (h.bias?_self i)

end WellFormed

/-! ### Linear biases -/

theorem labels_append (m : Model α) (n : Node α) :
    labels { m with nodes := m.nodes ++ [n] } = m.labels ++ [n.label] := by
  simp [labels]

theorem linear?_modify {m : Model α} {v : Label} {i : Nat} (hi : m.index? v = some i)
    (f : α → α) (w : Label) :
    linear? { m with nodes := m.nodes.modify i fun n => { n with linear := f n.linear } } w =
      if w = v then (m.linear? v).map f else m.linear? w := by
  have hl : ∀ n : Node α, ({ n with linear := f n.linear } : Node α).label = n.label := fun _ => rfl
  have hlabels : labels { m with nodes := m.nodes.modify i fun n =>
      { n with linear := f n.linear } } = m.labels := map_modify_of_comp hl i m.nodes
  unfold linear?
  rw [index?_congr hlabels]
  cases hw : m.index? w with
  | none =>
    rw [if_neg]
    · rfl
    · rintro rfl
      rw [hi] at hw
      cases hw
  | some j =>
    rw [Option.bind_some, Option.bind_some, List.getElem?_modify, hi, Option.bind_some]
    by_cases hv : w = v
    · subst hv
      obtain rfl : i = j := Option.some.inj (hi.symm.trans hw)
      rw [if_pos rfl]
      cases m.nodes[i]? <;> simp
    · have hij : i ≠ j := by
        rintro rfl
        exact hv (Option.some.inj ((label?_of_index? hw).symm.trans (label?_of_index? hi)))
      rw [if_neg hv]
      cases m.nodes[j]? <;> simp [hij]

theorem linear?_append (m : Model α) {v : Label} (hv : v ∉ m.labels) (bias : α) (w : Label) :
    linear? { m with nodes := m.nodes ++ [.isolated v bias] } w =
      if w = v then some bias else m.linear? w := by
  unfold linear?
  rw [index?_append m hv _ rfl]
  by_cases hw : w = v
  · rw [if_pos hw, if_pos hw, Option.bind_some]
    show ((m.nodes ++ [Node.isolated v bias])[m.nodes.length]?).map Node.linear = _
    rw [List.getElem?_concat_length]
    rfl
  · rw [if_neg hw, if_neg hw]
    cases hi : m.index? w with
    | none => rfl
    | some i =>
      rw [Option.bind_some, Option.bind_some, List.getElem?_append_left (lt_size_of_index? hi)]

theorem linear?_reviseLinear (m : Model α) (v : Label) (fresh : α) (f : α → α) (w : Label) :
    (m.reviseLinear v fresh f).linear? w =
      if w = v then some (((m.linear? v).map f).getD fresh) else m.linear? w := by
  unfold reviseLinear
  cases hi : m.index? v with
  | none =>
    have hv := index?_eq_none_iff.1 hi
    rw [linear?_append m hv, linear?_eq_none_iff.2 hv]
    rfl
  | some i =>
    obtain ⟨n, hn⟩ := exists_node (lt_size_of_index? hi)
    rw [linear?_modify hi, linear?_of_index? hi hn]
    rfl

theorem labels_reviseLinear (m : Model α) (v : Label) (fresh : α) (f : α → α) :
    (m.reviseLinear v fresh f).labels = if v ∈ m.labels then m.labels else m.labels ++ [v] := by
  unfold reviseLinear
  cases hi : m.index? v with
  | none =>
    rw [if_neg (index?_eq_none_iff.1 hi)]
    exact labels_append m _
  | some i =>
    rw [if_pos (mem_labels_of_index? hi)]
    have hl : ∀ n : Node α, ({ n with linear := f n.linear } : Node α).label = n.label :=
      fun _ => rfl
    exact map_modify_of_comp hl i m.nodes

theorem vartype_reviseLinear (m : Model α) (v : Label) (fresh : α) (f : α → α) :
    (m.reviseLinear v fresh f).vartype = m.vartype := by
  unfold reviseLinear
  split <;> rfl

theorem offset_reviseLinear (m : Model α) (v : Label) (fresh : α) (f : α → α) :
    (m.reviseLinear v fresh f).offset = m.offset := by
  unfold reviseLinear
  split <;> rfl

theorem mem_labels_reviseLinear (m : Model α) (v : Label) (fresh : α) (f : α → α) (w : Label) :
    w ∈ (m.reviseLinear v fresh f).labels ↔ w = v ∨ w ∈ m.labels := by
  rw [labels_reviseLinear]
  split
  · next hv => exact ⟨Or.inr, fun h => h.elim (fun e => e ▸ hv) id⟩
  · rw [List.mem_append, List.mem_singleton]
    exact or_comm

/-- The indices of the other variables stay. -/
theorem index?_reviseLinear_of_ne (m : Model α) {v w : Label} (hw : w ≠ v) (fresh : α)
    (f : α → α) : (m.reviseLinear v fresh f).index? w = m.index? w := by
  by_cases hv : v ∈ m.labels
  · exact index?_congr ((labels_reviseLinear m v fresh f).trans (if_pos hv)) w
  · unfold reviseLinear
    rw [index?_eq_none_iff.2 hv]
    exact (index?_append m hv _ rfl w).trans (if_neg hw)

/-! ### Interactions -/

namespace WellFormed

variable {m : Model α}

/-- Revising a linear bias touches no interaction. -/
theorem coupling?_reviseLinear (h : m.WellFormed) (v : Label) (fresh : α) (f : α → α)
    (a b : Label) : (m.reviseLinear v fresh f).coupling? a b = m.coupling? a b := by
  have hrow : ∀ a b, (m.reviseLinear v fresh f).coupling? a b =
      ((m.reviseLinear v fresh f).index? a).bind fun i =>
        ((m.reviseLinear v fresh f).index? b).bind fun j => Row.bias? (m.row i) j := by
    intro a b
    unfold coupling?
    simp only [row_reviseLinear]
  by_cases hv : v ∈ m.labels
  · rw [hrow, index?_congr ((labels_reviseLinear m v fresh f).trans (if_pos hv)),
      index?_congr ((labels_reviseLinear m v fresh f).trans (if_pos hv))]
    rfl
  · have hidx : ∀ w, (m.reviseLinear v fresh f).index? w =
        if w = v then some m.size else m.index? w := by
      intro w
      unfold Model.reviseLinear
      rw [index?_eq_none_iff.2 hv]
      exact index?_append m hv _ rfl w
    rw [hrow, hidx, hidx]
    by_cases ha : a = v
    · subst ha
      rw [if_pos rfl, coupling?_eq_none_left hv, Option.bind_some, row_of_size_le (Nat.le_refl _)]
      cases (if b = a then some m.size else m.index? b) <;> rfl
    · rw [if_neg ha]
      by_cases hb : b = v
      · subst hb
        -- no row reaches as far as the new index
        have hnone : ∀ i, Row.bias? (m.row i) m.size = none := by
          intro i
          refine Row.bias?_eq_none_iff.2 fun hm => ?_
          obtain ⟨c, hc, e⟩ := List.mem_map.1 hm
          exact absurd (h.lt_of_mem_row hc).1 (by omega)
        rw [if_pos rfl, coupling?_eq_none_right hv]
        cases m.index? a with
        | none => rfl
        | some i => exact hnone i
      · rw [if_neg hb]
        rfl

/-- Coupling two variables changes their interaction only. -/
theorem coupling?_couple (h : m.WellFormed) (zero : α) {u v : Label} {i j : Nat}
    (hi : m.index? u = some i) (hj : m.index? v = some j) (huv : u ≠ v) (f : α → α) (a b : Label) :
    (m.couple zero i j f).coupling? a b =
      if (a = u ∧ b = v) ∨ (a = v ∧ b = u) then some (f ((m.coupling? u v).getD zero))
      else m.coupling? a b := by
  have hij : i ≠ j := by
    rintro rfl
    exact huv (Option.some.inj ((label?_of_index? hi).symm.trans (label?_of_index? hj)))
  have hlabel : ∀ {w x : Label} {k l : Nat}, m.index? w = some k → m.index? x = some l →
      (w = x ↔ k = l) := by
    intro w x k l hk hl
    constructor
    · rintro rfl
      exact Option.some.inj (hk.symm.trans hl)
    · rintro rfl
      exact Option.some.inj ((label?_of_index? hk).symm.trans (label?_of_index? hl))
  have hidx : ∀ w, (m.couple zero i j f).index? w = m.index? w :=
    index?_congr (labels_couple m zero i j f)
  rw [coupling?_of_index? hi hj]
  unfold coupling?
  rw [hidx, hidx]
  cases hk : m.index? a with
  | none =>
    have hau : a ≠ u := by rintro rfl; rw [hi] at hk; cases hk
    have hav : a ≠ v := by rintro rfl; rw [hj] at hk; cases hk
    rw [if_neg (by tauto)]
    rfl
  | some k =>
    cases hl : m.index? b with
    | none =>
      have hbu : b ≠ u := by rintro rfl; rw [hi] at hl; cases hl
      have hbv : b ≠ v := by rintro rfl; rw [hj] at hl; cases hl
      rw [if_neg (by tauto)]
      rfl
    | some l =>
      rw [Option.bind_some, Option.bind_some, Option.bind_some, Option.bind_some,
        h.bias?_couple zero (lt_size_of_index? hi) (lt_size_of_index? hj) hij]
      simp only [hlabel hk hi, hlabel hl hj, hlabel hk hj, hlabel hl hi]

end WellFormed

theorem linear?_couple (m : Model α) (zero : α) (i j : Nat) (f : α → α) (w : Label) :
    (m.couple zero i j f).linear? w = m.linear? w := by
  have hn : ∀ k : Nat,
      ((m.couple zero i j f).nodes[k]?).map Node.linear = (m.nodes[k]?).map Node.linear := by
    intro k
    have hl : ∀ i j (n : Node α), (n.couple zero i j f).linear = n.linear := fun _ _ _ => rfl
    rw [← List.getElem?_map, ← List.getElem?_map]
    show (((m.nodes.modify i _).modify j _).map Node.linear)[k]? = _
    rw [map_modify_of_comp (hl j i), map_modify_of_comp (hl i j)]
  unfold linear?
  rw [index?_congr (labels_couple m zero i j f)]
  simp only [hn]

/-! ### Variables that are present -/

variable [Scalar α]

theorem labels_addVariable {m : Model α} {v : Label} (hv : v ∈ m.labels) (bias : α) :
    (m.addVariable v bias).labels = m.labels :=
  (labels_reviseLinear m v bias _).trans (if_pos hv)

theorem linear?_addVariable {m : Model α} {v : Label} (hv : v ∈ m.labels) (bias : α) (w : Label) :
    (m.addVariable v bias).linear? w =
      if w = v then (m.linear? v).map (· + bias) else m.linear? w := by
  refine (linear?_reviseLinear m v bias _ w).trans ?_
  cases hb : m.linear? v with
  | none => exact absurd hv (linear?_eq_none_iff.1 hb)
  | some b => rfl

/-! ### Two variables at once -/

/-- The model with both ends of an interaction present. -/
def addEnds (m : Model α) (u v : Label) : Model α :=
  (m.addVariable u (ofInt 0)).addVariable v (ofInt 0)

theorem mem_labels_addEnds (m : Model α) (u v w : Label) :
    w ∈ (m.addEnds u v).labels ↔ w = u ∨ w = v ∨ w ∈ m.labels := by
  show w ∈ ((m.addVariable u (ofInt 0)).reviseLinear v (ofInt 0) _).labels ↔ _
  rw [mem_labels_reviseLinear]
  show w = v ∨ w ∈ (m.reviseLinear u (ofInt 0) _).labels ↔ _
  rw [mem_labels_reviseLinear]
  tauto

theorem labels_addEnds {m : Model α} {u v : Label} (hu : u ∈ m.labels) (hv : v ∈ m.labels) :
    (m.addEnds u v).labels = m.labels := by
  have hu' : (m.addVariable u (ofInt 0)).labels = m.labels := labels_addVariable hu _
  have hv' : v ∈ (m.addVariable u (ofInt 0)).labels := hu'.symm ▸ hv
  exact (labels_addVariable hv' _).trans hu'

/-- Ends that are present get a zero added. -/
theorem linear?_addEnds {m : Model α} {u v : Label} (hu : u ∈ m.labels) (hv : v ∈ m.labels)
    (huv : u ≠ v) (w : Label) :
    (m.addEnds u v).linear? w =
      if w = u ∨ w = v then (m.linear? w).map (· + ofInt 0) else m.linear? w := by
  have hv' : v ∈ (m.addVariable u (ofInt 0)).labels := by rwa [labels_addVariable hu]
  show ((m.addVariable u (ofInt 0)).addVariable v (ofInt 0)).linear? w = _
  rw [linear?_addVariable hv', linear?_addVariable hu, linear?_addVariable hu]
  by_cases hwv : w = v
  · subst hwv
    rw [if_pos rfl, if_neg huv.symm, if_pos (Or.inr rfl)]
  · rw [if_neg hwv]
    by_cases hwu : w = u
    · subst hwu
      rw [if_pos rfl, if_pos (Or.inl rfl)]
    · rw [if_neg hwu, if_neg (by tauto)]

/-- A quadratic revision of two different variables succeeds; it adds both ends and changes their
interaction only. -/
theorem WellFormed.exists_reviseQuadratic {m : Model α} (h : m.WellFormed) {u v : Label}
    (huv : u ≠ v) (f : α → α) :
    ∃ m', m.reviseQuadratic u v f = .ok m' ∧ m'.vartype = m.vartype ∧ m'.offset = m.offset ∧
      m'.labels = (m.addEnds u v).labels ∧ (∀ w, m'.linear? w = (m.addEnds u v).linear? w) ∧
      ∀ a b, m'.coupling? a b =
        if (a = u ∧ b = v) ∨ (a = v ∧ b = u) then some (f ((m.coupling? u v).getD (ofInt 0)))
        else m.coupling? a b := by
  have hends : (m.addEnds u v).WellFormed := (h.addVariable u (ofInt 0)).addVariable v (ofInt 0)
  have hcoupling : ∀ a b, (m.addEnds u v).coupling? a b = m.coupling? a b := fun a b =>
    ((h.addVariable u (ofInt 0)).coupling?_reviseLinear v _ _ a b).trans
      (h.coupling?_reviseLinear u _ _ a b)
  obtain ⟨i, hi⟩ := exists_index?_of_mem ((mem_labels_addEnds m u v u).2 (Or.inl rfl))
  obtain ⟨j, hj⟩ := exists_index?_of_mem ((mem_labels_addEnds m u v v).2 (Or.inr (Or.inl rfl)))
  refine ⟨(m.addEnds u v).couple (ofInt 0) i j f, ?_, ?_, ?_, labels_couple _ _ _ _ _,
    linear?_couple _ _ _ _ _, fun a b => ?_⟩
  · unfold addEnds at hi hj ⊢
    rw [reviseQuadratic_eq, if_neg huv]
    dsimp only
    rw [hi, hj]
  · exact (vartype_reviseLinear _ _ _ _).trans (vartype_reviseLinear _ _ _ _)
  · exact (offset_reviseLinear _ _ _ _).trans (offset_reviseLinear _ _ _ _)
  · rw [hends.coupling?_couple (ofInt 0) hi hj huv, hcoupling, hcoupling]

end Model

end QuboSplit
