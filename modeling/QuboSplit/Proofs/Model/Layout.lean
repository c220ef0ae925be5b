import QuboSplit.Model.Edit
import QuboSplit.Proofs.Model.Row

/-!
# The layout of a model

A model is well formed if no label names two variables, the row of each variable increases, stays in
range, avoids the variable itself and is counted rightly, and every coupling is stored at both of
its ends with one bias. Every edit keeps a model well formed (`WellFormed.attempt`), so every model
that edits build is (`ofEdits_wellFormed`).
-/

namespace QuboSplit

open Scalar (ofInt)

variable {α : Type}

/-- The row of the variable of index `i` in a model of `size` variables. -/
structure Node.Sound (size i : Nat) (n : Node α) : Prop where
  increasing : Row.Increasing n.row
  in_range : ∀ c ∈ n.row, c.1 < size
  loopless : ∀ c ∈ n.row, c.1 ≠ i
  smaller_eq : n.smaller = n.row.countP (·.1 < i)

namespace Node.Sound

variable {size i : Nat} {n : Node α}

theorem isolated (size i : Nat) (v : Label) (bias : α) : (Node.isolated v bias).Sound size i where
  increasing := Row.increasing_nil
  in_range := by simp [Node.isolated]
  loopless := by simp [Node.isolated]
  smaller_eq := rfl

theorem mono (h : n.Sound size i) {size' : Nat} (hs : size ≤ size') : n.Sound size' i :=
  { h with in_range := fun c hc => Nat.lt_of_lt_of_le (h.in_range c hc) hs }

/-- Label and linear bias are free. -/
theorem congr (h : n.Sound size i) {n' : Node α} (hs : n'.smaller = n.smaller)
    (hr : n'.row = n.row) : n'.Sound size i := by
  obtain ⟨h₁, h₂, h₃, h₄⟩ := h
  rw [← hr] at h₁ h₂ h₃ h₄
  exact ⟨h₁, h₂, h₃, hs.trans h₄⟩

theorem couple (h : n.Sound size i) (zero : α) {j : Nat} (hj : j < size) (hij : j ≠ i)
    (f : α → α) : (n.couple zero i j f).Sound size i where
  increasing := Row.increasing_revise h.increasing zero j f
  in_range c hc := by
    rcases (Row.mem_keys_revise zero j f n.row c.1).1 (List.mem_map_of_mem hc) with e | hm
    · exact e ▸ hj
    · obtain ⟨d, hd, e⟩ := List.mem_map.1 hm
      exact e ▸ h.in_range d hd
  loopless c hc := by
    rcases (Row.mem_keys_revise zero j f n.row c.1).1 (List.mem_map_of_mem hc) with e | hm
    · exact e ▸ hij
    · obtain ⟨d, hd, e⟩ := List.mem_map.1 hm
      exact e ▸ h.loopless d hd
  smaller_eq := by
    show (if j < i ∧ (Row.bias? n.row j).isNone then n.smaller + 1 else n.smaller) = _
    rw [show (n.couple zero i j f).row = n.row.revise zero j f from rfl,
      Row.countP_lt_revise h.increasing, h.smaller_eq]
    split <;> rfl

/-- The couplings to smaller indices are a first part of the row. -/
theorem take_smaller (h : n.Sound size i) : n.row.take n.smaller = n.row.filter (·.1 < i) := by
  rw [h.smaller_eq, Row.take_countP_lt h.increasing]

end Node.Sound

namespace Model

/-! ### Looking up nodes -/

theorem row_of_node {m : Model α} {i : Nat} {n : Node α} (h : m.nodes[i]? = some n) :
    m.row i = n.row := by
  unfold row; rw [h]; rfl

theorem row_of_size_le {m : Model α} {i : Nat} (h : m.size ≤ i) : m.row i = [] := by
  unfold row; rw [List.getElem?_eq_none h]; rfl

theorem label?_of_node {m : Model α} {i : Nat} {n : Node α} (h : m.nodes[i]? = some n) :
    m.label? i = some n.label := by
  unfold label?; rw [h]; rfl

theorem exists_node {m : Model α} {i : Nat} (h : i < m.size) : ∃ n, m.nodes[i]? = some n :=
  ⟨_, List.getElem?_eq_getElem h⟩

theorem label?_eq_getElem? (m : Model α) (i : Nat) : m.label? i = m.labels[i]? := by
  unfold label? labels; rw [List.getElem?_map]

theorem length_labels (m : Model α) : m.labels.length = m.size := List.length_map _

theorem index?_eq_none_iff {m : Model α} {v : Label} : m.index? v = none ↔ v ∉ m.labels := by
  unfold index? labels
  rw [List.findIdx?_eq_none_iff, List.mem_map]
  simp

theorem label?_of_index? {m : Model α} {v : Label} {i : Nat} (h : m.index? v = some i) :
    m.label? i = some v := by
  unfold index? at h
  obtain ⟨hi, hv, -⟩ := List.findIdx?_eq_some_iff_getElem.1 h
  rw [label?_of_node (List.getElem?_eq_getElem hi), of_decide_eq_true hv]

theorem lt_size_of_label? {m : Model α} {v : Label} {i : Nat} (h : m.label? i = some v) :
    i < m.size := by
  rw [label?_eq_getElem?] at h
  rw [← length_labels]
  exact (List.getElem?_eq_some_iff.1 h).1

theorem lt_size_of_index? {m : Model α} {v : Label} {i : Nat} (h : m.index? v = some i) :
    i < m.size := lt_size_of_label? (label?_of_index? h)

/-- Without repeated labels `index?` is the inverse of `label?`. -/
theorem index?_eq_some_iff {m : Model α} (h : m.labels.Nodup) {v : Label} {i : Nat} :
    m.index? v = some i ↔ m.label? i = some v := by
  refine ⟨label?_of_index?, fun hi => ?_⟩
  cases hj : m.index? v with
  | none =>
    rw [label?_eq_getElem?] at hi
    exact absurd (List.mem_of_getElem? hi) (index?_eq_none_iff.1 hj)
  | some j =>
    have hv := label?_of_index? hj
    have hlt := lt_size_of_label? hi
    rw [label?_eq_getElem?] at hi hv
    rw [← length_labels] at hlt
    rw [(List.getElem?_inj hlt h).1 (hi.trans hv.symm)]

/-! ### Changing nodes -/

theorem exists_of_getElem?_modify {nodes : List (Node α)} {f : Node α → Node α} {i k : Nat}
    {n' : Node α} (h : (nodes.modify i f)[k]? = some n') :
    ∃ n, nodes[k]? = some n ∧ n' = if i = k then f n else n := by
  rw [List.getElem?_modify, Option.map_eq_map, Option.map_eq_some_iff] at h
  obtain ⟨n, hn, e⟩ := h
  exact ⟨n, hn, e.symm⟩

theorem map_modify_of_comp {β : Type} {g : Node α → β} {f : Node α → Node α}
    (h : ∀ n, g (f n) = g n) (i : Nat) (nodes : List (Node α)) :
    (nodes.modify i f).map g = nodes.map g := by
  refine List.ext_getElem? fun k => ?_
  rw [List.getElem?_map, List.getElem?_map, List.getElem?_modify]
  cases nodes[k]? with
  | none => rfl
  | some n =>
    show some (g (if i = k then f n else n)) = some (g n)
    split
    · rw [h]
    · rfl

theorem row_append (m : Model α) (v : Label) (bias : α) (i : Nat) :
    row { m with nodes := m.nodes ++ [.isolated v bias] } i = m.row i := by
  unfold row
  rcases lt_trichotomy i m.nodes.length with hi | rfl | hi
  · rw [List.getElem?_append_left hi]
  · rw [List.getElem?_concat_length, List.getElem?_eq_none (Nat.le_refl _)]; rfl
  · rw [List.getElem?_eq_none (by simpa using hi), List.getElem?_eq_none (by omega)]

theorem row_reviseLinear (m : Model α) (v : Label) (fresh : α) (f : α → α) (i : Nat) :
    (m.reviseLinear v fresh f).row i = m.row i := by
  unfold reviseLinear
  split
  · show ((m.nodes.modify _ _)[i]?.map Node.row).getD [] = (m.nodes[i]?.map Node.row).getD []
    rw [List.getElem?_modify]
    cases m.nodes[i]? with
    | none => rfl
    | some n =>
      rw [Option.map_eq_map, Option.map_some]
      split <;> rfl
  · exact row_append m v fresh i

theorem couple_label (zero : α) (i j : Nat) (f : α → α) (n : Node α) :
    (n.couple zero i j f).label = n.label := rfl

/-- Revises the coupling of two indices at both ends. -/
def couple (zero : α) (i j : Nat) (f : α → α) (m : Model α) : Model α :=
  { m with nodes := (m.nodes.modify i (.couple zero i j f)).modify j (.couple zero j i f) }

theorem reviseQuadratic_eq [Scalar α] (m : Model α) (u v : Label) (f : α → α) :
    m.reviseQuadratic u v f =
      if u = v then .error .selfLoop
      else
        let m := (m.addVariable u (ofInt 0)).addVariable v (ofInt 0)
        match m.index? u, m.index? v with
        | some i, some j => .ok (m.couple (ofInt 0) i j f)
        | _, _ => .ok m := rfl

@[simp] theorem labels_couple (m : Model α) (zero : α) (i j : Nat) (f : α → α) :
    (m.couple zero i j f).labels = m.labels := by
  show ((m.nodes.modify i _).modify j _).map Node.label = _
  rw [map_modify_of_comp (couple_label zero j i f), map_modify_of_comp (couple_label zero i j f)]
  rfl

@[simp] theorem size_couple (m : Model α) (zero : α) (i j : Nat) (f : α → α) :
    (m.couple zero i j f).size = m.size := by
  rw [← length_labels, ← length_labels, labels_couple]

theorem exists_of_couple {m : Model α} {zero : α} {i j : Nat} {f : α → α} (hij : i ≠ j) {k : Nat}
    {n' : Node α} (h : (m.couple zero i j f).nodes[k]? = some n') :
    ∃ n, m.nodes[k]? = some n ∧
      ((k = i ∧ n' = n.couple zero i j f) ∨ (k = j ∧ n' = n.couple zero j i f) ∨
        (k ≠ i ∧ k ≠ j ∧ n' = n)) := by
  obtain ⟨n₁, hn₁, e₁⟩ := exists_of_getElem?_modify h
  obtain ⟨n, hn, e⟩ := exists_of_getElem?_modify hn₁
  refine ⟨n, hn, ?_⟩
  by_cases hi : k = i
  · subst hi
    rw [if_neg hij.symm, if_pos rfl] at *
    exact Or.inl ⟨rfl, e₁.trans e⟩
  · rw [if_neg (Ne.symm hi)] at e
    subst e
    by_cases hj : k = j
    · rw [if_pos hj.symm] at e₁
      exact Or.inr (Or.inl ⟨hj, e₁⟩)
    · rw [if_neg (Ne.symm hj)] at e₁
      exact Or.inr (Or.inr ⟨hi, hj, e₁⟩)

theorem row_couple {m : Model α} (zero : α) {i j : Nat} (hi : i < m.size) (hj : j < m.size)
    (hij : i ≠ j) (f : α → α) (k : Nat) :
    (m.couple zero i j f).row k =
      if k = i then (m.row i).revise zero j f
      else if k = j then (m.row j).revise zero i f
      else m.row k := by
  by_cases hk : k < m.size
  · obtain ⟨n', hn'⟩ := exists_node (m := m.couple zero i j f) (by rwa [size_couple])
    obtain ⟨n, hn, e⟩ := exists_of_couple hij hn'
    rw [row_of_node hn']
    rcases e with ⟨rfl, rfl⟩ | ⟨rfl, rfl⟩ | ⟨hki, hkj, rfl⟩
    · rw [if_pos rfl, row_of_node hn]; rfl
    · rw [if_neg hij.symm, if_pos rfl, row_of_node hn]; rfl
    · rw [if_neg hki, if_neg hkj, row_of_node hn]
  · rw [if_neg (by omega), if_neg (by omega), row_of_size_le (by rw [size_couple]; omega),
      row_of_size_le (by omega)]

/-! ### Well-formed models -/

/-- Labels are not repeated, rows are sound, and both ends of a coupling have one bias. -/
structure WellFormed (m : Model α) : Prop where
  labels_nodup : m.labels.Nodup
  sound : ∀ (i : Nat) (n : Node α), m.nodes[i]? = some n → n.Sound m.size i
  symmetric : ∀ i j, Row.bias? (m.row i) j = Row.bias? (m.row j) i

namespace WellFormed

variable {m : Model α}

theorem index?_iff (h : m.WellFormed) {v : Label} {i : Nat} :
    m.index? v = some i ↔ m.label? i = some v := index?_eq_some_iff h.labels_nodup

theorem increasing (h : m.WellFormed) (i : Nat) : Row.Increasing (m.row i) := by
  by_cases hi : i < m.size
  · obtain ⟨n, hn⟩ := exists_node hi
    exact row_of_node hn ▸ (h.sound i n hn).increasing
  · exact row_of_size_le (Nat.le_of_not_lt hi) ▸ Row.increasing_nil

theorem mem_row_iff (h : m.WellFormed) {i j : Nat} {b : α} :
    (j, b) ∈ m.row i ↔ Row.bias? (m.row i) j = some b := Row.mem_iff_bias?_eq_some (h.increasing i)

theorem lt_of_mem_row (h : m.WellFormed) {i : Nat} {c : Nat × α} (hc : c ∈ m.row i) :
    c.1 < m.size ∧ i < m.size ∧ c.1 ≠ i := by
  have hi : i < m.size := by
    by_contra hle
    rw [row_of_size_le (Nat.le_of_not_lt hle)] at hc
    simp at hc
  obtain ⟨n, hn⟩ := exists_node hi
  rw [row_of_node hn] at hc
  exact ⟨(h.sound i n hn).in_range c hc, hi, (h.sound i n hn).loopless c hc⟩

theorem bias?_self (h : m.WellFormed) (i : Nat) : Row.bias? (m.row i) i = none := by
  refine Row.bias?_eq_none_iff.2 fun hm => ?_
  obtain ⟨c, hc, e⟩ := List.mem_map.1 hm
  exact (h.lt_of_mem_row hc).2.2 e

theorem empty [Scalar α] (vartype : Vartype) : (Model.empty vartype : Model α).WellFormed where
  labels_nodup := List.nodup_nil
  sound i n hn := by simp [Model.empty] at hn
  symmetric i j := by rw [row_of_size_le (Nat.zero_le i), row_of_size_le (Nat.zero_le j)]; rfl

/-- Well-formedness reads labels, counts and rows only. -/
theorem congr (h : m.WellFormed) {m' : Model α} (hl : m'.labels = m.labels)
    (hn : ∀ (i : Nat) (n' : Node α), m'.nodes[i]? = some n' →
      ∃ n : Node α, m.nodes[i]? = some n ∧ n'.smaller = n.smaller ∧ n'.row = n.row) :
    m'.WellFormed := by
  have hs : m'.size = m.size := by rw [← length_labels, ← length_labels, hl]
  have hr : ∀ i, m'.row i = m.row i := by
    intro i
    by_cases hi : i < m'.size
    · obtain ⟨n', hn'⟩ := exists_node hi
      obtain ⟨n, hin, -, e⟩ := hn i n' hn'
      rw [row_of_node hn', row_of_node hin, e]
    · rw [row_of_size_le (Nat.le_of_not_lt hi), row_of_size_le (by omega)]
  refine ⟨hl ▸ h.labels_nodup, fun i n' hn' => ?_, fun i j => by rw [hr, hr, h.symmetric]⟩
  obtain ⟨n, hin, e, e'⟩ := hn i n' hn'
  exact hs ▸ (h.sound i n hin).congr e e'

/-! ### Edits -/

theorem append (h : m.WellFormed) {v : Label} (hv : v ∉ m.labels) (bias : α) :
    ({ m with nodes := m.nodes ++ [.isolated v bias] } : Model α).WellFormed := by
  refine ⟨?_, fun i n hn => ?_, fun i j => by rw [row_append, row_append, h.symmetric]⟩
  · show (List.map Node.label (m.nodes ++ [.isolated v bias])).Nodup
    rw [List.map_append, List.nodup_append]
    refine ⟨h.labels_nodup, by simp, fun u hu w hw e => ?_⟩
    rw [List.map_singleton, List.mem_singleton] at hw
    have e : u = v := e.trans hw
    exact hv (e ▸ hu)
  · by_cases hi : i < m.nodes.length
    · rw [List.getElem?_append_left hi] at hn
      exact (h.sound i n hn).mono (by simp [size])
    · rw [List.getElem?_append_right (Nat.le_of_not_lt hi)] at hn
      obtain rfl : n = .isolated v bias := by simpa using List.mem_of_getElem? hn
      exact Node.Sound.isolated _ _ v bias

theorem reviseLinear (h : m.WellFormed) (v : Label) (fresh : α) (f : α → α) :
    (m.reviseLinear v fresh f).WellFormed := by
  unfold Model.reviseLinear
  cases hv : m.index? v with
  | none => exact h.append (index?_eq_none_iff.1 hv) fresh
  | some j =>
    have hl : ∀ n : Node α, ({ n with linear := f n.linear } : Node α).label = n.label :=
      fun _ => rfl
    refine h.congr (map_modify_of_comp hl j m.nodes) fun i n' hn' => ?_
    obtain ⟨n, hn, e⟩ := exists_of_getElem?_modify hn'
    refine ⟨n, hn, ?_⟩
    rw [e]
    split <;> exact ⟨rfl, rfl⟩

/-- Only the coupling of the two indices changes. -/
theorem bias?_couple (h : m.WellFormed) (zero : α) {i j : Nat} (hi : i < m.size) (hj : j < m.size)
    (hij : i ≠ j) (f : α → α) (k l : Nat) :
    Row.bias? ((m.couple zero i j f).row k) l =
      if (k = i ∧ l = j) ∨ (k = j ∧ l = i) then
        some (f ((Row.bias? (m.row i) j).getD zero))
      else Row.bias? (m.row k) l := by
  rw [row_couple zero hi hj hij]
  by_cases hki : k = i
  · subst hki
    rw [if_pos rfl, Row.bias?_revise (h.increasing k)]
    simp [hij]
  · rw [if_neg hki]
    by_cases hkj : k = j
    · subst hkj
      rw [if_pos rfl, Row.bias?_revise (h.increasing k), h.symmetric i k]
      simp [hki]
    · rw [if_neg hkj]
      simp [hki, hkj]

/-- Coupling two variables of the model at both ends keeps it well formed. -/
theorem couple (h : m.WellFormed) (zero : α) {i j : Nat} (hi : i < m.size) (hj : j < m.size)
    (hij : i ≠ j) (f : α → α) : (m.couple zero i j f).WellFormed := by
  refine ⟨?_, fun k n' hn' => ?_, fun k l => ?_⟩
  · rw [labels_couple]
    exact h.labels_nodup
  · obtain ⟨n, hn, e⟩ := exists_of_couple hij hn'
    rw [size_couple]
    have hs := h.sound k n hn
    rcases e with ⟨rfl, rfl⟩ | ⟨rfl, rfl⟩ | ⟨-, -, rfl⟩
    · exact hs.couple zero hj hij.symm f
    · exact hs.couple zero hi hij f
    · exact hs
  · rw [h.bias?_couple zero hi hj hij f k l, h.bias?_couple zero hi hj hij f l k, h.symmetric k l]
    congr 1
    simp only [eq_iff_iff]
    tauto

variable [Scalar α]

theorem addVariable (h : m.WellFormed) (v : Label) (bias : α) : (m.addVariable v bias).WellFormed :=
  h.reviseLinear v bias (· + bias)

theorem reviseQuadratic (h : m.WellFormed) {u v : Label} {f : α → α} {m' : Model α}
    (hm : m.reviseQuadratic u v f = .ok m') : m'.WellFormed := by
  have h₂ := (h.addVariable u (ofInt 0)).addVariable v (ofInt 0)
  rw [reviseQuadratic_eq] at hm
  split at hm
  · cases hm
  · next huv =>
    dsimp only at hm
    split at hm
    · next i j hi hj =>
      cases hm
      refine h₂.couple (ofInt 0) (lt_size_of_index? hi) (lt_size_of_index? hj) ?_ f
      rintro rfl
      exact huv (Option.some.inj ((label?_of_index? hi).symm.trans (label?_of_index? hj)))
    · cases hm
      exact h₂

theorem apply (h : m.WellFormed) {edit : Edit α} {m' : Model α} (hm : m.apply edit = .ok m') :
    m'.WellFormed := by
  cases edit with
  | setOffset bias => cases hm; exact ⟨h.labels_nodup, h.sound, h.symmetric⟩
  | addVariable v bias => cases hm; exact h.addVariable v bias
  | setLinear v bias => cases hm; exact h.reviseLinear v bias fun _ => bias
  | addLinear v bias => cases hm; exact h.addVariable v bias
  | setQuadratic u v bias => exact h.reviseQuadratic hm
  | addQuadratic u v bias => exact h.reviseQuadratic hm

/-- An edit keeps a model well formed, also if it is refused. -/
theorem attempt (h : m.WellFormed) (edit : Edit α) : (m.attempt edit).WellFormed := by
  unfold Model.attempt
  split
  · next hm => exact h.apply hm
  · exact h

theorem foldl_attempt (h : m.WellFormed) (edits : List (Edit α)) :
    (edits.foldl Model.attempt m).WellFormed := by
  induction edits generalizing m with
  | nil => exact h
  | cons edit edits ih => exact ih (h.attempt edit)

end WellFormed

variable [Scalar α]

theorem ofEdits_wellFormed (vartype : Vartype) (edits : List (Edit α)) :
    (ofEdits vartype edits).WellFormed := (WellFormed.empty vartype).foldl_attempt edits

/-- The model is one that edits build. -/
def Reachable (m : Model α) : Prop := ∃ vartype edits, m = ofEdits vartype edits

theorem Reachable.wellFormed {m : Model α} (h : m.Reachable) : m.WellFormed := by
  obtain ⟨vartype, edits, rfl⟩ := h
  exact ofEdits_wellFormed vartype edits

end Model

end QuboSplit
