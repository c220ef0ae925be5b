import Mathlib.Data.List.GetD
import QuboSplit.Proofs.Model.Entries

/-!
# Models and their containers

A model determines the containers that hold it (`Model.store`). Building in the containers follows
building the model edit by edit (`store_apply`): halving finds the position at which a row is
revised (`lowerBound_eq`), and the insertions made there keep the containers in step
(`couple_neighborhood`). So the containers that any edits leave are those of the model that the
edits build (`ofEdits_eq_store`), are laid out as they should be (`ofEdits_representation`), and
read as the model does (`ofEdits_reads`).
-/

namespace QuboSplit

open Scalar (ofInt)

variable {α : Type}

/-! ### Halving -/

/-- In increasing order the entries below `x` come first. -/
theorem getElem_lt_iff {xs : List Nat} (h : xs.Pairwise (· < ·)) (x : Nat) {k : Nat}
    (hk : k < xs.length) : xs[k] < x ↔ k < xs.countP (· < x) := by
  induction xs generalizing k with
  | nil => exact absurd hk (Nat.not_lt_zero k)
  | cons y xs ih =>
    obtain ⟨hy, hxs⟩ := List.pairwise_cons.1 h
    by_cases hlt : y < x
    · rw [List.countP_cons_of_pos (by simpa using hlt)]
      cases k with
      | zero => simpa using hlt
      | succ k => simpa using ih hxs (Nat.lt_of_succ_lt_succ hk)
    · have hnone : xs.countP (· < x) = 0 := List.countP_eq_zero.2 fun z hz => by
        have := hy z hz
        simpa using (by omega : x ≤ z)
      rw [List.countP_cons_of_neg (by simpa using hlt), hnone]
      refine iff_of_false (fun hkx => hlt ?_) (Nat.not_lt_zero k)
      cases k with
      | zero => exact hkx
      | succ k => exact (hy _ (List.getElem_mem _)).trans hkx

/-- Halving narrows down the number of entries below `x`. -/
theorem lowerBound_eq {xs : List Nat} (h : xs.Pairwise (· < ·)) (x first count : Nat)
    (hfirst : first ≤ xs.countP (· < x)) (hlast : xs.countP (· < x) ≤ first + count)
    (hlen : first + count ≤ xs.length) : lowerBound xs x first count = xs.countP (· < x) := by
  induction first, count using lowerBound.induct xs x with
  | case1 first =>
    rw [lowerBound, if_pos rfl]
    omega
  | case2 first count hcount hlt ih =>
    have hmid : first + count / 2 < xs.length := by omega
    rw [List.getD_eq_getElem _ _ hmid, getElem_lt_iff h x hmid] at hlt
    rw [lowerBound, if_neg hcount, List.getD_eq_getElem _ _ hmid,
      if_pos ((getElem_lt_iff h x hmid).2 hlt)]
    exact ih (by omega) (by omega) (by omega)
  | case3 first count hcount hlt ih =>
    have hmid : first + count / 2 < xs.length := by omega
    rw [List.getD_eq_getElem _ _ hmid, getElem_lt_iff h x hmid] at hlt
    rw [lowerBound, if_neg hcount, List.getD_eq_getElem _ _ hmid,
      if_neg (mt (getElem_lt_iff h x hmid).1 hlt)]
    exact ih hfirst (by omega) (by omega)

/-! ### Rows as pairs of lists -/

namespace Row

/-- A row parts at an index into the couplings before it and those after it, with the coupling of
that index, if there is one, between them. -/
theorem exists_split {row : Row α} (h : Increasing row) (j : Nat) :
    ∃ before after : Row α, (∀ c ∈ before, c.1 < j) ∧ (∀ c ∈ after, j < c.1) ∧
      ((∃ b, row = before ++ (j, b) :: after ∧
          ∀ zero f, row.revise zero j f = before ++ (j, f b) :: after) ∨
        (row = before ++ after ∧
          ∀ zero f, row.revise zero j f = before ++ (j, f zero) :: after)) := by
  induction row with
  | nil => exact ⟨[], [], by simp, by simp, .inr ⟨rfl, fun _ _ => rfl⟩⟩
  | cons c row ih =>
    obtain ⟨k, b⟩ := c
    obtain ⟨hk, hrow⟩ := increasing_cons.1 h
    have hafter : ∀ c ∈ row, k < c.1 := fun c hc => hk c.1 (List.mem_map_of_mem hc)
    rcases lt_trichotomy k j with hlt | rfl | hgt
    · obtain ⟨before, after, hb, ha, hsplit⟩ := ih hrow
      have hrevise : ∀ zero f, revise zero j f ((k, b) :: row) = (k, b) :: revise zero j f row :=
        fun _ _ => if_pos hlt
      refine ⟨(k, b) :: before, after, List.forall_mem_cons.2 ⟨hlt, hb⟩, ha, ?_⟩
      rcases hsplit with ⟨b', e, hr⟩ | ⟨e, hr⟩
      · exact .inl ⟨b', congrArg _ e, fun zero f => (hrevise zero f).trans (congrArg _ (hr zero f))⟩
      · exact .inr ⟨congrArg _ e, fun zero f => (hrevise zero f).trans (congrArg _ (hr zero f))⟩
    · refine ⟨[], row, by simp, hafter, .inl ⟨b, rfl, fun zero f => ?_⟩⟩
      unfold revise
      rw [if_neg (Nat.lt_irrefl k), if_pos rfl]
      rfl
    · refine ⟨[], (k, b) :: row, by simp, List.forall_mem_cons.2 ⟨hgt, fun c hc => ?_⟩,
        .inr ⟨rfl, fun zero f => ?_⟩⟩
      · exact hgt.trans (hafter c hc)
      · unfold revise
        rw [if_neg (Nat.not_lt_of_gt hgt), if_neg (Nat.ne_of_gt hgt)]
        rfl

/-- The row as two lists, with the number of its couplings to smaller indices. -/
def neighborhood (smaller : Nat) (row : Row α) : Neighborhood α :=
  ⟨smaller, row.map Prod.fst, row.map Prod.snd⟩

section Split

variable {before after : Row α} {j : Nat}

/-- Halving finds where a row parts. -/
theorem position_append (h : Increasing (before ++ after)) (hb : ∀ c ∈ before, c.1 < j)
    (ha : ∀ c ∈ after, j ≤ c.1) (smaller : Nat) :
    ((before ++ after).neighborhood smaller).position j = before.length := by
  have hcount : (before ++ after).countP (·.1 < j) = before.length := by
    rw [List.countP_append, List.countP_eq_length.2 (by simpa using hb),
      List.countP_eq_zero.2 (by simpa using ha), Nat.add_zero]
  have hkeys : ((before ++ after).map Prod.fst).countP (· < j) = before.length := by
    rw [List.countP_map]
    exact hcount
  rw [← hkeys]
  refine lowerBound_eq h j 0 _ (Nat.zero_le _) ?_ (Nat.zero_add _).le
  rw [Nat.zero_add]
  exact List.countP_le_length

theorem bias?_gap (hb : ∀ c ∈ before, c.1 < j) (ha : ∀ c ∈ after, j < c.1) :
    bias? (before ++ after) j = none := by
  refine bias?_eq_none_iff.2 fun hm => ?_
  obtain ⟨c, hc, rfl⟩ := List.mem_map.1 hm
  rcases List.mem_append.1 hc with hc | hc
  · exact Nat.lt_irrefl _ (hb c hc)
  · exact Nat.lt_irrefl _ (ha c hc)

theorem neighbors_gap (ha : ∀ c ∈ after, j < c.1) (smaller : Nat) :
    ((before ++ after).neighborhood smaller).neighbors[before.length]? ≠ some j := by
  cases after with
  | nil => simp [neighborhood]
  | cons c after => simpa [neighborhood] using (ha c List.mem_cons_self).ne'

theorem neighbors_middle (b : α) (smaller : Nat) :
    ((before ++ (j, b) :: after).neighborhood smaller).neighbors[before.length]? = some j := by
  simp [neighborhood]

theorem le_of_mem_middle (ha : ∀ c ∈ after, j < c.1) (b : α) : ∀ c ∈ (j, b) :: after, j ≤ c.1 :=
  List.forall_mem_cons.2 ⟨Nat.le_refl j, fun c hc => (ha c hc).le⟩

end Split

variable {row : Row α}

/-- The two lists hold the biases of the row. -/
theorem bias?_neighborhood (h : Increasing row) (smaller j : Nat) :
    (row.neighborhood smaller).bias? j = bias? row j := by
  unfold Neighborhood.bias?
  obtain ⟨before, after, hb, ha, ⟨b, rfl, -⟩ | ⟨rfl, -⟩⟩ := exists_split h j
  · have hb' : bias? (before ++ (j, b) :: after) j = some b :=
      (mem_iff_bias?_eq_some h).1 (List.mem_append_right _ List.mem_cons_self)
    rw [hb', position_append h hb (le_of_mem_middle ha b), if_pos (neighbors_middle b smaller)]
    simp [neighborhood]
  · rw [bias?_gap hb ha, position_append h hb fun c hc => (ha c hc).le,
      if_neg (neighbors_gap ha smaller)]

/-- Revising the two lists at the position found is revising the row. -/
theorem couple_neighborhood (h : Increasing row) (smaller : Nat) (zero : α) (i j : Nat)
    (f : α → α) :
    (row.neighborhood smaller).couple zero i j f =
      (row.revise zero j f).neighborhood
        (if j < i ∧ (bias? row j).isNone then smaller + 1 else smaller) := by
  unfold Neighborhood.couple
  obtain ⟨before, after, hb, ha, ⟨b, rfl, hr⟩ | ⟨rfl, hr⟩⟩ := exists_split h j
  · have hb' : bias? (before ++ (j, b) :: after) j = some b :=
      (mem_iff_bias?_eq_some h).1 (List.mem_append_right _ List.mem_cons_self)
    have hmodify := modify_append_length f (before.map Prod.snd) b (after.map Prod.snd)
    rw [List.length_map] at hmodify
    rw [hr, hb', position_append h hb (le_of_mem_middle ha b)]
    dsimp only
    rw [if_pos (neighbors_middle b smaller), if_neg (by simp)]
    simp [neighborhood, hmodify]
  · have hneighbors := insertIdx_append_length (before.map Prod.fst) j (after.map Prod.fst)
    have hinsert := insertIdx_append_length (before.map Prod.snd) zero (after.map Prod.snd)
    have hmodify := modify_append_length f (before.map Prod.snd) zero (after.map Prod.snd)
    rw [List.length_map] at hneighbors hinsert hmodify
    rw [hr, bias?_gap hb ha, position_append h hb fun c hc => (ha c hc).le]
    dsimp only
    rw [if_neg (neighbors_gap ha smaller)]
    simp [neighborhood, hneighbors, hinsert, hmodify]

theorem zip_neighborhood (smaller : Nat) (row : Row α) :
    (row.neighborhood smaller).neighbors.zip (row.neighborhood smaller).biases = row :=
  List.zip_map'.trans (List.map_id' row)

end Row

/-! ### The containers of a model -/

/-- The couplings of a variable as two lists. -/
def Node.neighborhood (n : Node α) : Neighborhood α := n.row.neighborhood n.smaller

theorem Node.neighborhood_couple {n : Node α} (h : Row.Increasing n.row) (zero : α) (i j : Nat)
    (f : α → α) : (n.couple zero i j f).neighborhood = n.neighborhood.couple zero i j f :=
  (Row.couple_neighborhood h n.smaller zero i j f).symm

theorem lookup_zipIdx (labels : List Label) (v : Label) (k : Nat) :
    (labels.zipIdx k).lookup v = (labels.findIdx? (· = v)).map (· + k) := by
  induction labels generalizing k with
  | nil => rfl
  | cons w labels ih =>
    rw [List.zipIdx_cons, List.lookup_cons, List.findIdx?_cons, ih]
    by_cases h : v = w
    · simp [h]
    · rw [beq_false_of_ne h, if_neg (by simpa using Ne.symm h), Option.map_map]
      refine congrArg (Option.map · _) (funext fun i => ?_)
      show i + (k + 1) = i + 1 + k
      omega

namespace Model

/-- The containers that hold the model. -/
def store (m : Model α) : Store α where
  vartype := m.vartype
  offset := m.offset
  labels := m.labels
  indices := m.labels.zipIdx
  linear := m.nodes.map Node.linear
  adjacency := m.nodes.map Node.neighborhood

theorem lookup_indices (m : Model α) (v : Label) : m.store.indices.lookup v = m.index? v := by
  refine (lookup_zipIdx m.labels v 0).trans ?_
  rw [index?_eq_findIdx?]
  exact Option.map_id'

theorem model_store (m : Model α) : m.store.model = m := by
  obtain ⟨vartype, offset, nodes⟩ := m
  have hnodes : (nodes.map Node.label).zip ((nodes.map Node.linear).zip
      (nodes.map Node.neighborhood)) =
      nodes.map fun n => (n.label, n.linear, n.neighborhood) := by
    rw [← List.zip_map', ← List.zip_map']
  show (⟨vartype, offset, List.map _ (List.zip _ _)⟩ : Model α) = _
  unfold store labels
  dsimp only
  rw [hnodes, List.map_map]
  congr 1
  refine (List.map_congr_left fun n _ => ?_).trans (List.map_id nodes)
  obtain ⟨v, bias, smaller, row⟩ := n
  exact congrArg (Node.mk v bias smaller) (row.zip_neighborhood smaller)

/-! ### Linear biases -/

section Linear

variable {m : Model α} {v : Label}

theorem store_reviseLinear_of_some {i : Nat} (hi : m.index? v = some i) (fresh : α) (f : α → α) :
    (m.reviseLinear v fresh f).store = { m.store with linear := m.store.linear.modify i f } := by
  have hlabels : (m.reviseLinear v fresh f).labels = m.labels :=
    (labels_reviseLinear m v fresh f).trans (if_pos (mem_labels_of_index? hi))
  have hnodes : (m.reviseLinear v fresh f).nodes =
      m.nodes.modify i fun n => { n with linear := f n.linear } := by
    unfold reviseLinear
    rw [hi]
  refine Store.ext (vartype_reviseLinear m v fresh f) (offset_reviseLinear m v fresh f) hlabels
    (congrArg List.zipIdx hlabels) ?_ ?_
  · exact (congrArg _ hnodes).trans (map_modify fun _ _ => rfl)
  · have hrow : ∀ n : Node α, ({ n with linear := f n.linear } : Node α).neighborhood =
        n.neighborhood := fun _ => rfl
    exact (congrArg _ hnodes).trans (map_modify_of_comp hrow i m.nodes)

theorem store_reviseLinear_of_none (hv : m.index? v = none) (fresh : α) (f : α → α) :
    (m.reviseLinear v fresh f).store =
      { m.store with
        labels := m.store.labels ++ [v]
        indices := m.store.indices ++ [(v, m.store.labels.length)]
        linear := m.store.linear ++ [fresh]
        adjacency := m.store.adjacency ++ [.empty] } := by
  have hlabels : (m.reviseLinear v fresh f).labels = m.labels ++ [v] :=
    (labels_reviseLinear m v fresh f).trans (if_neg (index?_eq_none_iff.1 hv))
  have hnodes : (m.reviseLinear v fresh f).nodes = m.nodes ++ [.isolated v fresh] := by
    unfold reviseLinear
    rw [hv]
  refine Store.ext (vartype_reviseLinear m v fresh f) (offset_reviseLinear m v fresh f) hlabels
    ?_ ?_ ?_
  · refine (congrArg List.zipIdx hlabels).trans (List.zipIdx_append.trans ?_)
    rw [Nat.zero_add]
    rfl
  · exact (congrArg _ hnodes).trans List.map_append
  · exact (congrArg _ hnodes).trans List.map_append

variable [Scalar α]

theorem store_addVariable (m : Model α) (v : Label) (bias : α) :
    m.store.addVariable v bias =
      ((m.addVariable v bias).store, (m.addVariable v bias).indexOf v) := by
  unfold Store.addVariable addVariable
  rw [lookup_indices]
  cases hv : m.index? v with
  | none =>
    have hindex : (m.reviseLinear v bias (· + bias)).index? v = some m.size := by
      unfold reviseLinear
      rw [hv]
      exact (index?_append m (index?_eq_none_iff.1 hv) _ rfl v).trans (if_pos rfl)
    rw [store_reviseLinear_of_none hv]
    unfold indexOf
    rw [hindex, ← length_labels]
    rfl
  | some i =>
    have hindex : (m.reviseLinear v bias (· + bias)).index? v = some i :=
      (index?_congr ((labels_reviseLinear m v bias _).trans
        (if_pos (mem_labels_of_index? hv))) v).trans hv
    rw [store_reviseLinear_of_some hv]
    unfold indexOf
    rw [hindex]
    rfl

theorem store_setLinear (m : Model α) (v : Label) (bias : α) :
    m.store.setLinear v bias = (m.setLinear v bias).store := by
  unfold Store.setLinear Store.addVariable setLinear
  rw [lookup_indices]
  cases hv : m.index? v with
  | none =>
    have hset : (m.store.linear ++ [ofInt 0]).set m.store.labels.length bias =
        m.store.linear ++ [bias] := by
      simp [store, labels]
    rw [store_reviseLinear_of_none hv]
    exact Store.ext rfl rfl rfl rfl hset rfl
  | some i =>
    rw [store_reviseLinear_of_some hv]
    exact Store.ext rfl rfl rfl rfl (set_modify _ bias i _) rfl

end Linear

/-! ### Quadratic biases -/

theorem store_couple [Scalar α] {m : Model α} (h : m.WellFormed) {i j : Nat} (hij : i ≠ j)
    (f : α → α) : (m.couple (ofInt 0) i j f).store = (m.store.couple i j f).couple j i f := by
  have hlabels := labels_couple m (ofInt 0) i j f
  refine Store.ext rfl rfl hlabels (congrArg List.zipIdx hlabels) ?_ ?_
  · have hl : ∀ i j (n : Node α), (n.couple (ofInt 0) i j f).linear = n.linear := fun _ _ _ => rfl
    exact (map_modify_of_comp (hl j i) j _).trans (map_modify_of_comp (hl i j) i m.nodes)
  · have hfirst : ∀ n, m.nodes[i]? = some n → (n.couple (ofInt 0) i j f).neighborhood =
        n.neighborhood.couple (ofInt 0) i j f := fun n hn =>
      Node.neighborhood_couple (h.sound i n hn).increasing (ofInt 0) i j f
    have hsecond : ∀ n, (m.nodes.modify i (.couple (ofInt 0) i j f))[j]? = some n →
        (n.couple (ofInt 0) j i f).neighborhood = n.neighborhood.couple (ofInt 0) j i f := by
      intro n hn
      rw [List.getElem?_modify_ne _ _ hij] at hn
      exact Node.neighborhood_couple (h.sound j n hn).increasing (ofInt 0) j i f
    exact (map_modify hsecond).trans (congrArg (List.modify · j _) (map_modify hfirst))

variable [Scalar α]

/-- The index found for `u` is still its index after `v` was added. -/
theorem store_reviseQuadratic {m : Model α} (h : m.WellFormed) (u v : Label) (f : α → α) :
    m.store.reviseQuadratic u v f = (m.reviseQuadratic u v f).map store := by
  unfold Store.reviseQuadratic
  rw [reviseQuadratic_eq]
  by_cases huv : u = v
  · rw [if_pos huv, if_pos huv]
    rfl
  · have hends : (m.addEnds u v).WellFormed := (h.addVariable u (ofInt 0)).addVariable v (ofInt 0)
    have hu : u ∈ (m.addVariable u (ofInt 0)).labels :=
      (mem_labels_reviseLinear m u _ _ u).2 (Or.inl rfl)
    have hi : (m.addEnds u v).index? u = some ((m.addVariable u (ofInt 0)).indexOf u) :=
      (index?_reviseLinear_of_ne _ huv _ _).trans (index?_indexOf hu)
    have hj : (m.addEnds u v).index? v = some ((m.addEnds u v).indexOf v) :=
      index?_indexOf ((mem_labels_addEnds m u v v).2 (Or.inr (Or.inl rfl)))
    have hij : (m.addVariable u (ofInt 0)).indexOf u ≠ (m.addEnds u v).indexOf v := fun e =>
      huv (Option.some.inj ((label?_of_index? hi).symm.trans (e ▸ label?_of_index? hj)))
    rw [if_neg huv, if_neg huv, store_addVariable]
    dsimp only
    rw [store_addVariable]
    unfold addEnds at hends hi hj hij
    rw [hi, hj]
    exact congrArg Except.ok (store_couple hends hij f).symm

/-! ### Edits -/

theorem store_apply {m : Model α} (h : m.WellFormed) (edit : Edit α) :
    m.store.apply edit = (m.apply edit).map store := by
  cases edit with
  | setOffset bias => rfl
  | addVariable v bias => exact congrArg (fun p => Except.ok p.1) (store_addVariable m v bias)
  | setLinear v bias => exact congrArg Except.ok (store_setLinear m v bias)
  | addLinear v bias => exact congrArg (fun p => Except.ok p.1) (store_addVariable m v bias)
  | setQuadratic u v bias => exact store_reviseQuadratic h u v _
  | addQuadratic u v bias => exact store_reviseQuadratic h u v _

theorem store_attempt {m : Model α} (h : m.WellFormed) (edit : Edit α) :
    m.store.attempt edit = (m.attempt edit).store := by
  unfold Store.attempt attempt
  rw [store_apply h]
  cases m.apply edit <;> rfl

theorem store_foldl_attempt {m : Model α} (h : m.WellFormed) (edits : List (Edit α)) :
    edits.foldl Store.attempt m.store = (edits.foldl attempt m).store := by
  induction edits generalizing m with
  | nil => rfl
  | cons edit edits ih =>
    rw [List.foldl_cons, store_attempt h]
    exact ih (h.attempt edit)

/-- Building in the containers builds the model. -/
theorem store_foldlM_apply {m : Model α} (h : m.WellFormed) (edits : List (Edit α)) :
    edits.foldlM Store.apply m.store = (edits.foldlM apply m).map store := by
  induction edits generalizing m with
  | nil => rfl
  | cons edit edits ih =>
    rw [List.foldlM_cons, List.foldlM_cons, store_apply h]
    cases hm : m.apply edit with
    | error fault => rfl
    | ok m' => exact ih (h.apply hm)

theorem build_eq_foldlM (vartype : Vartype) (edits : List (Edit α)) :
    build vartype edits = edits.foldlM apply (empty vartype) := by
  have hstore : edits.foldlM Store.apply (Store.empty vartype) =
      (edits.foldlM apply (empty vartype)).map store :=
    store_foldlM_apply (WellFormed.empty vartype) edits
  unfold build
  rw [hstore]
  cases edits.foldlM apply (empty vartype) with
  | error fault => rfl
  | ok m => exact congrArg Except.ok (model_store m)

end Model

/-! ### The layout of the containers -/

namespace Store

/-- Labels are not repeated and `indices` is their inverse; there are as many linear biases and
neighborhoods as labels; the neighbors of each index increase, are in range, avoid the index, have
a bias each and begin with the `smaller` ones below the index, which are all of these; and every
coupling stands at both of its ends with one bias. -/
structure WellFormed (s : Store α) : Prop where
  labels_nodup : s.labels.Nodup
  keys_nodup : (s.indices.map Prod.fst).Nodup
  lookup_iff : ∀ v i, s.indices.lookup v = some i ↔ s.labels[i]? = some v
  length_linear : s.linear.length = s.labels.length
  length_adjacency : s.adjacency.length = s.labels.length
  length_biases : ∀ a ∈ s.adjacency, a.biases.length = a.neighbors.length
  increasing : ∀ (i : Nat) (a : Neighborhood α), s.adjacency[i]? = some a →
    a.neighbors.Pairwise (· < ·)
  in_range : ∀ (i : Nat) (a : Neighborhood α), s.adjacency[i]? = some a →
    ∀ j ∈ a.neighbors, j < s.labels.length ∧ j ≠ i
  smaller_eq : ∀ (i : Nat) (a : Neighborhood α), s.adjacency[i]? = some a →
    a.smaller = a.neighbors.countP (· < i) ∧
      a.neighbors.take a.smaller = a.neighbors.filter (· < i)
  symmetric : ∀ (i j : Nat) (a c : Neighborhood α), s.adjacency[i]? = some a →
    s.adjacency[j]? = some c →
      (j ∈ a.neighbors ↔ i ∈ c.neighbors) ∧
        ∀ b, (j, b) ∈ a.neighbors.zip a.biases ↔ (i, b) ∈ c.neighbors.zip c.biases

end Store

namespace Model

variable {m : Model α}

theorem exists_of_adjacency {i : Nat} {a : Neighborhood α} (h : m.store.adjacency[i]? = some a) :
    ∃ n, m.nodes[i]? = some n ∧ n.neighborhood = a := by
  unfold store at h
  rw [List.getElem?_map] at h
  exact Option.map_eq_some_iff.1 h

theorem row_of_adjacency {i : Nat} {a : Neighborhood α} (h : m.store.adjacency[i]? = some a) :
    a.neighbors.zip a.biases = m.row i ∧ a.neighbors = (m.row i).map Prod.fst := by
  obtain ⟨n, hn, rfl⟩ := exists_of_adjacency h
  rw [row_of_node hn]
  exact ⟨n.row.zip_neighborhood n.smaller, rfl⟩

/-- The containers of a well-formed model are well formed. -/
theorem WellFormed.store_wellFormed (h : m.WellFormed) : m.store.WellFormed where
  labels_nodup := h.labels_nodup
  keys_nodup := by
    have hkeys : m.store.indices.map Prod.fst = m.labels := List.zipIdx_map_fst 0 m.labels
    rw [hkeys]
    exact h.labels_nodup
  lookup_iff v i := by
    rw [lookup_indices, h.index?_iff, label?_eq_getElem?]
    rfl
  length_linear := by simp [store, labels]
  length_adjacency := by simp [store, labels]
  length_biases a ha := by
    obtain ⟨n, -, rfl⟩ := List.mem_map.1 ha
    simp [Node.neighborhood, Row.neighborhood]
  increasing i a ha := by
    rw [(row_of_adjacency ha).2]
    exact h.increasing i
  in_range i a ha j hj := by
    rw [(row_of_adjacency ha).2] at hj
    obtain ⟨c, hc, rfl⟩ := List.mem_map.1 hj
    have hlt := (h.lt_of_mem_row hc).1
    rw [← length_labels] at hlt
    exact ⟨hlt, (h.lt_of_mem_row hc).2.2⟩
  smaller_eq i a ha := by
    obtain ⟨n, hn, rfl⟩ := exists_of_adjacency ha
    have hs := h.sound i n hn
    have hcount : (n.row.map Prod.fst).countP (· < i) = n.row.countP (·.1 < i) := List.countP_map
    have hfilter : (n.row.map Prod.fst).filter (· < i) = (n.row.filter (·.1 < i)).map Prod.fst :=
      List.filter_map
    refine ⟨hs.smaller_eq.trans hcount.symm, ?_⟩
    show (n.row.map Prod.fst).take n.smaller = (n.row.map Prod.fst).filter (· < i)
    rw [hfilter, ← hs.take_smaller, List.map_take]
  symmetric i j a c ha hc := by
    obtain ⟨hzip, hkeys⟩ := row_of_adjacency ha
    obtain ⟨hzip', hkeys'⟩ := row_of_adjacency hc
    have hboth : ∀ b, (j, b) ∈ m.row i ↔ (i, b) ∈ m.row j := fun b => by
      rw [h.mem_row_iff, h.mem_row_iff, h.symmetric i j]
    rw [hzip, hzip', hkeys, hkeys']
    refine ⟨?_, hboth⟩
    simp only [List.mem_map, Prod.exists, exists_and_right, exists_eq_right, hboth]

/-! ### Reading the containers -/

theorem neighborhood_store (m : Model α) (i : Nat) :
    ∃ smaller, m.store.neighborhood i = (m.row i).neighborhood smaller := by
  unfold Store.neighborhood row
  rw [List.getD_eq_getElem?_getD]
  show ∃ smaller, ((m.nodes.map Node.neighborhood)[i]?).getD .empty = _
  rw [List.getElem?_map]
  cases m.nodes[i]? with
  | none => exact ⟨0, rfl⟩
  | some n => exact ⟨n.smaller, rfl⟩

theorem WellFormed.bias?_store (h : m.WellFormed) (i j : Nat) :
    (m.store.neighborhood i).bias? j = Row.bias? (m.row i) j := by
  obtain ⟨smaller, e⟩ := neighborhood_store m i
  rw [e]
  exact Row.bias?_neighborhood (h.increasing i) smaller j

theorem index_store (m : Model α) (v : Label) : m.store.index v = m.index v := by
  cases hi : m.index? v <;> simp [Store.index, index, lookup_indices, hi]

end Model

namespace Store

/-- Every reading of the containers is the one of the model. -/
structure Reads [Scalar α] (s : Store α) (m : Model α) : Prop where
  vartype_eq : s.vartype = m.vartype
  offset_eq : s.offset = m.offset
  labels_eq : s.labels = m.labels
  interactions_eq : s.interactions = m.interactions
  index_eq : ∀ v, s.index v = m.index v
  linearOf_eq : ∀ v, s.linearOf v = m.linear v
  quadratic_eq : ∀ u v, s.quadratic u v = m.quadratic u v
  hasInteraction_eq : ∀ u v, s.hasInteraction u v = m.hasInteraction u v
  neighbors_eq : ∀ v, s.neighbors v = m.neighbors v

end Store

variable [Scalar α]

theorem Model.WellFormed.store_reads {m : Model α} (h : m.WellFormed) : m.store.Reads m where
  vartype_eq := rfl
  offset_eq := rfl
  labels_eq := rfl
  interactions_eq := List.foldr_map
  index_eq := m.index_store
  linearOf_eq v := by
    have hlinear : ∀ i, m.store.linear.getD i (ofInt 0) = m.linearAt i := fun i => by
      unfold Model.store Model.linearAt
      rw [List.getD_eq_getElem?_getD, List.getElem?_map]
    unfold Store.linearOf Model.linear
    simp only [m.index_store, hlinear]
  quadratic_eq u v := by
    unfold Store.quadratic Model.quadratic
    simp only [m.index_store, h.bias?_store]
  hasInteraction_eq u v := by
    cases hi : m.index? u <;> cases hj : m.index? v <;>
      simp [Store.hasInteraction, Model.hasInteraction, m.lookup_indices, h.bias?_store, hi, hj]
  neighbors_eq v := by
    have hrow : ∀ i, (m.store.neighborhood i).neighbors.filterMap (m.store.labels[·]?) =
        (m.row i).filterMap fun c => m.label? c.1 := fun i => by
      obtain ⟨smaller, e⟩ := m.neighborhood_store i
      rw [e]
      refine List.filterMap_map.trans (List.filterMap_congr fun c _ => ?_)
      exact (m.label?_eq_getElem? c.1).symm
    unfold Store.neighbors Model.neighbors
    simp only [m.index_store, hrow]

namespace Store

theorem ofEdits_eq_store (vartype : Vartype) (edits : List (Edit α)) :
    ofEdits vartype edits = (Model.ofEdits vartype edits).store :=
  Model.store_foldl_attempt (Model.WellFormed.empty vartype) edits

theorem ofEdits_reads (vartype : Vartype) (edits : List (Edit α)) :
    (ofEdits vartype edits).Reads (Model.ofEdits vartype edits) := by
  rw [ofEdits_eq_store]
  exact (Model.ofEdits_wellFormed vartype edits).store_reads

/-- After any edits, refused ones included, the containers are well formed and hold the model that
the edits build. -/
theorem ofEdits_representation (vartype : Vartype) (edits : List (Edit α)) :
    (ofEdits vartype edits).WellFormed ∧
      (ofEdits vartype edits).model = Model.ofEdits vartype edits := by
  rw [ofEdits_eq_store]
  exact ⟨(Model.ofEdits_wellFormed vartype edits).store_wellFormed, Model.model_store _⟩

end Store

end QuboSplit
