import Mathlib.Data.Finmap
import Mathlib.Data.Sym.Sym2
import QuboSplit.Proofs.Congruence
import QuboSplit.Proofs.Model.Store

/-!
# Models as finite maps

A ledger is what a model is about: its variables in order of first appearance, a finite map from
variables to linear biases, and one from unordered pairs to quadratic biases. An edit posts one
entry of a ledger and leaves all others as they are.

A model `Tracks` a ledger if it has the same variables and, up to the signs of zeros, the same
entries. Each edit keeps the two together (`Tracks.attempt`), so a model shows after any edits what
the ledger with the same edits holds (`ofEdits_shows`): every interaction, which a model stores in
the rows of both its variables, is one entry of the ledger.
-/

namespace QuboSplit

open Scalar (ofInt)

/-- The content of a model by variables and unordered pairs. -/
structure Ledger (α : Type) where
  offset : α
  labels : List Label
  linear : Finmap fun _ : Label => α
  quadratic : Finmap fun _ : Sym2 Label => α

/-- The edit pairs a variable with itself. -/
def Edit.IsLoop {α : Type} : Edit α → Prop
  | .setQuadratic u v _ | .addQuadratic u v _ => u = v
  | _ => False

namespace Ledger

variable {α : Type} [Scalar α]

/-- The ledger without variables. -/
def empty : Ledger α := ⟨ofInt 0, [], ∅, ∅⟩

/-- Enters a variable with the bias zero, unless it is there. -/
def enter (l : Ledger α) (v : Label) : Ledger α :=
  if v ∈ l.labels then l
  else { l with labels := l.labels ++ [v], linear := l.linear.insert v (ofInt 0) }

/-- Enters a variable and revises its linear bias. -/
def reviseLinear (l : Ledger α) (v : Label) (f : α → α) : Ledger α :=
  let l := l.enter v
  { l with linear := l.linear.insert v (f ((l.linear.lookup v).getD (ofInt 0))) }

/-- Enters two different variables and revises the bias of the pair, zero if there is none. -/
def reviseQuadratic (l : Ledger α) (u v : Label) (f : α → α) : Ledger α :=
  if u = v then l
  else
    let l := (l.enter u).enter v
    { l with
      quadratic := l.quadratic.insert s(u, v) (f ((l.quadratic.lookup s(u, v)).getD (ofInt 0))) }

/-- The ledger after an edit. A self-loop changes nothing. -/
def post (l : Ledger α) : Edit α → Ledger α
  | .setOffset bias => { l with offset := bias }
  | .addVariable v bias => l.reviseLinear v (· + bias)
  | .setLinear v bias => l.reviseLinear v fun _ => bias
  | .addLinear v bias => l.reviseLinear v (· + bias)
  | .setQuadratic u v bias => l.reviseQuadratic u v fun _ => bias
  | .addQuadratic u v bias => l.reviseQuadratic u v (· + bias)

/-- The ledger of a list of edits. -/
def ofEdits (edits : List (Edit α)) : Ledger α := edits.foldl post empty

/-- The variables paired with `v`, in order of first appearance. -/
def partners (l : Ledger α) (v : Label) : List Label :=
  l.labels.filter fun w => s(v, w) ∈ l.quadratic

omit [Scalar α] in
theorem lookup_insert_ite {κ : Type} [DecidableEq κ] (entries : Finmap fun _ : κ => α) (k : κ)
    (b : α) (k' : κ) :
    (entries.insert k b).lookup k' = if k' = k then some b else entries.lookup k' := by
  by_cases h : k' = k
  · rw [if_pos h, h, Finmap.lookup_insert]
  · rw [if_neg h, Finmap.lookup_insert_of_ne _ h]

section Enter

variable (l : Ledger α) (v : Label)

theorem offset_enter : (l.enter v).offset = l.offset := by
  unfold enter
  split <;> rfl

theorem quadratic_enter : (l.enter v).quadratic = l.quadratic := by
  unfold enter
  split <;> rfl

theorem labels_enter :
    (l.enter v).labels = if v ∈ l.labels then l.labels else l.labels ++ [v] := by
  unfold enter
  split <;> rfl

theorem lookup_enter (w : Label) :
    (l.enter v).linear.lookup w =
      if w = v ∧ v ∉ l.labels then some (ofInt 0) else l.linear.lookup w := by
  unfold enter
  by_cases hv : v ∈ l.labels
  · rw [if_pos hv, if_neg fun h => h.2 hv]
  · rw [if_neg hv]
    show (l.linear.insert v (ofInt 0)).lookup w = _
    simp only [lookup_insert_ite, hv, not_false_eq_true, and_true]

end Enter

end Ledger

/-! ### Reading by label -/

namespace Model

variable {α : Type} {m : Model α}

theorem index_eq_error {v : Label} (hv : v ∉ m.labels) :
    m.index v = .error (.unknownVariable v) := by
  unfold index
  rw [index?_eq_none_iff.2 hv]

theorem neighbors_eq_error {v : Label} (hv : v ∉ m.labels) :
    m.neighbors v = .error (.unknownVariable v) := by
  unfold neighbors
  rw [index_eq_error hv]
  rfl

theorem kind_of_index_error {v : Label} {fault : Fault} (h : m.index v = .error fault) :
    fault.kind = .outOfRange := by
  unfold index at h
  cases hi : m.index? v with
  | none =>
    rw [hi] at h
    cases h
    rfl
  | some i =>
    rw [hi] at h
    cases h

theorem index_of_index? {v : Label} {i : Nat} (h : m.index? v = some i) : m.index v = .ok i := by
  unfold index
  rw [h]

namespace WellFormed

/-- Indices number the variables in order of first appearance. -/
theorem index?_eq_idxOf (h : m.WellFormed) {v : Label} (hv : v ∈ m.labels) :
    m.index? v = some (m.labels.idxOf v) := by
  rw [h.index?_iff, label?_eq_getElem?]
  exact List.getElem?_idxOf hv

/-- A variable interacts with the variables that it is coupled to, by increasing index. -/
theorem partners_eq (h : m.WellFormed) {v : Label} {i : Nat} (hi : m.index? v = some i) :
    m.partners i = m.labels.filter fun w => (m.coupling? v w).isSome := by
  have hkeys : (m.row i).map Prod.fst =
      (List.range m.size).filter fun j => (Row.bias? (m.row i) j).isSome := by
    refine List.Pairwise.eq_of_mem_iff (h.increasing i) (List.pairwise_lt_range.filter _) ?_
    intro j
    rw [List.mem_filter, List.mem_range, Option.isSome_iff_ne_none, Ne, Row.bias?_eq_none_iff,
      not_not]
    refine ⟨fun hj => ⟨?_, hj⟩, And.right⟩
    obtain ⟨c, hc, rfl⟩ := List.mem_map.1 hj
    exact (h.lt_of_mem_row hc).1
  have hpartners : m.partners i = ((m.row i).map Prod.fst).filterMap m.label? := by
    unfold partners
    rw [List.filterMap_map]
    rfl
  have hlabels : m.labels = (List.range m.size).filterMap m.label? := by
    rw [← length_labels, funext (label?_eq_getElem? m), filterMap_getElem?_range]
  rw [hpartners, hkeys, hlabels, List.filterMap_filter, List.filter_filterMap]
  refine List.filterMap_congr fun j _ => ?_
  cases hj : m.label? j with
  | none => simp
  | some w =>
    rw [Option.filter_some, coupling?_of_index? hi (h.index?_iff.2 hj)]

theorem neighbors_eq (h : m.WellFormed) {v : Label} (hv : v ∈ m.labels) :
    m.neighbors v = .ok (m.labels.filter fun w => (m.coupling? v w).isSome) := by
  have hi := index?_indexOf hv
  unfold neighbors
  rw [index_of_index? hi, ← h.partners_eq hi]
  rfl

end WellFormed

variable [Scalar α]

theorem linear_of_linear? {v : Label} {b : α} (h : m.linear? v = some b) : m.linear v = .ok b := by
  have hv : v ∈ m.labels := by
    by_contra hv
    rw [linear?_eq_none_iff.2 hv] at h
    cases h
  have hi := index?_indexOf hv
  unfold linear? at h
  rw [hi, Option.bind_some] at h
  unfold linear linearAt
  rw [index_of_index? hi]
  show Except.ok _ = _
  rw [h]
  rfl

theorem quadratic_of_mem {u v : Label} (hu : u ∈ m.labels) (hv : v ∈ m.labels) :
    m.quadratic u v = .ok ((m.coupling? u v).getD (ofInt 0)) := by
  have hi := index?_indexOf hu
  have hj := index?_indexOf hv
  unfold quadratic
  rw [index_of_index? hi, index_of_index? hj, coupling?_of_index? hi hj]
  rfl

theorem linear_eq_error {v : Label} (hv : v ∉ m.labels) :
    m.linear v = .error (.unknownVariable v) := by
  unfold linear
  rw [index_eq_error hv]
  rfl

/-- Of two unknown variables the first is reported. -/
theorem quadratic_eq_error {u v : Label} (h : u ∉ m.labels ∨ v ∉ m.labels) :
    m.quadratic u v = .error (.unknownVariable (if u ∈ m.labels then v else u)) := by
  unfold quadratic
  by_cases hu : u ∈ m.labels
  · rw [if_pos hu, index_of_index? (index?_indexOf hu),
      index_eq_error (h.resolve_left (not_not.2 hu))]
    rfl
  · rw [if_neg hu, index_eq_error hu]
    rfl

/-- What is read by index is refused only with the index. -/
theorem kind_of_reading_error {u v : Label} {fault : Fault}
    (h : m.index v = .error fault ∨ m.linear v = .error fault ∨ m.neighbors v = .error fault ∨
      m.quadratic u v = .error fault) : fault.kind = .outOfRange := by
  have hbind : ∀ {β : Type} {w : Label} {f : Nat → β},
      (m.index w >>= fun i => Except.ok (f i)) = .error fault → m.index w = .error fault := by
    intro β w f hw
    cases hi : m.index w with
    | error e =>
      rw [hi] at hw
      cases hw
      rfl
    | ok i =>
      rw [hi] at hw
      cases hw
  rcases h with h | h | h | h
  · exact kind_of_index_error h
  · exact kind_of_index_error (hbind h)
  · exact kind_of_index_error (hbind h)
  · unfold quadratic at h
    cases hi : m.index u with
    | error e =>
      rw [hi] at h
      cases h
      exact kind_of_index_error hi
    | ok i =>
      rw [hi] at h
      exact kind_of_index_error (hbind h)

end Model

/-! ### Models that track a ledger -/

theorem SameOption.isSome_eq {a b : Option Binary64} (h : SameOption a b) :
    a.isSome = b.isSome := by
  cases h <;> rfl

namespace Model

/-- The model has the variables of the ledger in its order and, up to the signs of zeros, its
entries. -/
structure Tracks (m : Model Binary64) (l : Ledger Binary64) : Prop where
  offset : m.offset.Same l.offset
  labels_eq : m.labels = l.labels
  linear : ∀ v, SameOption (m.linear? v) (l.linear.lookup v)
  coupling : ∀ u v, SameOption (m.coupling? u v) (l.quadratic.lookup s(u, v))

namespace Tracks

variable {m : Model Binary64} {l : Ledger Binary64}

theorem empty (vartype : Vartype) : (Model.empty vartype).Tracks .empty where
  offset := .refl _
  labels_eq := rfl
  linear _ := .none
  coupling _ _ := .none

variable (h : m.Tracks l)

include h

/-- A variable has an entry in both or in neither. -/
theorem entry (v : Label) :
    (∃ x y, m.linear? v = some x ∧ l.linear.lookup v = some y ∧ x.Same y ∧ v ∈ l.labels) ∨
      (m.linear? v = none ∧ l.linear.lookup v = none ∧ v ∉ l.labels) := by
  have hv := h.linear v
  rw [← h.labels_eq]
  cases hx : m.linear? v with
  | none =>
    rw [hx] at hv
    refine Or.inr ⟨rfl, ?_, linear?_eq_none_iff.1 hx⟩
    cases hy : l.linear.lookup v with
    | none => rfl
    | some y => rw [hy] at hv; cases hv
  | some x =>
    rw [hx] at hv
    cases hy : l.linear.lookup v with
    | none => rw [hy] at hv; cases hv
    | some y =>
      rw [hy] at hv
      refine Or.inl ⟨x, y, rfl, rfl, by cases hv; assumption, ?_⟩
      by_contra hnot
      rw [linear?_eq_none_iff.2 hnot] at hx
      cases hx

variable (hm : m.WellFormed)

include hm

/-- Adding zero enters a variable, and leaves one that is there as it is. -/
theorem enter (v : Label) : (m.addVariable v (ofInt 0)).Tracks (l.enter v) where
  offset := by
    rw [Ledger.offset_enter]
    exact (offset_reviseLinear m v _ _).symm ▸ h.offset
  labels_eq := by
    rw [Ledger.labels_enter, ← h.labels_eq]
    exact labels_reviseLinear m v _ _
  linear w := by
    unfold addVariable
    rw [linear?_reviseLinear, Ledger.lookup_enter]
    by_cases hw : w = v
    · subst hw
      rw [if_pos rfl]
      rcases h.entry w with ⟨x, y, hx, hy, hxy, hmem⟩ | ⟨hx, -, hmem⟩
      · rw [if_neg fun e => e.2 hmem, hx, hy]
        exact .some ((Floating.Same.add_zero x).trans hxy)
      · rw [if_pos ⟨rfl, hmem⟩, hx]
        exact .some (.refl _)
    · rw [if_neg hw, if_neg fun e => hw e.1]
      exact h.linear w
  coupling a b := by
    rw [Ledger.quadratic_enter]
    exact (hm.coupling?_reviseLinear v _ _ a b).symm ▸ h.coupling a b

/-- Revising a linear bias by functions that agree up to the signs of zeros. -/
theorem reviseLinear (v : Label) {fresh : Binary64} {f g : Binary64 → Binary64}
    (hfresh : fresh.Same (g (ofInt 0))) (hfg : ∀ x y, x.Same y → (f x).Same (g y)) :
    (m.reviseLinear v fresh f).Tracks (l.reviseLinear v g) where
  offset := by
    rw [offset_reviseLinear]
    exact (Ledger.offset_enter l v).symm ▸ h.offset
  labels_eq := by
    rw [labels_reviseLinear, h.labels_eq]
    exact (Ledger.labels_enter l v).symm
  linear w := by
    unfold Ledger.reviseLinear
    rw [linear?_reviseLinear, Ledger.lookup_insert_ite]
    by_cases hw : w = v
    · subst hw
      rw [if_pos rfl, if_pos rfl, Ledger.lookup_enter]
      rcases h.entry w with ⟨x, y, hx, hy, hxy, hmem⟩ | ⟨hx, -, hmem⟩
      · rw [if_neg fun e => e.2 hmem, hx, hy]
        exact .some (hfg x y hxy)
      · rw [if_pos ⟨rfl, hmem⟩, hx]
        exact .some hfresh
    · rw [if_neg hw, if_neg hw, Ledger.lookup_enter, if_neg fun e => hw e.1]
      exact h.linear w
  coupling a b := by
    rw [hm.coupling?_reviseLinear]
    exact (Ledger.quadratic_enter l v).symm ▸ h.coupling a b

/-- Revising a quadratic bias by functions that agree up to the signs of zeros. -/
theorem reviseQuadratic {u v : Label} (huv : u ≠ v) {f g : Binary64 → Binary64}
    (hfg : ∀ x y, x.Same y → (f x).Same (g y)) :
    ∃ m', m.reviseQuadratic u v f = .ok m' ∧ m'.Tracks (l.reviseQuadratic u v g) := by
  have hends : (m.addEnds u v).Tracks ((l.enter u).enter v) :=
    (h.enter hm u).enter (hm.addVariable u _) v
  have hquadratic : ((l.enter u).enter v).quadratic = l.quadratic := by
    rw [Ledger.quadratic_enter, Ledger.quadratic_enter]
  obtain ⟨m', hm', -, hoffset, hlabels, hlinear, hcoupling⟩ := hm.exists_reviseQuadratic huv f
  refine ⟨m', hm', ?_⟩
  unfold Ledger.reviseQuadratic
  rw [if_neg huv]
  refine ⟨?_, hlabels.trans hends.labels_eq, fun w => hlinear w ▸ hends.linear w, fun a b => ?_⟩
  · show m'.offset.Same ((l.enter u).enter v).offset
    rw [hoffset, Ledger.offset_enter, Ledger.offset_enter]
    exact h.offset
  · dsimp only
    rw [hcoupling, Ledger.lookup_insert_ite, hquadratic]
    simp only [Sym2.eq_iff]
    split
    · exact .some (hfg _ _ (h.coupling u v).getD)
    · exact h.coupling a b

/-- Every edit keeps the model and the ledger together. -/
theorem attempt (edit : Edit Binary64) : (m.attempt edit).Tracks (l.post edit) := by
  have hset : ∀ bias x y : Binary64, x.Same y → bias.Same bias := fun bias _ _ _ => .refl bias
  have hadd : ∀ bias x y : Binary64, x.Same y → (x + bias).Same (y + bias) :=
    fun bias _ _ hxy => hxy.add (.refl bias)
  have hfresh : ∀ bias : Binary64, bias.Same (ofInt 0 + bias) :=
    fun bias => (Floating.Same.zero_add bias).symm
  have hlinear : ∀ v bias, (m.addVariable v bias).Tracks (l.reviseLinear v (· + bias)) :=
    fun v bias => h.reviseLinear hm v (hfresh bias) (hadd bias)
  have hquadratic : ∀ {u v : Label} {f : Binary64 → Binary64},
      m.apply edit = m.reviseQuadratic u v f → l.post edit = l.reviseQuadratic u v f →
      (∀ x y, x.Same y → (f x).Same (f y)) → (m.attempt edit).Tracks (l.post edit) := by
    intro u v f happly hpost hf
    unfold Model.attempt
    rw [happly, hpost]
    by_cases huv : u = v
    · rw [reviseQuadratic_eq, if_pos huv]
      unfold Ledger.reviseQuadratic
      rw [if_pos huv]
      exact h
    · obtain ⟨m', hm', htracks⟩ := h.reviseQuadratic hm huv hf
      rw [hm']
      exact htracks
  cases edit with
  | setOffset bias => exact ⟨.refl _, h.labels_eq, h.linear, h.coupling⟩
  | addVariable v bias => exact hlinear v bias
  | setLinear v bias =>
    show (m.reviseLinear v bias fun _ => bias).Tracks (l.reviseLinear v fun _ => bias)
    exact h.reviseLinear hm v (.refl bias) (hset bias)
  | addLinear v bias => exact hlinear v bias
  | setQuadratic u v bias => exact hquadratic rfl rfl (hset bias)
  | addQuadratic u v bias => exact hquadratic rfl rfl (hadd bias)

end Tracks

/-! ### What a model shows -/

/-- Every reading of the model is the one of the ledger, biases up to the signs of zeros. A variable
that is not in the ledger is refused; of two such variables the first is reported. -/
structure Shows (m : Model Binary64) (l : Ledger Binary64) : Prop where
  size_eq : m.size = l.labels.length
  labels_eq : m.labels = l.labels
  offset : m.offset.Same l.offset
  interactions_eq : m.interactions = l.quadratic.keys.card
  index_eq : ∀ v ∈ l.labels, m.index v = .ok (l.labels.idxOf v)
  linear : ∀ v ∈ l.labels, ∃ b b', m.linear v = .ok b ∧ l.linear.lookup v = some b' ∧ b.Same b'
  quadratic : ∀ u ∈ l.labels, ∀ v ∈ l.labels, ∃ b, m.quadratic u v = .ok b ∧
    b.Same ((l.quadratic.lookup s(u, v)).getD (ofInt 0))
  hasInteraction_iff : ∀ u v, m.hasInteraction u v = true ↔ s(u, v) ∈ l.quadratic
  neighbors_eq : ∀ v ∈ l.labels, m.neighbors v = .ok (l.partners v)
  unknown : ∀ v ∉ l.labels, m.index v = .error (.unknownVariable v) ∧
    m.linear v = .error (.unknownVariable v) ∧ m.neighbors v = .error (.unknownVariable v)
  unknown_pair : ∀ u v, u ∉ l.labels ∨ v ∉ l.labels →
    m.quadratic u v = .error (.unknownVariable (if u ∈ l.labels then v else u))
  out_of_range : ∀ u v fault, m.index v = .error fault ∨ m.linear v = .error fault ∨
    m.neighbors v = .error fault ∨ m.quadratic u v = .error fault → fault.kind = .outOfRange

/-- A model shows the ledger that it tracks. -/
theorem Tracks.shows {m : Model Binary64} {l : Ledger Binary64} (h : m.Tracks l)
    (hm : m.WellFormed) : m.Shows l := by
  have hmem : ∀ {v}, v ∈ l.labels → v ∈ m.labels := fun hv => h.labels_eq ▸ hv
  have hnot : ∀ {v}, v ∉ l.labels → v ∉ m.labels := fun hv => h.labels_eq ▸ hv
  have hpair : ∀ u v, (m.coupling? u v).isSome = true ↔ s(u, v) ∈ l.quadratic := by
    intro u v
    rw [(h.coupling u v).isSome_eq]
    exact Finmap.lookup_isSome
  have hkeys : m.pairs.toFinset = l.quadratic.keys := by
    ext p
    induction p using Sym2.ind with
    | h u v =>
      rw [List.mem_toFinset, hm.mem_pairs_iff, Finmap.mem_keys, ← hpair, Option.isSome_iff_ne_none]
  exact {
    size_eq := by rw [← length_labels, h.labels_eq]
    labels_eq := h.labels_eq
    offset := h.offset
    interactions_eq := by
      rw [hm.interactions_eq, ← List.toFinset_card_of_nodup hm.nodup_pairs, hkeys]
    index_eq := fun v hv => h.labels_eq ▸ index_of_index? (hm.index?_eq_idxOf (hmem hv))
    linear := fun v hv => by
      rcases h.entry v with ⟨x, y, hx, hy, hxy, -⟩ | ⟨-, -, hv'⟩
      · exact ⟨x, y, linear_of_linear? hx, hy, hxy⟩
      · exact absurd hv hv'
    quadratic := fun u hu v hv =>
      ⟨_, quadratic_of_mem (hmem hu) (hmem hv), (h.coupling u v).getD⟩
    hasInteraction_iff := fun u v => by rw [hasInteraction_eq, hpair]
    neighbors_eq := fun v hv => by
      rw [hm.neighbors_eq (hmem hv), h.labels_eq]
      unfold Ledger.partners
      exact congrArg Except.ok (List.filter_congr fun w _ => Bool.eq_iff_iff.2 (by
        rw [hpair, decide_eq_true_iff]))
    unknown := fun v hv => ⟨index_eq_error (hnot hv), linear_eq_error (hnot hv),
      neighbors_eq_error (hnot hv)⟩
    unknown_pair := fun u v huv => h.labels_eq ▸ quadratic_eq_error (h.labels_eq ▸ huv)
    out_of_range := fun u v fault => kind_of_reading_error }

/-- A model tracks the ledger of its edits. -/
theorem tracks_ofEdits (vartype : Vartype) (edits : List (Edit Binary64)) :
    (ofEdits vartype edits).Tracks (.ofEdits edits) := by
  induction edits using List.reverseRecOn with
  | nil => exact .empty vartype
  | append_singleton edits edit ih =>
    unfold ofEdits Ledger.ofEdits
    rw [List.foldl_append, List.foldl_append]
    exact ih.attempt (ofEdits_wellFormed vartype edits) edit

/-! ### Refused edits -/

section Refused

variable {α : Type} [Scalar α]

theorem reviseQuadratic_eq_error_iff (m : Model α) {u v : Label} {f : α → α} {fault : Fault} :
    m.reviseQuadratic u v f = .error fault ↔ fault = .selfLoop ∧ u = v := by
  rw [reviseQuadratic_eq]
  by_cases huv : u = v
  · rw [if_pos huv, Except.error.injEq]
    exact ⟨fun e => ⟨e.symm, huv⟩, fun e => e.1.symm⟩
  · rw [if_neg huv, iff_false_intro (fun e : _ ∧ u = v => huv e.2), iff_false]
    dsimp only
    split <;> exact fun e => by cases e

/-- Exactly the self-loops are refused. -/
theorem apply_eq_error_iff (m : Model α) (edit : Edit α) (fault : Fault) :
    m.apply edit = .error fault ↔ fault = .selfLoop ∧ edit.IsLoop := by
  cases edit with
  | setQuadratic u v bias => exact m.reviseQuadratic_eq_error_iff
  | addQuadratic u v bias => exact m.reviseQuadratic_eq_error_iff
  | _ => exact ⟨nofun, fun h => h.2.elim⟩

theorem foldlM_apply_eq {edits : List (Edit α)} (h : ∀ e ∈ edits, ¬ e.IsLoop) (m : Model α) :
    edits.foldlM apply m = .ok (edits.foldl attempt m) := by
  induction edits generalizing m with
  | nil => rfl
  | cons edit edits ih =>
    rw [List.foldlM_cons, List.foldl_cons]
    unfold attempt
    cases hm : m.apply edit with
    | error fault => exact absurd ((m.apply_eq_error_iff edit fault).1 hm).2 (h edit (by simp))
    | ok m' => exact ih (fun e he => h e (List.mem_cons_of_mem edit he)) m'

end Refused

/-- After any edits, refused ones included, a model shows what the ledger with the same edits holds:
its variables in order of first appearance, and for every variable and unordered pair the bias last
set with all biases added since. The containers that the same edits leave read as the model does,
and without self-loops they are the model that is built. A further edit is refused exactly if it
pairs a variable with itself, and then changes nothing. -/
theorem ofEdits_shows (vartype : Vartype) (edits : List (Edit Binary64)) :
    (ofEdits vartype edits).Shows (.ofEdits edits) ∧
      (Store.ofEdits vartype edits).Reads (ofEdits vartype edits) ∧
      ((∀ e ∈ edits, ¬ e.IsLoop) → build vartype edits = .ok (ofEdits vartype edits)) ∧
      ∀ edit, (∀ fault, (ofEdits vartype edits).apply edit = .error fault ↔
          fault = .selfLoop ∧ edit.IsLoop) ∧
        (edit.IsLoop → ofEdits vartype (edits ++ [edit]) = ofEdits vartype edits) := by
  refine ⟨(tracks_ofEdits vartype edits).shows (ofEdits_wellFormed vartype edits),
    Store.ofEdits_reads vartype edits, fun hloop => ?_, fun edit =>
    ⟨apply_eq_error_iff _ edit, fun hloop => ?_⟩⟩
  · rw [build_eq_foldlM]
    exact foldlM_apply_eq hloop _
  · have hrefused : (ofEdits vartype edits).apply edit = .error .selfLoop :=
      (apply_eq_error_iff _ edit _).2 ⟨rfl, hloop⟩
    calc ofEdits vartype (edits ++ [edit])
        = (ofEdits vartype edits).attempt edit := List.foldl_append
      _ = ofEdits vartype edits := by unfold attempt; rw [hrefused]

end Model

end QuboSplit
