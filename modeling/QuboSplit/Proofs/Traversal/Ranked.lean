import Mathlib.Tactic
import QuboSplit.Proofs.Lists
import QuboSplit.Proofs.Model.Entries
import QuboSplit.Proofs.Traversal.Search
import QuboSplit.Traversal.Basic

/-!
# What a traversal selects

In each of the three modes a traversal of a ranking selects different variables that have not been
visited (`Traversed`). Given room it selects none only if every ranked variable has been visited,
and if all variables are ranked it selects as many as the size and the variables left allow.
-/

namespace QuboSplit

variable {α : Type}

/-- What a traversal with room for `size` variables selects. -/
structure Traversed (m : Model α) (ranked visited : List Label) (size : Nat)
    (labels : List Label) : Prop where
  nodup : labels.Nodup
  known : ∀ v ∈ labels, v ∈ m.labels
  unvisited : ∀ v ∈ labels, v ∉ visited
  eq_nil_iff : 0 < size → (labels = [] ↔ ∀ v ∈ ranked, v ∈ visited)
  length_eq : (∀ v ∈ m.labels, v ∈ ranked) → labels.length = min size (m.size - visited.length)

namespace Model

variable {m : Model α} {ranked visited : List Label}

/-! ### Indices of labels -/

theorem mem_knownIndices (hm : m.labels.Nodup) {v : Label} {i : Nat} (hi : m.label? i = some v) :
    i ∈ m.knownIndices visited ↔ v ∈ visited := by
  unfold knownIndices
  rw [List.mem_filterMap]
  constructor
  · rintro ⟨w, hw, hiw⟩
    obtain rfl := Option.some.inj (hi.symm.trans (label?_of_index? hiw))
    exact hw
  · intro hv
    exact ⟨v, hv, (index?_eq_some_iff hm).2 hi⟩

theorem knownIndices_eq (hknown : ∀ v ∈ visited, v ∈ m.labels) :
    m.knownIndices visited = visited.map m.indexOf := by
  unfold knownIndices
  rw [← List.filterMap_eq_map]
  exact List.filterMap_congr fun v hv => index?_indexOf (hknown v hv)

theorem openCount_knownIndices (hvisited : visited.Nodup) (hknown : ∀ v ∈ visited, v ∈ m.labels) :
    Search.openCount m.size (m.knownIndices visited) = m.size - visited.length := by
  have hnodup : (visited.map m.indexOf).Nodup :=
    hvisited.map_on fun u hu v hv e => indexOf_injOn (hknown u hu) (hknown v hv) e
  have hsub : ∀ i ∈ visited.map m.indexOf, i ∈ List.range m.size := by
    intro i hi
    obtain ⟨v, hv, rfl⟩ := List.mem_map.1 hi
    exact List.mem_range.2 (lt_size_of_index? (index?_indexOf (hknown v hv)))
  unfold Search.openCount
  rw [knownIndices_eq hknown, length_filter_not_mem List.nodup_range hnodup hsub, List.length_range,
    List.length_map]

/-! ### By energy -/

theorem traversed_walk {ranking : Ranking α} {size : Nat} (hm : m.labels.Nodup)
    (hranked : (ranking.map Prod.fst).Nodup) (hknown : ∀ v ∈ ranking.map Prod.fst, v ∈ m.labels)
    (hvisited : visited.Nodup) (hvknown : ∀ v ∈ visited, v ∈ m.labels) :
    Traversed m (ranking.map Prod.fst) visited size (ranking.walk visited size) := by
  have hmem : ∀ v ∈ ranking.walk visited size, v ∈ ranking.map Prod.fst ∧ v ∉ visited := by
    intro v hv
    have := List.mem_filter.1 (List.mem_of_mem_take hv)
    exact ⟨this.1, by simpa using this.2⟩
  refine ⟨(hranked.filter _).take, fun v hv => hknown v (hmem v hv).1, fun v hv => (hmem v hv).2,
    ?_, ?_⟩
  · intro hsize
    unfold Ranking.walk
    rw [Int.toNat_natCast, List.take_eq_nil_iff, List.filter_eq_nil_iff]
    constructor
    · rintro (h | h) v hv
      · omega
      · simpa using h v hv
    · intro h
      exact Or.inr fun v hv => by simpa using h v hv
  · intro hall
    have hperm : (ranking.map Prod.fst).Perm m.labels :=
      (List.perm_ext_iff_of_nodup hranked hm).2 fun v => ⟨hknown v, hall v⟩
    unfold Ranking.walk
    rw [Int.toNat_natCast, List.length_take, length_filter_not_mem hranked hvisited
      (fun v hv => hall v (hvknown v hv)), hperm.length_eq, length_labels]

/-! ### Along interactions -/

theorem WellFormed.graph (hm : m.WellFormed) : Search.Graph m.size m.links where
  in_range := by
    intro i j hj
    obtain ⟨c, hc, rfl⟩ := List.mem_map.1 hj
    exact (hm.lt_of_mem_row hc).1
  nodup := fun i => (hm.increasing i).imp fun hlt => Nat.ne_of_lt hlt

/-- Every index is that of a variable. -/
theorem WellFormed.exists_indexOf (hm : m.WellFormed) {i : Nat} (hi : i < m.size) :
    ∃ v ∈ m.labels, m.indexOf v = i := by
  obtain ⟨n, hn⟩ := exists_node hi
  have hlabel := label?_of_node hn
  have hmem := mem_labels_of_label? hlabel
  exact ⟨n.label, hmem, Option.some.inj ((index?_indexOf hmem).symm.trans (hm.index?_iff.2 hlabel))⟩

theorem lt_size_of_mem_map (hknown : ∀ v ∈ ranked, v ∈ m.labels) :
    ∀ i ∈ ranked.map m.indexOf, i < m.size := by
  intro i hi
  obtain ⟨v, hv, rfl⟩ := List.mem_map.1 hi
  exact lt_size_of_index? (index?_indexOf (hknown v hv))

theorem traversed_search (hm : m.WellFormed) {pick : Search.Discipline} (hpick : Search.Picks pick)
    {size : Nat} (hknown : ∀ v ∈ ranked, v ∈ m.labels)
    (hvisited : visited.Nodup) (hvknown : ∀ v ∈ visited, v ∈ m.labels) :
    Traversed m ranked visited size (m.search pick (ranked.map m.indexOf) visited size) := by
  have hseeds := lt_size_of_mem_map hknown
  have hfrontier := Search.Frontier.nil m.size (m.knownIndices visited)
  have hopen := Search.open_of_mem_run hm.graph hpick hseeds size hfrontier
  unfold search
  rw [Int.toNat_natCast]
  -- every index that the search yields has a label, so none is lost
  have hlength : ((Search.run m.links pick (ranked.map m.indexOf) size []
      (m.knownIndices visited)).filterMap m.label?).length =
      (Search.run m.links pick (ranked.map m.indexOf) size [] (m.knownIndices visited)).length := by
    rw [List.length_filterMap_eq_countP, List.countP_eq_length]
    intro i hi
    obtain ⟨v, hv, e⟩ := hm.exists_indexOf (hopen i hi).1
    rw [← e, label?_indexOf hv]
    rfl
  refine ⟨?_, fun v hv => ?_, fun v hv => ?_, ?_, fun hall => ?_⟩
  · refine (Search.nodup_run hm.graph hpick hseeds size hfrontier).filterMap fun i j v hi hj => ?_
    exact Option.some.inj ((hm.index?_iff.2 hi).symm.trans (hm.index?_iff.2 hj))
  · obtain ⟨i, -, hi⟩ := List.mem_filterMap.1 hv
    exact mem_labels_of_label? hi
  · obtain ⟨i, hrun, hi⟩ := List.mem_filterMap.1 hv
    intro hmem
    exact (hopen i hrun).2 ((mem_knownIndices hm.labels_nodup hi).2 hmem)
  · intro hsize
    obtain ⟨budget, rfl⟩ := Nat.exists_eq_succ_of_ne_zero (Nat.ne_of_gt hsize)
    rw [← List.length_eq_zero_iff, hlength, List.length_eq_zero_iff,
      Search.run_eq_nil_iff hpick, List.forall_mem_map]
    have hiff : ∀ v ∈ ranked, m.indexOf v ∈ m.knownIndices visited ↔ v ∈ visited := fun v hv =>
      mem_knownIndices hm.labels_nodup (label?_indexOf (hknown v hv))
    constructor
    · intro h v hv
      exact (hiff v hv).1 (h.2 v hv)
    · intro h
      exact ⟨rfl, fun v hv => (hiff v hv).2 (h v hv)⟩
  · -- when all variables are ranked every index is a seed
    have hseeds' : ∀ i, i ∈ ranked.map m.indexOf ↔ i < m.size := by
      intro i
      refine ⟨hseeds i, fun hi => ?_⟩
      obtain ⟨v, hv, rfl⟩ := hm.exists_indexOf hi
      exact List.mem_map_of_mem (hall v hv)
    rw [hlength, Search.length_run hm.graph hpick hseeds' size hfrontier,
      openCount_knownIndices hvisited hvknown]

/-! ### In every mode -/

section Known

variable [Scalar α] {ranking : Ranking α} (hknown : ∀ v ∈ ranking.map Prod.fst, v ∈ m.labels)

include hknown

theorem traverse_breadthFirst (visited : List Label) (size : Int) :
    m.traverse .breadthFirst ranking visited size =
      .ok (m.search Search.firstFound ((ranking.map Prod.fst).map m.indexOf) visited size) := by
  unfold traverse
  dsimp only
  rw [mapM_index hknown]
  rfl

theorem traverse_priorityFirst (visited : List Label) (size : Int) :
    let score := scoreOf (((ranking.map Prod.fst).map m.indexOf).zip (ranking.map Prod.snd))
    m.traverse .priorityFirst ranking visited size =
      .ok (m.search (Search.bestFound fun i j => (score i).exceeds (score j))
        ((ranking.map Prod.fst).map m.indexOf) visited size) := by
  unfold traverse
  dsimp only
  rw [mapM_index hknown]
  rfl

end Known

/-- A traversal of known variables succeeds. -/
theorem exists_traverse [Scalar α] (hm : m.WellFormed) (mode : Traversal) {ranking : Ranking α}
    (size : Nat) (hranked : (ranking.map Prod.fst).Nodup)
    (hknown : ∀ v ∈ ranking.map Prod.fst, v ∈ m.labels) (hvisited : visited.Nodup)
    (hvknown : ∀ v ∈ visited, v ∈ m.labels) :
    ∃ labels, m.traverse mode ranking visited size = .ok labels ∧
      Traversed m (ranking.map Prod.fst) visited size labels := by
  cases mode with
  | energy =>
    exact ⟨_, rfl, traversed_walk hm.labels_nodup hranked hknown hvisited hvknown⟩
  | breadthFirst =>
    exact ⟨_, traverse_breadthFirst hknown visited size,
      traversed_search hm Search.picks_firstFound hknown hvisited hvknown⟩
  | priorityFirst =>
    exact ⟨_, traverse_priorityFirst hknown visited size,
      traversed_search hm (Search.picks_bestFound _) hknown hvisited hvknown⟩

/-- A traversal selects no more than it is asked for. -/
theorem length_traverse_le [Scalar α] {mode : Traversal} {ranking : Ranking α} {size : Int}
    {labels : List Label} (h : m.traverse mode ranking visited size = .ok labels) :
    labels.length ≤ size.toNat := by
  have hsearch : ∀ (pick : Search.Discipline) (seeds : List Nat),
      (m.search pick seeds visited size).length ≤ size.toNat := fun pick seeds =>
    (List.length_filterMap_le _ _).trans (Search.length_run_le _ _ _ _ _ _)
  unfold traverse at h
  cases mode with
  | energy =>
    cases h
    exact List.length_take_le _ _
  | breadthFirst =>
    obtain ⟨seeds, -, h⟩ := exists_of_bind_eq_ok h
    cases h
    exact hsearch _ seeds
  | priorityFirst =>
    obtain ⟨seeds, -, h⟩ := exists_of_bind_eq_ok h
    cases h
    exact hsearch _ seeds

end Model

end QuboSplit
