import Mathlib.Data.Sym.Sym2
import QuboSplit.Proofs.Model.Entries

/-!
# Interactions as unordered pairs

A loop over the couplings of each variable to smaller indices meets every interaction once, from the
larger of its ends. `pairs` lists the interactions as such a loop meets them: each is there once
(`nodup_pairs`), and models with the same interactions list the same pairs, whatever the indices of
their variables (`pairs_perm`).
-/

namespace QuboSplit.Model

variable {α : Type}

/-- The interactions of a variable with variables of smaller index. -/
def pairsOf (m : Model α) (n : Node α) : List (Sym2 Label) :=
  (n.row.take n.smaller).filterMap fun c => (m.label? c.1).map fun v => s(n.label, v)

/-- The interactions, each from its end of larger index. -/
def pairs (m : Model α) : List (Sym2 Label) := m.nodes.flatMap m.pairsOf

namespace WellFormed

variable {m : Model α} (hm : m.WellFormed) {i : Nat} {n : Node α}

include hm

theorem mem_pairsOf_iff (hn : m.nodes[i]? = some n) {p : Sym2 Label} :
    p ∈ m.pairsOf n ↔ ∃ j v, j < i ∧ m.label? j = some v ∧ m.coupling? n.label v ≠ none ∧
      p = s(n.label, v) := by
  have hi := hm.index?_iff.2 (label?_of_node hn)
  unfold pairsOf
  rw [(hm.sound i n hn).take_smaller, List.mem_filterMap]
  constructor
  · rintro ⟨c, hc, hp⟩
    obtain ⟨hc, hlt⟩ := List.mem_filter.1 hc
    obtain ⟨v, hv, rfl⟩ := Option.map_eq_some_iff.1 hp
    refine ⟨c.1, v, of_decide_eq_true hlt, hv, ?_, rfl⟩
    rw [coupling?_of_index? hi (hm.index?_iff.2 hv), hm.mem_row_iff.1 (row_of_node hn ▸ hc)]
    exact Option.some_ne_none _
  · rintro ⟨j, v, hlt, hv, hcoupled, rfl⟩
    obtain ⟨b, hb⟩ := Option.ne_none_iff_exists'.1 hcoupled
    rw [coupling?_of_index? hi (hm.index?_iff.2 hv), ← hm.mem_row_iff, row_of_node hn] at hb
    exact ⟨(j, b), List.mem_filter.2 ⟨hb, decide_eq_true hlt⟩, by rw [hv]; rfl⟩

theorem nodup_pairsOf (hn : m.nodes[i]? = some n) : (m.pairsOf n).Nodup := by
  have hkeys : m.pairsOf n = ((n.row.take n.smaller).map Prod.fst).filterMap fun j =>
      (m.label? j).map fun v => s(n.label, v) := by
    rw [List.filterMap_map]
    rfl
  have hrow : ((n.row.take n.smaller).map Prod.fst).Nodup :=
    (((hm.sound i n hn).increasing.imp fun hlt => Nat.ne_of_lt hlt :
      (n.row.map Prod.fst).Nodup)).sublist ((List.take_sublist _ _).map _)
  rw [hkeys]
  refine hrow.filterMap fun j k p hj hk => ?_
  obtain ⟨v, hv, rfl⟩ := Option.map_eq_some_iff.1 hj
  obtain ⟨w, hw, e⟩ := Option.map_eq_some_iff.1 hk
  obtain rfl : w = v := Sym2.congr_right.1 e
  exact Option.some.inj ((hm.index?_iff.2 hv).symm.trans (hm.index?_iff.2 hw))

/-- Every interaction is met from one of its ends only. -/
theorem nodup_pairs : m.pairs.Nodup := by
  refine List.nodup_flatMap.2 ⟨fun n hn => ?_, List.pairwise_iff_getElem.2 fun i j hi hj hij => ?_⟩
  · obtain ⟨i, hi⟩ := List.getElem?_of_mem hn
    exact hm.nodup_pairsOf hi
  intro p hp hp'
  have hni := List.getElem?_eq_getElem hi
  have hnj := List.getElem?_eq_getElem hj
  obtain ⟨k, v, hki, hv, -, rfl⟩ := (hm.mem_pairsOf_iff hni).1 hp
  obtain ⟨l, w, hlj, hw, -, e⟩ := (hm.mem_pairsOf_iff hnj).1 hp'
  have hinj : ∀ {a b : Nat} {u : Label}, m.label? a = some u → m.label? b = some u → a = b :=
    fun ha hb => Option.some.inj ((hm.index?_iff.2 ha).symm.trans (hm.index?_iff.2 hb))
  rcases Sym2.eq_iff.1 e with ⟨e, -⟩ | ⟨-, e⟩
  · exact absurd (hinj (label?_of_node hni) (e ▸ label?_of_node hnj)) (Nat.ne_of_lt hij)
  · -- the smaller end of the one pair would be the larger of the other
    have : k = j := hinj (e ▸ hv) (label?_of_node hnj)
    omega

theorem mem_pairs_iff {u v : Label} : s(u, v) ∈ m.pairs ↔ m.coupling? u v ≠ none := by
  unfold pairs
  rw [List.mem_flatMap]
  constructor
  · rintro ⟨n, hn, hp⟩
    obtain ⟨i, hi⟩ := List.getElem?_of_mem hn
    obtain ⟨j, w, -, -, hcoupled, e⟩ := (hm.mem_pairsOf_iff hi).1 hp
    rcases Sym2.eq_iff.1 e with ⟨rfl, rfl⟩ | ⟨rfl, rfl⟩
    · exact hcoupled
    · rwa [hm.coupling?_comm]
  · intro hcoupled
    have hcoupled' : m.coupling? v u ≠ none := by rwa [hm.coupling?_comm]
    obtain ⟨b, hb⟩ := Option.ne_none_iff_exists'.1 hcoupled
    obtain ⟨b', hb'⟩ := Option.ne_none_iff_exists'.1 hcoupled'
    have hu := label?_indexOf (mem_labels_of_coupling? hb')
    have hv := label?_indexOf (mem_labels_of_coupling? hb)
    have hlarger : ∀ {u v : Label}, m.label? (m.indexOf u) = some u →
        m.label? (m.indexOf v) = some v → m.indexOf v < m.indexOf u → m.coupling? u v ≠ none →
        ∃ n ∈ m.nodes, s(u, v) ∈ m.pairsOf n := by
      intro u v hu hv hlt hcoupled
      obtain ⟨n, hn⟩ := exists_node (lt_size_of_label? hu)
      obtain rfl : n.label = u := Option.some.inj ((label?_of_node hn).symm.trans hu)
      exact ⟨n, List.mem_of_getElem? hn,
        (hm.mem_pairsOf_iff hn).2 ⟨m.indexOf v, v, hlt, hv, hcoupled, rfl⟩⟩
    rcases Nat.lt_trichotomy (m.indexOf v) (m.indexOf u) with hlt | e | hlt
    · exact hlarger hu hv hlt hcoupled
    · obtain rfl : v = u := Option.some.inj (hv.symm.trans (e ▸ hu))
      exact absurd (hm.coupling?_self v) hcoupled
    · obtain ⟨n, hn, hp⟩ := hlarger hv hu hlt hcoupled'
      exact ⟨n, hn, Sym2.eq_swap ▸ hp⟩

/-- There are as many interactions as pairs. -/
theorem interactions_eq : m.interactions = m.pairs.length := by
  have hsmaller : ∀ n ∈ m.nodes, (m.pairsOf n).length = n.smaller := by
    intro n hn
    obtain ⟨i, hi⟩ := List.getElem?_of_mem hn
    have hsound := hm.sound i n hi
    have hall : (n.row.take n.smaller).countP
        (fun c => ((m.label? c.1).map fun v => s(n.label, v)).isSome) =
        (n.row.take n.smaller).length := by
      refine List.countP_eq_length.2 fun c hc => ?_
      obtain ⟨n', hn'⟩ := exists_node (hsound.in_range c (List.mem_of_mem_take hc))
      rw [label?_of_node hn']
      rfl
    unfold pairsOf
    rw [List.length_filterMap_eq_countP, hall, List.length_take, hsound.smaller_eq]
    exact Nat.min_eq_left List.countP_le_length
  unfold pairs interactions
  rw [List.length_flatMap, List.map_congr_left hsmaller, List.sum, List.foldr_map]

end WellFormed

/-- Models with the same interactions list the same pairs. -/
theorem pairs_perm {m m' : Model α} (hm : m.WellFormed) (hm' : m'.WellFormed)
    (h : ∀ u v, m.coupling? u v = none ↔ m'.coupling? u v = none) : m.pairs.Perm m'.pairs := by
  refine (List.perm_ext_iff_of_nodup hm.nodup_pairs hm'.nodup_pairs).2 fun p => ?_
  induction p using Sym2.ind with
  | h u v => rw [hm.mem_pairs_iff, hm'.mem_pairs_iff, Ne, Ne, h]

end QuboSplit.Model
