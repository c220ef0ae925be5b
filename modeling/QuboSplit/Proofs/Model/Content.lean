import QuboSplit.Model.Content
import QuboSplit.Proofs.Model.Pairs
import QuboSplit.Proofs.Model.Polynomial
import QuboSplit.Proofs.Number.Equality

/-!
# Equality of content by entries

Two models have the same content exactly if they match in vartype, offset and every entry, in
whatever order their variables are stored (`sameContent_iff`). Rows are compared as finite maps to
the partners of a variable (`sameRow_iff`). Numbers of interactions, which are compared as well,
agree because the models list the same pairs (`Matches.pairs_perm`).
-/

namespace QuboSplit.Model

open Scalar (equal Equals LawfulEqual equals_iff_of_keys)

variable {α : Type}

/-! ### Partners -/

/-- The variables with which the one of index `i` interacts. -/
def partners (m : Model α) (i : Nat) : List Label := (m.row i).filterMap fun c => m.label? c.1

namespace WellFormed

variable {m : Model α} (hm : m.WellFormed) {u : Label} {i : Nat}

include hm

theorem length_partners (i : Nat) : (m.partners i).length = (m.row i).length := by
  unfold partners
  rw [List.length_filterMap_eq_countP, List.countP_eq_length]
  intro c hc
  obtain ⟨n, hn⟩ := exists_node (hm.lt_of_mem_row hc).1
  rw [label?_of_node hn]
  rfl

theorem nodup_partners (i : Nat) : (m.partners i).Nodup := by
  have hkeys : ((m.row i).map Prod.fst).Nodup := (hm.increasing i).imp fun hlt => Nat.ne_of_lt hlt
  have hpartners : m.partners i = ((m.row i).map Prod.fst).filterMap m.label? := by
    rw [List.filterMap_map]
    rfl
  rw [hpartners]
  refine hkeys.filterMap fun i j v hi hj => ?_
  exact Option.some.inj ((hm.index?_iff.2 hi).symm.trans (hm.index?_iff.2 hj))

theorem mem_partners_iff (hi : m.index? u = some i) {v : Label} :
    v ∈ m.partners i ↔ m.coupling? u v ≠ none := by
  unfold partners
  rw [List.mem_filterMap]
  constructor
  · rintro ⟨⟨j, b⟩, hc, hv⟩
    rw [coupling?_of_index? hi (hm.index?_iff.2 hv), hm.mem_row_iff.1 hc]
    simp
  · intro hne
    obtain ⟨b, hb⟩ := Option.ne_none_iff_exists'.1 hne
    obtain ⟨j, hj⟩ := exists_index?_of_mem (mem_labels_of_coupling? hb)
    rw [coupling?_of_index? hi hj] at hb
    exact ⟨(j, b), hm.mem_row_iff.2 hb, label?_of_index? hj⟩

end WellFormed

/-! ### Matching models -/

variable [Scalar α]

/-- The models have the same vartype and, with numbers compared numerically, the same offset, the
same variables with the same linear biases, and the same interactions with the same biases. -/
structure Matches (m m' : Model α) : Prop where
  vartype_eq : m.vartype = m'.vartype
  offset_equal : equal m.offset m'.offset = true
  linear : ∀ v, Equals (m.linear? v) (m'.linear? v)
  coupling : ∀ u v, Equals (m.coupling? u v) (m'.coupling? u v)

namespace Matches

variable {m m' m'' : Model α}

theorem mem_labels_iff (h : m.Matches m') (v : Label) : v ∈ m.labels ↔ v ∈ m'.labels := by
  rw [← not_iff_not, ← linear?_eq_none_iff, ← linear?_eq_none_iff]
  exact (h.linear v).eq_none_iff

theorem symm [LawfulEqual α] (h : m.Matches m') : m'.Matches m where
  vartype_eq := h.vartype_eq.symm
  offset_equal := LawfulEqual.symm h.offset_equal
  linear := fun v => (h.linear v).symm
  coupling := fun u v => (h.coupling u v).symm

theorem trans [LawfulEqual α] (h : m.Matches m') (h' : m'.Matches m'') : m.Matches m'' where
  vartype_eq := h.vartype_eq.trans h'.vartype_eq
  offset_equal := LawfulEqual.trans h.offset_equal h'.offset_equal
  linear := fun v => (h.linear v).trans (h'.linear v)
  coupling := fun u v => (h.coupling u v).trans (h'.coupling u v)

theorem size_eq (h : m.Matches m') (hm : m.WellFormed) (hm' : m'.WellFormed) :
    m.size = m'.size := by
  have hperm := (List.perm_ext_iff_of_nodup hm.labels_nodup hm'.labels_nodup).2 h.mem_labels_iff
  rw [← length_labels, ← length_labels, hperm.length_eq]

theorem pairs_perm (h : m.Matches m') (hm : m.WellFormed) (hm' : m'.WellFormed) :
    m.pairs.Perm m'.pairs :=
  Model.pairs_perm hm hm' fun u v => (h.coupling u v).eq_none_iff

theorem interactions_eq (h : m.Matches m') (hm : m.WellFormed) (hm' : m'.WellFormed) :
    m.interactions = m'.interactions := by
  rw [hm.interactions_eq, hm'.interactions_eq, (h.pairs_perm hm hm').length_eq]

end Matches

/-- Models of equal content have the same variables. -/
theorem mem_labels_of_sameContent {m other : Model α} (hm : m.labels.Nodup)
    (h : m.sameContent other = true) (v : Label) : v ∈ m.labels ↔ v ∈ other.labels := by
  unfold sameContent at h
  simp only [Bool.and_eq_true, beq_iff_eq] at h
  obtain ⟨⟨⟨⟨-, -⟩, hsize⟩, -⟩, hnodes⟩ := h
  have hsub : m.labels ⊆ other.labels := by
    intro v hv
    obtain ⟨n, hn, rfl⟩ := List.mem_map.1 hv
    have hsame := List.all_eq_true.1 hnodes n hn
    -- a variable that `other` lacks has no node there to compare with
    by_contra hnot
    unfold sameNode node? at hsame
    rw [index?_eq_none_iff.2 hnot] at hsame
    cases hsame
  have hperm : m.labels.Perm other.labels := by
    refine (List.subperm_of_subset hm hsub).perm_of_length_le ?_
    rw [length_labels, length_labels, hsize]
  exact hperm.mem_iff

/-! ### One node -/

section Node

variable {m m' : Model α} {u : Label} {i i' : Nat}

/-- A coupling has an equal one in a row exactly if the variable of the row has an equal
interaction. -/
theorem any_equal_iff {j : Nat} {v : Label} (hj : m.label? j = some v)
    (hi' : m'.index? u = some i') (b : α) :
    (((m.label? j).bind m'.index?).bind (m'.row i').bias?).any (equal b) = true ↔
      ∃ b', m'.coupling? u v = some b' ∧ equal b b' = true := by
  have hcoupling : m'.coupling? u v = (m'.index? v).bind (m'.row i').bias? := by
    unfold coupling?
    rw [hi', Option.bind_some]
  rw [hj, Option.bind_some, ← hcoupling, Option.any_eq_true]

variable (hm : m.WellFormed) (hm' : m'.WellFormed) (hi : m.index? u = some i)
  (hi' : m'.index? u = some i')

include hm hi hi'

/-- All couplings of a row have equal ones exactly if all interactions of its variable do. -/
theorem all_equal_iff :
    ((m.row i).all fun c =>
        (((m.label? c.1).bind m'.index?).bind (m'.row i').bias?).any (equal c.2)) = true ↔
      ∀ v b, m.coupling? u v = some b → ∃ b', m'.coupling? u v = some b' ∧ equal b b' = true := by
  rw [List.all_eq_true]
  constructor
  · intro h v b hb
    obtain ⟨j, hj⟩ := exists_index?_of_mem (mem_labels_of_coupling? hb)
    rw [coupling?_of_index? hi hj] at hb
    exact (any_equal_iff (label?_of_index? hj) hi' b).1 (h (j, b) (hm.mem_row_iff.2 hb))
  · intro h c hc
    obtain ⟨n, hn⟩ := exists_node (hm.lt_of_mem_row hc).1
    have hj := label?_of_node hn
    have hb : m.coupling? u n.label = some c.2 :=
      (coupling?_of_index? hi (hm.index?_iff.2 hj)).trans (hm.mem_row_iff.1 hc)
    exact (any_equal_iff hj hi' c.2).2 (h n.label c.2 hb)

include hm'

/-- Rows are the same exactly if the interactions of their variables are. -/
theorem sameRow_iff :
    m.sameRow m' (m.row i) (m'.row i') = true ↔
      ∀ v, Equals (m.coupling? u v) (m'.coupling? u v) := by
  unfold sameRow
  rw [Bool.and_eq_true, beq_iff_eq, all_equal_iff hm hi hi', ← hm.length_partners,
    ← hm'.length_partners]
  exact equals_iff_of_keys (hm.nodup_partners i) (hm'.nodup_partners i')
    (fun _ => hm.mem_partners_iff hi) fun _ => hm'.mem_partners_iff hi'

omit hi hi'

theorem sameNode_iff {i : Nat} {n : Node α} (hn : m.nodes[i]? = some n) :
    m.sameNode m' n = true ↔ Equals (m.linear? n.label) (m'.linear? n.label) ∧
      ∀ v, Equals (m.coupling? n.label v) (m'.coupling? n.label v) := by
  have hi := hm.index?_iff.2 (label?_of_node hn)
  rw [linear?_of_index? hi hn]
  unfold sameNode node?
  cases hi' : m'.index? n.label with
  | none =>
    rw [linear?_eq_none_iff.2 (index?_eq_none_iff.1 hi')]
    simp only [Option.bind_none, Option.any_none, Bool.false_eq_true, false_iff]
    rintro ⟨⟨⟩, -⟩
  | some i' =>
    obtain ⟨n', hn'⟩ := exists_node (lt_size_of_index? hi')
    rw [linear?_of_index? hi' hn', Option.bind_some, hn', Option.any_some, Bool.and_eq_true,
      ← row_of_node hn, ← row_of_node hn', sameRow_iff hm hm' hi hi']
    refine and_congr_left fun _ => ?_
    constructor
    · exact fun h => .some h
    · rintro ⟨⟩
      assumption

/-- Models have the same content exactly if they match. -/
theorem sameContent_iff : m.sameContent m' = true ↔ m.Matches m' := by
  have hnodes : m.nodes.all (m.sameNode m') = true ↔
      ∀ u ∈ m.labels, Equals (m.linear? u) (m'.linear? u) ∧
        ∀ v, Equals (m.coupling? u v) (m'.coupling? u v) := by
    unfold labels
    rw [List.all_eq_true, List.forall_mem_map]
    refine forall₂_congr fun n hn => ?_
    obtain ⟨i, hi⟩ := List.getElem?_of_mem hn
    exact sameNode_iff hm hm' hi
  constructor
  · intro h
    have hset := mem_labels_of_sameContent hm.labels_nodup h
    unfold sameContent at h
    simp only [Bool.and_eq_true, beq_iff_eq, hnodes] at h
    obtain ⟨⟨⟨⟨hvartype, hoffset⟩, -⟩, -⟩, hentries⟩ := h
    exact ⟨hvartype, hoffset, rel_linear? hset fun u hu => (hentries u hu).1,
      rel_coupling? hset fun u hu v _ => (hentries u hu).2 v⟩
  · intro h
    unfold sameContent
    simp only [Bool.and_eq_true, beq_iff_eq, hnodes]
    exact ⟨⟨⟨⟨h.vartype_eq, h.offset_equal⟩, h.size_eq hm hm'⟩, h.interactions_eq hm hm'⟩,
      fun u _ => ⟨h.linear u, h.coupling u⟩⟩

end Node

end QuboSplit.Model
