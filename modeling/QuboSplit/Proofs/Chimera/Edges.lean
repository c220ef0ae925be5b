import Mathlib.Data.List.ProdSigma
import Mathlib.Tactic
import QuboSplit.Proofs.Chimera.Lattice
import QuboSplit.Proofs.StableSort

/-!
# The list of edges

The links of a lattice can be collected cell by cell: across the cell, down to the next row and
right to the next column. Then there are as many as `edgeCount` says (`length_links`), and each is
listed once (`nodup_links`). The edges are these links by the numbers of their nodes, sorted
(`edges_list_links`).
-/

namespace QuboSplit.Lattice

variable {l : Lattice} {p q : Place} {row column a b : Nat}

/-! ### Links cell by cell -/

/-- The links across a cell. -/
def acrossLinks (l : Lattice) (row column : Nat) : List (Place × Place) :=
  (List.range l.shore ×ˢ List.range l.shore).map
    fun (k, k') => (⟨row, column, 0, k⟩, ⟨row, column, 1, k'⟩)

/-- The links from a cell to the next row, if there is one. -/
def downLinks (l : Lattice) (row column : Nat) : List (Place × Place) :=
  if row + 1 < l.rows then
    (List.range l.shore).map fun k => (⟨row, column, 0, k⟩, ⟨row + 1, column, 0, k⟩)
  else []

/-- The links from a cell to the next column, if there is one. -/
def rightLinks (l : Lattice) (row column : Nat) : List (Place × Place) :=
  if column + 1 < l.columns then
    (List.range l.shore).map fun k => (⟨row, column, 1, k⟩, ⟨row, column + 1, 1, k⟩)
  else []

/-- The links that start in a cell. -/
def cellLinks (l : Lattice) (row column : Nat) : List (Place × Place) :=
  l.acrossLinks row column ++ l.downLinks row column ++ l.rightLinks row column

/-- All links, row by row and cell by cell. -/
def links (l : Lattice) : List (Place × Place) :=
  (List.range l.rows).flatMap fun row => (List.range l.columns).flatMap (l.cellLinks row)

theorem mem_cellLinks_iff (hrow : row < l.rows) (hcolumn : column < l.columns) :
    (p, q) ∈ l.cellLinks row column ↔
      p.row = row ∧ p.column = column ∧ l.Contains p ∧ l.Contains q ∧ p.LinksTo q := by
  obtain ⟨i, j, side, offset⟩ := p
  obtain ⟨i', j', side', offset'⟩ := q
  unfold cellLinks acrossLinks downLinks rightLinks Contains Place.LinksTo
  simp only [List.mem_append, List.mem_ite_nil_right, List.mem_map, Prod.exists, List.mem_product,
    List.mem_range, Prod.mk.injEq, Place.mk.injEq]
  constructor
  · rintro ((⟨k, k', ⟨hk, hk'⟩, ⟨rfl, rfl, rfl, rfl⟩, rfl, rfl, rfl, rfl⟩ |
      ⟨hnext, k, hk, ⟨rfl, rfl, rfl, rfl⟩, rfl, rfl, rfl, rfl⟩) |
      ⟨hnext, k, hk, ⟨rfl, rfl, rfl, rfl⟩, rfl, rfl, rfl, rfl⟩)
    all_goals omega
  · rintro ⟨rfl, rfl, ⟨-, -, -, hoffset⟩, ⟨hrow', hcolumn', -, hoffset'⟩,
      ⟨rfl, rfl, rfl, rfl⟩ | ⟨rfl, rfl, rfl, rfl, rfl⟩ | ⟨rfl, rfl, rfl, rfl, rfl⟩⟩
    · exact .inl (.inl ⟨_, _, ⟨hoffset, hoffset'⟩, ⟨rfl, rfl, rfl, rfl⟩, rfl, rfl, rfl, rfl⟩)
    · exact .inl (.inr ⟨hrow', _, hoffset, ⟨rfl, rfl, rfl, rfl⟩, rfl, rfl, rfl, rfl⟩)
    · exact .inr ⟨hcolumn', _, hoffset, ⟨rfl, rfl, rfl, rfl⟩, rfl, rfl, rfl, rfl⟩

theorem mem_links_iff : (p, q) ∈ l.links ↔ l.Contains p ∧ l.Contains q ∧ p.LinksTo q := by
  unfold links
  simp only [List.mem_flatMap, List.mem_range]
  constructor
  · rintro ⟨row, hrow, column, hcolumn, hmem⟩
    exact ((mem_cellLinks_iff hrow hcolumn).1 hmem).2.2
  · rintro ⟨hp, hq, h⟩
    exact ⟨p.row, hp.1, p.column, hp.2.1, (mem_cellLinks_iff hp.1 hp.2.1).2 ⟨rfl, rfl, hp, hq, h⟩⟩

theorem nodup_cellLinks (l : Lattice) (row column : Nat) : (l.cellLinks row column).Nodup := by
  have hrange : (List.range l.shore).Nodup := List.nodup_range
  have hacross : (l.acrossLinks row column).Nodup := by
    refine (hrange.product hrange).map ?_
    rintro ⟨k, k'⟩ ⟨k₁, k₁'⟩ h
    simpa using h
  have hdown : (l.downLinks row column).Nodup := by
    unfold downLinks
    split
    · exact hrange.map fun k k' h => congrArg (fun e => e.1.offset) h
    · exact .nil
  have hright : (l.rightLinks row column).Nodup := by
    unfold rightLinks
    split
    · exact hrange.map fun k k' h => congrArg (fun e => e.1.offset) h
    · exact .nil
  -- the three kinds differ in the sides that they link
  have hacross' : ∀ e ∈ l.acrossLinks row column, e.1.side = 0 ∧ e.2.side = 1 :=
    List.forall_mem_map.2 fun _ _ => ⟨rfl, rfl⟩
  have hdown' : ∀ e ∈ l.downLinks row column, e.2.side = 0 := by
    intro e he
    obtain ⟨k, -, rfl⟩ := List.mem_map.1 (List.mem_ite_nil_right.1 he).2
    rfl
  have hright' : ∀ e ∈ l.rightLinks row column, e.1.side = 1 ∧ e.2.side = 1 := by
    intro e he
    obtain ⟨k, -, rfl⟩ := List.mem_map.1 (List.mem_ite_nil_right.1 he).2
    exact ⟨rfl, rfl⟩
  refine List.nodup_append'.2 ⟨List.nodup_append'.2 ⟨hacross, hdown, ?_⟩, hright, ?_⟩
  · intro e he he'
    exact absurd ((hdown' e he').symm.trans (hacross' e he).2) zero_ne_one
  · intro e he he'
    rcases List.mem_append.1 he with he | he
    · exact absurd ((hacross' e he).1.symm.trans (hright' e he').1) zero_ne_one
    · exact absurd ((hdown' e he).symm.trans (hright' e he').2) zero_ne_one

theorem nodup_links (l : Lattice) : l.links.Nodup := by
  refine List.nodup_flatMap.2 ⟨fun row hrow => List.nodup_flatMap.2
    ⟨fun column _ => l.nodup_cellLinks row column, ?_⟩, ?_⟩
  · refine List.nodup_range.imp_of_mem fun {j j'} hj hj' hne => ?_
    rintro ⟨p, q⟩ h h'
    obtain ⟨-, e, -⟩ := (mem_cellLinks_iff (List.mem_range.1 hrow) (List.mem_range.1 hj)).1 h
    obtain ⟨-, e', -⟩ := (mem_cellLinks_iff (List.mem_range.1 hrow) (List.mem_range.1 hj')).1 h'
    exact hne (e.symm.trans e')
  · refine List.nodup_range.imp_of_mem fun {i i'} hi hi' hne => ?_
    rintro ⟨p, q⟩ h h'
    obtain ⟨j, hj, h⟩ := List.mem_flatMap.1 h
    obtain ⟨j', hj', h'⟩ := List.mem_flatMap.1 h'
    obtain ⟨e, -⟩ := (mem_cellLinks_iff (List.mem_range.1 hi) (List.mem_range.1 hj)).1 h
    obtain ⟨e', -⟩ := (mem_cellLinks_iff (List.mem_range.1 hi') (List.mem_range.1 hj')).1 h'
    exact hne (e.symm.trans e')

/-- Each cell but the last has a next one. -/
theorem sum_next (n t : Nat) :
    ((List.range n).map fun i => if i + 1 < n then t else 0).sum = (n - 1) * t := by
  cases n with
  | zero => exact (Nat.zero_mul t).symm
  | succ n =>
    have hnext : (List.range n).map (fun i => if i + 1 < n + 1 then t else 0) =
        (List.range n).map fun _ => t :=
      List.map_congr_left fun i hi => if_pos (Nat.succ_lt_succ (List.mem_range.1 hi))
    rw [List.range_succ, List.map_append, List.sum_append, hnext]
    simp

theorem length_links (l : Lattice) : l.links.length = l.edgeCount := by
  have hcell : ∀ row column, (l.cellLinks row column).length =
      l.shore * l.shore + (if row + 1 < l.rows then l.shore else 0) +
        (if column + 1 < l.columns then l.shore else 0) := by
    intro row column
    unfold cellLinks acrossLinks downLinks rightLinks
    simp only [List.length_append, List.length_map, List.length_product, List.length_range,
      apply_ite List.length, List.length_nil]
  unfold links edgeCount
  simp only [List.length_flatMap, hcell, List.sum_map_add, List.map_const', List.sum_replicate,
    List.length_range, sum_next, smul_eq_mul, List.sum_map_mul_left]
  ring

/-! ### Edges in order -/

theorem greater_ordered (l : Lattice) (p : Place) : (l.greater p).Pairwise Place.Before := by
  unfold greater
  split
  · refine List.pairwise_append.2 ⟨?_, ?_, ?_⟩
    · refine List.pairwise_map.2 (List.pairwise_lt_range.imp fun hlt => ?_)
      exact .inr ⟨rfl, .inr ⟨rfl, .inr ⟨rfl, hlt⟩⟩⟩
    · split <;> simp
    · intro q hq r hr
      obtain ⟨k, -, rfl⟩ := List.mem_map.1 hq
      rw [List.mem_ite_nil_right, List.mem_singleton] at hr
      obtain ⟨-, rfl⟩ := hr
      exact .inl (Nat.lt_succ_self p.row)
  · split <;> simp

/-- Edges stand in the order of their smaller ends, and then of their greater ends. -/
theorem edges_ordered (l : Lattice) : l.edges.Pairwise (Prod.Lex (· < ·) (· < ·)) := by
  unfold edges
  refine List.pairwise_flatMap.2 ⟨fun a ha => ?_, ?_⟩
  · have hp := contains_place (List.mem_range.1 ha)
    refine List.pairwise_map.2 ((l.greater_ordered (l.place a)).imp_of_mem fun hq _ hbefore => ?_)
    exact .right a (index_lt_index ((mem_greater_iff hp).1 hq).1 hbefore)
  · refine List.pairwise_lt_range.imp fun {a b} hlt x hx y hy => ?_
    obtain ⟨p, -, rfl⟩ := List.mem_map.1 hx
    obtain ⟨q, -, rfl⟩ := List.mem_map.1 hy
    exact .left _ _ hlt

/-- The edges are the links by the numbers of their nodes. -/
theorem edges_perm (l : Lattice) :
    l.edges.Perm (l.links.map fun e => (l.index e.1, l.index e.2)) := by
  have hedges : l.edges.Nodup := l.edges_ordered.imp fun hlex e => by
    rw [e, Prod.lex_def] at hlex
    omega
  have hlinks : (l.links.map fun e => (l.index e.1, l.index e.2)).Nodup := by
    refine l.nodup_links.map_on fun e he f hf h => ?_
    obtain ⟨hp, hq, -⟩ := mem_links_iff.1 he
    obtain ⟨hp', hq', -⟩ := mem_links_iff.1 hf
    obtain ⟨hfirst, hsecond⟩ := Prod.mk.inj h
    refine Prod.ext ?_ ?_
    · rw [← place_index hp, hfirst, place_index hp']
    · rw [← place_index hq, hsecond, place_index hq']
  refine (List.perm_ext_iff_of_nodup hedges hlinks).2 fun ⟨a, b⟩ => ?_
  rw [mem_edges_iff, List.mem_map]
  constructor
  · rintro ⟨ha, hb, h⟩
    exact ⟨(l.place a, l.place b), mem_links_iff.2 ⟨contains_place ha, contains_place hb, h⟩,
      Prod.ext (l.index_place a) (l.index_place b)⟩
  · rintro ⟨⟨p, q⟩, hmem, h⟩
    cases h
    obtain ⟨hp, hq, hlinks⟩ := mem_links_iff.1 hmem
    exact ⟨index_lt hp, index_lt hq, by rwa [place_index hp, place_index hq]⟩

/-- Sorted, the links are the edges. -/
theorem edges_eq_stableSort (l : Lattice) :
    l.edges = stableSort (fun e f => decide (Prod.Lex (· < ·) (· < ·) e f))
      (l.links.map fun e => (l.index e.1, l.index e.2)) := by
  let less : Nat × Nat → Nat × Nat → Bool := fun e f => decide (Prod.Lex (· < ·) (· < ·) e f)
  have hless : ∀ e f, less e f = true ↔ e.1 < f.1 ∨ e.1 = f.1 ∧ e.2 < f.2 := fun e f =>
    decide_eq_true_iff.trans Prod.lex_def
  have hasymm : ∀ e f, less e f = true → less f e = false := by
    intro e f h
    rw [← Bool.not_eq_true, hless]
    rw [hless] at h
    omega
  have htrans : ∀ e f g, True → less f e = false → less g f = false → less g e = false := by
    intro e f g _ h h'
    rw [← Bool.not_eq_true, hless] at h h' ⊢
    omega
  have hedges : l.edges.Pairwise fun e f => less f e = false :=
    l.edges_ordered.imp fun hlex => hasymm _ _ (decide_eq_true hlex)
  have hsorted : (stableSort less (l.links.map fun e => (l.index e.1, l.index e.2))).Pairwise
      fun e f => less f e = false := stableSort_sorted hasymm htrans fun _ _ => trivial
  refine (l.edges_perm.trans (stableSort_perm less _).symm).eq_of_pairwise ?_ hedges hsorted
  intro e f _ _ h h'
  rw [← Bool.not_eq_true, hless] at h h'
  exact Prod.ext (by omega) (by omega)

/-- The edges are listed in strictly increasing order and are as many as the lattice has. Listed are
the pairs of nodes of which the first has the smaller number and that are in the same cell and on
its first and second side, or on the first side of cells below one another and of one offset, or on
the second side of neighboring cells of one row and of one offset. Collecting the links cell by cell
and sorting them gives this list. -/
theorem edges_list_links (l : Lattice) :
    l.edges.Pairwise (Prod.Lex (· < ·) (· < ·)) ∧ l.edges.length = l.edgeCount ∧
      (∀ a b, (a, b) ∈ l.edges ↔ a < b ∧ b < l.nodeCount ∧ (l.place a).LinksTo (l.place b)) ∧
      l.edges = stableSort (fun e f => decide (Prod.Lex (· < ·) (· < ·) e f))
        (l.links.map fun e => (l.index e.1, l.index e.2)) := by
  refine ⟨l.edges_ordered, ?_, fun a b => ?_, l.edges_eq_stableSort⟩
  · rw [l.edges_perm.length_eq, List.length_map, length_links]
  · rw [mem_edges_iff]
    constructor
    · rintro ⟨ha, hb, h⟩
      have hlt := index_lt_index (contains_place ha) h.before
      rw [index_place, index_place] at hlt
      exact ⟨hlt, hb, h⟩
    · rintro ⟨hlt, hb, h⟩
      exact ⟨hlt.trans hb, hb, h⟩

/-- Two cells below one another have no edge to a next column. -/
example : (Lattice.mk 2 1 1 two_pos one_pos one_pos).edges = [(0, 1), (0, 2), (2, 3)] := by decide

end QuboSplit.Lattice
