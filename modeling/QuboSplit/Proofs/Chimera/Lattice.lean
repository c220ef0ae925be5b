import Mathlib.Tactic
import QuboSplit.Chimera.Lattice
import QuboSplit.Label

/-!
# Nodes and edges of a lattice

Numbering the nodes and finding their places undo each other (`index_place`, `place_index`), and
numbers go up along rows, columns, sides and offsets, and only so (`before_iff_index_lt`). So the
list of edges can be read place by place: an edge goes across a cell, down to the next row or right
to the next column (`mem_edges_iff`).
-/

namespace QuboSplit

/-! ### Digits -/

theorem digits_div {a b n : Nat} (hb : b < n) : (a * n + b) / n = a := by
  rw [Nat.mul_comm, Nat.mul_add_div (by omega), Nat.div_eq_of_lt hb, Nat.add_zero]

theorem digits_lt {a b m n : Nat} (ha : a < m) (hb : b < n) : a * n + b < m * n :=
  Nat.mul_comm a n ▸ Nat.mul_add_lt_mul_of_lt_of_lt ha hb

/-- The digits before decide, and then the last ones. -/
theorem digits_lt_digits {a b a' b' n : Nat} (hb : b < n) (h : a < a' ∨ a = a' ∧ b < b') :
    a * n + b < a' * n + b' := by
  rcases h with h | ⟨rfl, h⟩
  · calc a * n + b < (a + 1) * n := by
          rw [Nat.succ_mul]
          omega
      _ ≤ a' * n := Nat.mul_le_mul_right n h
      _ ≤ a' * n + b' := Nat.le_add_right _ _
  · omega

/-- The order of places by row, then column, then side, then offset. -/
def Place.Before (p q : Place) : Prop :=
  p.row < q.row ∨ p.row = q.row ∧ (p.column < q.column ∨ p.column = q.column ∧
    (p.side < q.side ∨ p.side = q.side ∧ p.offset < q.offset))

theorem Place.before_trichotomy (p q : Place) : p.Before q ∨ p = q ∨ q.Before p := by
  obtain ⟨row, column, side, offset⟩ := p
  obtain ⟨row', column', side', offset'⟩ := q
  rw [Place.mk.injEq]
  unfold Before
  dsimp only
  omega

/-- The place `q` is linked to `p` and follows it: on the other side of the cell, on the first side
of the cell below, or on the second side of the cell to the right. -/
def Place.LinksTo (p q : Place) : Prop :=
  (q.row = p.row ∧ q.column = p.column ∧ p.side = 0 ∧ q.side = 1) ∨
  (q.row = p.row + 1 ∧ q.column = p.column ∧ p.side = 0 ∧ q.side = 0 ∧ q.offset = p.offset) ∨
  (q.row = p.row ∧ q.column = p.column + 1 ∧ p.side = 1 ∧ q.side = 1 ∧ q.offset = p.offset)

theorem Place.LinksTo.before {p q : Place} (h : p.LinksTo q) : p.Before q := by
  unfold LinksTo at h
  unfold Before
  omega

namespace Lattice

variable {l : Lattice} {p q : Place} {a b : Nat}

/-! ### Numbers and places -/

theorem index_place (l : Lattice) (a : Nat) : l.index (l.place a) = a := by
  unfold index place
  dsimp only
  rw [Nat.div_add_mod', Nat.div_add_mod', Nat.div_add_mod']

theorem place_index (h : l.Contains p) : l.place (l.index p) = p := by
  obtain ⟨-, hcolumn, hside, hoffset⟩ := h
  unfold index place
  rw [digits_div hoffset, digits_div hside, digits_div hcolumn, Nat.mul_add_mod_of_lt hcolumn,
    Nat.mul_add_mod_of_lt hside, Nat.mul_add_mod_of_lt hoffset]

theorem contains_place (h : a < l.nodeCount) : l.Contains (l.place a) := by
  refine ⟨?_, Nat.mod_lt _ l.columns_pos, Nat.mod_lt _ Nat.two_pos, Nat.mod_lt _ l.shore_pos⟩
  have hcount : l.nodeCount = l.shore * (2 * (l.columns * l.rows)) := by
    unfold nodeCount
    ring
  rw [hcount] at h
  exact Nat.div_lt_of_lt_mul (Nat.div_lt_of_lt_mul (Nat.div_lt_of_lt_mul h))

theorem index_lt (h : l.Contains p) : l.index p < l.nodeCount := by
  obtain ⟨hrow, hcolumn, hside, hoffset⟩ := h
  have hcount : l.nodeCount = l.rows * l.columns * 2 * l.shore := by
    unfold nodeCount
    ring
  rw [hcount]
  exact digits_lt (digits_lt (digits_lt hrow hcolumn) hside) hoffset

/-- Nodes are numbered in the order of their places. -/
theorem index_lt_index (hp : l.Contains p) (h : p.Before q) : l.index p < l.index q := by
  obtain ⟨-, hcolumn, hside, hoffset⟩ := hp
  refine digits_lt_digits hoffset ?_
  rcases h with hrow | ⟨hrow, h⟩
  · exact .inl (digits_lt_digits hside (.inl (digits_lt_digits hcolumn (.inl hrow))))
  rcases h with h | ⟨hcolumn', h⟩
  · exact .inl (digits_lt_digits hside (.inl (digits_lt_digits hcolumn (.inr ⟨hrow, h⟩))))
  have hcell : p.row * l.columns + p.column = q.row * l.columns + q.column := by
    rw [hrow, hcolumn']
  rcases h with h | ⟨hside', h⟩
  · exact .inl (digits_lt_digits hside (.inr ⟨hcell, h⟩))
  · exact .inr ⟨by rw [hcell, hside'], h⟩

/-- Nodes have different numbers, so their numbers tell the order of their places. -/
theorem before_iff_index_lt (hp : l.Contains p) (hq : l.Contains q) :
    p.Before q ↔ l.index p < l.index q := by
  refine ⟨index_lt_index hp, fun hlt => ?_⟩
  rcases Place.before_trichotomy p q with h | rfl | h
  · exact h
  · exact absurd hlt (Nat.lt_irrefl _)
  · exact absurd (index_lt_index hq h) (Nat.lt_asymm hlt)

/-- Every number of a node is that of its place, which lies in the lattice. Every place of the
lattice is that of its number, which is one of a node. A place comes before another exactly if its
number is smaller. -/
theorem place_inverts_index (l : Lattice) :
    (∀ a, a < l.nodeCount → l.Contains (l.place a) ∧ l.index (l.place a) = a) ∧
      (∀ p, l.Contains p → l.index p < l.nodeCount ∧ l.place (l.index p) = p) ∧
      ∀ p q, l.Contains p → l.Contains q → (p.Before q ↔ l.index p < l.index q) :=
  ⟨fun a ha => ⟨contains_place ha, l.index_place a⟩, fun _ hp => ⟨index_lt hp, place_index hp⟩,
    fun _ _ => before_iff_index_lt⟩

/-- In a lattice of two rows and three columns the last node of a first side comes before the first
node of the second side. -/
theorem place_inverts_index_cells :
    let l : Lattice := ⟨2, 3, 5, two_pos, three_pos, by decide⟩
    l.nodeCount = 60 ∧ l.place 54 = ⟨1, 2, 0, 4⟩ ∧ l.index (l.place 54) = 54 ∧
      l.index ⟨1, 2, 1, 0⟩ < l.nodeCount ∧ l.place (l.index ⟨1, 2, 1, 0⟩) = ⟨1, 2, 1, 0⟩ ∧
      l.index ⟨1, 2, 0, 4⟩ < l.index ⟨1, 2, 1, 0⟩ := by
  intro l
  obtain ⟨hnumbers, hplaces, horder⟩ := place_inverts_index l
  obtain ⟨hlt, hplace⟩ := hplaces ⟨1, 2, 1, 0⟩ (by decide)
  refine ⟨by decide, by decide, (hnumbers 54 (by decide)).2, hlt, hplace, ?_⟩
  exact (horder ⟨1, 2, 0, 4⟩ ⟨1, 2, 1, 0⟩ (by decide) (by decide)).1
    (.inr ⟨rfl, .inr ⟨rfl, .inl one_pos⟩⟩)

/-! ### Edges -/

theorem mem_greater_iff (hp : l.Contains p) : q ∈ l.greater p ↔ l.Contains q ∧ p.LinksTo q := by
  obtain ⟨row, column, side, offset⟩ := p
  obtain ⟨row', column', side', offset'⟩ := q
  obtain ⟨hrow, hcolumn, hside, hoffset⟩ := hp
  unfold greater Contains Place.LinksTo
  dsimp only at hrow hcolumn hside hoffset ⊢
  rcases (by omega : side = 0 ∨ side = 1) with rfl | rfl
  · rw [if_pos rfl, List.mem_append, List.mem_map]
    simp only [List.mem_range, Place.mk.injEq, List.mem_ite_nil_right, List.mem_singleton, true_and]
    constructor
    · rintro (⟨k, hk, rfl, rfl, rfl, rfl⟩ | ⟨hlt, rfl, rfl, rfl, rfl⟩)
      · omega
      · omega
    · rintro ⟨⟨hlt, -, -, hk⟩, ⟨rfl, rfl, rfl⟩ | ⟨rfl, rfl, rfl, rfl⟩ | h⟩
      · exact Or.inl ⟨offset', hk, rfl, rfl, rfl, rfl⟩
      · exact Or.inr ⟨hlt, rfl, rfl, rfl, rfl⟩
      · omega
  · rw [if_neg one_ne_zero]
    simp only [List.mem_ite_nil_right, List.mem_singleton, Place.mk.injEq, true_and]
    omega

/-- The edges are the pairs of nodes whose places follow one another. -/
theorem mem_edges_iff : (a, b) ∈ l.edges ↔
    a < l.nodeCount ∧ b < l.nodeCount ∧ (l.place a).LinksTo (l.place b) := by
  unfold edges
  rw [List.mem_flatMap]
  constructor
  · rintro ⟨x, hx, hmem⟩
    obtain ⟨q, hq, e⟩ := List.mem_map.1 hmem
    cases e
    have ha := List.mem_range.1 hx
    obtain ⟨hcontains, hlinks⟩ := (mem_greater_iff (contains_place ha)).1 hq
    exact ⟨ha, index_lt hcontains, by rwa [place_index hcontains]⟩
  · rintro ⟨ha, hb, hlinks⟩
    have hq := (mem_greater_iff (contains_place ha)).2 ⟨contains_place hb, hlinks⟩
    exact ⟨a, List.mem_range.2 ha, List.mem_map.2 ⟨l.place b, hq, by rw [index_place]⟩⟩

/-- The two labels name the ends of an edge. -/
def Joins (l : Lattice) (u v : Label) : Prop :=
  ∃ a b : Nat, u = .number a ∧ v = .number b ∧ ((a, b) ∈ l.edges ∨ (b, a) ∈ l.edges)

theorem joins_iff : l.Joins (.number a) (.number b) ↔ (a, b) ∈ l.edges ∨ (b, a) ∈ l.edges := by
  constructor
  · rintro ⟨a', b', ha, hb, h⟩
    obtain rfl := Int.ofNat.inj (Label.number.inj ha)
    obtain rfl := Int.ofNat.inj (Label.number.inj hb)
    exact h
  · exact fun h => ⟨a, b, rfl, rfl, h⟩

theorem joins_iff_exists_edge {u v : Label} : l.Joins u v ↔
    ∃ e ∈ l.edges, (u = .number e.1 ∧ v = .number e.2) ∨ (u = .number e.2 ∧ v = .number e.1) := by
  constructor
  · rintro ⟨a, b, rfl, rfl, h | h⟩
    · exact ⟨_, h, Or.inl ⟨rfl, rfl⟩⟩
    · exact ⟨_, h, Or.inr ⟨rfl, rfl⟩⟩
  · rintro ⟨⟨a, b⟩, h, ⟨rfl, rfl⟩ | ⟨rfl, rfl⟩⟩
    · exact ⟨a, b, rfl, rfl, Or.inl h⟩
    · exact ⟨b, a, rfl, rfl, Or.inr h⟩

instance (l : Lattice) (u v : Label) : Decidable (l.Joins u v) :=
  decidable_of_iff' _ joins_iff_exists_edge

end Lattice

end QuboSplit
