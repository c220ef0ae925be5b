import Mathlib.Tactic
import QuboSplit.Chimera.Tile
import QuboSplit.Proofs.Chimera.Lattice
import QuboSplit.Proofs.Lists

/-!
# What tiles cover

A node of the lattice has its own slot: a tile and a node inside that tile (`slot_injOn`). Within
one tile two slots are linked exactly if their nodes are (`slot_edges_iff`). Each variable of a
model goes to the slot of its node, so the tiles divide the variables among them
(`divides_of_tiles`), and the embedding of a tile names different ones (`covers_of_tiles`).
-/

namespace QuboSplit

/-! ### Covering a node -/

namespace Embedding

/-- The nodes are in increasing order. -/
def Increasing (e : Embedding) : Prop := (e.map Prod.fst).Pairwise (· < ·)

/-- A node that is taken keeps its variable. -/
theorem cover_cases (k : Int) (v : Label) (e : Embedding) :
    (k ∈ e.map Prod.fst ∧ e.cover k v = e) ∨ (e.cover k v).Perm ((k, v) :: e) := by
  induction e with
  | nil => exact Or.inr (.refl _)
  | cons x rest ih =>
    obtain ⟨j, u⟩ := x
    unfold cover
    split
    · rcases ih with ⟨hmem, ih⟩ | ih
      · exact Or.inl ⟨List.mem_cons_of_mem j hmem, by rw [ih]⟩
      · exact Or.inr ((ih.cons (j, u)).trans (.swap (k, v) (j, u) rest))
    · split
      · next hjk => exact Or.inl ⟨hjk ▸ List.mem_cons_self, rfl⟩
      · exact Or.inr (.refl _)

theorem mem_cover {k : Int} {v : Label} {e : Embedding} {x : Int × Label}
    (h : x ∈ e.cover k v) : x = (k, v) ∨ x ∈ e := by
  rcases e.cover_cases k v with ⟨-, hsame⟩ | hperm
  · exact Or.inr (hsame ▸ h)
  · exact List.mem_cons.1 (hperm.mem_iff.1 h)

theorem cover_ne_nil (k : Int) (v : Label) (e : Embedding) : e.cover k v ≠ [] := by
  rcases e.cover_cases k v with ⟨hmem, hsame⟩ | hperm
  · rw [hsame]
    rintro rfl
    exact absurd hmem List.not_mem_nil
  · intro hnil
    rw [hnil] at hperm
    exact absurd hperm.symm.eq_nil (List.cons_ne_nil _ _)

theorem Increasing.cover {e : Embedding} (h : e.Increasing) (k : Int) (v : Label) :
    (e.cover k v).Increasing := by
  induction e with
  | nil => exact List.pairwise_singleton _ _
  | cons x rest ih =>
    obtain ⟨j, u⟩ := x
    obtain ⟨hhead, hrest⟩ := List.pairwise_cons.1 h
    unfold Embedding.cover
    split
    · next hjk =>
      refine List.pairwise_cons.2 ⟨fun i hi => ?_, ih hrest⟩
      obtain ⟨y, hy, rfl⟩ := List.mem_map.1 hi
      rcases mem_cover hy with rfl | hy
      · exact hjk
      · exact hhead y.1 (List.mem_map_of_mem hy)
    · split
      · exact h
      · next hnot hne =>
        have hkj : k < j := lt_of_le_of_ne (not_lt.1 hnot) (Ne.symm hne)
        refine List.pairwise_cons.2 ⟨fun i hi => ?_, h⟩
        rcases List.mem_cons.1 hi with rfl | hi
        · exact hkj
        · exact hkj.trans (hhead i hi)

end Embedding

/-! ### Places inside tiles -/

namespace Tile

variable {shape : Lattice} {p q : Place}

theorem contains_locate (h : p.side < 2) : shape.Contains (locate shape p).2 :=
  ⟨Nat.mod_lt _ shape.rows_pos, Nat.mod_lt _ shape.columns_pos, h, Nat.mod_lt _ shape.shore_pos⟩

theorem locate_injective (h : locate shape p = locate shape q) : p = q := by
  obtain ⟨row, column, side, offset⟩ := p
  obtain ⟨row', column', side', offset'⟩ := q
  simp only [locate, Prod.mk.injEq, Position.mk.injEq, Place.mk.injEq] at h ⊢
  obtain ⟨⟨hrow, hcolumn, hoffset⟩, hrow', hcolumn', hside, hoffset'⟩ := h
  exact ⟨Nat.ext_div_mod hrow hrow', Nat.ext_div_mod hcolumn hcolumn', hside,
    Nat.ext_div_mod hoffset hoffset'⟩

/-- Places of one tile are linked exactly if the places inside the tile are. -/
theorem linksTo_locate_iff (h : (locate shape p).1 = (locate shape q).1) :
    (locate shape p).2.LinksTo (locate shape q).2 ↔ p.LinksTo q := by
  -- inside one tile, places differ by as much as they do in the lattice
  have hdigit : ∀ {m a b : Nat}, a / m = b / m →
      (b % m = a % m ↔ b = a) ∧ (b % m = a % m + 1 ↔ b = a + 1) := by
    intro m a b hdiv
    have ha := Nat.div_add_mod a m
    have hb := Nat.div_add_mod b m
    rw [← hdiv] at hb
    omega
  simp only [locate, Position.mk.injEq] at h ⊢
  obtain ⟨hrow, hcolumn, hoffset⟩ := h
  unfold Place.LinksTo
  dsimp only
  rw [(hdigit hrow).1, (hdigit hrow).2, (hdigit hcolumn).1, (hdigit hcolumn).2, (hdigit hoffset).1]

end Tile

namespace Lattice

variable {l shape : Lattice} {a b : Nat}

/-- Where a node of the lattice goes: a tile, and a node inside it. -/
def slot (l shape : Lattice) (a : Nat) : Position × Nat :=
  ((Tile.locate shape (l.place a)).1, shape.index (Tile.locate shape (l.place a)).2)

theorem place_slot (h : a < l.nodeCount) :
    shape.place (l.slot shape a).2 = (Tile.locate shape (l.place a)).2 :=
  place_index (Tile.contains_locate (contains_place h).2.2.1)

theorem slot_lt (h : a < l.nodeCount) : (l.slot shape a).2 < shape.nodeCount :=
  index_lt (Tile.contains_locate (contains_place h).2.2.1)

theorem slot_injOn (ha : a < l.nodeCount) (hb : b < l.nodeCount)
    (h : l.slot shape a = l.slot shape b) : a = b := by
  have hinner : (Tile.locate shape (l.place a)).2 = (Tile.locate shape (l.place b)).2 := by
    rw [← place_slot ha, h, place_slot hb]
  have htile := congrArg Prod.fst h
  have hplace : l.place a = l.place b := Tile.locate_injective (Prod.ext htile hinner)
  rw [← l.index_place a, hplace, index_place]

/-- Slots of one tile are linked exactly if the nodes of the lattice are. -/
theorem slot_edges_iff (ha : a < l.nodeCount) (hb : b < l.nodeCount)
    (h : (l.slot shape a).1 = (l.slot shape b).1) :
    ((l.slot shape a).2, (l.slot shape b).2) ∈ shape.edges ↔ (a, b) ∈ l.edges := by
  rw [mem_edges_iff, mem_edges_iff, place_slot ha, place_slot hb, Tile.linksTo_locate_iff h]
  simp [ha, hb, slot_lt]

theorem node_eq_ok_iff {v : Label} : l.node v = .ok a ↔ v = .number a ∧ a < l.nodeCount := by
  unfold node
  split
  · next n =>
    rw [Label.number.injEq]
    by_cases hn : n < l.nodeCount
    · rw [if_pos hn, Except.ok.injEq]
      constructor
      · rintro rfl
        exact ⟨rfl, hn⟩
      · rintro ⟨h, -⟩
        exact Int.ofNat.inj h
    · rw [if_neg hn]
      constructor
      · nofun
      · rintro ⟨h, ha⟩
        obtain rfl := Int.ofNat.inj h
        exact absurd ha hn
  · next hnot =>
    constructor
    · nofun
    · rintro ⟨rfl, -⟩
      exact absurd rfl (hnot a)

theorem insertNode_eq {v : Label} (h : l.node v = .ok a) (tiles : List Tile) :
    l.insertNode shape tiles v =
      .ok (Tile.insert (l.slot shape a).1 (l.slot shape a).2 v tiles) := by
  unfold insertNode
  rw [h]
  rfl

end Lattice

/-! ### Dividing variables among tiles -/

namespace Tile

variable {l shape : Lattice} {tiles : List Tile} {position : Position} {k : Int} {v : Label}

/-- The tile covers some variables, in increasing order of its nodes and each in the slot of the
node that it names. -/
structure Sound (l shape : Lattice) (t : Tile) : Prop where
  ne_nil : t.embedding ≠ []
  increasing : t.embedding.Increasing
  placed : ∀ x ∈ t.embedding, ∃ a < l.nodeCount,
    x = (((l.slot shape a).2 : Int), .number a) ∧ (l.slot shape a).1 = t.position

theorem forall_insert {P : Tile → Prop} (h : ∀ t ∈ tiles, P t) (hnew : P ⟨position, [(k, v)]⟩)
    (hcover : ∀ t, P t → t.position = position →
      P { t with embedding := t.embedding.cover k v }) :
    ∀ t ∈ insert position k v tiles, P t := by
  induction tiles with
  | nil => exact List.forall_mem_singleton.2 hnew
  | cons first rest ih =>
    obtain ⟨hfirst, hrest⟩ := List.forall_mem_cons.1 h
    unfold insert
    split
    · exact List.forall_mem_cons.2 ⟨hfirst, ih hrest⟩
    · split
      · next heq => exact List.forall_mem_cons.2 ⟨hcover first hfirst heq, hrest⟩
      · exact List.forall_mem_cons.2 ⟨hnew, h⟩

/-- A variable that comes to a free node is covered besides all others. -/
theorem perm_insert
    (hfree : ∀ t ∈ tiles, t.position = position → k ∉ t.embedding.map Prod.fst) :
    ((insert position k v tiles).flatMap fun t => t.embedding.labels).Perm
      (v :: tiles.flatMap fun t => t.embedding.labels) := by
  induction tiles with
  | nil => exact .refl _
  | cons first rest ih =>
    obtain ⟨hfirst, hrest⟩ := List.forall_mem_cons.1 hfree
    unfold insert
    split
    · rw [List.flatMap_cons, List.flatMap_cons]
      exact ((ih hrest).append_left _).trans List.perm_middle
    · split
      · next heq =>
        rw [List.flatMap_cons, List.flatMap_cons]
        rcases first.embedding.cover_cases k v with ⟨hmem, -⟩ | hperm
        · exact absurd hmem (hfirst heq)
        · exact (hperm.map Prod.snd).append_right _
      · exact .refl _

end Tile

namespace Lattice

variable {l shape : Lattice} {labels : List Label} {tiles : List Tile}

/-- The tiles cover these variables and no others, each once. -/
structure Divides (l shape : Lattice) (labels : List Label) (tiles : List Tile) : Prop where
  sound : ∀ t ∈ tiles, t.Sound l shape
  perm : (tiles.flatMap fun t => t.embedding.labels).Perm labels

theorem divides_nil (l shape : Lattice) : l.Divides shape [] [] where
  sound := by simp
  perm := .refl _

theorem Divides.insert (h : l.Divides shape labels tiles) {v : Label} (hv : v ∉ labels) {a : Nat}
    (ha : l.node v = .ok a) :
    l.Divides shape (labels ++ [v])
      (Tile.insert (l.slot shape a).1 (l.slot shape a).2 v tiles) := by
  obtain ⟨rfl, hlt⟩ := node_eq_ok_iff.1 ha
  constructor
  · refine Tile.forall_insert h.sound ?_ ?_
    · refine ⟨List.cons_ne_nil _ _, List.pairwise_singleton _ _, ?_⟩
      exact List.forall_mem_singleton.2 ⟨a, hlt, rfl, rfl⟩
    · intro t ht hposition
      refine ⟨Embedding.cover_ne_nil _ _ _, ht.increasing.cover _ _, fun x hx => ?_⟩
      rcases Embedding.mem_cover hx with rfl | hx
      · exact ⟨a, hlt, rfl, hposition.symm⟩
      · exact ht.placed x hx
  · refine (Tile.perm_insert fun t ht hposition hmem => ?_).trans
      ((h.perm.cons _).trans (List.perm_append_singleton _ _).symm)
    -- a variable in this slot already would be the same one
    obtain ⟨x, hx, hkey⟩ := List.mem_map.1 hmem
    obtain ⟨b, hb, rfl, hslot⟩ := (h.sound t ht).placed x hx
    have hsame : l.slot shape b = l.slot shape a :=
      Prod.ext (hslot.trans hposition) (Int.ofNat.inj hkey)
    obtain rfl := slot_injOn hb hlt hsame
    exact hv (h.perm.mem_iff.1 (List.mem_flatMap.2 ⟨t, ht, List.mem_map_of_mem hx⟩))

/-- Different variables are divided among their tiles. -/
theorem divides_of_tiles (hlabels : labels.Nodup) (h : l.tiles shape labels = .ok tiles) :
    l.Divides shape labels tiles := by
  unfold Lattice.tiles at h
  split at h
  · cases h
  · refine of_foldlM_eq_ok h (divides_nil l shape) ?_
    intro done v todo tiles tiles' hsplit hdivides hok
    obtain ⟨a, ha, -⟩ := exists_of_bind_eq_ok hok
    rw [insertNode_eq ha] at hok
    cases hok
    -- the variable is new since no label is repeated
    rw [← hsplit, List.nodup_append] at hlabels
    exact hdivides.insert (fun hv => hlabels.2.2 v hv v List.mem_cons_self rfl) ha

/-- Variables that all name nodes are accepted. -/
theorem exists_tiles (hshore : shape.shore ≤ l.shore)
    (hlabels : ∀ v ∈ labels, ∃ a < l.nodeCount, v = .number a) :
    ∃ tiles, l.tiles shape labels = .ok tiles := by
  unfold Lattice.tiles
  rw [if_neg (by omega)]
  have hstep : ∀ (done : List Label) (v : Label) (tiles : List Tile), v ∈ labels → True →
      ∃ tiles', l.insertNode shape tiles v = .ok tiles' ∧ True := by
    intro done v tiles hv _
    obtain ⟨a, ha, rfl⟩ := hlabels v hv
    exact ⟨_, insertNode_eq (node_eq_ok_iff.2 ⟨rfl, ha⟩) tiles, trivial⟩
  obtain ⟨tiles, htiles, -⟩ := exists_foldlM_eq_ok (P := fun _ _ => True) trivial hstep
  exact ⟨tiles, htiles⟩

end Lattice

/-- The embedding of the tile names different variables, all of them among `labels`. -/
structure Tile.Covers (labels : List Label) (t : Tile) : Prop where
  nodup : t.embedding.labels.Nodup
  known : ∀ v ∈ t.embedding.labels, v ∈ labels

/-- The tiles of different variables each name different ones of them. -/
theorem Lattice.covers_of_tiles {l shape : Lattice} {labels : List Label} (hlabels : labels.Nodup)
    {tiles : List Tile} (h : l.tiles shape labels = .ok tiles) :
    ∀ t ∈ tiles, t.Covers labels := by
  intro t ht
  have hperm := (divides_of_tiles hlabels h).perm
  have hnodup : (tiles.flatMap fun t => t.embedding.labels).Nodup := hperm.nodup_iff.2 hlabels
  exact ⟨(List.nodup_flatMap.1 hnodup).1 t ht,
    fun v hv => hperm.mem_iff.1 (List.mem_flatMap.2 ⟨t, ht, hv⟩)⟩

end QuboSplit
