import QuboSplit.Proofs.Chimera.Tile
import QuboSplit.Proofs.Model.Layout

/-!
# The partition into tiles

Position and inner node of a slot lead back to the place in the lattice (`Tile.restore_locate`), and
tiles stand in increasing order of their positions (`Lattice.ordered_of_tiles`). So a variable has
one slot and a slot one variable, whether or not tiles fit evenly into the lattice: the tiles divide
the variables of a model without loss (`Lattice.tiles_partition`). All models are accepted whose
variables name nodes, provided that the shores of the lattice are as large as those of a tile.
-/

namespace QuboSplit

/-! ### The order of positions -/

namespace Position

variable {p q r : Position}

theorem less_iff : p.less q = true ↔ p.row < q.row ∨ p.row = q.row ∧
    (p.column < q.column ∨ p.column = q.column ∧ p.offset < q.offset) := by
  simp [less]

theorem less_irrefl (p : Position) : ¬ p.less p = true := by
  rw [less_iff]
  omega

theorem less_trans (h : p.less q = true) (h' : q.less r = true) : p.less r = true := by
  rw [less_iff] at *
  omega

/-- Different positions are comparable. -/
theorem less_of_not_less (h : ¬ p.less q = true) (hne : p ≠ q) : q.less p = true := by
  obtain ⟨row, column, offset⟩ := p
  obtain ⟨row', column', offset'⟩ := q
  rw [Ne, Position.mk.injEq] at hne
  rw [less_iff] at *
  dsimp only at *
  omega

end Position

/-! ### Tiles in order -/

namespace Tile

variable {tiles : List Tile} {shape : Lattice}

/-- The tiles stand in strictly increasing order of their positions. -/
def Ordered (tiles : List Tile) : Prop :=
  tiles.Pairwise fun t u => t.position.less u.position = true

theorem Ordered.insert (h : Ordered tiles) (position : Position) (k : Int) (v : Label) :
    Ordered (insert position k v tiles) := by
  induction tiles with
  | nil => exact List.pairwise_singleton _ _
  | cons first rest ih =>
    obtain ⟨hfirst, hrest⟩ := List.pairwise_cons.1 h
    unfold Tile.insert
    split
    · next hless =>
      exact List.pairwise_cons.2 ⟨forall_insert hfirst hless fun _ ht _ => ht, ih hrest⟩
    · next hnot =>
      split
      · exact List.pairwise_cons.2 ⟨hfirst, hrest⟩
      · next hne =>
        have hless := Position.less_of_not_less hnot hne
        refine List.pairwise_cons.2 ⟨List.forall_mem_cons.2 ⟨hless, fun t ht => ?_⟩, h⟩
        exact Position.less_trans hless (hfirst t ht)

/-- No two tiles have one position. -/
theorem Ordered.eq_of_position (h : Ordered tiles) {t u : Tile} (ht : t ∈ tiles) (hu : u ∈ tiles)
    (hposition : t.position = u.position) : t = u := by
  have hnodup : (tiles.map Tile.position).Nodup := by
    refine List.pairwise_map.2 (h.imp fun {t u} hless e => ?_)
    rw [e] at hless
    exact Position.less_irrefl u.position hless
  exact List.inj_on_of_nodup_map hnodup ht hu hposition

/-- The place in the lattice of a place inside the tile at a position. -/
def restore (shape : Lattice) (position : Position) (inner : Place) : Place where
  row := position.row * shape.rows + inner.row
  column := position.column * shape.columns + inner.column
  side := inner.side
  offset := position.offset * shape.shore + inner.offset

theorem restore_locate (shape : Lattice) (p : Place) :
    restore shape (locate shape p).1 (locate shape p).2 = p := by
  unfold restore locate
  dsimp only
  rw [Nat.div_add_mod', Nat.div_add_mod', Nat.div_add_mod']

end Tile

namespace Lattice

variable {l shape : Lattice} {labels : List Label} {tiles : List Tile} {fault : Fault} {v : Label}

theorem restore_slot {a : Nat} (h : a < l.nodeCount) :
    Tile.restore shape (l.slot shape a).1 (shape.place (l.slot shape a).2) = l.place a := by
  rw [place_slot h]
  exact Tile.restore_locate shape (l.place a)

/-! ### Refusals -/

/-- The label names a node of the lattice. -/
def Names (l : Lattice) (v : Label) : Prop := ∃ a < l.nodeCount, v = .number a

theorem node_eq_error (h : l.node v = .error fault) :
    ¬ l.Names v ∧ fault = .notLatticeNode v := by
  constructor
  · rintro ⟨a, ha, rfl⟩
    rw [node_eq_ok_iff.2 ⟨rfl, ha⟩] at h
    cases h
  · unfold node at h
    split at h
    · split at h <;> cases h
      rfl
    · cases h
      rfl

theorem insertNode_eq_error (h : l.insertNode shape tiles v = .error fault) :
    ¬ l.Names v ∧ fault = .notLatticeNode v := by
  cases hv : l.node v with
  | error fault' =>
    unfold insertNode at h
    rw [hv] at h
    cases h
    exact node_eq_error hv
  | ok a =>
    rw [insertNode_eq hv] at h
    cases h

theorem names_of_inserted (h : labels.foldlM (l.insertNode shape) [] = .ok tiles) :
    ∀ v ∈ labels, l.Names v := by
  refine of_foldlM_eq_ok (P := fun done _ => ∀ v ∈ done, l.Names v) h (by simp) ?_
  intro done v todo tiles tiles' _ hdone hok
  obtain ⟨a, ha, -⟩ := exists_of_bind_eq_ok hok
  obtain ⟨hv, hlt⟩ := node_eq_ok_iff.1 ha
  exact List.forall_mem_append.2 ⟨hdone, List.forall_mem_singleton.2 ⟨a, hlt, hv⟩⟩

/-- Tiles with too large a shore are refused, else the first variable that names no node. -/
theorem tiles_eq_error (h : l.tiles shape labels = .error fault) :
    if l.shore < shape.shore then fault = .tileTooLarge
    else ∃ before v after, labels = before ++ v :: after ∧ (∀ u ∈ before, l.Names u) ∧
      ¬ l.Names v ∧ fault = .notLatticeNode v := by
  unfold tiles at h
  split at h
  · next hshore =>
    rw [if_pos hshore]
    cases h
    rfl
  · next hshore =>
    rw [if_neg hshore]
    obtain ⟨before, v, after, tiles, hsplit, hbefore, hv⟩ := exists_of_foldlM_eq_error h
    exact ⟨before, v, after, hsplit, names_of_inserted hbefore, insertNode_eq_error hv⟩

theorem kind_of_tiles_error (h : l.tiles shape labels = .error fault) :
    fault.kind = .invalidArgument := by
  have hcause := tiles_eq_error h
  split at hcause
  · rw [hcause]
    rfl
  · obtain ⟨before, v, after, -, -, -, rfl⟩ := hcause
    rfl

/-- Whether there are tiles depends on the shores and on the variables. -/
theorem exists_error_iff : (∃ fault, l.tiles shape labels = .error fault) ↔
    l.shore < shape.shore ∨ ∃ v ∈ labels, ¬ l.Names v := by
  constructor
  · rintro ⟨fault, h⟩
    have hcause := tiles_eq_error h
    split at hcause
    · next hshore => exact Or.inl hshore
    · obtain ⟨before, v, after, rfl, -, hv, -⟩ := hcause
      exact Or.inr ⟨v, by simp, hv⟩
  · intro hcause
    cases h : l.tiles shape labels with
    | error fault => exact ⟨fault, rfl⟩
    | ok tiles =>
      unfold Lattice.tiles at h
      split at h
      · cases h
      · next hshore =>
        obtain ⟨v, hv, hnot⟩ := hcause.resolve_left hshore
        exact absurd (names_of_inserted h v hv) hnot

/-! ### The partition -/

theorem ordered_of_tiles (h : l.tiles shape labels = .ok tiles) : Tile.Ordered tiles := by
  unfold Lattice.tiles at h
  split at h
  · cases h
  · refine of_foldlM_eq_ok (P := fun _ tiles => Tile.Ordered tiles) h List.Pairwise.nil ?_
    intro done v todo tiles tiles' _ hordered hok
    obtain ⟨a, ha, -⟩ := exists_of_bind_eq_ok hok
    rw [insertNode_eq ha] at hok
    cases hok
    exact hordered.insert _ _ v

/-- A variable is covered by one tile, at one of its nodes. -/
theorem Divides.existsUnique (h : l.Divides shape labels tiles) (hordered : Tile.Ordered tiles)
    (hv : v ∈ labels) : ∃! x : Tile × Int, x.1 ∈ tiles ∧ (x.2, v) ∈ x.1.embedding := by
  obtain ⟨t, ht, hvt⟩ := List.mem_flatMap.1 (h.perm.mem_iff.2 hv)
  obtain ⟨⟨k, v'⟩, hk, rfl⟩ := List.mem_map.1 hvt
  refine ⟨(t, k), ⟨ht, hk⟩, ?_⟩
  rintro ⟨u, j⟩ ⟨hu, hj⟩
  -- tile and node are those of the slot of the node that the variable names
  obtain ⟨a, -, ha, hat⟩ := (h.sound t ht).placed _ hk
  obtain ⟨b, -, hb, hbu⟩ := (h.sound u hu).placed _ hj
  obtain ⟨rfl, hva⟩ := Prod.mk.inj ha
  obtain ⟨rfl, hvb⟩ := Prod.mk.inj hb
  obtain rfl : a = b := Int.ofNat.inj (Label.number.inj (hva.symm.trans hvb))
  obtain rfl : u = t := hordered.eq_of_position hu ht (hbu.symm.trans hat)
  rfl

/-- Tiles are refused exactly if their shores are larger than those of the lattice or some variable
of the model names no node, and the first such variable is reported. Otherwise the tiles stand in
strictly increasing order of positions, none is empty, each variable is covered by one tile at one
of its nodes, nothing else is covered, and position and node lead back to the variable. -/
theorem tiles_partition {α : Type} [Scalar α] {m : Model α} (hm : m.Reachable)
    (l shape : Lattice) :
    ((∃ fault, l.tiles shape m.labels = .error fault) ↔
      l.shore < shape.shore ∨ ∃ v ∈ m.labels, ¬ l.Names v) ∧
    (∀ fault, l.tiles shape m.labels = .error fault → fault.kind = .invalidArgument ∧
      if l.shore < shape.shore then fault = .tileTooLarge
      else ∃ before v after, m.labels = before ++ v :: after ∧ (∀ u ∈ before, l.Names u) ∧
        ¬ l.Names v ∧ fault = .notLatticeNode v) ∧
    ∀ tiles, l.tiles shape m.labels = .ok tiles →
      (tiles.Pairwise fun t u => t.position.less u.position = true) ∧
      (∀ v ∈ m.labels, ∃! x : Tile × Int, x.1 ∈ tiles ∧ (x.2, v) ∈ x.1.embedding) ∧
      ∀ t ∈ tiles, t.embedding ≠ [] ∧ t.embedding.Increasing ∧
        ∀ k v, (k, v) ∈ t.embedding → v ∈ m.labels ∧ ∃ n < shape.nodeCount, k = n ∧
          l.Contains (Tile.restore shape t.position (shape.place n)) ∧
          v = .number (l.index (Tile.restore shape t.position (shape.place n))) := by
  refine ⟨exists_error_iff, fun fault h => ⟨kind_of_tiles_error h, tiles_eq_error h⟩,
    fun tiles h => ?_⟩
  have hdivides := divides_of_tiles hm.wellFormed.labels_nodup h
  have hordered := ordered_of_tiles h
  refine ⟨hordered, fun v hv => hdivides.existsUnique hordered hv, fun t ht => ?_⟩
  have hsound := hdivides.sound t ht
  refine ⟨hsound.ne_nil, hsound.increasing, fun k v hkv => ?_⟩
  have hcovered : v ∈ m.labels :=
    hdivides.perm.mem_iff.1 (List.mem_flatMap.2 ⟨t, ht, List.mem_map_of_mem hkv⟩)
  obtain ⟨a, ha, hslot, hposition⟩ := hsound.placed _ hkv
  obtain ⟨rfl, rfl⟩ := Prod.mk.inj hslot
  refine ⟨hcovered, (l.slot shape a).2, slot_lt ha, rfl, ?_⟩
  rw [← hposition, restore_slot ha, index_place]
  exact ⟨contains_place ha, rfl⟩

/-- Two shores of a lattice that tiles cut in the middle, and tiles with more rows than the lattice.
Two variables have the same node in two tiles of one row. In the opposite direction the shores do
not fit. -/
theorem tiles_partition_cut :
    let l : Lattice := ⟨2, 3, 3, by decide, by decide, by decide⟩
    let shape : Lattice := ⟨3, 2, 2, by decide, by decide, by decide⟩
    let m : Model Binary64 := .ofEdits .spin
      [.setQuadratic (.number 35) (.number 33) (.ofInt 1), .addVariable (.number 0) (.ofInt 2),
        .setQuadratic (.number 34) (.number 34) (.ofInt 1), .addLinear (.number 34) (.ofInt 0)]
    let tiles : List Tile := [⟨⟨0, 0, 0⟩, [(0, .number 0)]⟩,
      ⟨⟨0, 1, 0⟩, [(10, .number 33), (11, .number 34)]⟩, ⟨⟨0, 1, 1⟩, [(10, .number 35)]⟩]
    l.tiles shape m.labels = .ok tiles ∧
      (∃! x : Tile × Int, x.1 ∈ tiles ∧ (x.2, .number 34) ∈ x.1.embedding) ∧
      (∃ n < shape.nodeCount, (11 : Int) = n ∧
        Label.number 34 = .number (l.index (Tile.restore shape ⟨0, 1, 0⟩ (shape.place n)))) ∧
      ∃ fault, shape.tiles l m.labels = .error fault := by
  intro l shape m tiles
  have hm : m.Reachable := ⟨.spin, _, rfl⟩
  have htiles : l.tiles shape m.labels = .ok tiles := by decide +kernel
  obtain ⟨-, -, hpartition⟩ := tiles_partition hm l shape
  obtain ⟨-, hunique, hplaced⟩ := hpartition tiles htiles
  obtain ⟨-, -, hslots⟩ := hplaced ⟨⟨0, 1, 0⟩, [(10, .number 33), (11, .number 34)]⟩ (by decide)
  obtain ⟨-, n, hn, hkey, -, hvariable⟩ := hslots 11 (.number 34) (by decide)
  refine ⟨htiles, hunique _ (by decide +kernel), ⟨n, hn, hkey, hvariable⟩, ?_⟩
  exact (tiles_partition hm shape l).1.2 (Or.inl (by decide))

end Lattice

end QuboSplit
