import QuboSplit.Proofs.Chimera.Tile
import QuboSplit.Proofs.Strategy.Tiling

/-!
# Tiles as parts of the lattice

An embedding preserves and reflects edges: two variables of one tile are joined in the lattice
exactly if their nodes are joined in the tile (`Tile.Sound.joins_iff`). So a problem on the edges of
the lattice has subproblems on the edges of the tile, whichever problem the tiles came from
(`Tiling.tiles_are_sublattices`).
-/

namespace QuboSplit

/-- The variables of a tile are joined exactly if their nodes are. -/
theorem Tile.Sound.joins_iff {l shape : Lattice} {t : Tile} (h : t.Sound l shape) {j k : Int}
    {u v : Label} (hu : (j, u) ∈ t.embedding) (hv : (k, v) ∈ t.embedding) :
    l.Joins u v ↔ shape.Joins (.number j) (.number k) := by
  obtain ⟨a, ha, hau, hta⟩ := h.placed _ hu
  obtain ⟨b, hb, hbv, htb⟩ := h.placed _ hv
  cases hau
  cases hbv
  have hsame : (l.slot shape a).1 = (l.slot shape b).1 := hta.trans htb.symm
  rw [Lattice.joins_iff, Lattice.joins_iff, Lattice.slot_edges_iff ha hb hsame,
    Lattice.slot_edges_iff hb ha hsame.symm]

variable {α : Type}

namespace Model

/-- Every interaction runs along an edge of the lattice. -/
def Along (m : Model α) (l : Lattice) : Prop := ∀ u v, m.hasInteraction u v → l.Joins u v

theorem along_of_labels {m : Model α} {l : Lattice}
    (h : ∀ u ∈ m.labels, ∀ v ∈ m.labels, m.hasInteraction u v → l.Joins u v) : m.Along l := by
  intro u v huv
  obtain ⟨hu, hv⟩ := mem_labels_of_hasInteraction huv
  exact h u hu v hv huv

variable [Scalar α]

/-- A model induced by variables has interactions of the problem between these alone. -/
theorem hasInteraction_of_induced {m sub : Model α} (hm : m.WellFormed) {selection : List Label}
    {sample : Sample α} (h : m.induced selection sample = .ok sub) {u v : Label}
    (huv : sub.hasInteraction u v) :
    m.hasInteraction u v ∧ u ∈ selection ∧ v ∈ selection := by
  have hinherits := inherits_of_induced_eq_ok hm h
  have hknown := (of_induced_eq_ok h).2
  obtain ⟨hu, hv⟩ := mem_labels_of_hasInteraction huv
  refine ⟨?_, (hinherits.mem_labels_iff hknown).1 hu, (hinherits.mem_labels_iff hknown).1 hv⟩
  rw [hasInteraction_eq] at huv ⊢
  rcases hinherits.coupling_or u v with hnone | hsame
  · rw [hnone] at huv
    cases huv
  · rwa [← hsame]

end Model

variable [Scalar α]

namespace Tiling

/-- The tiles that are known place their variables, whichever problem they came from. -/
theorem sound_memoryAfter (c : Tiling) (calls : List (Call α))
    (hcalls : ∀ call ∈ calls, call.state.problem.model.Reachable) :
    (c.memoryAfter .fresh calls).All (Tile.Sound c.lattice c.tile) :=
  all_memoryAfter (Memory.all_fresh _) fun call hcall _ htiles =>
    (Lattice.divides_of_tiles (hcalls call hcall).wellFormed.labels_nodup htiles).sound

/-- Tiles of a model labelled by nodes preserve and reflect edges. A subproblem of a problem along
edges of the lattice is, under its embedding, along edges of the tile. -/
theorem tiles_are_sublattices (c : Tiling) :
    (∀ m : Model α, m.Reachable → (∀ v ∈ m.labels, ∃ a < c.lattice.nodeCount, v = .number a) →
      ∃ tiles, c.lattice.tiles c.tile m.labels = .ok tiles ∧
        ∀ t ∈ tiles, ∀ j u k v, (j, u) ∈ t.embedding → (k, v) ∈ t.embedding →
          (c.lattice.Joins u v ↔ c.tile.Joins (.number j) (.number k))) ∧
    ∀ (calls : List (Call α)) (s t : State α),
      (∀ call ∈ calls, call.state.problem.model.Reachable) → s.problem.model.Reachable →
      s.problem.model.Along c.lattice →
      (c.select (c.memoryAfter .fresh calls) s).result = .ok (.state t) →
      ∃ e sub, t.embedding = some e ∧ t.subproblem = some sub ∧
        ∀ u v, sub.hasInteraction u v → ∃ j k, (j, u) ∈ e ∧ (k, v) ∈ e ∧
          c.tile.Joins (.number j) (.number k) := by
  constructor
  · intro m hm hlabels
    obtain ⟨tiles, htiles⟩ := Lattice.exists_tiles c.tile_fits hlabels
    have hsound := (Lattice.divides_of_tiles hm.wellFormed.labels_nodup htiles).sound
    exact ⟨tiles, htiles, fun t ht j u k v hu hv => (hsound t ht).joins_iff hu hv⟩
  · intro calls s t hcalls hs halong hselect
    obtain ⟨tiles, htiles, tile, htile, best, -, hselects⟩ := selects hselect
    obtain ⟨sub, hsub, rfl⟩ := State.of_select_eq_ok hselects
    have hknown : (c.setup (c.memoryAfter .fresh calls) s).memory.All
        (Tile.Sound c.lattice c.tile) :=
      all_setup (sound_memoryAfter c calls hcalls) fun _ h =>
        (Lattice.divides_of_tiles hs.wellFormed.labels_nodup h).sound
    have hsound := hknown tiles htiles tile htile
    refine ⟨tile.embedding, sub, rfl, rfl, fun u v huv => ?_⟩
    obtain ⟨hinteraction, hu, hv⟩ := Model.hasInteraction_of_induced hs.wellFormed hsub huv
    obtain ⟨⟨j, u'⟩, hju, rfl⟩ := List.mem_map.1 hu
    obtain ⟨⟨k, v'⟩, hkv, rfl⟩ := List.mem_map.1 hv
    exact ⟨j, k, hju, hkv, (hsound.joins_iff hju hkv).1 (halong _ _ hinteraction)⟩

/-- The interaction within the first cell is an edge of the tile; the one that leaves it is not in
the subproblem. -/
theorem tiles_are_sublattices_path :
    let e : Embedding := [(0, .number 0), (1, .number 1)]
    let sub : Model Binary64 := ⟨.binary, .ofInt 0,
      [⟨.number 0, .ofInt (-1), 0, [(1, .ofInt 3)]⟩, ⟨.number 1, .ofInt 0, 1, [(0, .ofInt 3)]⟩]⟩
    let mem := (cellTiles true).memoryAfter .fresh [.setup latticePath]
    ((cellTiles true).select mem latticePath).result =
        .ok (.state (latticePath.withSubproblem sub (some e))) ∧
      ((cellTiles true).lattice.Joins (.number 0) (.number 1) ↔
        (cellTiles true).tile.Joins (.number 0) (.number 1)) ∧
      ∃ j k, (j, .number 0) ∈ e ∧ (k, .number 1) ∈ e ∧
        (cellTiles true).tile.Joins (.number j) (.number k) := by
  intro e sub mem
  have hpath : latticePath.problem.model.Reachable := ⟨.binary, pathEdits, rfl⟩
  have hnodes : ∀ v ∈ latticePath.problem.model.labels,
      ∃ a < (cellTiles true).lattice.nodeCount, v = .number a := by
    decide +kernel
  have halong : latticePath.problem.model.Along (cellTiles true).lattice :=
    Model.along_of_labels (by decide +kernel)
  have hselect : ((cellTiles true).select mem latticePath).result =
      .ok (.state (latticePath.withSubproblem sub (some e))) := by
    decide +kernel
  obtain ⟨hmodels, hruns⟩ := tiles_are_sublattices (α := Binary64) (cellTiles true)
  obtain ⟨tiles, htiles, hjoins⟩ := hmodels latticePath.problem.model hpath hnodes
  obtain rfl : pathTiles = tiles := Except.ok.inj ((tiles_latticePath true).symm.trans htiles)
  obtain ⟨e', sub', he, hsub, hedges⟩ := hruns [.setup latticePath] latticePath _
    (List.forall_mem_singleton.2 hpath) hpath halong hselect
  obtain rfl : e = e' := Option.some.inj he
  obtain rfl : sub = sub' := Option.some.inj hsub
  exact ⟨hselect, hjoins _ List.mem_cons_self 0 _ 1 _ (by decide) (by decide),
    hedges _ _ (by decide +kernel)⟩

end Tiling

end QuboSplit
