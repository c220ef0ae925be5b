import QuboSplit.Proofs.Strategy.Tiling

/-!
# Tiles lost to failures

The position moves on before a selection can fail. So without a loop the stream ends after each tile
had its turn (`Tiling.ends_after_every_turn`), but a tile whose selection failed is not yielded
again (`Tiling.not_yields_every_tile`).
-/

namespace QuboSplit

variable {α : Type} [Scalar α]

theorem State.selectAtBest_ne_endOfStream (s : State α) (labels : List Label)
    (embedding : Option Embedding) : s.selectAtBest labels embedding ≠ .ok .endOfStream := by
  intro h
  obtain ⟨best, -, h⟩ := exists_of_bind_eq_ok h
  obtain ⟨t, -, h⟩ := exists_of_bind_eq_ok h
  cases h

namespace Tiling

variable {c : Tiling} {tiles : List Tile} {mem : Memory} {s : State α} {k : Nat}

/-- Without a loop the stream ends only when the turns have passed all tiles. -/
theorem length_le_of_answer_end (hloop : c.loop = false)
    (h : c.answer tiles k s = .ok .endOfStream) : tiles.length ≤ k := by
  unfold answer at h
  rw [turn_of_not_loop hloop] at h
  by_contra hlt
  rw [List.getElem?_eq_getElem (not_le.1 hlt)] at h
  exact s.selectAtBest_ne_endOfStream _ _ h

/-- Without a loop tile `i` has turn `i`. -/
theorem answer_of_not_loop (hloop : c.loop = false) {i : Nat} {tile : Tile}
    (h : tiles[i]? = some tile) (s : State α) :
    c.answer tiles i s = s.selectAtBest tile.embedding.labels (some tile.embedding) := by
  unfold answer
  rw [turn_of_not_loop hloop, h]

/-- Without a loop a selection that fails among known tiles moves the position on. -/
theorem memory_selectTile_of_error (hloop : c.loop = false) {fault : Fault}
    (h : (c.selectTile mem tiles s).result = .error fault) :
    (c.selectTile mem tiles s).memory = { mem with next := mem.next + 1 } := by
  unfold selectTile upcoming at h ⊢
  rw [if_neg (hloop ▸ Bool.false_ne_true)] at h ⊢
  cases htile : tiles[mem.next]? with
  | none =>
    rw [htile] at h
    cases h
  | some tile => rfl

/-- A selection that fails finds no tiles, or has the tiles and moves the position on. -/
theorem memory_select_of_error (hloop : c.loop = false) {fault : Fault}
    (h : (c.select mem s).result = .error fault) :
    (mem.tiles = none ∧ (c.select mem s).memory = mem) ∨
      ∃ tiles, (c.setup mem s).memory.tiles = some tiles ∧
        (c.select mem s).memory = ⟨some tiles, (c.setup mem s).memory.next + 1⟩ := by
  rcases c.setup_cases mem s with ⟨hnone, fault', hsetup⟩ | ⟨tiles, hok, htiles⟩
  · exact Or.inl ⟨hnone, congrArg Step.memory (select_of_setup_error hsetup)⟩
  · obtain ⟨hresult, hmemory⟩ := select_of_setup hok htiles
    rw [hresult] at h
    exact Or.inr ⟨tiles, htiles, by rw [hmemory, memory_selectTile_of_error hloop h, htiles]⟩

theorem not_end_of_faults {faults : List Fault} :
    (faults.map Except.error)[k]? ≠ some (Except.ok (Selection.endOfStream (α := α))) := by
  intro h
  rw [List.getElem?_map] at h
  obtain ⟨fault, -, h⟩ := Option.map_eq_some_iff.1 h
  cases h

/-- Without a loop the stream ends only after each tile had its turn, from the call that found the
tiles on. A turn is used up even if its selection fails: the position has moved on by then. -/
theorem ends_after_every_turn (c : Tiling) (hloop : c.loop = false) (calls : List (Call α)) :
    (∀ k, (c.replies .fresh calls)[k]? = some (.ok .endOfStream) →
      ∃ tiles first, (c.memoryAfter .fresh calls).tiles = some tiles ∧
        first + tiles.length ≤ k ∧ ∀ i tile, tiles[i]? = some tile →
          ∃ s, (Call.asked calls)[first + i]? = some s ∧
            (c.replies .fresh calls)[first + i]? =
              some (s.selectAtBest tile.embedding.labels (some tile.embedding))) ∧
    ∀ (s : State α) (fault : Fault), (c.select (c.memoryAfter .fresh calls) s).result =
        .error fault →
      ((c.memoryAfter .fresh calls).tiles = none ∧
        (c.select (c.memoryAfter .fresh calls) s).memory = c.memoryAfter .fresh calls) ∨
      ∃ tiles, (c.setup (c.memoryAfter .fresh calls) s).memory.tiles = some tiles ∧
        (c.select (c.memoryAfter .fresh calls) s).memory =
          ⟨some tiles, (c.setup (c.memoryAfter .fresh calls) s).memory.next + 1⟩ := by
  refine ⟨fun k hk => ?_, fun s fault h => memory_select_of_error hloop h⟩
  obtain ⟨faults, ⟨-, hreplies⟩ | ⟨tiles, _, hat, hreplies⟩⟩ := c.run_cases calls
  · rw [hreplies] at hk
    exact absurd hk not_end_of_faults
  · -- a call that was answered from the tiles
    have hanswer : ∀ i, (c.replies .fresh calls)[faults.length + i]? =
        ((Call.asked calls)[faults.length + i]?).map (c.answer tiles i) := by
      intro i
      rw [hreplies, List.getElem?_append_right (by simp), List.length_map, Nat.add_sub_cancel_left,
        List.getElem?_mapIdx, List.getElem?_drop]
    have hle : faults.length ≤ k := by
      by_contra hlt
      rw [hreplies, List.getElem?_append_left (by simpa using hlt)] at hk
      exact not_end_of_faults hk
    obtain ⟨j, rfl⟩ := Nat.exists_eq_add_of_le hle
    rw [hanswer] at hk
    obtain ⟨s, hs, hend⟩ := Option.map_eq_some_iff.1 hk
    have hlength := length_le_of_answer_end hloop hend
    refine ⟨tiles, faults.length, hat.tiles_eq, by omega, fun i tile htile => ?_⟩
    have hi := (List.getElem?_eq_some_iff.1 htile).1
    have hasked := (List.getElem?_eq_some_iff.1 hs).1
    have hsi := List.getElem?_eq_getElem (by omega : faults.length + i < (Call.asked calls).length)
    exact ⟨_, hsi, by rw [hanswer, hsi, Option.map_some, answer_of_not_loop hloop htile]⟩

/-! ### A tile that is never yielded -/

/-- A state without a sample, then two with one. -/
def failingRun : List (State Binary64) := [unsampledPath, latticePath, latticePath]

/-- The path with its second cell selected. -/
def secondCell : State Binary64 :=
  latticePath.withSubproblem ⟨.binary, .ofInt 0, [.isolated (.number 3) (.ofInt 0)]⟩
    (some [(1, .number 3)])

theorem replies_failingRun : (cellTiles false).replies .fresh (failingRun.map Call.select) =
    [.error .emptySampleSet, .ok (.state secondCell), .ok .endOfStream] := by
  decide +kernel

theorem tiles_failingRun :
    ((cellTiles false).memoryAfter .fresh (failingRun.map Call.select)).tiles = some pathTiles := by
  decide +kernel

/-- The turn of the first tile was that of the state without a sample. -/
theorem ends_after_every_turn_path :
    (cellTiles false).loop = false ∧ ∃ s : State Binary64, failingRun[0]? = some s ∧
      ((cellTiles false).replies .fresh (failingRun.map Call.select))[0]? =
        some (s.selectAtBest [.number 0, .number 1] (some [(0, .number 0), (1, .number 1)])) := by
  have hend : ((cellTiles false).replies .fresh (failingRun.map Call.select))[2]? =
      some (.ok .endOfStream) := by
    rw [replies_failingRun]
    rfl
  obtain ⟨tiles, first, htiles, hlength, hturns⟩ :=
    (ends_after_every_turn (cellTiles false) rfl (failingRun.map Call.select)).1 2 hend
  obtain rfl : pathTiles = tiles := Option.some.inj (tiles_failingRun.symm.trans htiles)
  obtain rfl : first = 0 := by
    have : pathTiles.length = 2 := rfl
    omega
  exact ⟨rfl, hturns 0 _ rfl⟩

/-- The stream can end before each tile was yielded, and a selection that fails can move the
position. -/
theorem not_yields_every_tile :
    (¬ ∀ (c : Tiling) (run : List (State Binary64)), c.loop = false →
      (∀ s ∈ run, s.problem.model.Reachable) →
      ∀ k : Nat, (c.replies .fresh (run.map Call.select))[k]? = some (.ok .endOfStream) →
        ∃ tiles, (c.memoryAfter .fresh (run.map Call.select)).tiles = some tiles ∧
          ∀ tile ∈ tiles, ∃ (i : Nat) (t : State Binary64), i < k ∧
            (c.replies .fresh (run.map Call.select))[i]? = some (.ok (.state t)) ∧
            t.embedding = some tile.embedding) ∧
    ¬ ∀ (c : Tiling) (run : List (State Binary64)) (s : State Binary64) (fault : Fault),
      c.loop = false → (∀ s ∈ run, s.problem.model.Reachable) → s.problem.model.Reachable →
      (c.select (c.memoryAfter .fresh (run.map Call.select)) s).result = .error fault →
      (c.select (c.memoryAfter .fresh (run.map Call.select)) s).memory.next =
        (c.memoryAfter .fresh (run.map Call.select)).next := by
  have hpath : latticePath.problem.model.Reachable := ⟨.binary, pathEdits, rfl⟩
  constructor
  · intro h
    have hrun : ∀ s ∈ failingRun, s.problem.model.Reachable :=
      List.forall_mem_cons.2 ⟨hpath, List.forall_mem_cons.2 ⟨hpath,
        List.forall_mem_singleton.2 hpath⟩⟩
    obtain ⟨tiles, htiles, hyielded⟩ := h (cellTiles false) failingRun rfl hrun 2
      (by rw [replies_failingRun]; rfl)
    obtain rfl : pathTiles = tiles := Option.some.inj (tiles_failingRun.symm.trans htiles)
    obtain ⟨i, t, hi, hreply, hembedding⟩ := hyielded _ List.mem_cons_self
    rw [replies_failingRun] at hreply
    rcases (by omega : i = 0 ∨ i = 1) with rfl | rfl
    · cases hreply
    · cases hreply
      exact absurd hembedding (by decide)
  · intro h
    have hmoved := h (cellTiles false) [latticePath] unsampledPath .emptySampleSet rfl
      (List.forall_mem_singleton.2 hpath) hpath (by decide +kernel)
    exact absurd hmoved (by decide +kernel)

end Tiling

end QuboSplit
