import QuboSplit.Proofs.Chimera.Tile
import QuboSplit.Proofs.Strategy.Tiling

/-!
# The cycle of tiles

On states of one problem, with best samples of all its variables, a tiling yields its tiles one
after another, each with the subproblem that it embeds; then it starts again or ends the stream
(`selects_tiles_in_turn`). The tiles divide the variables, so a cycle exposes each of them once.
-/

namespace QuboSplit

variable {α : Type} [Scalar α]

/-- The reply is the state with the embedding of the tile and a subproblem of the variables in it,
in increasing order of their nodes. -/
def State.Shows (s : State α) (t : Tile) (reply : Except Fault (Selection α)) : Prop :=
  ∃ sub, reply = .ok (.state (s.withSubproblem sub (some t.embedding))) ∧
    sub.labels = t.embedding.labels ∧ t.embedding.Increasing

/-- The variables of the subproblem that a reply brings. -/
def exposed : Except Fault (Selection α) → List Label
  | .ok (.state t) => (t.subproblem.map Model.labels).getD []
  | _ => []

theorem State.Shows.exposed_eq {s : State α} {t : Tile} {reply : Except Fault (Selection α)}
    (h : s.Shows t reply) : exposed reply = t.embedding.labels := by
  obtain ⟨sub, rfl, hlabels, -⟩ := h
  exact hlabels

namespace Tiling

variable {c : Tiling} {m : Model α} {tiles : List Tile} {k : Nat} {s : State α}

theorem answer_of_none (h : tiles[c.turn tiles.length k]? = none) (s : State α) :
    c.answer tiles k s = .ok .endOfStream := by
  unfold answer
  rw [h]

/-- A tile whose turn it is can be selected. -/
theorem shows_answer (hm : m.WellFormed) (htiles : c.lattice.tiles c.tile m.labels = .ok tiles)
    (hproblem : s.problem.model = m) {best : Sample α} (hbest : s.bestSample = .ok best)
    (hall : m.Assigned best) {tile : Tile} (h : tiles[c.turn tiles.length k]? = some tile) :
    s.Shows tile (c.answer tiles k s) := by
  subst hproblem
  have hmem : tile ∈ tiles := List.mem_of_getElem? h
  have hsound := (Lattice.divides_of_tiles hm.labels_nodup htiles).sound tile hmem
  obtain ⟨hnodup, hknown⟩ := Lattice.covers_of_tiles hm.labels_nodup htiles tile hmem
  have hne : tile.embedding.labels ≠ [] := fun hnil => hsound.ne_nil (List.map_eq_nil_iff.1 hnil)
  obtain ⟨sub, hlabels, hselect⟩ :=
    State.exists_selectAtBest hm hbest hall hne hnodup hknown (some tile.embedding)
  refine ⟨sub, ?_, hlabels, hsound.increasing⟩
  unfold answer
  rw [h]
  exact hselect

/-- In a cycle each tile has its turn. -/
theorem turn_cycle {count cycle i : Nat} (hcycle : c.loop = true ∨ cycle = 0) (hi : i < count) :
    c.turn count (cycle * count + i) = i := by
  unfold turn
  split
  · exact Nat.mul_add_mod_of_lt hi
  · next hloop =>
    obtain rfl := hcycle.resolve_left hloop
    rw [Nat.zero_mul, Nat.zero_add]

section Run

variable {calls : List (Call α)}

/-- On sampled states of one problem each selection is answered from the tile whose turn it is. -/
theorem replies_in_turn (hm : m.WellFormed) (htiles : c.lattice.tiles c.tile m.labels = .ok tiles)
    (hproblem : ∀ call ∈ calls, call.state.problem.model = m)
    (hbest : ∀ s ∈ Call.asked calls, ∃ best, s.bestSample = .ok best ∧ m.Assigned best)
    (hs : (Call.asked calls)[k]? = some s) :
    (c.replies .fresh calls)[k]? = some (c.answer tiles k s) ∧
      ∀ tile, tiles[c.turn tiles.length k]? = some tile → s.Shows tile (c.answer tiles k s) := by
  have hknown : ∀ call ∈ calls,
      c.lattice.tiles c.tile call.state.problem.model.labels = .ok tiles := by
    intro call hcall
    rwa [hproblem call hcall]
  have hmem := List.mem_of_getElem? hs
  obtain ⟨best, hok, hall⟩ := hbest s hmem
  constructor
  · rw [replies_fresh hknown, List.getElem?_mapIdx, hs]
    rfl
  · intro tile htile
    exact shows_answer hm htiles (hproblem _ (Call.mem_of_mem_asked hmem)) hok hall htile

/-- A cycle exposes what the tiles cover, one tile after another. -/
theorem exposed_cycle (hm : m.WellFormed) (htiles : c.lattice.tiles c.tile m.labels = .ok tiles)
    (hproblem : ∀ call ∈ calls, call.state.problem.model = m)
    (hbest : ∀ s ∈ Call.asked calls, ∃ best, s.bestSample = .ok best ∧ m.Assigned best)
    {cycle : Nat} (hcycle : c.loop = true ∨ cycle = 0)
    (hlength : (cycle + 1) * tiles.length ≤ (Call.asked calls).length) :
    (((c.replies .fresh calls).drop (cycle * tiles.length)).take tiles.length).map exposed =
      tiles.map fun t => t.embedding.labels := by
  apply List.ext_getElem?
  intro i
  rw [List.getElem?_map, List.getElem?_map, List.getElem?_take, List.getElem?_drop]
  by_cases hi : i < tiles.length
  · have hasked : cycle * tiles.length + i < (Call.asked calls).length := by
      rw [Nat.succ_mul] at hlength
      omega
    have htile := List.getElem?_eq_getElem hi
    obtain ⟨hreply, hshows⟩ :=
      replies_in_turn hm htiles hproblem hbest (List.getElem?_eq_getElem hasked)
    rw [if_pos hi, hreply, htile, Option.map_some, Option.map_some]
    rw [(hshows _ (by rwa [turn_cycle hcycle hi])).exposed_eq]
  · rw [if_neg hi, List.getElem?_eq_none (not_lt.1 hi)]
    rfl

/-- Calls on states of one problem whose best samples assign all its variables yield its tiles in
turn, round and round with a loop and else once, and every cycle exposes each variable once. -/
theorem selects_tiles_in_turn (c : Tiling) (hm : m.Reachable)
    (htiles : c.lattice.tiles c.tile m.labels = .ok tiles)
    (hproblem : ∀ call ∈ calls, call.state.problem.model = m)
    (hbest : ∀ s ∈ Call.asked calls, ∃ best, s.bestSample = .ok best ∧
      ∀ v ∈ m.labels, (best.get? v).isSome) :
    (∀ k s, (Call.asked calls)[k]? = some s →
      ∃ reply, (c.replies .fresh calls)[k]? = some reply ∧
        (c.loop = true → tiles ≠ [] →
          ∃ tile, tiles[k % tiles.length]? = some tile ∧ s.Shows tile reply) ∧
        (c.loop = false → k < tiles.length →
          ∃ tile, tiles[k]? = some tile ∧ s.Shows tile reply) ∧
        (c.loop = false → tiles.length ≤ k → reply = .ok .endOfStream) ∧
        (tiles = [] → reply = .ok .endOfStream)) ∧
    ∀ cycle, (c.loop = true ∨ cycle = 0) →
      (cycle + 1) * tiles.length ≤ (Call.asked calls).length →
      ∀ v, ((((c.replies .fresh calls).drop (cycle * tiles.length)).take tiles.length).flatMap
        exposed).count v = if v ∈ m.labels then 1 else 0 := by
  have hwell := hm.wellFormed
  constructor
  · intro k s hs
    obtain ⟨hreply, hshows⟩ := replies_in_turn hwell htiles hproblem hbest hs
    refine ⟨_, hreply, ?_, ?_, ?_, ?_⟩
    · intro hloop hne
      have htile := List.getElem?_eq_getElem (Nat.mod_lt k (List.length_pos_of_ne_nil hne))
      exact ⟨_, htile, hshows _ (by rwa [turn_of_loop hloop])⟩
    · intro hloop hlt
      have htile := List.getElem?_eq_getElem hlt
      exact ⟨_, htile, hshows _ (by rwa [turn_of_not_loop hloop])⟩
    · intro hloop hle
      have hnone := List.getElem?_eq_none hle
      exact answer_of_none (by rwa [turn_of_not_loop hloop]) s
    · rintro rfl
      exact answer_of_none rfl s
  · intro cycle hcycle hlength v
    have hperm := (Lattice.divides_of_tiles hwell.labels_nodup htiles).perm
    rw [List.flatMap_def, exposed_cycle hwell htiles hproblem hbest hcycle hlength,
      ← List.flatMap_def, hperm.count_eq, hwell.labels_nodup.count]

end Run

/-- A loop over the two cells, prepared twice: the third selection brings the first tile again. -/
theorem selects_tiles_in_turn_path :
    let calls : List (Call Binary64) := [.setup latticePath, .select latticePath,
      .select latticePath, .setup latticePath, .select latticePath]
    (∃ reply, ((cellTiles true).replies .fresh calls)[2]? = some reply ∧
      latticePath.Shows ⟨⟨0, 0, 0⟩, [(0, .number 0), (1, .number 1)]⟩ reply) ∧
    ∀ v, ((((cellTiles true).replies .fresh calls).take 2).flatMap exposed).count v =
      if v ∈ latticePath.problem.model.labels then 1 else 0 := by
  intro calls
  have hproblem : ∀ call ∈ calls, call.state.problem.model = latticePath.problem.model := by
    decide +kernel
  have hbest : ∀ s ∈ Call.asked calls, ∃ best, s.bestSample = .ok best ∧
      ∀ v ∈ latticePath.problem.model.labels, (best.get? v).isSome := by
    intro s hs
    have hs : s = latticePath := by simpa [calls, Call.asked] using hs
    exact ⟨_, hs ▸ bestSample_latticePath, assigned_latticePath⟩
  obtain ⟨hturns, hcycles⟩ := selects_tiles_in_turn (cellTiles true) ⟨.binary, pathEdits, rfl⟩
    (tiles_latticePath true) hproblem hbest
  obtain ⟨reply, hreply, hloop, -⟩ := hturns 2 latticePath rfl
  obtain ⟨tile, htile, hshows⟩ := hloop rfl (by decide)
  cases htile
  exact ⟨⟨reply, hreply, hshows⟩, hcycles 0 (Or.inr rfl) (by decide)⟩

end Tiling

end QuboSplit
