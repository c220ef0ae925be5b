import Mathlib.Tactic
import QuboSplit.Proofs.Ranking.Order
import QuboSplit.Proofs.Traversal.Greedy

/-!
# Traversing complete graphs

On a complete graph the first node has all others on its fringe, and the fringe stays all that is
left. So a selection takes its seeds in turn if they stand in the order of preference
(`grows_of_complete`), and by a strict preference there is no other selection. A ranking is in the
order of preference: its ties go by index, and so do those of a fringe found all at once. If all
variables that are left interact, a traversal by priority is therefore the one by energy
(`priorityFirst_eq_energy`).
-/

namespace QuboSplit

/-! ### Seeds in turn -/

namespace Search

section Complete

variable {β : Type} [DecidableEq β] {near : β → β → Bool} {seeds removed before after : List β}
  {v : β} (hnodup : seeds.Nodup) (hsplit : seeds.filter (· ∉ removed) = before ++ after)

omit [DecidableEq β] in
/-- All that is next to the first node is found there. -/
theorem foundAt_of_head {u : β} {rest : List β} (h : near u v = true) :
    foundAt near (u :: rest) v = 0 := by
  unfold foundAt
  rw [List.findIdx_cons, h]
  rfl

include hnodup hsplit

theorem not_mem_of_split (hv : v ∈ after) : v ∉ before := fun hmem =>
  (List.nodup_append.1 (hsplit ▸ hnodup.filter _)).2.2 v hmem v hv rfl

theorem nextSeed?_of_split : nextSeed? seeds removed before = after.head? := by
  have hopen : nextSeed? seeds removed before =
      (seeds.filter (· ∉ removed)).find? (· ∉ before) := by
    unfold nextSeed?
    rw [List.find?_filter]
    refine List.find?_congr fun v _ => ?_
    simp only [decide_eq_true_eq]
  have hbefore : before.find? (· ∉ before) = none :=
    List.find?_eq_none.2 fun v hv => by simpa using hv
  rw [hopen, hsplit, List.find?_append, hbefore, Option.none_or]
  cases after with
  | nil => rfl
  | cons v rest =>
    have hv := not_mem_of_split hnodup hsplit (List.mem_cons_self (a := v))
    exact List.find?_cons_of_pos (by simpa using hv)

variable (hcomplete : ∀ u ∈ seeds, ∀ v ∈ seeds, u ∉ removed → v ∉ removed → u ≠ v → near u v = true)

include hcomplete

theorem near_of_split {u : β} (hu : u ∈ before) (hv : v ∈ after) : near u v = true := by
  have hopen : ∀ w ∈ before ++ after, w ∈ seeds ∧ w ∉ removed := by
    intro w hw
    rwa [← hsplit, List.mem_filter, decide_eq_true_eq] at hw
  obtain ⟨huseed, huopen⟩ := hopen u (List.mem_append_left _ hu)
  obtain ⟨hvseed, hvopen⟩ := hopen v (List.mem_append_right _ hv)
  have hne : u ≠ v := fun e => not_mem_of_split hnodup hsplit hv (e ▸ hu)
  exact hcomplete u huseed v hvseed huopen hvopen hne

variable (hseeds : ∀ {u v}, near u v = true → v ∈ seeds)

include hseeds

/-- Once a node is selected, what is left is the fringe. -/
theorem fringe_iff_of_complete :
    Fringe near removed before v ↔ before ≠ [] ∧ v ∈ after := by
  constructor
  · rintro ⟨hremoved, hnew, u, hu, huv⟩
    have hmem : v ∈ before ++ after :=
      hsplit ▸ List.mem_filter.2 ⟨hseeds huv, decide_eq_true hremoved⟩
    exact ⟨List.ne_nil_of_mem hu, (List.mem_append.1 hmem).resolve_left hnew⟩
  · rintro ⟨hne, hv⟩
    obtain ⟨u, hu⟩ := List.exists_mem_of_ne_nil before hne
    have hmem : v ∈ seeds.filter (· ∉ removed) := hsplit ▸ List.mem_append_right _ hv
    exact ⟨of_decide_eq_true (List.mem_filter.1 hmem).2, not_mem_of_split hnodup hsplit hv, u, hu,
      near_of_split hnodup hsplit hcomplete hu hv⟩

theorem exhausted_iff_of_complete : Exhausted near seeds removed before ↔ after = [] := by
  unfold Exhausted
  rw [nextSeed?_of_split hnodup hsplit, List.head?_eq_none_iff]
  refine and_iff_right_of_imp fun hnil w hw => ?_
  have hw := ((fringe_iff_of_complete hnodup hsplit hcomplete hseeds).1 hw).2
  exact absurd hw (hnil ▸ List.not_mem_nil)

omit hsplit

/-- The first node that is left follows, if it is preferred to the others. -/
theorem follows_of_complete {prefers : β → β → Prop}
    (hsplit : seeds.filter (· ∉ removed) = before ++ v :: after)
    (hbest : before ≠ [] → ∀ w ∈ after, prefers v w) :
    Follows near prefers seeds removed before v := by
  by_cases hne : before = []
  · refine .seeded (fun w hw => ?_) (nextSeed?_of_split hnodup hsplit)
    exact ((fringe_iff_of_complete hnodup hsplit hcomplete hseeds).1 hw).1 hne
  · have hfringe : ∀ {w}, Fringe near removed before w ↔ w ∈ v :: after := fun {w} => by
      rw [fringe_iff_of_complete hnodup hsplit hcomplete hseeds, and_iff_right hne]
    refine .grown (hfringe.2 List.mem_cons_self) fun w hw hwv => ?_
    exact hbest hne w ((List.mem_cons.1 (hfringe.1 hw)).resolve_left hwv)

/-- If different open seeds are next to each other and nothing else is, and each is preferred to
those after it, then the open seeds in turn are a selection. -/
theorem grows_of_complete {prefers : List β → β → β → Prop}
    (hbest : ∀ before v after, seeds.filter (· ∉ removed) = before ++ v :: after → before ≠ [] →
      ∀ w ∈ after, prefers before v w) (size : Nat) :
    Grows near prefers seeds removed size ((seeds.filter (· ∉ removed)).take size) where
  follows p v hv := by
    have hlt := (List.getElem?_eq_some_iff.1 hv).1
    rw [List.length_take] at hlt
    rw [List.getElem?_take_of_lt (by omega)] at hv
    obtain ⟨hp, rfl⟩ := List.getElem?_eq_some_iff.1 hv
    rw [List.take_take, Nat.min_eq_left (by omega)]
    have hsplit : seeds.filter (· ∉ removed) = _ ++ _ :: _ :=
      (List.take_append_drop p _).symm.trans (by rw [List.drop_eq_getElem_cons hp])
    exact follows_of_complete hnodup hcomplete hseeds hsplit (hbest _ _ _ hsplit)
  stops p hp := by
    rw [List.length_take] at hp
    have hsplit := (List.take_append_drop p (seeds.filter (· ∉ removed))).symm
    rw [List.take_take, Nat.min_eq_left (by omega), List.length_take,
      exhausted_iff_of_complete hnodup hsplit hcomplete hseeds, List.drop_eq_nil_iff]
    omega

end Complete

end Search

/-! ### Rankings in turn -/

namespace Model

open Search (Grows)

variable {m : Model Binary64} {s : Sample Binary64} {minGain : Option Binary64}
  {ranking : Ranking Binary64} {visited : List Label}

/-- The ranked variables stand in the order of their scores and indices. -/
theorem IsRanking.pairwise_score (h : m.IsRanking s minGain ranking) :
    (ranking.map Prod.fst).Pairwise fun v w =>
      m.Precedes (v, ranking.score v) (w, ranking.score w) := by
  refine List.pairwise_map.2 (h.ordered.imp_of_mem fun {e f} he hf hef => ?_)
  rwa [Ranking.score_eq h.nodup he, Ranking.score_eq h.nodup hf]

/-- Of two variables next to the first one that is selected, the one that comes first in the ranking
is preferred. -/
theorem Precedes.outranks {u v w : Label} {rest : List Label}
    (h : m.Precedes (v, ranking.score v) (w, ranking.score w))
    (huv : m.hasInteraction u v = true) (huw : m.hasInteraction u w = true) :
    m.Outranks ranking (u :: rest) v w := by
  refine h.imp_right fun ⟨hequal, hindex⟩ => ⟨hequal, .inr ⟨?_, hindex⟩⟩
  rw [Search.foundAt_of_head huv, Search.foundAt_of_head huw]

/-- If all variables that have not been visited interact with each other, the walk along a ranking
of all variables is a selection by score. -/
theorem walk_grows (h : m.IsRanking s none ranking)
    (hperm : (ranking.map Prod.fst).Perm m.labels)
    (hcomplete : ∀ u ∈ m.labels, ∀ v ∈ m.labels, u ∉ visited → v ∉ visited → u ≠ v →
      m.hasInteraction u v = true) (size : Int) :
    Grows m.hasInteraction (m.Outranks ranking) (ranking.map Prod.fst) visited size.toNat
      (ranking.walk visited size) := by
  have hcomplete : ∀ u ∈ ranking.map Prod.fst, ∀ v ∈ ranking.map Prod.fst, u ∉ visited →
      v ∉ visited → u ≠ v → m.hasInteraction u v = true := fun u hu v hv =>
    hcomplete u (hperm.mem_iff.1 hu) v (hperm.mem_iff.1 hv)
  refine Search.grows_of_complete h.nodup hcomplete
    (fun huv => hperm.mem_iff.2 (mem_labels_of_hasInteraction huv).2) ?_ size.toNat
  intro before v after hsplit hne w hw
  obtain ⟨u, rest, rfl⟩ := List.exists_cons_of_ne_nil hne
  have hlinked : ∀ x ∈ v :: after, m.hasInteraction u x = true := fun _ =>
    Search.near_of_split h.nodup hsplit hcomplete List.mem_cons_self
  have hordered := h.pairwise_score.filter (· ∉ visited)
  rw [hsplit] at hordered
  have hprecedes := (List.pairwise_cons.1 (List.pairwise_append.1 hordered).2.1).1 w hw
  exact hprecedes.outranks (hlinked v List.mem_cons_self)
    (hlinked w (List.mem_cons_of_mem v hw))

/-- If all variables that have not been visited interact with each other, then by the ranking of a
sample without `nan` among its gains the traversal by priority selects what the one by energy
selects. The ranking and a fringe that is found all at once break ties alike. -/
theorem priorityFirst_eq_energy (hm : m.Reachable) (hs : ∀ v ∈ m.labels, (s.get? v).isSome)
    (hgains : ∀ v ∈ m.labels, m.flipGain s v ≠ .ok .nan)
    (hcomplete : ∀ u ∈ m.labels, ∀ v ∈ m.labels, u ∉ visited → v ∉ visited → u ≠ v →
      m.hasInteraction u v = true) (size : Int) :
    ∃ ranking out, m.ranking s none = .ok ranking ∧
      m.traverse .priorityFirst ranking visited size = .ok out ∧
      m.traverse .energy ranking visited size = .ok out := by
  have hwell := hm.wellFormed
  obtain ⟨ranking, hranking⟩ := exists_ranking (m := m) hs none
  have hranks := ranks_of_ranking hwell.labels_nodup hranking
  have hsearch := search_grows_score hwell hranks.known
    (ne_nan_of_mem_ranking hwell hgains hranking) visited size
  have hwalk := walk_grows (isRanking_of_ranking hwell hgains hranking)
    (hranks.perm rfl hwell.labels_nodup) hcomplete size
  refine ⟨ranking, _, hranking, traverse_priorityFirst hranks.known visited size, ?_⟩
  exact congrArg Except.ok (hwalk.unique (fun _ _ _ h => h.asymm) hsearch)

open Label (number) in
/-- Two pairs of equal gains, and a variable that has been visited and does not interact with all.
The variables are not in the order of their labels. -/
theorem priorityFirst_eq_energy_tied :
    let m : Model Binary64 := .ofEdits .binary
      [.setLinear (number 7) (.ofInt (-1)), .setLinear (number 2) (.ofInt (-3)),
        .setLinear (number 5) (.ofInt (-1)), .setLinear (number 3) (.ofInt (-3)),
        .setQuadratic (number 7) (number 2) (.ofInt 1),
        .setQuadratic (number 7) (number 5) (.ofInt 0),
        .setQuadratic (number 7) (number 3) (.ofInt 2),
        .setQuadratic (number 2) (number 5) (.ofInt 1),
        .setQuadratic (number 2) (number 3) (.ofInt (-1)),
        .setQuadratic (number 5) (number 3) (.ofInt 1),
        .setQuadratic (number 9) (number 5) (.ofInt 4)]
    let s : Sample Binary64 := ⟨[(number 2, .ofInt 0), (number 3, .ofInt 0), (number 5, .ofInt 0),
      (number 7, .ofInt 0), (number 9, .ofInt 0)], by decide⟩
    ∃ ranking, m.ranking s none = .ok ranking ∧
      m.traverse .priorityFirst ranking [number 8, number 9] 3 =
        .ok [number 2, number 3, number 7] ∧
      m.traverse .energy ranking [number 8, number 9] 3 = .ok [number 2, number 3, number 7] := by
  intro m s
  have hm : m.Reachable := ⟨.binary, _, rfl⟩
  have hs : ∀ v ∈ m.labels, (s.get? v).isSome := by decide +kernel
  have hgains : ∀ v ∈ m.labels, m.flipGain s v ≠ .ok .nan := by decide +kernel
  have hcomplete : ∀ u ∈ m.labels, ∀ v ∈ m.labels, u ∉ [number 8, number 9] →
      v ∉ [number 8, number 9] → u ≠ v → m.hasInteraction u v = true := by decide +kernel
  obtain ⟨ranking, out, hranking, hpriority, henergy⟩ :=
    priorityFirst_eq_energy hm hs hgains hcomplete 3
  have hout : (m.ranking s none).bind (m.traverse .energy · [number 8, number 9] 3) =
      .ok [number 2, number 3, number 7] := by decide +kernel
  rw [hranking] at hout
  obtain rfl : out = _ := Except.ok.inj (henergy.symm.trans hout)
  exact ⟨ranking, hranking, hpriority, henergy⟩

end Model

end QuboSplit
