import QuboSplit.Proofs.Traversal.Prefix
import QuboSplit.Strategy.Constraint

/-!
# Growing by whole groups

A group is taken as a whole or not at all, so going through groups takes the union of some of them
(`exists_taken`). The strategy takes groups as it discovers them, and breaks off in the middle of a
row when the size is reached (`visit_spec`). As nothing is taken from then on, it selects what is
taken when all groups reachable from the seed are gone through (`collect_eq_grow`). A search from
the seed group passes only along groups that share variables (`mem_reachable`), so what grows is a
union of such groups (`grow_spec`).
-/

namespace QuboSplit

namespace Constraint

/-! ### The graph of groups -/

/-- The two groups have a variable in common. -/
def Share (c : Constraint) (i j : Nat) : Prop := ∃ v ∈ c.group i, v ∈ c.group j

variable {c : Constraint} {i j : Nat}

/-- The groups reachable from group `i` in breadth-first order. -/
def reachable (graph : List (List Nat)) (i : Nat) : List Nat :=
  Search.run (fun j => graph.getD j []) Search.firstFound [i] graph.length [] []

/-- The variables taken when all groups reachable from the seed group `i` are gone through. -/
def grow (c : Constraint) (graph : List (List Nat)) (i : Nat) : List Label :=
  ((reachable graph i).map c.group).foldl (absorb c.size.value) []

theorem linked_iff {g h : Group} : linked g h = true ↔ ∃ v ∈ g, v ∈ h := by
  unfold linked
  simp only [List.any_eq_true, decide_eq_true_eq]
  exact exists_congr fun v => and_comm

theorem lt_of_mem_group {v : Label} (hv : v ∈ c.group j) : j < c.groups.length := by
  by_contra hle
  unfold group at hv
  rw [List.getD_eq_getElem?_getD, List.getElem?_eq_none (by omega)] at hv
  simp at hv

theorem mem_neighbors_iff : j ∈ c.neighbors i ↔ j < c.groups.length ∧ i ≠ j ∧ c.Share i j := by
  unfold neighbors Share
  rw [List.mem_filter, List.mem_range, Bool.and_eq_true, decide_eq_true_eq, linked_iff]

theorem mem_graph_iff : j ∈ c.graph.getD i [] ↔
    i < c.groups.length ∧ j < c.groups.length ∧ i ≠ j ∧ c.Share i j := by
  unfold graph
  rw [List.getD_eq_getElem?_getD, List.getElem?_map]
  by_cases hi : i < c.groups.length
  · rw [List.getElem?_range hi]
    exact mem_neighbors_iff.trans (and_iff_right hi).symm
  · rw [List.getElem?_eq_none (by rwa [List.length_range, ← not_lt])]
    simp [hi]

theorem length_graph (c : Constraint) : c.graph.length = c.groups.length := by
  unfold graph
  rw [List.length_map, List.length_range]

theorem graph_sound (c : Constraint) :
    Search.Graph c.groups.length fun i => c.graph.getD i [] where
  in_range i j hj := (mem_graph_iff.1 hj).2.1
  nodup i := by
    unfold graph
    rw [List.getD_eq_getElem?_getD, List.getElem?_map]
    cases (List.range c.groups.length)[i]? with
    | none => exact List.nodup_nil
    | some i => exact List.nodup_range.filter _

/-- The search from a group selects it first. -/
theorem reachable_eq_cons (hi : i < c.groups.length) :
    ∃ rest, reachable c.graph i = i :: rest := by
  unfold reachable
  obtain ⟨n, hn⟩ := Nat.exists_eq_succ_of_ne_zero (Nat.ne_zero_of_lt hi)
  rw [length_graph, hn, Search.run_succ]
  exact ⟨_, rfl⟩

/-- The search comes only to groups at the end of a chain of groups that share variables. -/
theorem mem_reachable (hi : i < c.groups.length) (hj : j ∈ reachable c.graph i) :
    j < c.groups.length ∧ Relation.ReflTransGen c.Share i j := by
  let P j := j < c.groups.length ∧ Relation.ReflTransGen c.Share i j
  have hlinks : ∀ u, P u → ∀ v ∈ c.graph.getD u [], P v := by
    intro u hu v hv
    obtain ⟨-, hlt, -, hshare⟩ := mem_graph_iff.1 hv
    exact ⟨hlt, hu.2.tail hshare⟩
  have hseed : ∀ u ∈ [i], P u := List.forall_mem_singleton.2 ⟨hi, .refl⟩
  exact Search.forall_mem_run Search.picks_firstFound hlinks hseed _ (by simp) j hj

/-! ### Taking groups -/

/-- The variables are different and fit into the size. -/
structure Fits (size : Nat) (labels : List Label) : Prop where
  nodup : labels.Nodup
  length_le : labels.length ≤ size

variable {size : Nat} {labels : List Label}

/-- A group is taken as a whole or not at all. -/
theorem absorb_cases (h : Fits size labels) (group : Group) :
    absorb size labels group = labels ∨
      Fits size (absorb size labels group) ∧
        ∀ v, v ∈ absorb size labels group ↔ v ∈ labels ∨ v ∈ group := by
  unfold absorb
  dsimp only
  split
  · next hle =>
    refine Or.inr ⟨⟨nodup_adjoin h.nodup _, (length_adjoin_le _ _).trans hle⟩, fun v => ?_⟩
    rw [mem_adjoin, List.mem_filter, decide_eq_true_eq]
    by_cases hv : v ∈ labels <;> simp [hv]
  · exact Or.inl rfl

/-- A group that fits is taken if nothing was before. -/
theorem absorb_nil {group : Group} (h : group.length ≤ size) :
    absorb size [] group = distinct group := by
  have hall : group.filter (· ∉ []) = group := by simp
  unfold absorb
  dsimp only
  rw [hall, List.length_nil, Nat.zero_add, if_pos h]
  rfl

theorem fits_distinct {group : Group} (h : group.length ≤ size) : Fits size (distinct group) where
  nodup := nodup_distinct group
  length_le := by
    have hlength := length_adjoin_le [] group
    rw [List.length_nil, Nat.zero_add] at hlength
    exact hlength.trans h

/-- Going through groups in some order takes some of them, in that order. -/
theorem exists_taken (c : Constraint) (order : List Nat) (h : Fits c.size.value labels) :
    ∃ taken : List Nat, taken.Sublist order ∧
      Fits c.size.value ((order.map c.group).foldl (absorb c.size.value) labels) ∧
      ∀ v, v ∈ (order.map c.group).foldl (absorb c.size.value) labels ↔
        v ∈ labels ∨ ∃ j ∈ taken, v ∈ c.group j := by
  induction order generalizing labels with
  | nil => exact ⟨[], .refl _, h, by simp⟩
  | cons j order ih =>
    rw [List.map_cons, List.foldl_cons]
    rcases absorb_cases h (c.group j) with hsame | ⟨hfits, hunion⟩
    · rw [hsame]
      obtain ⟨taken, hsub, hfits, hmem⟩ := ih h
      exact ⟨taken, hsub.cons j, hfits, hmem⟩
    · obtain ⟨taken, hsub, hfits, hmem⟩ := ih hfits
      refine ⟨j :: taken, hsub.cons_cons j, hfits, fun v => ?_⟩
      rw [hmem, hunion, List.exists_mem_cons_iff, or_assoc]

/-- Once the size is reached nothing more is taken: the search could as well stop there. -/
theorem foldl_absorb_of_full (h : labels.length = size) (groups : List Group) :
    groups.foldl (absorb size) labels = labels := by
  induction groups with
  | nil => rfl
  | cons group groups ih =>
    have hsame : absorb size labels group = labels := by
      unfold absorb
      dsimp only
      split
      · next hle =>
        have hnone : group.filter (· ∉ labels) = [] := by
          rw [← List.length_eq_zero_iff]
          omega
        rw [hnone]
        rfl
      · rfl
    rw [List.foldl_cons, hsame, ih]

theorem group_length_le (c : Constraint) (i : Nat) : (c.group i).length ≤ c.size.value := by
  unfold group
  rw [List.getD_eq_getElem?_getD]
  cases h : c.groups[i]? with
  | none => exact Nat.zero_le _
  | some g => exact (c.group_fits g (List.mem_of_getElem? h)).2

/-- From a seed grows a union of whole groups, the seed among them. -/
theorem grow_spec (hi : i < c.groups.length) :
    Fits c.size.value (c.grow c.graph i) ∧ ∃ taken : List Nat, i ∈ taken ∧
      (∀ j ∈ taken, j < c.groups.length ∧ Relation.ReflTransGen c.Share i j) ∧
      ∀ v, v ∈ c.grow c.graph i ↔ ∃ j ∈ taken, v ∈ c.group j := by
  obtain ⟨rest, hrest⟩ := reachable_eq_cons hi
  have hlength := c.group_length_le i
  have hgrow : c.grow c.graph i =
      (rest.map c.group).foldl (absorb c.size.value) (distinct (c.group i)) := by
    unfold grow
    rw [hrest, List.map_cons, List.foldl_cons, absorb_nil hlength]
  obtain ⟨taken, hsub, hfits, hmem⟩ := exists_taken c rest (fits_distinct hlength)
  refine ⟨hgrow ▸ hfits, i :: taken, List.mem_cons_self, fun j hj => ?_, fun v => ?_⟩
  · refine mem_reachable hi (hrest ▸ ?_)
    exact (hsub.cons_cons i).subset hj
  · rw [hgrow, hmem, mem_distinct, List.exists_mem_cons_iff]

/-! ### Growing along the graph -/

open Search (Frontier firstFound fresh openCount)

/-- Along a row the new groups are taken in order. Where it is broken off nothing more would have
been taken. -/
theorem visit_spec (c : Constraint) {row : List Nat} (hrow : row.Nodup) (w : Growth) :
    let new := row.filter (· ∉ w.discovered)
    let labels := (new.map c.group).foldl (absorb c.size.value) w.labels
    (c.visit row w).labels = labels ∧
      (labels.length = c.size.value ∨
        c.visit row w = ⟨labels, new.reverse ++ w.discovered, w.queue ++ new⟩) := by
  induction row generalizing w with
  | nil => exact ⟨rfl, .inr (by simp [visit])⟩
  | cons j row ih =>
    obtain ⟨hj, hrow⟩ := List.nodup_cons.1 hrow
    unfold visit
    by_cases hold : j ∈ w.discovered
    · rw [if_pos hold, List.filter_cons_of_neg (by simpa using hold)]
      exact ih hrow w
    · have hnew : row.filter (· ∉ j :: w.discovered) = row.filter (· ∉ w.discovered) := by
        refine List.filter_congr fun i hi => ?_
        have hne : i ≠ j := fun e => hj (e ▸ hi)
        simp [hne]
      have hrest := ih hrow
        ⟨absorb c.size.value w.labels (c.group j), j :: w.discovered, w.queue ++ [j]⟩
      dsimp only at hrest ⊢
      rw [hnew] at hrest
      rw [if_neg hold, List.filter_cons_of_pos (by simpa using hold), List.map_cons,
        List.foldl_cons]
      by_cases hfull : (absorb c.size.value w.labels (c.group j)).length = c.size.value
      · rw [if_pos hfull, foldl_absorb_of_full hfull]
        exact ⟨rfl, .inl hfull⟩
      · rw [if_neg hfull]
        simpa [List.append_assoc] using hrest

theorem spread_of_full {w : Growth} (h : w.labels.length = c.size.value) (graph : List (List Nat))
    (steps : Nat) : c.spread graph steps w = w := by
  cases steps with
  | zero => rfl
  | succ steps =>
    unfold spread
    split
    · rfl
    · rw [if_neg h.not_lt]

/-- The variables taken from groups in some order. -/
def takenFrom (c : Constraint) (order : List Nat) : List Label :=
  (order.map c.group).foldl (absorb c.size.value) []

theorem takenFrom_append (c : Constraint) (order more : List Nat) :
    c.takenFrom (order ++ more) =
      (more.map c.group).foldl (absorb c.size.value) (c.takenFrom order) := by
  unfold takenFrom
  rw [List.map_append, List.foldl_append]

theorem takenFrom_of_full {order order' : List Nat} (h : (c.takenFrom order).length = c.size.value)
    (hmore : order <+: order') : c.takenFrom order' = c.takenFrom order := by
  obtain ⟨more, rfl⟩ := hmore
  rw [takenFrom_append, foldl_absorb_of_full h]

theorem fits_takenFrom (c : Constraint) (order : List Nat) :
    Fits c.size.value (c.takenFrom order) := by
  obtain ⟨-, -, hfits, -⟩ := exists_taken c order ⟨List.nodup_nil, Nat.zero_le c.size.value⟩
  exact hfits

/-- Once the size is reached a search that goes on from the queue brings nothing more. -/
theorem takenFrom_run_of_full {done queue : List Nat} {steps : Nat}
    (hfull : (c.takenFrom (done ++ queue)).length = c.size.value) (hsteps : queue.length ≤ steps)
    (links : Nat → List Nat) (closed : List Nat) :
    c.takenFrom (done ++ Search.run links firstFound [] steps queue closed) =
      c.takenFrom (done ++ queue) :=
  takenFrom_of_full hfull
    ((List.prefix_append_right_inj done).2 (Search.prefix_run_firstFound hsteps closed))

/-- A selection that has looked at the neighbours of the groups in `done`, and has gone through
these and the groups in its queue. -/
structure Growth.Follows (c : Constraint) (done : List Nat) (w : Growth) : Prop where
  labels_eq : w.labels = c.takenFrom (done ++ w.queue)
  discovered_iff : ∀ j, j ∈ w.discovered ↔ j ∈ w.queue ∨ j ∈ done.reverse
  frontier : Frontier c.groups.length w.queue done.reverse

/-- Visiting the head of the queue moves it to `done` and takes what a search finds next to it.
Where the row is broken off the size is reached. -/
theorem Growth.Follows.visit {done : List Nat} {w : Growth} {u : Nat} {queue : List Nat}
    (h : w.Follows c done) (hqueue : w.queue = u :: queue) :
    let next := c.visit (c.graph.getD u []) { w with queue }
    let later := Search.advance (fun i => c.graph.getD i []) u w.queue done.reverse
    next.labels = c.takenFrom (done ++ [u] ++ later) ∧
      Frontier c.groups.length later (done ++ [u]).reverse ∧
      (next.labels.length = c.size.value ∨ next.queue = later ∧ next.Follows c (done ++ [u])) := by
  obtain ⟨labels, discovered, waiting⟩ := w
  obtain rfl : waiting = u :: queue := hqueue
  obtain ⟨hlabels, hdiscovered, hfrontier⟩ := h
  dsimp only at hlabels hdiscovered hfrontier ⊢
  obtain ⟨hvisited, hcases⟩ := c.visit_spec (c.graph_sound.nodup u) ⟨labels, discovered, queue⟩
  have hlater := hfrontier.advance c.graph_sound u
  have hdone : (done ++ [u]).reverse = u :: done.reverse := by simp
  have hadvance : Search.advance (fun i => c.graph.getD i []) u (u :: queue) done.reverse =
      queue ++ (c.graph.getD u []).filter (· ∉ discovered) := by
    rw [Search.advance_of_seen List.mem_cons_self hdiscovered, List.erase_cons_head]
  rw [hadvance, ← hdone] at hlater
  rw [hadvance]
  dsimp only at hvisited hcases
  generalize (c.graph.getD u []).filter (· ∉ discovered) = new at *
  have htaken : (new.map c.group).foldl (absorb c.size.value) labels =
      c.takenFrom (done ++ [u] ++ (queue ++ new)) := by
    rw [hlabels, ← takenFrom_append]
    simp
  rw [htaken] at hvisited hcases
  refine ⟨hvisited, hlater, hcases.imp (fun hfull => hvisited ▸ hfull) fun hcontinues => ?_⟩
  rw [hcontinues]
  refine ⟨rfl, rfl, fun j => ?_, hlater⟩
  simp only [List.mem_append, List.mem_reverse, hdiscovered, List.mem_cons, List.not_mem_nil,
    or_false]
  tauto

/-- The loop selects what is taken from the groups in `done` and from those that a search selects
from its queue. -/
theorem Growth.Follows.labels_spread {done : List Nat} {w : Growth} (h : w.Follows c done)
    {steps : Nat} (hsteps : openCount c.groups.length done.reverse ≤ steps) :
    (c.spread c.graph steps w).labels = c.takenFrom (done ++
      Search.run (fun i => c.graph.getD i []) firstFound [] steps w.queue done.reverse) := by
  -- by induction on the steps: the head of the queue moves to `done`, and the search selects it
  induction steps generalizing done w with
  | zero =>
    have hnil : w.queue = [] :=
      List.length_eq_zero_iff.1 (Nat.le_zero.1 (h.frontier.length_le.trans hsteps))
    rw [hnil, Search.run_nil, ← hnil]
    exact h.labels_eq
  | succ steps ih =>
    by_cases hlt : w.labels.length < c.size.value
    · cases hqueue : w.queue with
      | nil =>
        have hspread : c.spread c.graph (steps + 1) w = w := by
          unfold spread
          rw [hqueue]
        rw [hspread, Search.run_nil, ← hqueue]
        exact h.labels_eq
      | cons u queue =>
        have hspread : c.spread c.graph (steps + 1) w =
            c.spread c.graph steps (c.visit (c.graph.getD u []) { w with queue }) := by
          conv_lhs => unfold spread
          rw [hqueue]
          exact if_pos hlt
        have hnext : Search.next? firstFound [] (u :: queue) done.reverse = some u := rfl
        have hu := h.frontier.next Search.picks_firstFound (by simp) (hqueue ▸ hnext)
        have hdone : (done ++ [u]).reverse = u :: done.reverse := by simp
        have hcount : openCount c.groups.length (done ++ [u]).reverse ≤ steps := by
          have := Search.openCount_cons hu.1 hu.2
          rw [hdone]
          omega
        obtain ⟨hlabels, hlater, hcases⟩ := h.visit hqueue
        rw [hqueue] at hlabels hlater hcases
        rw [Search.run_of_next? hnext, hspread, List.append_cons, ← hdone]
        rcases hcases with hfull | ⟨hlast, hfollows⟩
        · rw [spread_of_full hfull, hlabels]
          exact (takenFrom_run_of_full (hlabels ▸ hfull) (hlater.length_le.trans hcount) _ _).symm
        · rw [ih hfollows hcount, hlast]
    · have hfull : w.labels.length = c.size.value := by
        have := (c.fits_takenFrom (done ++ w.queue)).length_le
        rw [← h.labels_eq] at this
        omega
      have hlength := h.frontier.length_le.trans hsteps
      rw [spread_of_full hfull, h.labels_eq]
      exact (takenFrom_run_of_full (h.labels_eq ▸ hfull) hlength _ _).symm

/-- The loop selects from its seed what is taken when all reachable groups are gone through. -/
theorem collect_eq_grow (hi : i < c.groups.length) : c.collect c.graph i = c.grow c.graph i := by
  have hseed : Frontier c.groups.length [i] [] :=
    ⟨List.nodup_singleton i, List.forall_mem_singleton.2 hi, fun _ _ => List.not_mem_nil⟩
  have hcount : openCount c.groups.length [] ≤ c.graph.length := by
    rw [length_graph]
    exact Search.openCount_le _ _
  have hrun : reachable c.graph i = Search.run (fun i => c.graph.getD i []) firstFound []
      c.graph.length [i] [] := by
    have hbudget : c.graph.length ≠ 0 := by
      rw [length_graph]
      exact Nat.ne_zero_of_lt hi
    unfold reachable
    rw [← Search.rounds_round_eq Search.picks_firstFound]
    unfold Search.rounds
    rw [if_neg hbudget, if_neg List.not_mem_nil]
    exact List.append_nil _
  unfold collect grow
  rw [hrun]
  have hstart : Growth.Follows c [] ⟨distinct (c.group i), [i], [i]⟩ :=
    ⟨(absorb_nil (c.group_length_le i)).symm, by simp, hseed⟩
  exact hstart.labels_spread hcount

end Constraint

end QuboSplit
