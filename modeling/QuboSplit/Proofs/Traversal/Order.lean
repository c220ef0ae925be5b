import QuboSplit.Proofs.Traversal.Growth
import QuboSplit.Proofs.Traversal.Ranked

/-!
# The order in which a search selects

The frontier of a search is the fringe of what it has selected, in the order in which the fringe was
found (`Found`). One selection keeps it so (`Found.advance`), hence every search grows its
selection, by whatever its discipline prefers (`run_grows`).
-/

namespace QuboSplit.Search

/-- The second node is a neighbour of the first. -/
def linked (links : Nat → List Nat) (u v : Nat) : Bool := v ∈ links u

/-- A search that has selected some nodes: they and the removed ones are closed, and the frontier is
their fringe as it was found. -/
structure Found (links : Nat → List Nat) (removed selected frontier closed : List Nat) : Prop where
  closed_iff : ∀ v, v ∈ closed ↔ v ∈ removed ∨ v ∈ selected
  fringe_iff : ∀ v, v ∈ frontier ↔ Fringe (linked links) removed selected v
  ordered : frontier.Pairwise (FoundBefore (linked links) id selected)

variable {links : Nat → List Nat} {pick : Discipline} {seeds removed selected frontier : List Nat}
  {closed : List Nat}

theorem Found.start (links : Nat → List Nat) (removed : List Nat) :
    Found links removed [] [] removed where
  closed_iff := by simp
  fringe_iff := by simp [Fringe]
  ordered := .nil

/-! ### One selection -/

/-- A node that was found stays found where it was. -/
theorem foundAt_append_of_linked {v : Nat} (h : ∃ u ∈ selected, linked links u v = true) (u : Nat) :
    foundAt (linked links) (selected ++ [u]) v = foundAt (linked links) selected v := by
  unfold foundAt
  rw [List.findIdx_append, if_pos (List.findIdx_lt_length.2 h)]

theorem foundAt_append_of_new {u v : Nat} (hnew : ¬ ∃ u ∈ selected, linked links u v = true)
    (h : linked links u v = true) :
    foundAt (linked links) (selected ++ [u]) v = selected.length := by
  unfold foundAt
  rw [List.findIdx_append, if_neg (mt List.findIdx_lt_length.1 hnew), List.findIdx_cons, h]
  exact Nat.zero_add _

namespace Found

variable (h : Found links removed selected frontier closed)

include h

theorem nodup : frontier.Nodup := by
  refine h.ordered.imp fun {v w} hvw e => ?_
  subst e
  rcases hvw with hlt | ⟨-, hlt⟩ <;> exact lt_irrefl _ hlt

theorem not_mem_closed_iff {v : Nat} : v ∉ closed ↔ v ∉ removed ∧ v ∉ selected := by
  rw [h.closed_iff, not_or]

/-- What a selection adds to the frontier was next to no selected node before. -/
theorem new_of_not_mem {u v : Nat} (hfrontier : v ∉ frontier) (hopen : v ∉ u :: closed) :
    ¬ ∃ u ∈ selected, linked links u v = true := by
  intro hlinked
  obtain ⟨hremoved, hselected⟩ := h.not_mem_closed_iff.1 (List.not_mem_of_not_mem_cons hopen)
  exact hfrontier ((h.fringe_iff v).2 ⟨hremoved, hselected, hlinked⟩)

/-- A selection moves the node from the frontier to the selected nodes and finds its open
neighbours. -/
theorem mem_advance_iff (u v : Nat) : v ∈ Search.advance links u frontier closed ↔
    Fringe (linked links) removed (selected ++ [u]) v := by
  have hcons : v ∉ u :: closed ↔ v ≠ u ∧ v ∉ removed ∧ v ∉ selected := by
    rw [List.mem_cons, not_or, h.not_mem_closed_iff]
  unfold Search.advance
  rw [List.mem_append, h.nodup.mem_erase_iff, List.mem_filter, decide_eq_true_eq]
  constructor
  · rintro (⟨hne, hv⟩ | ⟨hv, -, hopen⟩)
    · obtain ⟨hremoved, hselected, w, hw, hwv⟩ := (h.fringe_iff v).1 hv
      exact ⟨hremoved, by simp [hselected, hne], w, List.mem_append_left _ hw, hwv⟩
    · obtain ⟨hne, hremoved, hselected⟩ := hcons.1 hopen
      exact ⟨hremoved, by simp [hselected, hne], u, by simp, decide_eq_true hv⟩
  · rintro ⟨hremoved, hnew, w, hw, hwv⟩
    rw [List.mem_append, List.mem_singleton, not_or] at hnew
    obtain ⟨hselected, hne⟩ := hnew
    by_cases hfrontier : v ∈ frontier
    · exact .inl ⟨hne, hfrontier⟩
    · -- what was not on the frontier is next to the selected node
      rcases List.mem_append.1 hw with hw | hw
      · exact absurd ((h.fringe_iff v).2 ⟨hremoved, hselected, w, hw, hwv⟩) hfrontier
      · obtain rfl := List.mem_singleton.1 hw
        exact .inr ⟨of_decide_eq_true hwv, hfrontier, hcons.2 ⟨hne, hremoved, hselected⟩⟩

/-- The neighbours come after all that was found before, in the order of their indices. -/
theorem ordered_advance (hlinks : ∀ u, (links u).Pairwise (· < ·)) (u : Nat) :
    (Search.advance links u frontier closed).Pairwise
      (FoundBefore (linked links) id (selected ++ [u])) := by
  have hold : ∀ v ∈ frontier, ∃ u ∈ selected, linked links u v = true := fun v hv =>
    ((h.fringe_iff v).1 hv).2.2
  have hfresh : ∀ v ∈ (links u).filter (fun v => v ∉ frontier ∧ v ∉ u :: closed),
      foundAt (linked links) (selected ++ [u]) v = selected.length := by
    intro v hv
    obtain ⟨hv, hnew⟩ := List.mem_filter.1 hv
    simp only [decide_eq_true_eq] at hnew
    exact foundAt_append_of_new (h.new_of_not_mem hnew.1 hnew.2) (decide_eq_true hv)
  unfold Search.advance
  refine List.pairwise_append.2 ⟨?_, ?_, ?_⟩
  · refine (h.ordered.sublist List.erase_sublist).imp_of_mem fun {v w} hv hw hvw => ?_
    unfold FoundBefore at hvw ⊢
    rwa [foundAt_append_of_linked (hold v (List.mem_of_mem_erase hv)),
      foundAt_append_of_linked (hold w (List.mem_of_mem_erase hw))]
  · refine ((hlinks u).filter _).imp_of_mem fun {v w} hv hw hvw => ?_
    exact .inr ⟨(hfresh v hv).trans (hfresh w hw).symm, hvw⟩
  · intro v hv w hw
    have hv := hold v (List.mem_of_mem_erase hv)
    left
    rw [foundAt_append_of_linked hv, hfresh w hw]
    exact List.findIdx_lt_length.2 hv

theorem advance (hlinks : ∀ u, (links u).Pairwise (· < ·)) (u : Nat) :
    Found links removed (selected ++ [u]) (Search.advance links u frontier closed)
      (u :: closed) where
  closed_iff v := by
    rw [List.mem_cons, h.closed_iff, List.mem_append, List.mem_singleton, or_comm, or_assoc]
  fringe_iff := h.mem_advance_iff u
  ordered := h.ordered_advance hlinks u

end Found

/-! ### Whole searches -/

/-- At every position of a search there is a state of which a property holds that selections keep,
and the search goes on from it, unless its budget is spent. -/
theorem exists_state_of_run {P : List Nat → List Nat → List Nat → Prop}
    (hstep : ∀ {selected frontier closed} u, P selected frontier closed →
      P (selected ++ [u]) (advance links u frontier closed) (u :: closed))
    (h : P selected frontier closed) (budget p : Nat)
    (hp : p ≤ (run links pick seeds budget frontier closed).length) :
    ∃ frontier' closed',
      P (selected ++ (run links pick seeds budget frontier closed).take p) frontier' closed' ∧
      (run links pick seeds budget frontier closed)[p]? =
        if p = budget then none else next? pick seeds frontier' closed' := by
  induction budget generalizing selected frontier closed p with
  | zero =>
    obtain rfl : p = 0 := Nat.le_zero.1 hp
    exact ⟨frontier, closed, by rwa [List.take_zero, List.append_nil], rfl⟩
  | succ budget ih =>
    rw [run_succ] at hp ⊢
    cases hu : next? pick seeds frontier closed with
    | none =>
      rw [hu] at hp
      obtain rfl : p = 0 := Nat.le_zero.1 hp
      exact ⟨frontier, closed, by rwa [List.take_zero, List.append_nil], hu.symm⟩
    | some u =>
      rw [hu] at hp
      cases p with
      | zero => exact ⟨frontier, closed, by rwa [List.take_zero, List.append_nil], hu.symm⟩
      | succ p =>
        obtain ⟨frontier', closed', hP, hnext⟩ := ih (hstep u h) p (Nat.le_of_succ_le_succ hp)
        refine ⟨frontier', closed', ?_, ?_⟩
        · rwa [List.append_assoc] at hP
        · rw [List.getElem?_cons_succ, hnext]
          simp only [Nat.add_right_cancel_iff]

/-- The discipline picks what is preferred from a frontier in the order found. -/
def PicksBest (links : Nat → List Nat) (pick : Discipline)
    (prefers : List Nat → Nat → Nat → Prop) : Prop :=
  ∀ selected frontier v, frontier.Pairwise (FoundBefore (linked links) id selected) →
    pick frontier = some v → ∀ w ∈ frontier, w ≠ v → prefers selected v w

/-- The seed from which a search starts again. -/
theorem Found.find?_eq (h : Found links removed selected frontier closed) (seeds : List Nat) :
    seeds.find? (· ∉ closed) = nextSeed? seeds removed selected := by
  unfold nextSeed?
  congr 1
  funext v
  rw [decide_eq_decide, h.not_mem_closed_iff]

/-- A search goes on with what follows. -/
theorem Found.follows (h : Found links removed selected frontier closed) (hpick : Picks pick)
    {prefers : List Nat → Nat → Nat → Prop} (hbest : PicksBest links pick prefers) {v : Nat}
    (hv : next? pick seeds frontier closed = some v) :
    Follows (linked links) (prefers selected) seeds removed selected v := by
  unfold next? at hv
  cases frontier with
  | nil =>
    refine .seeded (fun w hw => ?_) ((h.find?_eq seeds).symm.trans hv)
    exact absurd ((h.fringe_iff w).2 hw) List.not_mem_nil
  | cons u rest =>
    have hv : pick (u :: rest) = some v := hv
    obtain ⟨w, hw, hpicked⟩ := hpick (u :: rest) (List.cons_ne_nil u rest)
    obtain rfl : w = v := Option.some.inj (hpicked.symm.trans hv)
    exact .grown ((h.fringe_iff w).1 hw) fun z hz =>
      hbest selected (u :: rest) w h.ordered hv z ((h.fringe_iff z).2 hz)

/-- A search stops when nothing is left. -/
theorem Found.exhausted_iff (h : Found links removed selected frontier closed)
    (hpick : Picks pick) :
    Exhausted (linked links) seeds removed selected ↔ next? pick seeds frontier closed = none := by
  have hempty : (∀ w, ¬ Fringe (linked links) removed selected w) ↔ frontier = [] := by
    rw [List.eq_nil_iff_forall_not_mem]
    exact forall_congr' fun w => not_congr (h.fringe_iff w).symm
  unfold Exhausted
  rw [next?_eq_none_iff hpick, hempty, ← h.find?_eq, List.find?_eq_none]
  simp

/-- A search without closed nodes but the removed ones grows its selection. -/
theorem run_grows (hlinks : ∀ u, (links u).Pairwise (· < ·)) (hpick : Picks pick)
    {prefers : List Nat → Nat → Nat → Prop} (hbest : PicksBest links pick prefers)
    (seeds removed : List Nat) (budget : Nat) :
    Grows (linked links) prefers seeds removed budget
      (run links pick seeds budget [] removed) := by
  have hstate : ∀ p ≤ (run links pick seeds budget [] removed).length, ∃ frontier closed,
      Found links removed ((run links pick seeds budget [] removed).take p) frontier closed ∧
        (run links pick seeds budget [] removed)[p]? =
          if p = budget then none else next? pick seeds frontier closed := fun p hp =>
    exists_state_of_run (P := Found links removed) (fun u h => h.advance hlinks u)
      (.start links removed) budget p hp
  constructor
  · intro p v hv
    have hp := (List.getElem?_eq_some_iff.1 hv).1
    obtain ⟨frontier, closed, hfound, hnext⟩ := hstate p hp.le
    rw [hv] at hnext
    split at hnext
    · cases hnext
    · exact hfound.follows hpick hbest hnext.symm
  · intro p hp
    obtain ⟨frontier, closed, hfound, hnext⟩ := hstate p hp
    rw [hfound.exhausted_iff hpick]
    have hend : p = (run links pick seeds budget [] removed).length ↔
        (run links pick seeds budget [] removed)[p]? = none := by
      rw [List.getElem?_eq_none_iff]
      omega
    rw [hend, hnext]
    split
    · next h => simp [h]
    · next h => simp [h]

end QuboSplit.Search

/-! ### From indices to variables -/

namespace QuboSplit.Model

open Search (Fringe FoundBefore foundAt nextSeed? Follows Exhausted Grows linked)

variable {α : Type} {m : Model α} {ranked visited selected : List Label}

theorem linked_indexOf {u v : Label} (hu : u ∈ m.labels) (hv : v ∈ m.labels) :
    linked m.links (m.indexOf u) (m.indexOf v) = m.hasInteraction u v := by
  unfold hasInteraction
  rw [index?_indexOf hu, index?_indexOf hv, Bool.eq_iff_iff, Option.isSome_iff_ne_none, Ne,
    Row.bias?_eq_none_iff, not_not]
  exact decide_eq_true_iff

/-- Indices on a fringe are those of variables. -/
theorem exists_of_fringe (hm : m.WellFormed) {removed indices : List Nat} {i : Nat}
    (h : Fringe (linked m.links) removed indices i) : ∃ v ∈ m.labels, m.indexOf v = i := by
  obtain ⟨-, -, j, -, hlinked⟩ := h
  exact hm.exists_indexOf (hm.graph.in_range j i (of_decide_eq_true hlinked))

section Selected

variable (hm : m.WellFormed) (hselected : ∀ u ∈ selected, u ∈ m.labels)

include hselected

theorem mem_map_indexOf {v : Label} (hv : v ∈ m.labels) :
    m.indexOf v ∈ selected.map m.indexOf ↔ v ∈ selected := by
  refine ⟨fun h => ?_, List.mem_map_of_mem⟩
  obtain ⟨u, hu, e⟩ := List.mem_map.1 h
  exact indexOf_injOn (hselected u hu) hv e ▸ hu

theorem foundAt_map_indexOf {v : Label} (hv : v ∈ m.labels) :
    foundAt (linked m.links) (selected.map m.indexOf) (m.indexOf v) =
      foundAt m.hasInteraction selected v := by
  unfold foundAt
  induction selected with
  | nil => rfl
  | cons u rest ih =>
    obtain ⟨hu, hrest⟩ := List.forall_mem_cons.1 hselected
    rw [List.map_cons, List.findIdx_cons, List.findIdx_cons, linked_indexOf hu hv, ih hrest]

theorem foundBefore_map_indexOf {v w : Label} (hv : v ∈ m.labels) (hw : w ∈ m.labels) :
    FoundBefore (linked m.links) id (selected.map m.indexOf) (m.indexOf v) (m.indexOf w) ↔
      FoundBefore m.hasInteraction m.indexOf selected v w := by
  unfold FoundBefore
  rw [foundAt_map_indexOf hselected hv, foundAt_map_indexOf hselected hw]
  rfl

include hm

theorem fringe_map_indexOf {v : Label} (hv : v ∈ m.labels) :
    Fringe (linked m.links) (m.knownIndices visited) (selected.map m.indexOf) (m.indexOf v) ↔
      Fringe m.hasInteraction visited selected v := by
  unfold Fringe
  rw [mem_knownIndices hm.labels_nodup (label?_indexOf hv), mem_map_indexOf hselected hv]
  simp only [List.mem_map, exists_exists_and_eq_and]
  refine and_congr_right fun _ => and_congr_right fun _ => exists_congr fun u => ?_
  exact and_congr_right fun hu => by rw [linked_indexOf (hselected u hu) hv]

theorem forall_not_fringe_iff :
    (∀ i, ¬ Fringe (linked m.links) (m.knownIndices visited) (selected.map m.indexOf) i) ↔
      ∀ v, ¬ Fringe m.hasInteraction visited selected v := by
  constructor
  · intro h v hv
    obtain ⟨u, -, huv⟩ := hv.2.2
    have hmem := (mem_labels_of_hasInteraction huv).2
    exact h _ ((fringe_map_indexOf hm hselected hmem).2 hv)
  · intro h i hi
    obtain ⟨v, hv, rfl⟩ := exists_of_fringe hm hi
    exact h v ((fringe_map_indexOf hm hselected hv).1 hi)

theorem nextSeed?_map_indexOf (hranked : ∀ v ∈ ranked, v ∈ m.labels) :
    nextSeed? (ranked.map m.indexOf) (m.knownIndices visited) (selected.map m.indexOf) =
      (nextSeed? ranked visited selected).map m.indexOf := by
  unfold nextSeed?
  rw [List.find?_map]
  refine congrArg (Option.map m.indexOf) (List.find?_congr fun v hv => ?_)
  rw [Function.comp_apply, decide_eq_decide,
    mem_knownIndices hm.labels_nodup (label?_indexOf (hranked v hv)),
    mem_map_indexOf hselected (hranked v hv)]

/-- What follows by index follows by label, if the preferences do. -/
theorem follows_of_indices (hranked : ∀ v ∈ ranked, v ∈ m.labels)
    {prefers : Label → Label → Prop} {prefersAt : Nat → Nat → Prop} {v : Label} (hv : v ∈ m.labels)
    (hprefers : ∀ w ∈ m.labels, prefersAt (m.indexOf v) (m.indexOf w) → prefers v w)
    (h : Follows (linked m.links) prefersAt (ranked.map m.indexOf) (m.knownIndices visited)
      (selected.map m.indexOf) (m.indexOf v)) :
    Follows m.hasInteraction prefers ranked visited selected v := by
  cases h with
  | grown h hbest =>
    refine .grown ((fringe_map_indexOf hm hselected hv).1 h) fun w hw hne => ?_
    obtain ⟨u, -, huw⟩ := hw.2.2
    have hmem := (mem_labels_of_hasInteraction huw).2
    exact hprefers w hmem (hbest _ ((fringe_map_indexOf hm hselected hmem).2 hw)
      fun e => hne (indexOf_injOn hmem hv e))
  | seeded hnone h =>
    refine .seeded ((forall_not_fringe_iff hm hselected).1 hnone) ?_
    rw [nextSeed?_map_indexOf hm hselected hranked, Option.map_eq_some_iff] at h
    obtain ⟨u, hu, e⟩ := h
    have hmem := hranked u (Search.mem_of_nextSeed?_eq_some hu).1
    rw [hu, indexOf_injOn hmem hv e]

theorem exhausted_map_indexOf (hranked : ∀ v ∈ ranked, v ∈ m.labels) :
    Exhausted (linked m.links) (ranked.map m.indexOf) (m.knownIndices visited)
        (selected.map m.indexOf) ↔
      Exhausted m.hasInteraction ranked visited selected := by
  unfold Exhausted
  rw [forall_not_fringe_iff hm hselected, nextSeed?_map_indexOf hm hselected hranked,
    Option.map_eq_none_iff]

end Selected

theorem mem_labels_of_mem_search {pick : Search.Discipline} {seeds : List Nat} {size : Int}
    {v : Label} (hv : v ∈ m.search pick seeds visited size) : v ∈ m.labels := by
  obtain ⟨i, -, hi⟩ := List.mem_filterMap.1 hv
  exact mem_labels_of_label? hi

/-- The labels of a search name the selected indices one by one. -/
theorem map_indexOf_search (hm : m.WellFormed) {pick : Search.Discipline}
    (hpick : Search.Picks pick) (hranked : ∀ v ∈ ranked, v ∈ m.labels) (visited : List Label)
    (size : Int) :
    (m.search pick (ranked.map m.indexOf) visited size).map m.indexOf =
      Search.run m.links pick (ranked.map m.indexOf) size.toNat [] (m.knownIndices visited) := by
  have hrange := Search.open_of_mem_run hm.graph hpick (lt_size_of_mem_map hranked) size.toNat
    (Search.Frontier.nil m.size (m.knownIndices visited))
  unfold search
  rw [List.map_filterMap]
  refine (List.filterMap_congr fun i hi => ?_).trans List.filterMap_some
  obtain ⟨v, hv, e⟩ := hm.exists_indexOf (hrange i hi).1
  rw [← e, label?_indexOf hv, Option.map_some]

/-- The search of a model grows its selection, by whatever its discipline prefers. -/
theorem search_grows (hm : m.WellFormed) {pick : Search.Discipline} (hpick : Search.Picks pick)
    {prefers : List Label → Label → Label → Prop} {prefersAt : List Nat → Nat → Nat → Prop}
    (hbest : Search.PicksBest m.links pick prefersAt)
    (hprefers : ∀ {selected v w}, (∀ u ∈ selected, u ∈ m.labels) → v ∈ m.labels → w ∈ m.labels →
      prefersAt (selected.map m.indexOf) (m.indexOf v) (m.indexOf w) → prefers selected v w)
    (hranked : ∀ v ∈ ranked, v ∈ m.labels) (visited : List Label) (size : Int) :
    Grows m.hasInteraction prefers ranked visited size.toNat
      (m.search pick (ranked.map m.indexOf) visited size) := by
  have hgrows : Grows (linked m.links) prefersAt (ranked.map m.indexOf) (m.knownIndices visited)
      size.toNat ((m.search pick (ranked.map m.indexOf) visited size).map m.indexOf) := by
    rw [map_indexOf_search hm hpick hranked]
    exact Search.run_grows (fun u => hm.increasing u) hpick hbest _ _ _
  have htaken : ∀ p, ∀ v ∈ (m.search pick (ranked.map m.indexOf) visited size).take p,
      v ∈ m.labels := fun p v hv => mem_labels_of_mem_search (List.mem_of_mem_take hv)
  constructor
  · intro p v hv
    have hmem := mem_labels_of_mem_search (List.mem_of_getElem? hv)
    have hfollows := hgrows.follows p (m.indexOf v) (by rw [List.getElem?_map, hv]; rfl)
    rw [← List.map_take] at hfollows
    exact follows_of_indices hm (htaken p) hranked hmem
      (fun w hw => hprefers (htaken p) hmem hw) hfollows
  · intro p hp
    have hstops := hgrows.stops p (by rwa [List.length_map])
    rwa [List.length_map, ← List.map_take, exhausted_map_indexOf hm (htaken p) hranked] at hstops

/-! ### Breadth first -/

theorem picksBest_firstFound (m : Model α) : Search.PicksBest m.links Search.firstFound
    (FoundBefore (linked m.links) id) := by
  intro selected frontier v hordered hpicked w hw hne
  cases frontier with
  | nil => cases hpicked
  | cons u rest =>
    obtain rfl : u = v := Option.some.inj hpicked
    exact (List.pairwise_cons.1 hordered).1 w ((List.mem_cons.1 hw).resolve_left hne)

/-- A breadth-first traversal of ranked variables of the model grows in the order found: each
variable is the one of the fringe that was found first, or the next ranked one where the selected
variables have no fringe. It stops where it has the size asked for or nothing is left. -/
theorem breadthFirst_grows [Scalar α] (hm : m.Reachable) {ranking : Ranking α}
    (hranked : ∀ v ∈ ranking.map Prod.fst, v ∈ m.labels) (visited : List Label) (size : Int) :
    ∃ out, m.traverse .breadthFirst ranking visited size = .ok out ∧
      Grows m.hasInteraction (FoundBefore m.hasInteraction m.indexOf) (ranking.map Prod.fst) visited
        size.toNat out := by
  refine ⟨_, traverse_breadthFirst hranked visited size, ?_⟩
  exact search_grows hm.wellFormed Search.picks_firstFound m.picksBest_firstFound
    (fun hselected hv hw h => (foundBefore_map_indexOf hselected hv hw).1 h) hranked visited size

/-! ### A forked path -/

section Forked

open Label (number)

/-- A variable with three neighbours, one of which goes on to a fourth; a pair, and a variable
alone. The variables are not in the order of their labels. -/
def forked : Model Binary64 := ofEdits .binary
  [.setQuadratic (number 3) (number 1) (.ofInt 1), .setQuadratic (number 1) (number 0) (.ofInt 1),
    .setQuadratic (number 1) (number 2) (.ofInt 1), .setQuadratic (number 2) (number 4) (.ofInt 1),
    .setQuadratic (number 5) (number 6) (.ofInt 1), .addVariable (number 7) (.ofInt 0)]

theorem forked_reachable : forked.Reachable := ⟨.binary, _, rfl⟩

/-- Not all variables are ranked, and one of them is ranked twice. -/
def forkedRanking : Ranking Binary64 :=
  [(number 1, .ofInt 5), (number 3, .ofInt 9), (number 2, .ofInt 7), (number 3, .ofInt 1),
    (number 6, .ofInt 0)]

theorem forkedRanking_known : ∀ v ∈ forkedRanking.map Prod.fst, v ∈ forked.labels := by
  decide +kernel

/-- A neighbour of the first variable has been visited, as has a variable that is not in the model.
The search starts again at the pair and leaves the last variable, which is not ranked. -/
theorem breadthFirst_grows_forked :
    let visited := [number 0, number 9, number 0]
    let out := [number 1, number 3, number 2, number 4, number 6, number 5]
    forked.traverse .breadthFirst forkedRanking visited 9 = .ok out ∧
      Grows forked.hasInteraction (FoundBefore forked.hasInteraction forked.indexOf)
        (forkedRanking.map Prod.fst) visited 9 out := by
  intro visited out
  obtain ⟨out', hok, hgrows⟩ :=
    breadthFirst_grows forked_reachable forkedRanking_known visited 9
  have hout : forked.traverse .breadthFirst forkedRanking visited 9 = .ok out := by decide +kernel
  obtain rfl : out' = out := Except.ok.inj (hok.symm.trans hout)
  exact ⟨hout, hgrows⟩

end Forked

end QuboSplit.Model
