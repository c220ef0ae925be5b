import QuboSplit.Proofs.Traversal.Order

/-!
# How much a traversal selects

The traversals along interactions select from the components with an open ranked variable, and as
much of them as the size allows, whatever has been visited and however little is ranked. If every
variable is ranked these are all variables that have not been visited, and the traversal by energy
takes them as well (`traverse_attains`).
-/

namespace QuboSplit.Model

open Search (attainable Grows TakesFrom)

variable {α : Type} {m : Model α} {ranked visited : List Label}

theorem WellFormed.hasInteraction_comm (hm : m.WellFormed) (u v : Label) :
    m.hasInteraction u v = m.hasInteraction v u := by
  rw [hasInteraction_eq, hasInteraction_eq, hm.coupling?_comm]

theorem mem_labels_of_attainable (hranked : ∀ v ∈ ranked, v ∈ m.labels) {v : Label}
    (hv : v ∈ attainable m.hasInteraction ranked visited) : v ∈ m.labels := by
  obtain ⟨u, hu, -, hreach⟩ := hv
  rw [SimpleGraph.reachable_iff_reflTransGen] at hreach
  cases hreach with
  | refl => exact hranked v hu
  | tail _ hadj =>
    obtain ⟨-, h | h⟩ := (SimpleGraph.fromRel_adj _ _ _).1 hadj
    · exact (mem_labels_of_hasInteraction h.2.2).2
    · exact (mem_labels_of_hasInteraction h.2.2).1

/-- The variables that have not been visited. -/
def unvisited (m : Model α) (visited : List Label) : Set Label :=
  {v | v ∈ m.labels ∧ v ∉ visited}

/-- If every variable is ranked, all that have not been visited are attainable. -/
theorem attainable_eq_unvisited (hranked : ∀ v, v ∈ ranked ↔ v ∈ m.labels) :
    attainable m.hasInteraction ranked visited = m.unvisited visited := by
  ext v
  constructor
  · intro hv
    refine ⟨mem_labels_of_attainable (fun u hu => (hranked u).1 hu) hv, ?_⟩
    obtain ⟨u, -, hopen, hreach⟩ := hv
    exact Search.not_mem_of_reachable hreach hopen
  · rintro ⟨hv, hopen⟩
    exact ⟨v, (hranked v).2 hv, hopen, .refl v⟩

/-- The search of a model takes all that is attainable, or as much as it is asked for. -/
theorem search_takesFrom (hm : m.WellFormed) {pick : Search.Discipline} (hpick : Search.Picks pick)
    (hranked : ∀ v ∈ ranked, v ∈ m.labels) (visited : List Label) (size : Int) :
    TakesFrom (attainable m.hasInteraction ranked visited) size.toNat
      (m.search pick (ranked.map m.indexOf) visited size) := by
  -- any preference will do, even none
  have hbest : Search.PicksBest m.links pick fun _ _ _ => True := fun _ _ _ _ _ _ _ _ => trivial
  have hgrows : Grows m.hasInteraction (fun _ _ _ => True) ranked visited size.toNat
      (m.search pick (ranked.map m.indexOf) visited size) :=
    search_grows hm hpick hbest (fun _ _ _ _ => trivial) hranked visited size
  have hfinite : (attainable m.hasInteraction ranked visited).Finite :=
    m.labels.toFinset.finite_toSet.subset fun v hv =>
      List.mem_toFinset.2 (mem_labels_of_attainable hranked hv)
  exact hgrows.takesFrom hm.hasInteraction_comm hfinite

theorem traverse_takesFrom [Scalar α] (hm : m.WellFormed) {ranking : Ranking α}
    (hranked : ∀ v ∈ ranking.map Prod.fst, v ∈ m.labels) (visited : List Label) (size : Int)
    {mode : Traversal} (hmode : mode ≠ .energy) :
    ∃ out, m.traverse mode ranking visited size = .ok out ∧
      TakesFrom (attainable m.hasInteraction (ranking.map Prod.fst) visited) size.toNat out := by
  cases mode with
  | energy => exact absurd rfl hmode
  | breadthFirst =>
    exact ⟨_, traverse_breadthFirst hranked visited size,
      search_takesFrom hm Search.picks_firstFound hranked visited size⟩
  | priorityFirst =>
    exact ⟨_, traverse_priorityFirst hranked visited size,
      search_takesFrom hm (Search.picks_bestFound _) hranked visited size⟩

/-- The walk along a ranking of all variables takes all that have not been visited, or as many as it
is asked for. -/
theorem walk_takesFrom (hm : m.WellFormed) {ranking : Ranking α}
    (hperm : (ranking.map Prod.fst).Perm m.labels) (visited : List Label) (size : Int) :
    TakesFrom (m.unvisited visited) size.toNat (ranking.walk visited size) := by
  have hopen := hperm.filter (· ∉ visited)
  have hset : m.unvisited visited = ((m.labels.filter (· ∉ visited)).toFinset : Set Label) := by
    ext v
    simp [unvisited]
  refine ⟨((hperm.nodup_iff.2 hm.labels_nodup).filter _).take, fun v hv => ?_, ?_⟩
  · have hv := List.mem_filter.1 (hopen.mem_iff.1 (List.mem_of_mem_take hv))
    exact ⟨hv.1, by simpa using hv.2⟩
  · unfold Ranking.walk
    rw [hset, Set.ncard_coe_finset, List.toFinset_card_of_nodup (hm.labels_nodup.filter _),
      List.length_take, hopen.length_eq]

/-- A traversal along interactions selects different variables of the components with an open ranked
variable, and all of them or as many as it is asked for. If every variable is ranked once, then in
every mode it selects different variables that have not been visited, and all of these or as many as
it is asked for. -/
theorem traverse_attains [Scalar α] (hm : m.Reachable) {ranking : Ranking α}
    (hranked : ∀ v ∈ ranking.map Prod.fst, v ∈ m.labels) (visited : List Label) (size : Int) :
    (∀ mode, mode ≠ .energy → ∃ out, m.traverse mode ranking visited size = .ok out ∧
      TakesFrom (attainable m.hasInteraction (ranking.map Prod.fst) visited) size.toNat out) ∧
    ((ranking.map Prod.fst).Perm m.labels → ∀ mode, ∃ out,
      m.traverse mode ranking visited size = .ok out ∧
        TakesFrom (m.unvisited visited) size.toNat out) := by
  have hlinked : ∀ mode, mode ≠ .energy → ∃ out, m.traverse mode ranking visited size = .ok out ∧
      TakesFrom (attainable m.hasInteraction (ranking.map Prod.fst) visited) size.toNat out :=
    fun _ hmode => traverse_takesFrom hm.wellFormed hranked visited size hmode
  refine ⟨hlinked, fun hperm mode => ?_⟩
  by_cases hmode : mode = .energy
  · subst hmode
    exact ⟨_, rfl, walk_takesFrom hm.wellFormed hperm visited size⟩
  · rw [← attainable_eq_unvisited fun v => hperm.mem_iff]
    exact hlinked mode hmode

open Label (number) in
/-- Of the fork without one neighbour, six variables are attainable from those that are ranked. Once
all eight variables are ranked, every mode takes seven, though the visited one cuts the fork. -/
theorem traverse_attains_forked :
    let all : Ranking Binary64 := forked.labels.map fun v => (v, .ofInt 0)
    (attainable forked.hasInteraction (forkedRanking.map Prod.fst) [number 0]).ncard = 6 ∧
      ∀ mode, ∃ out, forked.traverse mode all [number 1, number 9] 8 = .ok out ∧
        TakesFrom (forked.unvisited [number 1, number 9]) 8 out := by
  intro all
  have hall : all.map Prod.fst = forked.labels := by decide +kernel
  have hknown : ∀ v ∈ all.map Prod.fst, v ∈ forked.labels := fun v hv => hall ▸ hv
  obtain ⟨hsome, -⟩ := traverse_attains forked_reachable forkedRanking_known [number 0] 9
  obtain ⟨-, hevery⟩ := traverse_attains forked_reachable hknown [number 1, number 9] 8
  refine ⟨?_, hevery (.of_eq hall)⟩
  obtain ⟨out, hok, htakes⟩ := hsome .breadthFirst (by decide)
  have hout : forked.traverse .breadthFirst forkedRanking [number 0] 9 =
      .ok [number 1, number 3, number 2, number 4, number 6, number 5] := by decide +kernel
  obtain rfl := Except.ok.inj (hok.symm.trans hout)
  have hlength : 6 = min 9 _ := htakes.length_eq
  omega

end QuboSplit.Model
