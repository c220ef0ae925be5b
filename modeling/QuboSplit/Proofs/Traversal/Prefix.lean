import Mathlib.Tactic
import QuboSplit.Proofs.Traversal.Greedy
import QuboSplit.Proofs.Traversal.Queue

/-!
# Traversing with less

A search with a smaller budget is the beginning of the search with a larger one (`run_take`): the
budget only says when to stop, and what is selected next depends on what has been selected. The
traversals along interactions are made in rounds (`RunsInRounds`), which break off in the middle of
a row or before they take an entry from their queue. With different budgets they break off at
different places and agree all the same. So what a traversal selects for some size is a prefix of
what it selects for any larger one, in every mode (`traverse_prefix`).
-/

namespace QuboSplit

/-! ### Searches -/

namespace Search

variable {links : Nat → List Nat} {pick : Discipline} {a b : Nat}

/-- A smaller budget cuts off the end. -/
theorem run_take (hab : a ≤ b) (seeds frontier closed : List Nat) :
    run links pick seeds a frontier closed =
      (run links pick seeds b frontier closed).take a := by
  induction a generalizing b frontier closed with
  | zero => rfl
  | succ a ih =>
    obtain ⟨b, rfl⟩ := Nat.exists_eq_add_of_le' hab
    rw [← Nat.add_assoc, run_succ, run_succ]
    cases next? pick seeds frontier closed with
    | none => rfl
    | some u =>
      rw [List.take_succ_cons]
      exact congrArg (u :: ·) (ih (Nat.le_add_left a b) _ _)

/-- Breadth first the frontier is selected before what is found later. -/
theorem prefix_run_firstFound {budget : Nat} {frontier : List Nat} (h : frontier.length ≤ budget)
    (closed : List Nat) : frontier <+: run links firstFound [] budget frontier closed := by
  have hfirst : run links firstFound [] frontier.length frontier closed = frontier :=
    (run_firstFound_of_le (Nat.le_refl _)).trans List.take_length
  rw [run_take h] at hfirst
  exact List.prefix_iff_eq_take.2 hfirst.symm

end Search

/-! ### Traversals -/

namespace Model

open Search (rounds round collectRound queueRound bestFound PriorityQueue)

variable {α : Type} {m : Model α}

/-- Of a smaller size a search of the model selects the first variables of a larger one. -/
theorem search_take (hm : m.WellFormed) {pick : Search.Discipline} (hpick : Search.Picks pick)
    {ranked : List Label} (hranked : ∀ v ∈ ranked, v ∈ m.labels) (visited : List Label) {a b : Int}
    (hab : a ≤ b) :
    m.search pick (ranked.map m.indexOf) visited a =
      (m.search pick (ranked.map m.indexOf) visited b).take a.toNat := by
  have hlabels : ∀ v ∈ (m.search pick (ranked.map m.indexOf) visited b).take a.toNat,
      v ∈ m.labels := fun v hv => mem_labels_of_mem_search (List.mem_of_mem_take hv)
  calc m.search pick (ranked.map m.indexOf) visited a
      = ((Search.run m.links pick (ranked.map m.indexOf) b.toNat []
          (m.knownIndices visited)).take a.toNat).filterMap m.label? := by
        rw [← Search.run_take (Int.toNat_le_toNat hab)]
        rfl
    _ = (((m.search pick (ranked.map m.indexOf) visited b).take a.toNat).map
          m.indexOf).filterMap m.label? := by
        rw [List.map_take, map_indexOf_search hm hpick hranked]
    _ = (m.search pick (ranked.map m.indexOf) visited b).take a.toNat :=
        filterMap_label?_map_indexOf hlabels

variable [Scalar α] {ranking : Ranking α}

/-- For every size the traversal in a mode selects what rounds of a kind select, and with a smaller
budget these rounds select the beginning of what they select with a larger one. -/
structure RunsInRounds (m : Model α) (mode : Traversal) (ranking : Ranking α)
    (visited : List Label) (round : Nat → Nat → List Nat → List Nat) : Prop where
  traverse_eq : ∀ size : Int, m.traverse mode ranking visited size =
    .ok ((rounds round ((ranking.map Prod.fst).map m.indexOf) size.toNat
      (m.knownIndices visited)).filterMap m.label?)
  take_eq : ∀ {a b : Nat}, a ≤ b →
    rounds round ((ranking.map Prod.fst).map m.indexOf) a (m.knownIndices visited) =
      (rounds round ((ranking.map Prod.fst).map m.indexOf) b (m.knownIndices visited)).take a

/-- A traversal runs in rounds if it is a search that is made in these rounds. -/
theorem RunsInRounds.of_search {mode : Traversal} {visited : List Label}
    {round : Nat → Nat → List Nat → List Nat} {pick : Search.Discipline}
    (htraverse : ∀ size : Int, m.traverse mode ranking visited size =
      .ok (m.search pick ((ranking.map Prod.fst).map m.indexOf) visited size))
    (hrounds : ∀ budget, rounds round ((ranking.map Prod.fst).map m.indexOf) budget
      (m.knownIndices visited) =
        Search.run m.links pick ((ranking.map Prod.fst).map m.indexOf) budget []
          (m.knownIndices visited)) :
    m.RunsInRounds mode ranking visited round where
  traverse_eq size := by
    rw [htraverse size, hrounds]
    rfl
  take_eq hab := by
    rw [hrounds, hrounds]
    exact Search.run_take hab _ _ _

/-- For a smaller size a traversal selects the first variables of what it selects for a larger. -/
theorem exists_traverse_take (hm : m.WellFormed) (mode : Traversal)
    (hranked : ∀ v ∈ ranking.map Prod.fst, v ∈ m.labels) (visited : List Label) {a b : Int}
    (hab : a ≤ b) :
    ∃ longer, m.traverse mode ranking visited a = .ok (longer.take a.toNat) ∧
      m.traverse mode ranking visited b = .ok longer := by
  cases mode with
  | energy =>
    refine ⟨_, ?_, rfl⟩
    unfold Ranking.walk
    rw [List.take_take, min_eq_left (Int.toNat_le_toNat hab)]
    rfl
  | breadthFirst =>
    refine ⟨_, ?_, traverse_breadthFirst hranked visited b⟩
    rw [traverse_breadthFirst hranked visited a]
    exact congrArg _ (search_take hm Search.picks_firstFound hranked visited hab)
  | priorityFirst =>
    refine ⟨_, ?_, traverse_priorityFirst hranked visited b⟩
    rw [traverse_priorityFirst hranked visited a]
    exact congrArg _ (search_take hm (Search.picks_bestFound _) hranked visited hab)

/-- A traversal of known variables selects for each size the first variables of what it selects for
any larger one, and none for a size that is not positive. Breadth first it runs in rounds that
collect variables as soon as they are found. By priority it runs in rounds that select the best
variable found, and as well in rounds with any priority queue. -/
theorem traverse_prefix (hm : m.Reachable) (mode : Traversal)
    (hranked : ∀ v ∈ ranking.map Prod.fst, v ∈ m.labels) (visited : List Label) {a b : Int}
    (hab : a ≤ b) :
    (∃ shorter longer, m.traverse mode ranking visited a = .ok shorter ∧
      m.traverse mode ranking visited b = .ok longer ∧ shorter <+: longer ∧
      shorter = longer.take a.toNat) ∧
    m.RunsInRounds .breadthFirst ranking visited (collectRound m.links) ∧
    let score := scoreOf (((ranking.map Prod.fst).map m.indexOf).zip (ranking.map Prod.snd))
    m.RunsInRounds .priorityFirst ranking visited
      (round m.links (bestFound fun i j => (score i).exceeds (score j))) ∧
    ∀ queue : PriorityQueue Score.exceeds score,
      m.RunsInRounds .priorityFirst ranking visited (queueRound queue m.links) := by
  have hwell := hm.wellFormed
  have hseeds := lt_size_of_mem_map hranked
  refine ⟨?_, ?_, ?_, fun queue => ?_⟩
  · obtain ⟨longer, ha, hb⟩ := exists_traverse_take hwell mode hranked visited hab
    exact ⟨_, longer, ha, hb, List.take_prefix _ _, rfl⟩
  · exact .of_search (traverse_breadthFirst hranked visited)
      fun budget => Search.rounds_collectRound_eq hwell.graph _ budget _
  · exact .of_search (traverse_priorityFirst hranked visited)
      fun budget => Search.rounds_round_eq (Search.picks_bestFound _) _ budget _
  · exact .of_search (traverse_priorityFirst hranked visited)
      fun budget => Search.rounds_queueRound_eq queue hwell.graph hseeds budget _

/-- A priority queue for gains that are numbers. -/
def numberQueue {ranking : Ranking Binary64} (m : Model Binary64)
    (hgains : ∀ e ∈ ranking, e.2 ≠ .nan) :
    PriorityQueue Score.exceeds
      (scoreOf (((ranking.map Prod.fst).map m.indexOf).zip (ranking.map Prod.snd))) :=
  .scanning (fun _ _ => Score.exceeds_asymm)
    fun _ j _ => Score.not_exceeds_trans (scoreOf_ne_nan hgains j)

theorem forkedRanking_numbers : ∀ e ∈ forkedRanking, e.2 ≠ .nan := by decide +kernel

open Label (number) in
/-- Cut off among the neighbours of the first variable by one size, and going on elsewhere by the
other; and nothing at all for a negative size. By priority a round from the first variable has a
queue of numbers, and takes first the neighbour found last. -/
theorem traverse_prefix_forked :
    let visited := [number 0, number 9]
    let queue := forked.numberQueue forkedRanking_numbers
    (∃ longer,
      forked.traverse .breadthFirst forkedRanking visited 2 = .ok [number 1, number 3] ∧
      forked.traverse .breadthFirst forkedRanking visited 5 = .ok longer ∧
      [number 1, number 3] <+: longer) ∧
    forked.traverse .priorityFirst forkedRanking visited (-1) = .ok [] ∧
    forked.RunsInRounds .breadthFirst forkedRanking visited (collectRound forked.links) ∧
    forked.RunsInRounds .priorityFirst forkedRanking visited (queueRound queue forked.links) ∧
    queueRound queue forked.links 3 1 (forked.knownIndices visited) = [1, 3, 0] := by
  intro visited queue
  obtain ⟨⟨shorter, longer, hshorter, hlonger, hbegins, -⟩, hcollect, -, hqueue⟩ :=
    traverse_prefix forked_reachable .breadthFirst forkedRanking_known visited
      (show (2 : Int) ≤ 5 by decide)
  obtain ⟨⟨none, all, hnone, -, -, hempty⟩, -⟩ := traverse_prefix forked_reachable
    .priorityFirst forkedRanking_known visited (show (-1 : Int) ≤ 9 by decide)
  have hout : forked.traverse .breadthFirst forkedRanking visited 2 =
      .ok [number 1, number 3] := by decide +kernel
  obtain rfl := Except.ok.inj (hshorter.symm.trans hout)
  exact ⟨⟨longer, hshorter, hlonger, hbegins⟩, hnone.trans (congrArg _ hempty), hcollect,
    hqueue queue, by decide +kernel⟩

end Model

end QuboSplit
