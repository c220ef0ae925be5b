import Mathlib.Tactic
import QuboSplit.Proofs.Traversal.Greedy
import QuboSplit.Proofs.Traversal.Rounds

/-!
# Traversing equal gains

To be preferred a node has to be better, so where no node is better than another the best one found
is the one found first (`bestFound_of_ties`). As long as the searches agree on what is selected they
agree on the frontier, and so on what is selected next (`run_congr`). If all gains are equal a
traversal by priority is therefore breadth first, in each of its rounds and as a whole
(`priorityFirst_eq_breadthFirst`).
-/

namespace QuboSplit

/-! ### Searches that agree -/

namespace Search

variable {n : Nat} {links : Nat → List Nat} {pick pick' : Discipline}
  {seeds removed frontier closed : List Nat}

/-- Without a better node the first one stays the best. -/
theorem bestFound_of_ties {better : Nat → Nat → Bool}
    (h : ∀ u ∈ frontier, ∀ v ∈ frontier, better u v = false) :
    bestFound better frontier = firstFound frontier := by
  cases frontier with
  | nil => rfl
  | cons x rest =>
    have hx : ∀ y ∈ rest, better y x = false := fun y hy =>
      h y (List.mem_cons_of_mem x hy) x List.mem_cons_self
    refine congrArg some ?_
    clear h
    induction rest with
    | nil => rfl
    | cons y rest ih =>
      obtain ⟨hy, hrest⟩ := List.forall_mem_cons.1 hx
      rw [List.foldl_cons, hy]
      exact ih hrest

/-- Disciplines that agree on all frontiers without removed nodes select alike. -/
theorem run_congr (hgraph : Graph n links)
    (hpick : ∀ frontier : List Nat, (∀ u ∈ frontier, u < n ∧ u ∉ removed) →
      pick frontier = pick' frontier)
    (hremoved : ∀ u ∈ removed, u ∈ closed) (h : Frontier n frontier closed) (budget : Nat) :
    run links pick seeds budget frontier closed = run links pick' seeds budget frontier closed := by
  induction budget generalizing frontier closed with
  | zero => rfl
  | succ budget ih =>
    have hnext : next? pick seeds frontier closed = next? pick' seeds frontier closed := by
      unfold next?
      cases frontier with
      | nil => rfl
      | cons w rest =>
        exact hpick (w :: rest) fun u hu =>
          ⟨h.in_range u hu, fun hmem => h.isOpen u hu (hremoved u hmem)⟩
    rw [run_succ, run_succ, hnext]
    cases next? pick' seeds frontier closed with
    | none => rfl
    | some u =>
      have hremoved := fun v hv => List.mem_cons_of_mem u (hremoved v hv)
      exact congrArg (u :: ·) (ih hremoved (h.advance hgraph u))

end Search

/-! ### Equal gains -/

namespace Model

open Search (round collectRound bestFound firstFound)

variable {m : Model Binary64} {ranking : Ranking Binary64} {visited : List Label}

section Ties

variable (hm : m.WellFormed) (hranked : ∀ v ∈ ranking.map Prod.fst, v ∈ m.labels)
  (hopen : ∀ v ∈ m.labels, v ∉ visited → v ∈ ranking.map Prod.fst)
  {gain : Binary64} (hgain : ∀ e ∈ ranking, e.2.equal gain = true)

include hm hranked hopen hgain

/-- Open indices are those of ranked variables, so their scores are equal. -/
theorem exceeds_of_ties {i j : Nat} (hi : i < m.size ∧ i ∉ m.knownIndices visited)
    (hj : j < m.size ∧ j ∉ m.knownIndices visited) :
    let score := scoreOf (((ranking.map Prod.fst).map m.indexOf).zip (ranking.map Prod.snd))
    (score i).exceeds (score j) = false := by
  have hscore : ∀ {k}, k < m.size ∧ k ∉ m.knownIndices visited →
      ((scoreOf (((ranking.map Prod.fst).map m.indexOf).zip (ranking.map Prod.snd)) k).getD
        (.infinite true)).equal gain = true := by
    rintro k ⟨hlt, hnot⟩
    obtain ⟨v, hv, rfl⟩ := hm.exists_indexOf hlt
    rw [mem_knownIndices hm.labels_nodup (label?_indexOf hv)] at hnot
    rw [scoreOf_indexOf hranked hv]
    exact hgain _ (Ranking.mem_score (hopen v hv hnot))
  dsimp only
  rw [Score.exceeds_eq]
  exact Floating.not_less_of_equal
    (Floating.equal_trans (hscore hj) (Floating.equal_symm (hscore hi)))

/-- By equal scores a search of the model selects breadth first. -/
theorem run_of_ties {frontier closed : List Nat}
    (hclosed : ∀ i ∈ m.knownIndices visited, i ∈ closed)
    (h : Search.Frontier m.size frontier closed) (seeds : List Nat) (budget : Nat) :
    let score := scoreOf (((ranking.map Prod.fst).map m.indexOf).zip (ranking.map Prod.snd))
    Search.run m.links (bestFound fun i j => (score i).exceeds (score j)) seeds budget frontier
      closed = Search.run m.links firstFound seeds budget frontier closed :=
  Search.run_congr hm.graph
    (fun _ hfrontier => Search.bestFound_of_ties fun i hi j hj =>
      exceeds_of_ties hm hranked hopen hgain (hfrontier i hi) (hfrontier j hj))
    hclosed h budget

end Ties

/-- If every variable that has not been visited is ranked and all gains are equal numbers, the
traversal by priority selects what the one breadth first selects. So does each round, from whatever
open source and with whatever else closed: selecting the best one found, and collecting all as soon
as they are found, come to the same. -/
theorem priorityFirst_eq_breadthFirst (hm : m.Reachable)
    (hranked : ∀ v ∈ ranking.map Prod.fst, v ∈ m.labels)
    (hopen : ∀ v ∈ m.labels, v ∉ visited → v ∈ ranking.map Prod.fst)
    {gain : Binary64} (hgain : ∀ e ∈ ranking, e.2.equal gain = true) (size : Int) :
    (∃ out, m.traverse .priorityFirst ranking visited size = .ok out ∧
      m.traverse .breadthFirst ranking visited size = .ok out) ∧
    ∀ (budget source : Nat) (closed : List Nat), 0 < budget → source < m.size → source ∉ closed →
      (∀ i ∈ m.knownIndices visited, i ∈ closed) →
      let score := scoreOf (((ranking.map Prod.fst).map m.indexOf).zip (ranking.map Prod.snd))
      round m.links (bestFound fun i j => (score i).exceeds (score j)) budget source closed =
        collectRound m.links budget source closed := by
  have hwell := hm.wellFormed
  constructor
  · refine ⟨_, traverse_priorityFirst hranked visited size, ?_⟩
    rw [traverse_breadthFirst hranked visited size]
    unfold search
    rw [run_of_ties hwell hranked hopen hgain (fun _ hi => hi) (.nil _ _)]
  · intro budget source closed hbudget hlt hsource hclosed
    have hfrontier : Search.Frontier m.size [source] closed := by
      constructor <;> simp [hlt, hsource]
    rw [Search.collectRound_eq hwell.graph hbudget]
    exact run_of_ties hwell hranked hopen hgain hclosed hfrontier [] budget

open Label (number) in
/-- The fork without a visited neighbour, by gains that are zeros of either sign. One variable is
ranked twice, and the ranking is not in the order of indices. A round from the third variable with
room for two breaks off among its neighbours. -/
theorem priorityFirst_eq_breadthFirst_forked :
    let ranking : Ranking Binary64 := [(number 2, .ofInt 0), (number 7, -.ofInt 0),
      (number 2, -.ofInt 0), (number 5, .ofInt 0), (number 1, .ofInt 0), (number 6, -.ofInt 0),
      (number 4, .ofInt 0), (number 3, -.ofInt 0)]
    let visited := [number 0, number 9]
    let out := [number 2, number 1, number 4, number 3, number 7, number 5]
    let score := scoreOf (((ranking.map Prod.fst).map forked.indexOf).zip (ranking.map Prod.snd))
    forked.traverse .priorityFirst ranking visited 6 = .ok out ∧
      forked.traverse .breadthFirst ranking visited 6 = .ok out ∧
      round forked.links (bestFound fun i j => (score i).exceeds (score j)) 2 3
        (forked.knownIndices visited) = [3, 1] := by
  intro ranking visited out score
  have hranked : ∀ v ∈ ranking.map Prod.fst, v ∈ forked.labels := by decide +kernel
  have hopen : ∀ v ∈ forked.labels, v ∉ visited → v ∈ ranking.map Prod.fst := by decide +kernel
  have hgain : ∀ e ∈ ranking, e.2.equal (.ofInt 0) = true := by decide +kernel
  obtain ⟨⟨out', hpriority, hbreadth⟩, hround⟩ :=
    priorityFirst_eq_breadthFirst forked_reachable hranked hopen hgain 6
  have hout : forked.traverse .breadthFirst ranking visited 6 = .ok out := by decide +kernel
  obtain rfl : out' = out := Except.ok.inj (hbreadth.symm.trans hout)
  have hcollected : collectRound forked.links 2 3 (forked.knownIndices visited) = [3, 1] := by
    decide +kernel
  exact ⟨hpriority, hbreadth, (hround 2 3 _ (by decide) (by decide +kernel) (by decide +kernel)
    fun _ hi => hi).trans hcollected⟩

end Model

end QuboSplit
