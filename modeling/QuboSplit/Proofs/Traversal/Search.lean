import Mathlib.Tactic
import QuboSplit.Traversal.Search

/-!
# What a search selects

A search keeps a frontier of different open nodes (`Frontier`), so it selects different open nodes
(`nodup_run`, `open_of_mem_run`). It stops early only when no seed is open, and if every node is a
seed it selects as many nodes as the budget and the open nodes allow (`length_run`). A budget for
all open nodes is enough to select everything at the end of a chain of links (`mem_run_of_chain`).
-/

namespace QuboSplit.Search

/-! ### Disciplines -/

/-- The discipline picks a node of the frontier if there is one. -/
def Picks (pick : Discipline) : Prop :=
  ∀ frontier, frontier ≠ [] → ∃ u ∈ frontier, pick frontier = some u

theorem picks_firstFound : Picks firstFound := by
  intro frontier h
  cases frontier with
  | nil => exact absurd rfl h
  | cons u rest => exact ⟨u, List.mem_cons_self, rfl⟩

theorem mem_foldl_best (better : Nat → Nat → Bool) (rest : List Nat) (x : Nat) :
    rest.foldl (fun best y => if better y best then y else best) x ∈ x :: rest := by
  induction rest generalizing x with
  | nil => exact List.mem_cons_self
  | cons y rest ih =>
    rw [List.foldl_cons]
    rcases List.mem_cons.1 (ih (if better y x then y else x)) with h | h
    · rw [h]
      split <;> simp
    · simp [h]

theorem picks_bestFound (better : Nat → Nat → Bool) : Picks (bestFound better) := by
  intro frontier h
  cases frontier with
  | nil => exact absurd rfl h
  | cons u rest => exact ⟨_, mem_foldl_best better rest u, rfl⟩

/-! ### The frontier -/

/-- The graph has the nodes below `n`, and a node has different neighbours. -/
structure Graph (n : Nat) (links : Nat → List Nat) : Prop where
  in_range : ∀ u, ∀ v ∈ links u, v < n
  nodup : ∀ u, (links u).Nodup

/-- A frontier of different open nodes. -/
structure Frontier (n : Nat) (frontier closed : List Nat) : Prop where
  nodup : frontier.Nodup
  in_range : ∀ u ∈ frontier, u < n
  isOpen : ∀ u ∈ frontier, u ∉ closed

theorem Frontier.nil (n : Nat) (closed : List Nat) : Frontier n [] closed := by
  constructor <;> simp

variable {n : Nat} {links : Nat → List Nat} {pick : Discipline}
  {seeds frontier closed : List Nat}

/-- The node selected next is from the frontier or a seed. -/
theorem mem_of_next?_eq_some (hpick : Picks pick) {u : Nat}
    (hu : next? pick seeds frontier closed = some u) : u ∈ frontier ∨ u ∈ seeds := by
  unfold next? at hu
  cases frontier with
  | nil => exact Or.inr (List.mem_of_find?_eq_some hu)
  | cons w rest =>
    obtain ⟨v, hv, e⟩ := hpick (w :: rest) (by simp)
    obtain rfl : v = u := Option.some.inj (e.symm.trans hu)
    exact Or.inl hv

theorem mem_of_mem_advance {u v : Nat} (h : v ∈ Search.advance links u frontier closed) :
    v ∈ frontier ∨ v ∈ links u := by
  unfold Search.advance at h
  exact (List.mem_append.1 h).imp List.mem_of_mem_erase fun h => (List.mem_filter.1 h).1

/-- What is found next to a node of the frontier are its neighbours not seen before. -/
theorem advance_of_seen {u : Nat} {seen : List Nat} (hu : u ∈ frontier)
    (h : ∀ v, v ∈ seen ↔ v ∈ frontier ∨ v ∈ closed) :
    Search.advance links u frontier closed =
      frontier.erase u ++ (links u).filter (· ∉ seen) := by
  unfold Search.advance
  congr 1
  refine List.filter_congr fun v _ => decide_eq_decide.2 ?_
  rw [h, List.mem_cons]
  rcases eq_or_ne v u with rfl | hv <;> tauto

/-- The node selected next is open. -/
theorem Frontier.next (h : Frontier n frontier closed) (hpick : Picks pick)
    (hseeds : ∀ u ∈ seeds, u < n) {u : Nat} (hu : next? pick seeds frontier closed = some u) :
    u < n ∧ u ∉ closed := by
  unfold next? at hu
  cases frontier with
  | nil =>
    have hmem := List.mem_of_find?_eq_some hu
    have hopen := List.find?_some hu
    exact ⟨hseeds u hmem, by simpa using hopen⟩
  | cons w rest =>
    obtain ⟨v, hv, e⟩ := hpick (w :: rest) (by simp)
    obtain rfl : v = u := Option.some.inj (e.symm.trans hu)
    exact ⟨h.in_range v hv, h.isOpen v hv⟩

/-- A search stops when the frontier is empty and no seed is open. -/
theorem next?_eq_none_iff (hpick : Picks pick) :
    next? pick seeds frontier closed = none ↔ frontier = [] ∧ ∀ u ∈ seeds, u ∈ closed := by
  unfold next?
  cases frontier with
  | nil => simp [List.find?_eq_none]
  | cons w rest =>
    obtain ⟨v, -, e⟩ := hpick (w :: rest) (by simp)
    show pick (w :: rest) = none ↔ _
    rw [e]
    simp

/-- The frontier after a selection. -/
theorem Frontier.advance (h : Frontier n frontier closed) (hgraph : Graph n links) (u : Nat) :
    Frontier n (Search.advance links u frontier closed) (u :: closed) where
  nodup := by
    unfold Search.advance
    refine List.nodup_append.2 ⟨h.nodup.erase u, (hgraph.nodup u).filter _, ?_⟩
    intro a ha b hb e
    have hfresh := (List.mem_filter.1 hb).2
    simp only [decide_eq_true_eq] at hfresh
    exact hfresh.1 (e ▸ List.mem_of_mem_erase ha)
  in_range := by
    intro v hv
    rcases mem_of_mem_advance hv with hv | hv
    · exact h.in_range v hv
    · exact hgraph.in_range u v hv
  isOpen := by
    intro v hv
    unfold Search.advance at hv
    rcases List.mem_append.1 hv with hv | hv
    · obtain ⟨hne, hmem⟩ := h.nodup.mem_erase_iff.1 hv
      rw [List.mem_cons]
      rintro (e | hclosed)
      · exact hne e
      · exact h.isOpen v hmem hclosed
    · have hfresh := (List.mem_filter.1 hv).2
      simp only [decide_eq_true_eq] at hfresh
      exact hfresh.2

/-! ### Whole searches -/

theorem run_succ (links : Nat → List Nat) (pick : Discipline) (seeds : List Nat) (budget : Nat)
    (frontier closed : List Nat) :
    run links pick seeds (budget + 1) frontier closed =
      match next? pick seeds frontier closed with
      | none => []
      | some u =>
        u :: run links pick seeds budget (advance links u frontier closed) (u :: closed) := rfl

theorem length_run_le (links : Nat → List Nat) (pick : Discipline) (seeds : List Nat)
    (budget : Nat) (frontier closed : List Nat) :
    (run links pick seeds budget frontier closed).length ≤ budget := by
  induction budget generalizing frontier closed with
  | zero => exact Nat.le_refl 0
  | succ budget ih =>
    rw [run_succ]
    cases next? pick seeds frontier closed with
    | none => exact Nat.zero_le _
    | some u => exact Nat.succ_le_succ (ih _ _)

/-- What holds of seeds and frontier, and passes along links, holds of every selected node. -/
theorem forall_mem_run {P : Nat → Prop} (hpick : Picks pick)
    (hlinks : ∀ u, P u → ∀ v ∈ links u, P v) (hseeds : ∀ u ∈ seeds, P u) (budget : Nat)
    (hfrontier : ∀ u ∈ frontier, P u) :
    ∀ u ∈ run links pick seeds budget frontier closed, P u := by
  induction budget generalizing frontier closed with
  | zero => simp [run]
  | succ budget ih =>
    rw [run_succ]
    cases hu : next? pick seeds frontier closed with
    | none => simp
    | some u =>
      have hmem := mem_of_next?_eq_some hpick hu
      have hP : P u := hmem.elim (hfrontier u) (hseeds u)
      refine List.forall_mem_cons.2 ⟨hP, ih fun v hv => ?_⟩
      rcases mem_of_mem_advance hv with hv | hv
      · exact hfrontier v hv
      · exact hlinks u hP v hv

/-- Every selected node was open. -/
theorem open_of_mem_run (hgraph : Graph n links) (hpick : Picks pick)
    (hseeds : ∀ u ∈ seeds, u < n) (budget : Nat) (h : Frontier n frontier closed) :
    ∀ u ∈ run links pick seeds budget frontier closed, u < n ∧ u ∉ closed := by
  induction budget generalizing frontier closed with
  | zero => simp [run]
  | succ budget ih =>
    rw [run_succ]
    cases hu : next? pick seeds frontier closed with
    | none => simp
    | some u =>
      intro v hv
      rcases List.mem_cons.1 hv with rfl | hv
      · exact h.next hpick hseeds hu
      · obtain ⟨hlt, hopen⟩ := ih (h.advance hgraph u) v hv
        exact ⟨hlt, fun hclosed => hopen (List.mem_cons_of_mem u hclosed)⟩

/-- No node is selected twice. -/
theorem nodup_run (hgraph : Graph n links) (hpick : Picks pick) (hseeds : ∀ u ∈ seeds, u < n)
    (budget : Nat) (h : Frontier n frontier closed) :
    (run links pick seeds budget frontier closed).Nodup := by
  induction budget generalizing frontier closed with
  | zero => simp [run]
  | succ budget ih =>
    rw [run_succ]
    cases hu : next? pick seeds frontier closed with
    | none => simp
    | some u =>
      have hrest := h.advance hgraph u
      refine List.nodup_cons.2 ⟨fun hmem => ?_, ih hrest⟩
      have hopen := (open_of_mem_run hgraph hpick hseeds budget hrest u hmem).2
      exact hopen List.mem_cons_self

/-- A search with some budget selects nothing if there is nothing to start from. -/
theorem run_eq_nil_iff (hpick : Picks pick) (budget : Nat) :
    run links pick seeds (budget + 1) frontier closed = [] ↔
      frontier = [] ∧ ∀ u ∈ seeds, u ∈ closed := by
  rw [← next?_eq_none_iff hpick, run_succ]
  cases next? pick seeds frontier closed <;> simp

/-- The number of open nodes. -/
def openCount (n : Nat) (closed : List Nat) : Nat := ((List.range n).filter (· ∉ closed)).length

theorem openCount_le (n : Nat) (closed : List Nat) : openCount n closed ≤ n :=
  (List.length_filter_le _ _).trans_eq List.length_range

theorem openCount_cons {u : Nat} (hlt : u < n) (hopen : u ∉ closed) :
    openCount n (u :: closed) + 1 = openCount n closed := by
  have hnodup : ((List.range n).filter (· ∉ closed)).Nodup := List.nodup_range.filter _
  have hmem : u ∈ (List.range n).filter (· ∉ closed) := by simp [hlt, hopen]
  have herase : (List.range n).filter (· ∉ u :: closed) =
      ((List.range n).filter (· ∉ closed)).erase u := by
    rw [hnodup.erase_eq_filter, List.filter_filter]
    refine List.filter_congr fun v _ => ?_
    by_cases hv : v = u <;> simp [hv]
  unfold openCount
  rw [herase, List.length_erase_of_mem hmem]
  have := List.length_pos_of_mem hmem
  omega

theorem openCount_eq_zero (hall : ∀ u, u < n → u ∈ closed) : openCount n closed = 0 := by
  unfold openCount
  rw [List.length_eq_zero_iff, List.filter_eq_nil_iff]
  intro u hu
  simpa using hall u (List.mem_range.1 hu)

theorem Frontier.length_le (h : Frontier n frontier closed) :
    frontier.length ≤ openCount n closed := by
  refine (List.subperm_of_subset h.nodup fun u hu => ?_).length_le
  rw [List.mem_filter, List.mem_range, decide_eq_true_eq]
  exact ⟨h.in_range u hu, h.isOpen u hu⟩

/-- If every node is a seed the search goes on until budget or open nodes run out. -/
theorem length_run (hgraph : Graph n links) (hpick : Picks pick) (hseeds : ∀ u, u ∈ seeds ↔ u < n)
    (budget : Nat) (h : Frontier n frontier closed) :
    (run links pick seeds budget frontier closed).length = min budget (openCount n closed) := by
  induction budget generalizing frontier closed with
  | zero => simp [run]
  | succ budget ih =>
    rw [run_succ]
    cases hu : next? pick seeds frontier closed with
    | none =>
      obtain ⟨-, hall⟩ := (next?_eq_none_iff hpick).1 hu
      have hzero := openCount_eq_zero fun u hlt => hall u ((hseeds u).2 hlt)
      simp [hzero]
    | some u =>
      obtain ⟨hlt, hopen⟩ := h.next hpick (fun v hv => (hseeds v).1 hv) hu
      have hcount := openCount_cons hlt hopen
      rw [List.length_cons, ih (h.advance hgraph u)]
      omega

/-! ### Chains of links -/

/-- What was found before, or next to `u`, is closed or waits in the frontier after `u`. -/
theorem mem_advance {u v : Nat} (h : v ∈ frontier ∨ v ∈ links u) :
    v ∈ u :: closed ∨ v ∈ Search.advance links u frontier closed := by
  by_cases hclosed : v ∈ u :: closed
  · exact Or.inl hclosed
  · have hne : v ≠ u := fun e => hclosed (e ▸ List.mem_cons_self)
    right
    unfold Search.advance
    rw [List.mem_append]
    by_cases hfrontier : v ∈ frontier
    · exact Or.inl ((List.mem_erase_of_ne hne).2 hfrontier)
    · refine Or.inr (List.mem_filter.2 ⟨h.resolve_left hfrontier, ?_⟩)
      simpa only [decide_eq_true_eq] using ⟨hfrontier, hclosed⟩

/-- With a budget for all open nodes the search misses none of its frontier and seeds, nor any
neighbour of what it selects. -/
theorem run_closed (hgraph : Graph n links) (hpick : Picks pick) (hseeds : ∀ u ∈ seeds, u < n)
    (budget : Nat) (hbudget : openCount n closed ≤ budget) (h : Frontier n frontier closed) :
    let found := run links pick seeds budget frontier closed
    (∀ u, u ∈ frontier ∨ u ∈ seeds → u ∈ closed ∨ u ∈ found) ∧
      ∀ u ∈ found, ∀ v ∈ links u, v ∈ closed ∨ v ∈ found := by
  induction budget generalizing frontier closed with
  | zero =>
    -- without a budget there is no open node at all
    have hall : ∀ u, u < n → u ∈ closed := by
      intro u hlt
      by_contra hopen
      have := openCount_cons hlt hopen
      omega
    refine ⟨fun u hu => Or.inl (hall u ?_), by simp [run]⟩
    exact hu.elim (h.in_range u) (hseeds u)
  | succ budget ih =>
    rw [run_succ]
    cases hu : next? pick seeds frontier closed with
    | none =>
      obtain ⟨rfl, hall⟩ := (next?_eq_none_iff hpick).1 hu
      refine ⟨fun u hu => Or.inl (hu.elim (fun hu => absurd hu (by simp)) (hall u)), by simp⟩
    | some u =>
      obtain ⟨hlt, hopen⟩ := h.next hpick hseeds hu
      have hcount := openCount_cons hlt hopen
      obtain ⟨hstart, hlinks⟩ := ih (by omega) (h.advance hgraph u)
      -- closed for the rest of the search means closed, or `u` itself
      have hfound : ∀ v, v ∈ u :: closed ∨ v ∈ run links pick seeds budget
          (Search.advance links u frontier closed) (u :: closed) →
          v ∈ closed ∨ v ∈ u :: run links pick seeds budget
            (Search.advance links u frontier closed) (u :: closed) := by
        simp only [List.mem_cons]
        tauto
      have hpassed : ∀ v, v ∈ frontier ∨ v ∈ links u →
          v ∈ u :: closed ∨ v ∈ run links pick seeds budget
            (Search.advance links u frontier closed) (u :: closed) := by
        intro v hv
        exact (mem_advance hv).elim Or.inl fun hv => hstart v (Or.inl hv)
      refine ⟨fun v hv => hfound v ?_, fun w hw v hv => hfound v ?_⟩
      · exact hv.elim (fun hv => hpassed v (Or.inl hv)) fun hv => hstart v (Or.inr hv)
      · rcases List.mem_cons.1 hw with rfl | hw
        · exact hpassed v (Or.inr hv)
        · exact hlinks w hw v hv

/-- Nothing at the end of a chain of links from a seed is missed. -/
theorem mem_run_of_chain (hgraph : Graph n links) (hpick : Picks pick)
    (hseeds : ∀ u ∈ seeds, u < n) {budget : Nat} (hbudget : n ≤ budget) {u v : Nat}
    (hu : u ∈ seeds) (hchain : Relation.ReflTransGen (fun a b => b ∈ links a) u v) :
    v ∈ run links pick seeds budget [] [] := by
  have hcount := (openCount_le n []).trans hbudget
  obtain ⟨hstart, hlinks⟩ := run_closed hgraph hpick hseeds budget hcount (.nil n [])
  induction hchain with
  | refl => exact (hstart u (Or.inr hu)).resolve_left (by simp)
  | tail _ hlink ih => exact (hlinks _ ih _ hlink).resolve_left (by simp)

end QuboSplit.Search
