import Mathlib.Tactic
import QuboSplit.Proofs.Traversal.Ranked

/-!
# Searching in rounds

A search can be made in rounds. Each round starts from the next seed that is open, with what is left
of the budget, and closes what it has selected to later rounds. Where a round stops for want of
budget makes no difference: a round may stop where it would select the next node
(`rounds_round_eq`), or collect nodes as soon as they are found and break off in the middle of a row
(`rounds_collectRound_eq`).
-/

namespace QuboSplit

namespace Search

variable {n : Nat} {links : Nat → List Nat} {pick : Discipline}
  {seeds frontier closed : List Nat}

/-! ### Rounds -/

/-- Selects in rounds. A round is given a positive budget, an open source and the closed nodes. -/
def rounds (round : Nat → Nat → List Nat → List Nat) :
    (seeds : List Nat) → (budget : Nat) → (closed : List Nat) → List Nat
  | [], _, _ => []
  | source :: seeds, budget, closed =>
    if budget = 0 then []
    else if source ∈ closed then rounds round seeds budget closed
    else
      let found := round budget source closed
      found ++ rounds round seeds (budget - found.length) (found.reverse ++ closed)

theorem rounds_congr {round round' : Nat → Nat → List Nat → List Nat} {seeds : List Nat}
    (h : ∀ source ∈ seeds, ∀ budget closed, 0 < budget → source ∉ closed →
      round budget source closed = round' budget source closed)
    (budget : Nat) (closed : List Nat) :
    rounds round seeds budget closed = rounds round' seeds budget closed := by
  induction seeds generalizing budget closed with
  | nil => rfl
  | cons source seeds ih =>
    obtain ⟨hsource, hseeds⟩ := List.forall_mem_cons.1 h
    unfold rounds
    by_cases hbudget : budget = 0
    · rw [if_pos hbudget, if_pos hbudget]
    rw [if_neg hbudget, if_neg hbudget]
    by_cases hclosed : source ∈ closed
    · rw [if_pos hclosed, if_pos hclosed, ih hseeds]
    · have hround := hsource budget closed (Nat.pos_of_ne_zero hbudget) hclosed
      rw [if_neg hclosed, if_neg hclosed, hround]
      simp only [ih hseeds]

theorem run_of_next? {u : Nat} (h : next? pick seeds frontier closed = some u) (budget : Nat) :
    run links pick seeds (budget + 1) frontier closed =
      u :: run links pick seeds budget (advance links u frontier closed) (u :: closed) := by
  rw [run_succ, h]

theorem run_nil (links : Nat → List Nat) (pick : Discipline) (budget : Nat) (closed : List Nat) :
    run links pick [] budget [] closed = [] := by
  cases budget <;> rfl

/-- A search selects all that it reaches from its frontier before it starts again. -/
theorem run_eq_append (hpick : Picks pick) (seeds : List Nat) (budget : Nat)
    (frontier closed : List Nat) :
    let found := run links pick [] budget frontier closed
    run links pick seeds budget frontier closed =
      found ++ run links pick seeds (budget - found.length) [] (found.reverse ++ closed) := by
  induction budget generalizing frontier closed with
  | zero => rfl
  | succ budget ih =>
    cases frontier with
    | nil =>
      rw [run_nil]
      rfl
    | cons w rest =>
      obtain ⟨u, -, hu⟩ := hpick (w :: rest) (List.cons_ne_nil w rest)
      have hnext : ∀ seeds, next? pick seeds (w :: rest) closed = some u := fun _ => hu
      have hrest := ih (advance links u (w :: rest) closed) (u :: closed)
      dsimp only at hrest ⊢
      rw [run_of_next? (hnext seeds), run_of_next? (hnext []), List.length_cons,
        Nat.add_sub_add_right, List.reverse_cons, List.append_assoc, List.cons_append,
        List.singleton_append]
      exact congrArg (u :: ·) hrest

/-- A closed seed makes no difference. -/
theorem run_cons_of_mem {source : Nat} (h : source ∈ closed) (budget : Nat) (frontier : List Nat) :
    run links pick (source :: seeds) budget frontier closed =
      run links pick seeds budget frontier closed := by
  induction budget generalizing frontier closed with
  | zero => rfl
  | succ budget ih =>
    have hnext : next? pick (source :: seeds) frontier closed =
        next? pick seeds frontier closed := by
      unfold next?
      cases frontier with
      | nil =>
        dsimp only
        rw [List.find?_cons_of_neg (by simpa using h)]
      | cons w rest => rfl
    rw [run_succ, run_succ, hnext]
    cases next? pick seeds frontier closed with
    | none => rfl
    | some u => exact congrArg (u :: ·) (ih (List.mem_cons_of_mem u h) _)

/-- An open seed may as well be found beforehand. -/
theorem run_cons_of_not_mem (hpick : Picks pick) {source : Nat} (h : source ∉ closed)
    (budget : Nat) :
    run links pick (source :: seeds) budget [] closed =
      run links pick (source :: seeds) budget [source] closed := by
  cases budget with
  | zero => rfl
  | succ budget =>
    obtain ⟨u, hu, hpicked⟩ := hpick [source] (List.cons_ne_nil source [])
    obtain rfl := List.mem_singleton.1 hu
    have hseed : next? pick (u :: seeds) [] closed = some u := by
      unfold next?
      exact List.find?_cons_of_pos (by simpa using h)
    have hfrontier : next? pick (u :: seeds) [u] closed = some u := hpicked
    have hadvance : advance links u [] closed = advance links u [u] closed := by
      unfold advance
      rw [List.erase_cons_head, List.erase_nil]
      congr 1
      refine List.filter_congr fun v _ => ?_
      by_cases hv : v = u <;> simp [hv]
    rw [run_of_next? hseed, run_of_next? hfrontier, hadvance]

/-- The round that searches from its source. -/
def round (links : Nat → List Nat) (pick : Discipline) (budget source : Nat) (closed : List Nat) :
    List Nat :=
  run links pick [] budget [source] closed

/-- A search is made in rounds, each of which searches from one seed. -/
theorem rounds_round_eq (hpick : Picks pick) (seeds : List Nat) (budget : Nat) (closed : List Nat) :
    rounds (round links pick) seeds budget closed = run links pick seeds budget [] closed := by
  induction seeds generalizing budget closed with
  | nil => exact (run_nil links pick budget closed).symm
  | cons source seeds ih =>
    unfold rounds
    by_cases hbudget : budget = 0
    · subst hbudget
      rfl
    rw [if_neg hbudget]
    by_cases hclosed : source ∈ closed
    · rw [if_pos hclosed, ih, run_cons_of_mem hclosed]
    · have hmem : source ∈ run links pick [] budget [source] closed := by
        obtain ⟨budget, rfl⟩ := Nat.exists_eq_succ_of_ne_zero hbudget
        obtain ⟨u, hu, hpicked⟩ := hpick [source] (List.cons_ne_nil source [])
        obtain rfl := List.mem_singleton.1 hu
        have hnext : next? pick [] [u] closed = some u := hpicked
        rw [run_of_next? hnext]
        exact List.mem_cons_self
      rw [if_neg hclosed, run_cons_of_not_mem hpick hclosed]
      refine Eq.trans ?_ (run_eq_append hpick (source :: seeds) budget [source] closed).symm
      dsimp only
      rw [ih, run_cons_of_mem (List.mem_append_left _ (List.mem_reverse.2 hmem))]
      rfl

/-! ### Collecting breadth first -/

/-- Goes along a row and appends every node that is new to the collected ones, and to the queue. It
breaks off with `size` nodes. -/
def collectRow (size : Nat) (closed : List Nat) :
    (row nodes queue : List Nat) → List Nat × List Nat
  | [], nodes, queue => (nodes, queue)
  | v :: row, nodes, queue =>
    if v ∈ closed ∨ v ∈ nodes then collectRow size closed row nodes queue
    else if size ≤ nodes.length + 1 then (nodes ++ [v], queue)
    else collectRow size closed row (nodes ++ [v]) (queue ++ [v])

/-- Takes up to `steps` nodes from the queue and goes along their rows, until there are `size` nodes
or the queue is empty. -/
def collect (links : Nat → List Nat) (size : Nat) (closed : List Nat) :
    (steps : Nat) → (nodes queue : List Nat) → List Nat
  | 0, nodes, _ => nodes
  | _ + 1, nodes, [] => nodes
  | steps + 1, nodes, u :: queue =>
    if size ≤ nodes.length then nodes
    else
      let after := collectRow size closed (links u) nodes queue
      collect links size closed steps after.1 after.2

/-- The nodes of a row that are new. -/
def fresh (closed row nodes : List Nat) : List Nat :=
  row.filter fun v => v ∉ closed ∧ v ∉ nodes

theorem fresh_cons_of_old {row nodes : List Nat} {v : Nat} (h : v ∈ closed ∨ v ∈ nodes) :
    fresh closed (v :: row) nodes = fresh closed row nodes :=
  List.filter_cons_of_neg (by simpa [or_iff_not_imp_left] using h)

theorem fresh_cons_of_new {row nodes : List Nat} {v : Nat} (h : ¬ (v ∈ closed ∨ v ∈ nodes)) :
    fresh closed (v :: row) nodes = v :: fresh closed row nodes :=
  List.filter_cons_of_pos (by simpa using h)

theorem fresh_congr {row nodes nodes' : List Nat} (h : ∀ v ∈ row, v ∈ nodes ↔ v ∈ nodes') :
    fresh closed row nodes = fresh closed row nodes' :=
  List.filter_congr fun v hv => by simp only [h v hv]

theorem fresh_append {row nodes : List Nat} {v : Nat} (hv : v ∉ row) :
    fresh closed row (nodes ++ [v]) = fresh closed row nodes := by
  refine fresh_congr fun w hw => ?_
  have hne : w ≠ v := fun e => hv (e ▸ hw)
  simp [hne]

/-- A row adds its new nodes, up to the size. -/
theorem collectRow_fst {row : List Nat} (hrow : row.Nodup) {size : Nat} {nodes : List Nat}
    (hlt : nodes.length < size) (queue : List Nat) :
    (collectRow size closed row nodes queue).1 = (nodes ++ fresh closed row nodes).take size := by
  induction row generalizing nodes queue with
  | nil =>
    rw [List.take_of_length_le (by simp [fresh]; omega)]
    simp [collectRow, fresh]
  | cons v row ih =>
    obtain ⟨hv, hrow⟩ := List.nodup_cons.1 hrow
    unfold collectRow
    by_cases hold : v ∈ closed ∨ v ∈ nodes
    · rw [if_pos hold, ih hrow hlt, fresh_cons_of_old hold]
    · rw [if_neg hold, fresh_cons_of_new hold, List.append_cons nodes v (fresh closed row nodes)]
      by_cases hfull : size ≤ nodes.length + 1
      · rw [if_pos hfull]
        have hlength : (nodes ++ [v]).length = size := by
          rw [List.length_append, List.length_singleton]
          omega
        rw [← hlength, List.take_left]
      · have hlt : (nodes ++ [v]).length < size := by
          rw [List.length_append, List.length_singleton]
          omega
        rw [if_neg hfull, ih hrow hlt, fresh_append hv]

/-- A row that does not reach the size leaves its new nodes in the queue. -/
theorem collectRow_snd {row : List Nat} (hrow : row.Nodup) {size : Nat} {nodes : List Nat}
    (hlt : (nodes ++ fresh closed row nodes).length < size) (queue : List Nat) :
    (collectRow size closed row nodes queue).2 = queue ++ fresh closed row nodes := by
  induction row generalizing nodes queue with
  | nil => simp [collectRow, fresh]
  | cons v row ih =>
    obtain ⟨hv, hrow⟩ := List.nodup_cons.1 hrow
    unfold collectRow
    by_cases hold : v ∈ closed ∨ v ∈ nodes
    · rw [fresh_cons_of_old hold] at hlt ⊢
      rw [if_pos hold, ih hrow hlt]
    · have hnew : fresh closed (v :: row) nodes = v :: fresh closed row nodes :=
        fresh_cons_of_new hold
      rw [hnew, List.append_cons nodes v (fresh closed row nodes)] at hlt
      have hfull : ¬ size ≤ nodes.length + 1 := by
        simp only [List.length_append, List.length_singleton] at hlt
        omega
      rw [← fresh_append hv] at hlt
      rw [if_neg hold, if_neg hfull, ih hrow hlt, fresh_append hv, hnew, List.append_assoc]
      rfl

theorem collect_of_le {size : Nat} {nodes : List Nat} (h : size ≤ nodes.length) (steps : Nat)
    (queue : List Nat) : collect links size closed steps nodes queue = nodes := by
  cases steps with
  | zero => rfl
  | succ steps =>
    cases queue with
    | nil => rfl
    | cons u queue => exact if_pos h

section Row

variable {size u : Nat} {nodes : List Nat} (hrow : (links u).Nodup)

include hrow

/-- A row with room for its new nodes is gone along to the end. -/
theorem collect_of_room (hroom : (nodes ++ fresh closed (links u) nodes).length < size)
    (steps : Nat) (queue : List Nat) :
    collect links size closed (steps + 1) nodes (u :: queue) =
      collect links size closed steps (nodes ++ fresh closed (links u) nodes)
        (queue ++ fresh closed (links u) nodes) := by
  have hlt : nodes.length < size := by
    rw [List.length_append] at hroom
    omega
  rw [← collectRow_snd hrow hroom queue, ← List.take_of_length_le (Nat.le_of_lt hroom),
    ← collectRow_fst hrow hlt queue]
  exact if_neg (Nat.not_le.2 hlt)

/-- A row with too many new nodes is broken off, and that ends the round. -/
theorem collect_of_overflow (hlt : nodes.length < size)
    (hfull : size ≤ (nodes ++ fresh closed (links u) nodes).length) (steps : Nat)
    (queue : List Nat) :
    collect links size closed (steps + 1) nodes (u :: queue) =
      (nodes ++ fresh closed (links u) nodes).take size := by
  have hlength : ((nodes ++ fresh closed (links u) nodes).take size).length = size :=
    (List.length_take).trans (min_eq_left hfull)
  refine (if_neg (Nat.not_le.2 hlt)).trans ?_
  dsimp only
  rw [collectRow_fst hrow hlt]
  exact collect_of_le hlength.ge steps _

end Row

/-- What a search that has selected the nodes in `done` finds next to a node of its frontier is what
is new to a round that knows these and the frontier. -/
theorem advance_eq_fresh {u : Nat} {done known : List Nat} (hu : u ∈ frontier)
    (h : ∀ v, v ∈ known ↔ v ∈ frontier ∨ v ∈ done) :
    advance links u frontier (done.reverse ++ closed) =
      frontier.erase u ++ fresh closed (links u) known := by
  have hseen : ∀ v, v ∈ known ++ closed ↔ v ∈ frontier ∨ v ∈ done.reverse ++ closed := fun v => by
    rw [List.mem_append, List.mem_append, List.mem_reverse, h, or_assoc]
  rw [advance_of_seen hu hseen]
  unfold fresh
  simp only [List.mem_append, not_or, and_comm]

theorem advance_cons_eq_fresh (done : List Nat) (u : Nat) (queue : List Nat) :
    advance links u (u :: queue) (done.reverse ++ closed) =
      queue ++ fresh closed (links u) (done ++ u :: queue) := by
  have hknown : ∀ v, v ∈ done ++ u :: queue ↔ v ∈ u :: queue ∨ v ∈ done := fun v => by
    rw [List.mem_append, or_comm]
  rw [advance_eq_fresh List.mem_cons_self hknown, List.erase_cons_head]

/-- As long as the frontier lasts the nodes that were found first are selected. -/
theorem run_firstFound_of_le {budget : Nat} (h : budget ≤ frontier.length) :
    run links firstFound [] budget frontier closed = frontier.take budget := by
  induction budget generalizing frontier closed with
  | zero => rfl
  | succ budget ih =>
    cases frontier with
    | nil => simp at h
    | cons u queue =>
      have hnext : next? firstFound [] (u :: queue) closed = some u := rfl
      have hle : budget ≤ queue.length := Nat.le_of_succ_le_succ h
      have hadvance : advance links u (u :: queue) closed =
          queue ++ fresh closed (links u) (u :: queue) := advance_cons_eq_fresh [] u queue
      rw [run_of_next? hnext, hadvance, ih (hle.trans (by simp)), List.take_append_of_le_length hle,
        List.take_succ_cons]

/-- What a breadth-first round collects are the nodes in `done`, whose rows it has gone along, and
what a search selects from the queue. There are steps enough for what is left of the budget. -/
theorem collect_eq_append (hgraph : Graph n links) {size steps : Nat} {done queue : List Nat}
    (hsize : done.length + queue.length ≤ size) (hsteps : size ≤ steps + done.length) :
    collect links size closed steps (done ++ queue) queue =
      done ++ run links firstFound [] (size - done.length) queue (done.reverse ++ closed) := by
  -- by induction on the steps: the head of the queue moves to `done`, and the search selects it
  induction steps generalizing done queue with
  | zero =>
    have hnil : queue = [] := List.length_eq_zero_iff.1 (by omega)
    rw [hnil, run_nil]
    rfl
  | succ steps ih =>
    cases queue with
    | nil =>
      rw [run_nil]
      rfl
    | cons u queue =>
      have hrow := hgraph.nodup u
      have hnodes : (done ++ u :: queue).length = done.length + (queue.length + 1) :=
        List.length_append
      rw [List.length_cons] at hsize
      by_cases hfull : size ≤ (done ++ u :: queue).length
      · have hlast : size - done.length = (u :: queue).length := by
          rw [List.length_cons]
          omega
        rw [collect_of_le hfull, hlast, run_firstFound_of_le (Nat.le_refl _), List.take_length]
      have hlt := Nat.lt_of_not_le hfull
      obtain ⟨budget, hbudget⟩ : ∃ budget, size - done.length = budget + 1 :=
        ⟨size - done.length - 1, by omega⟩
      have hnext : next? firstFound [] (u :: queue) (done.reverse ++ closed) = some u := rfl
      rw [hbudget, run_of_next? hnext, advance_cons_eq_fresh]
      by_cases hroom :
          (done ++ u :: queue ++ fresh closed (links u) (done ++ u :: queue)).length < size
      · rw [collect_of_room hrow hroom]
        generalize fresh closed (links u) (done ++ u :: queue) = new at hroom ⊢
        have hmoved : done ++ u :: queue ++ new = (done ++ [u]) ++ (queue ++ new) := by simp
        have hdone : (done ++ [u]).length = done.length + 1 := List.length_append
        rw [hmoved, List.length_append, hdone] at hroom
        rw [hmoved, ih (by omega) (by omega), hdone, ← Nat.sub_sub, hbudget, Nat.add_sub_cancel,
          List.reverse_append, List.append_assoc]
        rfl
      · -- the search takes what is left of its budget from a queue that is long enough
        rw [collect_of_overflow hrow hlt (Nat.le_of_not_lt hroom)]
        generalize fresh closed (links u) (done ++ u :: queue) = new at hroom ⊢
        have hsize' : size = done.length + (budget + 1) := by omega
        rw [List.append_assoc, List.length_append, List.cons_append, List.length_cons] at hroom
        rw [run_firstFound_of_le (by omega), List.append_assoc, hsize', List.take_length_add_append,
          List.cons_append, List.take_succ_cons]

/-- The round that collects nodes breadth first. As each node it takes from its queue is one that it
has collected, it takes no more than its budget. -/
def collectRound (links : Nat → List Nat) (budget source : Nat) (closed : List Nat) : List Nat :=
  collect links budget closed budget [source] [source]

/-- Such a round selects what a search from its source selects. -/
theorem collectRound_eq (hgraph : Graph n links) {budget : Nat} (hbudget : 0 < budget)
    (source : Nat) (closed : List Nat) :
    collectRound links budget source closed = round links firstFound budget source closed := by
  show collect links budget closed budget ([] ++ [source]) [source] =
    [] ++ run links firstFound [] (budget - 0) [source] ([].reverse ++ closed)
  exact collect_eq_append hgraph hbudget (Nat.le_refl budget)

/-- A breadth-first search is made in rounds that collect nodes as soon as they are found. -/
theorem rounds_collectRound_eq (hgraph : Graph n links) (seeds : List Nat) (budget : Nat)
    (closed : List Nat) :
    rounds (collectRound links) seeds budget closed =
      run links firstFound seeds budget [] closed := by
  rw [← rounds_round_eq picks_firstFound]
  exact rounds_congr (fun source _ _ closed hbudget _ =>
    collectRound_eq hgraph hbudget source closed) budget closed

end Search

end QuboSplit
