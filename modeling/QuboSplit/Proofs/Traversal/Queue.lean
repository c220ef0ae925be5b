import QuboSplit.Proofs.Traversal.Rounds

/-!
# A priority queue of nodes

By priority a round keeps the nodes that it has found in a priority queue, each with its score and
the number in which it was found, and takes from it the entry of greatest score, of equal scores the
one found first. The queue may keep its entries in any arrangement: up to a permutation they are the
frontier of a search, numbered in order (`Waits`). So the entry taken is the node that the search
picks (`Waits.pop`), and the round selects what the search selects (`queueRound_eq`). If scores are
ordered as numbers are there is such a queue (`PriorityQueue.scanning`).
-/

namespace QuboSplit.Search

variable {σ : Type} {exceeds : σ → σ → Bool} {score : Nat → σ}

/-! ### Queues -/

/-- An entry of a queue: a node with its score and the number in which it was found. -/
structure Ticket (σ : Type) where
  priority : σ
  sequence : Nat
  node : Nat

/-- The first entry is taken after the second: its score is exceeded, or neither score exceeds the
other and it was made after the second. -/
def Ticket.later (exceeds : σ → σ → Bool) (a b : Ticket σ) : Bool :=
  exceeds b.priority a.priority ||
    (!exceeds a.priority b.priority && decide (b.sequence < a.sequence))

/-- A priority queue of nodes with given scores, which may arrange its entries as it likes. -/
structure PriorityQueue (exceeds : σ → σ → Bool) (score : Nat → σ) where
  push : Ticket σ → List (Ticket σ) → List (Ticket σ)
  pop : List (Ticket σ) → Option (Ticket σ × List (Ticket σ))
  push_perm : ∀ e queue, (push e queue).Perm (e :: queue)
  pop_nil : pop [] = none
  pop_spec : ∀ queue, queue ≠ [] → (∀ e ∈ queue, e.priority = score e.node) →
    ∃ e rest, pop queue = some (e, rest) ∧ queue.Perm (e :: rest) ∧
      ∀ x ∈ rest, e.later exceeds x = false

section Scan

/-- Takes the first of the entries to be taken by going along all of them. -/
def scan (exceeds : σ → σ → Bool) (e : Ticket σ) : List (Ticket σ) → Ticket σ × List (Ticket σ)
  | [] => (e, [])
  | x :: rest =>
    let found := scan exceeds x rest
    if e.later exceeds found.1 then (found.1, e :: found.2) else (e, found.1 :: found.2)

theorem scan_perm (e : Ticket σ) (queue : List (Ticket σ)) :
    (e :: queue).Perm ((scan exceeds e queue).1 :: (scan exceeds e queue).2) := by
  induction queue generalizing e with
  | nil => exact .refl _
  | cons x rest ih =>
    unfold scan
    dsimp only
    split
    · exact ((ih x).cons e).trans (.swap _ _ _)
    · exact (ih x).cons e

theorem Ticket.not_later_iff {a b : Ticket σ} :
    a.later exceeds b = false ↔ exceeds b.priority a.priority = false ∧
      (exceeds a.priority b.priority = true ∨ a.sequence ≤ b.sequence) := by
  unfold later
  rw [Bool.or_eq_false_iff, Bool.and_eq_false_iff, Bool.not_eq_false', decide_eq_false_iff_not,
    Nat.not_lt]

variable (hasymm : ∀ i j, exceeds (score i) (score j) = true → exceeds (score j) (score i) = false)
  (htrans : ∀ i j k, exceeds (score j) (score i) = false → exceeds (score k) (score j) = false →
    exceeds (score k) (score i) = false)

include hasymm in
theorem Ticket.later_asymm {a b : Ticket σ} (ha : a.priority = score a.node)
    (hb : b.priority = score b.node) (h : a.later exceeds b = true) :
    b.later exceeds a = false := by
  rw [not_later_iff, ha, hb]
  unfold later at h
  rw [ha, hb, Bool.or_eq_true, Bool.and_eq_true, Bool.not_eq_true', decide_eq_true_eq] at h
  rcases h with hless | ⟨hnot, hafter⟩
  · exact ⟨hasymm _ _ hless, .inl hless⟩
  · exact ⟨hnot, .inr (Nat.le_of_lt hafter)⟩

include htrans in
theorem Ticket.not_later_trans {a b c : Ticket σ} (ha : a.priority = score a.node)
    (hb : b.priority = score b.node) (hc : c.priority = score c.node)
    (hab : a.later exceeds b = false) (hbc : b.later exceeds c = false) :
    a.later exceeds c = false := by
  rw [not_later_iff, ha, hb] at hab
  rw [not_later_iff, hb, hc] at hbc
  rw [not_later_iff, ha, hc]
  refine ⟨htrans _ _ _ hab.1 hbc.1, ?_⟩
  cases hac : exceeds (score a.node) (score c.node) with
  | true => exact .inl rfl
  | false =>
    -- neither of the two steps between equal scores can go down
    have hsame : exceeds (score a.node) (score b.node) = false := htrans _ _ _ hbc.1 hac
    have hsame' : exceeds (score b.node) (score c.node) = false := htrans _ _ _ hac hab.1
    rw [hsame] at hab
    rw [hsame'] at hbc
    exact .inr ((hab.2.resolve_left nofun).trans (hbc.2.resolve_left nofun))

include hasymm htrans in
theorem scan_first (e : Ticket σ) (queue : List (Ticket σ))
    (hscore : ∀ x ∈ e :: queue, x.priority = score x.node) :
    ∀ x ∈ (scan exceeds e queue).2, (scan exceeds e queue).1.later exceeds x = false := by
  induction queue generalizing e with
  | nil => simp [scan]
  | cons y rest ih =>
    obtain ⟨he, hrest⟩ := List.forall_mem_cons.1 hscore
    have hfound : ∀ x ∈ (scan exceeds y rest).1 :: (scan exceeds y rest).2,
        x.priority = score x.node := fun x hx => hrest x ((scan_perm y rest).mem_iff.2 hx)
    obtain ⟨hfirst, hothers⟩ := List.forall_mem_cons.1 hfound
    have hfirst_rest := ih y hrest
    unfold scan
    dsimp only
    split
    · next hlater =>
      exact List.forall_mem_cons.2 ⟨Ticket.later_asymm hasymm he hfirst hlater, hfirst_rest⟩
    · next hlater =>
      rw [Bool.not_eq_true] at hlater
      refine List.forall_mem_cons.2 ⟨hlater, fun x hx => ?_⟩
      exact Ticket.not_later_trans htrans he hfirst (hothers x hx) hlater (hfirst_rest x hx)

/-- If scores are ordered as numbers are, the first entry can be found by going along all of them.
-/
def PriorityQueue.scanning : PriorityQueue exceeds score where
  push e queue := e :: queue
  pop
    | [] => none
    | e :: queue => some (scan exceeds e queue)
  push_perm _ _ := .refl _
  pop_nil := rfl
  pop_spec
    | [], h, _ => absurd rfl h
    | e :: queue, _, hscore =>
      ⟨_, _, rfl, scan_perm e queue, scan_first hasymm htrans e queue hscore⟩

end Scan

/-! ### Rounds with a queue -/

/-- A round: the nodes selected, those entered in the queue at some time, those taken from it, the
number of entries made, and the queue. -/
structure Pending (σ : Type) where
  nodes : List Nat
  enqueued : List Nat
  visited : List Nat
  counter : Nat
  queue : List (Ticket σ)

variable (Q : PriorityQueue exceeds score)

/-- Enters the nodes of a row that are not closed and were not entered before. -/
def enqueue (closed : List Nat) : (row : List Nat) → Pending σ → Pending σ
  | [], p => p
  | v :: row, p =>
    if v ∈ closed ∨ v ∈ p.enqueued then enqueue closed row p
    else enqueue closed row { p with
      enqueued := v :: p.enqueued
      counter := p.counter + 1
      queue := Q.push ⟨score v, p.counter, v⟩ p.queue }

/-- Takes up to `steps` entries from the queue, selects their nodes and enters their neighbours,
until there are `size` nodes or the queue is empty. -/
def drain (links : Nat → List Nat) (size : Nat) (closed : List Nat) :
    (steps : Nat) → Pending σ → List Nat
  | 0, p => p.nodes
  | steps + 1, p =>
    if size ≤ p.nodes.length then p.nodes
    else
      match Q.pop p.queue with
      | none => p.nodes
      | some (e, queue) =>
        if e.node ∈ p.visited then drain links size closed steps { p with queue }
        else
          drain links size closed steps (enqueue Q closed (links e.node) { p with
            nodes := p.nodes ++ [e.node]
            visited := e.node :: p.visited
            queue })

/-- The round that selects nodes by priority. As every node is entered once, none is taken without
being selected. -/
def queueRound (links : Nat → List Nat) (budget source : Nat) (closed : List Nat) : List Nat :=
  drain Q links budget closed budget ⟨[], [source], [], 1, Q.push ⟨score source, 0, source⟩ []⟩

/-! ### The frontier in a queue -/

/-- Entries in the order in which they were made, for the nodes of a frontier. -/
structure Numbered (score : Nat → σ) (counter : Nat) (entries : List (Ticket σ))
    (frontier : List Nat) : Prop where
  nodes_eq : entries.map Ticket.node = frontier
  ordered : entries.Pairwise fun a b => a.sequence < b.sequence
  below : ∀ e ∈ entries, e.sequence < counter ∧ e.priority = score e.node

theorem Numbered.priority_eq {counter : Nat} {entries : List (Ticket σ)} {frontier : List Nat}
    (h : Numbered score counter entries frontier) {e : Ticket σ} (he : e ∈ entries) :
    e.priority = score e.node :=
  (h.below e he).2

theorem Numbered.concat {counter : Nat} {entries : List (Ticket σ)} {frontier : List Nat}
    (h : Numbered score counter entries frontier) (v : Nat) :
    Numbered score (counter + 1) (entries ++ [⟨score v, counter, v⟩]) (frontier ++ [v]) where
  nodes_eq := by simp [h.nodes_eq]
  ordered := by
    refine List.pairwise_append.2 ⟨h.ordered, List.pairwise_singleton _ _, fun a ha b hb => ?_⟩
    rw [List.mem_singleton.1 hb]
    exact (h.below a ha).1
  below e he := by
    rcases List.mem_append.1 he with he | he
    · exact ⟨Nat.lt_succ_of_lt (h.below e he).1, (h.below e he).2⟩
    · rw [List.mem_singleton.1 he]
      exact ⟨Nat.lt_succ_self counter, rfl⟩

/-- The entries of the queue, in some arrangement, are the frontier in the order found. -/
def Waits (score : Nat → σ) (p : Pending σ) (frontier : List Nat) : Prop :=
  ∃ entries, p.queue.Perm entries ∧ Numbered score p.counter entries frontier

theorem Waits.push {p : Pending σ} {frontier : List Nat} (h : Waits score p frontier) (v : Nat)
    (enqueued : List Nat) :
    Waits score { p with enqueued, counter := p.counter + 1,
                         queue := Q.push ⟨score v, p.counter, v⟩ p.queue } (frontier ++ [v]) := by
  obtain ⟨entries, hperm, hnumbered⟩ := h
  refine ⟨_, (Q.push_perm _ _).trans ?_, hnumbered.concat v⟩
  exact (hperm.cons _).trans (List.perm_append_singleton _ _).symm

/-- The empty queue of a frontier with nothing in it. -/
theorem Waits.nil (score : Nat → σ) : Waits score ⟨[], [], [], 0, []⟩ [] := by
  refine ⟨[], .nil, rfl, .nil, ?_⟩
  simp

theorem Waits.queue_eq_nil {p : Pending σ} (h : Waits score p []) : p.queue = [] := by
  obtain ⟨entries, hperm, hnumbered⟩ := h
  rw [List.map_eq_nil_iff.1 hnumbered.nodes_eq] at hperm
  exact hperm.eq_nil

/-- Among nodes none of which before it is as good and none after it better, a node is the best. -/
theorem bestFound_append_cons {better : Nat → Nat → Bool} {before after : List Nat} {u : Nat}
    (hbefore : ∀ v ∈ before, better u v = true) (hafter : ∀ v ∈ after, better v u = false) :
    bestFound better (before ++ u :: after) = some u := by
  have hkeep : after.foldl (fun best y => if better y best then y else best) u = u := by
    clear hbefore
    induction after with
    | nil => rfl
    | cons v after ih =>
      obtain ⟨hv, hafter⟩ := List.forall_mem_cons.1 hafter
      rw [List.foldl_cons, hv]
      exact ih hafter
  cases before with
  | nil => exact congrArg some hkeep
  | cons x before =>
    have hbest := hbefore _ (mem_foldl_best better before x)
    show some ((before ++ u :: after).foldl _ x) = some u
    rw [List.foldl_append, List.foldl_cons, if_pos hbest, hkeep]

/-- The node of an entry that no other one is taken before is the best one. -/
theorem Numbered.bestFound_eq {counter : Nat} {before after : List (Ticket σ)} {e : Ticket σ}
    {frontier : List Nat} (h : Numbered score counter (before ++ e :: after) frontier)
    (hfirst : ∀ x ∈ before ++ after, e.later exceeds x = false) :
    bestFound (fun i j => exceeds (score i) (score j)) frontier = some e.node := by
  have he := h.priority_eq (List.mem_append_right before List.mem_cons_self)
  have hbelow := (List.pairwise_append.1 h.ordered).2.2
  rw [← h.nodes_eq, List.map_append, List.map_cons]
  refine bestFound_append_cons (List.forall_mem_map.2 fun x hx => ?_)
    (List.forall_mem_map.2 fun x hx => ?_)
  · -- an entry made before `e` is taken after it only if its score is lower
    have hlater := Ticket.not_later_iff.1 (hfirst x (List.mem_append_left after hx))
    rw [← h.priority_eq (List.mem_append_left _ hx), ← he]
    exact hlater.2.resolve_right (Nat.not_le.2 (hbelow x hx e List.mem_cons_self))
  · have hlater := Ticket.not_later_iff.1 (hfirst x (List.mem_append_right before hx))
    rw [← h.priority_eq (List.mem_append_right _ (List.mem_cons_of_mem e hx)), ← he]
    exact hlater.1

/-- An entry and its node leave together. -/
theorem Numbered.erase {counter : Nat} {before after : List (Ticket σ)} {e : Ticket σ}
    {frontier : List Nat} (h : Numbered score counter (before ++ e :: after) frontier)
    (hnodup : frontier.Nodup) :
    Numbered score counter (before ++ after) (frontier.erase e.node) := by
  have hsub : (before ++ after).Sublist (before ++ e :: after) :=
    (List.sublist_cons_self e after).append_left before
  refine ⟨?_, h.ordered.sublist hsub, fun x hx => h.below x (hsub.subset hx)⟩
  have hnodes := h.nodes_eq
  rw [List.map_append, List.map_cons] at hnodes
  subst hnodes
  have hmem : e.node ∉ before.map Ticket.node := fun hmem =>
    (List.nodup_append.1 hnodup).2.2 _ hmem _ List.mem_cons_self rfl
  rw [List.map_append, List.erase_append_right _ hmem, List.erase_cons_head]

/-- The entry taken from the queue is the one of the node that the search picks. -/
theorem Waits.pop {p : Pending σ} {frontier : List Nat} (h : Waits score p frontier)
    (hne : frontier ≠ []) (hnodup : frontier.Nodup) :
    ∃ e queue, Q.pop p.queue = some (e, queue) ∧
      bestFound (fun i j => exceeds (score i) (score j)) frontier = some e.node ∧
      Waits score { p with queue } (frontier.erase e.node) := by
  obtain ⟨entries, hperm, hnumbered⟩ := h
  have hscore : ∀ e ∈ p.queue, e.priority = score e.node := fun e he =>
    hnumbered.priority_eq (hperm.mem_iff.1 he)
  have hqueue : p.queue ≠ [] := by
    intro hnil
    rw [hnil] at hperm
    exact hne (by rw [← hnumbered.nodes_eq, hperm.symm.eq_nil, List.map_nil])
  obtain ⟨e, rest, hpop, hrest, hfirst⟩ := Q.pop_spec p.queue hqueue hscore
  have hentries : entries.Perm (e :: rest) := hperm.symm.trans hrest
  obtain ⟨before, after, rfl⟩ := List.append_of_mem (hentries.mem_iff.2 List.mem_cons_self)
  have hothers : rest.Perm (before ++ after) := (hentries.symm.trans List.perm_middle).cons_inv
  exact ⟨e, rest, hpop,
    hnumbered.bestFound_eq fun x hx => hfirst x (hothers.mem_iff.2 hx),
    before ++ after, hothers, hnumbered.erase hnodup⟩

/-! ### A round as a search -/

variable {n : Nat} {links : Nat → List Nat} {closed : List Nat}

/-- Entering a row adds its new nodes to the frontier. -/
theorem waits_enqueue {row : List Nat} (hrow : row.Nodup) {p : Pending σ} {frontier : List Nat}
    (h : Waits score p frontier) :
    Waits score (enqueue Q closed row p) (frontier ++ fresh closed row p.enqueued) := by
  induction row generalizing p frontier with
  | nil => simpa [enqueue, fresh] using h
  | cons v row ih =>
    obtain ⟨hv, hrow⟩ := List.nodup_cons.1 hrow
    unfold enqueue
    by_cases hold : v ∈ closed ∨ v ∈ p.enqueued
    · rw [if_pos hold, fresh_cons_of_old hold]
      exact ih hrow h
    · have hrest : fresh closed row (v :: p.enqueued) = fresh closed row p.enqueued :=
        fresh_congr fun w hw => by simp [show w ≠ v from fun e => hv (e ▸ hw)]
      rw [if_neg hold, fresh_cons_of_new hold, List.append_cons, ← hrest]
      exact ih hrow (h.push Q v (v :: p.enqueued))

@[simp]
theorem nodes_enqueue (row : List Nat) (p : Pending σ) :
    (enqueue Q closed row p).nodes = p.nodes := by
  fun_induction enqueue Q closed row p <;> simp_all

@[simp]
theorem visited_enqueue (row : List Nat) (p : Pending σ) :
    (enqueue Q closed row p).visited = p.visited := by
  fun_induction enqueue Q closed row p <;> simp_all

theorem mem_enqueued_enqueue {row : List Nat} {p : Pending σ} {v : Nat} :
    v ∈ (enqueue Q closed row p).enqueued ↔ v ∈ row ∧ v ∉ closed ∨ v ∈ p.enqueued := by
  fun_induction enqueue Q closed row p with
  | case1 p => simp
  | case2 w row p hold ih =>
    rw [ih, List.mem_cons]
    rcases eq_or_ne v w with rfl | hv <;> tauto
  | case3 w row p hnew ih =>
    rw [ih, List.mem_cons, List.mem_cons]
    rcases eq_or_ne v w with rfl | hv <;> tauto

/-- The state of a round as that of a search with some frontier. -/
structure Pending.Follows (n : Nat) (score : Nat → σ) (closed : List Nat) (p : Pending σ)
    (frontier : List Nat) : Prop where
  waits : Waits score p frontier
  enqueued_iff : ∀ v, v ∈ p.enqueued ↔ v ∈ frontier ∨ v ∈ p.nodes
  visited_iff : ∀ v, v ∈ p.visited ↔ v ∈ p.nodes
  frontier : Frontier n frontier (p.nodes.reverse ++ closed)

/-- One step of the round is one step of the search. -/
theorem Pending.Follows.next {p : Pending σ} {frontier : List Nat}
    (h : p.Follows n score closed frontier) (hgraph : Graph n links) (hne : frontier ≠ []) :
    ∃ e queue, Q.pop p.queue = some (e, queue) ∧
      bestFound (fun i j => exceeds (score i) (score j)) frontier = some e.node ∧
      e.node ∉ p.visited ∧
      (enqueue Q closed (links e.node) { p with
        nodes := p.nodes ++ [e.node], visited := e.node :: p.visited, queue }).Follows n score
        closed (advance links e.node frontier (p.nodes.reverse ++ closed)) := by
  obtain ⟨e, queue, hpop, hbest, hwaits⟩ := h.waits.pop Q hne h.frontier.nodup
  obtain ⟨u, hu, hpicked⟩ := picks_bestFound (fun i j => exceeds (score i) (score j)) frontier hne
  obtain rfl : u = e.node := Option.some.inj (hpicked.symm.trans hbest)
  have hopen : e.node ∉ p.nodes := fun hmem =>
    h.frontier.isOpen e.node hu (List.mem_append_left _ (List.mem_reverse.2 hmem))
  have hadvance : advance links e.node frontier (p.nodes.reverse ++ closed) =
      frontier.erase e.node ++ fresh closed (links e.node) p.enqueued :=
    advance_eq_fresh hu h.enqueued_iff
  refine ⟨e, queue, hpop, hbest, fun hmem => hopen ((h.visited_iff _).1 hmem), ?_, ?_, ?_, ?_⟩
  · rw [hadvance]
    exact waits_enqueue Q (hgraph.nodup e.node) hwaits
  · intro v
    have herase := h.frontier.nodup.mem_erase_iff (a := v) (b := e.node)
    have hmem := h.enqueued_iff v
    rw [mem_enqueued_enqueue, hadvance, nodes_enqueue, List.mem_append, List.mem_append,
      List.mem_singleton, herase]
    unfold fresh
    rw [List.mem_filter, decide_eq_true_eq]
    rcases eq_or_ne v e.node with rfl | hv <;> tauto
  · intro v
    rw [visited_enqueue, nodes_enqueue]
    simp [h.visited_iff v, or_comm]
  · rw [nodes_enqueue]
    simpa using h.frontier.advance hgraph e.node

/-- A round with steps enough selects what a search from its frontier selects. -/
theorem drain_eq (hgraph : Graph n links) {size steps : Nat} {p : Pending σ} {frontier : List Nat}
    (h : p.Follows n score closed frontier) (hsteps : size ≤ steps + p.nodes.length) :
    drain Q links size closed steps p =
      p.nodes ++ run links (bestFound fun i j => exceeds (score i) (score j)) []
        (size - p.nodes.length) frontier (p.nodes.reverse ++ closed) := by
  induction steps generalizing p frontier with
  | zero =>
    rw [Nat.sub_eq_zero_of_le (by omega)]
    exact (List.append_nil _).symm
  | succ steps ih =>
    unfold drain
    by_cases hfull : size ≤ p.nodes.length
    · rw [if_pos hfull, Nat.sub_eq_zero_of_le hfull]
      exact (List.append_nil _).symm
    obtain ⟨budget, hbudget⟩ : ∃ budget, size - p.nodes.length = budget + 1 :=
      ⟨size - p.nodes.length - 1, by omega⟩
    rw [if_neg hfull]
    cases frontier with
    | nil =>
      rw [h.waits.queue_eq_nil, Q.pop_nil, run_nil]
      exact (List.append_nil _).symm
    | cons w rest =>
      obtain ⟨e, queue, hpop, hbest, hnew, hnext⟩ := h.next Q hgraph (List.cons_ne_nil w rest)
      have hpicked : next? (bestFound fun i j => exceeds (score i) (score j)) [] (w :: rest)
          (p.nodes.reverse ++ closed) = some e.node := hbest
      have hlength : (p.nodes ++ [e.node]).length = p.nodes.length + 1 := List.length_append
      simp only [hpop]
      rw [if_neg hnew, ih hnext (by rw [nodes_enqueue, hlength]; omega), hbudget,
        run_of_next? hpicked, nodes_enqueue, hlength, ← Nat.sub_sub, hbudget, List.append_assoc,
        List.reverse_append]
      rfl

/-- A round with a queue selects what a search from its source selects. -/
theorem queueRound_eq (hgraph : Graph n links) {source : Nat} (hsource : source < n)
    (hopen : source ∉ closed) (budget : Nat) :
    queueRound Q links budget source closed =
      round links (bestFound fun i j => exceeds (score i) (score j)) budget source closed := by
  have hfollows : Pending.Follows n score closed
      ⟨[], [source], [], 1, Q.push ⟨score source, 0, source⟩ []⟩ [source] := by
    refine ⟨(Waits.nil score).push Q source [source], by simp, by simp, ?_, ?_, ?_⟩ <;>
      simp [hsource, hopen]
  exact drain_eq Q hgraph hfollows (Nat.le_add_right budget 0)

/-- A search by priority is made in rounds with a queue. -/
theorem rounds_queueRound_eq (hgraph : Graph n links) {seeds : List Nat}
    (hseeds : ∀ u ∈ seeds, u < n) (budget : Nat) (closed : List Nat) :
    rounds (queueRound Q links) seeds budget closed =
      run links (bestFound fun i j => exceeds (score i) (score j)) seeds budget [] closed := by
  rw [← rounds_round_eq (picks_bestFound _)]
  exact rounds_congr (fun source hsource budget closed _ hopen =>
    queueRound_eq Q hgraph (hseeds source hsource) hopen budget) budget closed

end QuboSplit.Search
