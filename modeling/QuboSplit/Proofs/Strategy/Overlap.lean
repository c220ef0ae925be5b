import Mathlib.Combinatorics.SimpleGraph.Basic
import Mathlib.Data.List.Sort
import Mathlib.Data.Set.Card
import QuboSplit.Proofs.Strategy.Groups
import QuboSplit.Proofs.Strategy.Tiling

/-!
# The graph of groups

Two groups are linked if they are different and share a variable (`overlap`). The pairs of linked
groups can be gone through in order, each group being entered at the end of the list of the other.
That leaves every list increasing and complete, so it builds the graph of groups
(`foldl_link_linkedPairs`), and the pairs are as many as the graph has edges
(`encard_edgeSet_overlap`).

The graph is built at the first call with a problem that has room for it (`Admits`), whatever calls
failed before, and stays the same after (`graph_memoryAfter`).
-/

namespace QuboSplit.Constraint

variable {c : Constraint} {i j : Nat}

/-! ### Overlapping groups -/

theorem Share.symm (h : c.Share i j) : c.Share j i := by
  obtain ⟨v, hi, hj⟩ := h
  exact ⟨v, hj, hi⟩

theorem Share.right_lt (h : c.Share i j) : j < c.groups.length := by
  obtain ⟨v, -, hv⟩ := h
  exact lt_of_mem_group hv

/-- Different groups are linked if they share a variable. -/
def overlap (c : Constraint) : SimpleGraph Nat where
  Adj i j := i ≠ j ∧ c.Share i j
  symm := ⟨fun _ _ h => ⟨h.1.symm, h.2.symm⟩⟩
  loopless := ⟨fun _ h => h.1 rfl⟩

theorem mem_neighbors_iff_adj : j ∈ c.neighbors i ↔ c.overlap.Adj i j := by
  rw [mem_neighbors_iff]
  exact ⟨fun h => h.2, fun h => ⟨h.2.right_lt, h⟩⟩

theorem neighbors_increasing (c : Constraint) (i : Nat) : (c.neighbors i).Pairwise (· < ·) :=
  List.pairwise_lt_range.filter _

/-! ### Pairs of linked groups -/

/-- The greater groups that share a variable with group `i`, in increasing order. -/
def greaterLinked (c : Constraint) (i : Nat) : List Nat :=
  (List.range' (i + 1) (c.groups.length - (i + 1))).filter fun j => linked (c.group i) (c.group j)

/-- The pairs of linked groups, each with the smaller one first, in lexicographic order. -/
def linkedPairs (c : Constraint) : List (Nat × Nat) :=
  (List.range c.groups.length).flatMap fun i => (c.greaterLinked i).map fun j => (i, j)

theorem mem_greaterLinked_iff : j ∈ c.greaterLinked i ↔ i < j ∧ c.overlap.Adj i j := by
  unfold greaterLinked
  rw [List.mem_filter, List.mem_range'_1, linked_iff]
  constructor
  · rintro ⟨⟨hlt, -⟩, hshare⟩
    exact ⟨hlt, Nat.ne_of_lt hlt, hshare⟩
  · rintro ⟨hlt, -, hshare⟩
    have hj := hshare.right_lt
    exact ⟨by omega, hshare⟩

theorem greaterLinked_increasing (c : Constraint) (i : Nat) :
    (c.greaterLinked i).Pairwise (· < ·) :=
  (List.pairwise_lt_range' ..).filter _

theorem mem_linkedPairs_iff {e : Nat × Nat} :
    e ∈ c.linkedPairs ↔ e.1 < e.2 ∧ c.overlap.Adj e.1 e.2 := by
  obtain ⟨i, j⟩ := e
  unfold linkedPairs
  simp only [List.mem_flatMap, List.mem_range, List.mem_map, Prod.mk.injEq, mem_greaterLinked_iff]
  constructor
  · rintro ⟨_, -, _, h, rfl, rfl⟩
    exact h
  · intro h
    exact ⟨i, h.2.2.symm.right_lt, j, h, rfl, rfl⟩

theorem linkedPairs_ordered (c : Constraint) :
    c.linkedPairs.Pairwise (Prod.Lex (· < ·) (· < ·)) := by
  unfold linkedPairs
  refine List.pairwise_flatMap.2 ⟨fun i _ => ?_, ?_⟩
  · exact List.pairwise_map.2 ((c.greaterLinked_increasing i).imp fun hlt => .right i hlt)
  · refine List.pairwise_lt_range.imp fun {i i'} hlt e he e' he' => ?_
    obtain ⟨j, -, rfl⟩ := List.mem_map.1 he
    obtain ⟨j', -, rfl⟩ := List.mem_map.1 he'
    exact .left j j' hlt

/-- Counting the greater neighbours of every group counts the pairs. -/
theorem length_linkedPairs (c : Constraint) : c.linkedPairs.length = c.edgeCount := by
  have hgreater : ∀ i, (c.neighbors i).filter (i < ·) = c.greaterLinked i := by
    intro i
    refine ((c.neighbors_increasing i).filter _).eq_of_mem_iff (c.greaterLinked_increasing i) ?_
    intro j
    rw [List.mem_filter, mem_neighbors_iff_adj, mem_greaterLinked_iff, decide_eq_true_eq, and_comm]
  unfold linkedPairs edgeCount
  simp only [List.length_flatMap, List.length_map, hgreater]
  rw [List.sum_eq_foldr, List.foldr_map]

/-- The edges of the graph are the pairs. -/
theorem encard_edgeSet_overlap (c : Constraint) :
    c.overlap.edgeSet.encard = c.linkedPairs.length := by
  have hnodup : (c.linkedPairs.map fun e => s(e.1, e.2)).Nodup := by
    refine List.Nodup.map_on ?_ (c.linkedPairs_ordered.imp fun hlex e => ?_)
    · intro e he f hf h
      obtain ⟨hlt, -⟩ := mem_linkedPairs_iff.1 he
      obtain ⟨hlt', -⟩ := mem_linkedPairs_iff.1 hf
      rcases Sym2.eq_iff.1 h with ⟨hfirst, hsecond⟩ | ⟨hfirst, hsecond⟩
      · exact Prod.ext hfirst hsecond
      · omega
    · rw [e, Prod.lex_def] at hlex
      omega
  have hedges : c.overlap.edgeSet = (c.linkedPairs.map fun e => s(e.1, e.2)).toFinset := by
    ext e
    induction e using Sym2.ind with
    | _ i j =>
      rw [SimpleGraph.mem_edgeSet, List.coe_toFinset, Set.mem_ofPred_eq, List.mem_map]
      constructor
      · intro h
        rcases Nat.lt_or_gt_of_ne h.ne with hlt | hlt
        · exact ⟨(i, j), mem_linkedPairs_iff.2 ⟨hlt, h⟩, rfl⟩
        · exact ⟨(j, i), mem_linkedPairs_iff.2 ⟨hlt, h.symm⟩, Sym2.eq_swap⟩
      · rintro ⟨e, he, h⟩
        obtain ⟨-, hadj⟩ := mem_linkedPairs_iff.1 he
        rcases Sym2.eq_iff.1 h with ⟨rfl, rfl⟩ | ⟨rfl, rfl⟩
        · exact hadj
        · exact hadj.symm
  rw [hedges, Set.encard_coe_eq_coe_finsetCard, List.toFinset_card_of_nodup hnodup, List.length_map]

/-! ### Building the graph pair by pair -/

/-- Enters each of two linked groups at the end of the list of the other. -/
def link (graph : List (List Nat)) (e : Nat × Nat) : List (List Nat) :=
  (graph.modify e.1 (· ++ [e.2])).modify e.2 (· ++ [e.1])

/-- The other one of a pair. -/
def other? (i : Nat) (e : Nat × Nat) : Option Nat :=
  if e.1 = i then some e.2 else if e.2 = i then some e.1 else none

/-- One pair adds to the lists of its two groups and leaves all others alone. -/
theorem getElem?_link {e : Nat × Nat} (he : e.1 ≠ e.2) (graph : List (List Nat)) (i : Nat) :
    (link graph e)[i]? = graph[i]?.map (· ++ (other? i e).toList) := by
  unfold link other?
  rw [List.getElem?_modify, List.getElem?_modify]
  cases graph[i]? with
  | none => rfl
  | some row =>
    by_cases hfirst : e.1 = i
    · have hsecond : e.2 ≠ i := fun h => he (hfirst.trans h.symm)
      simp [hfirst, hsecond]
    · by_cases hsecond : e.2 = i <;> simp [hfirst, hsecond]

/-- Pairs one after another add to a list what stands opposite to its group, in their order. -/
theorem getElem?_foldl_link {pairs : List (Nat × Nat)} (hpairs : ∀ e ∈ pairs, e.1 ≠ e.2)
    (graph : List (List Nat)) (i : Nat) :
    (pairs.foldl link graph)[i]? = graph[i]?.map (· ++ pairs.filterMap (other? i)) := by
  induction pairs generalizing graph with
  | nil =>
    rw [List.foldl_nil, List.filterMap_nil]
    simp
  | cons e pairs ih =>
    obtain ⟨he, hpairs⟩ := List.forall_mem_cons.1 hpairs
    rw [List.foldl_cons, ih hpairs, getElem?_link he, Option.map_map]
    congr 1
    funext row
    rw [Function.comp_apply, List.append_assoc, List.filterMap_cons]
    cases other? i e <;> rfl

/-- Opposite to a group stand first the smaller and then the greater of its neighbours. -/
theorem filterMap_other?_linkedPairs (c : Constraint) (i : Nat) :
    c.linkedPairs.filterMap (other? i) = c.neighbors i := by
  refine List.Pairwise.eq_of_mem_iff ?_ (c.neighbors_increasing i) fun j => ?_
  · have hpairs : c.linkedPairs.Pairwise fun e f =>
        e.1 < e.2 ∧ f.1 < f.2 ∧ Prod.Lex (· < ·) (· < ·) e f :=
      c.linkedPairs_ordered.imp_of_mem fun he hf hlex =>
        ⟨(mem_linkedPairs_iff.1 he).1, (mem_linkedPairs_iff.1 hf).1, hlex⟩
    refine hpairs.filterMap _ fun e f ⟨he, hf, hlex⟩ a ha b hb => ?_
    rw [Prod.lex_def] at hlex
    unfold other? at ha hb
    split at ha <;> split at hb <;> simp at ha hb <;> omega
  · rw [List.mem_filterMap, mem_neighbors_iff_adj]
    constructor
    · rintro ⟨e, he, hother⟩
      obtain ⟨-, hadj⟩ := mem_linkedPairs_iff.1 he
      unfold other? at hother
      split at hother
      · next hfirst =>
        cases hother
        exact hfirst ▸ hadj
      · split at hother
        · next hsecond =>
          cases hother
          exact hsecond ▸ hadj.symm
        · cases hother
    · intro hadj
      rcases Nat.lt_or_gt_of_ne hadj.ne with hlt | hlt
      · exact ⟨(i, j), mem_linkedPairs_iff.2 ⟨hlt, hadj⟩, if_pos rfl⟩
      · refine ⟨(j, i), mem_linkedPairs_iff.2 ⟨hlt, hadj.symm⟩, ?_⟩
        unfold other?
        rw [if_neg hlt.ne, if_pos rfl]

/-- Entering the linked pairs one after another builds the graph. -/
theorem foldl_link_linkedPairs (c : Constraint) :
    c.linkedPairs.foldl link (List.replicate c.groups.length []) = c.graph := by
  have hpairs : ∀ e ∈ c.linkedPairs, e.1 ≠ e.2 := fun e he =>
    (mem_linkedPairs_iff.1 he).1.ne
  apply List.ext_getElem?
  intro i
  rw [getElem?_foldl_link hpairs, filterMap_other?_linkedPairs, List.getElem?_replicate]
  unfold graph
  rw [List.getElem?_map]
  by_cases hi : i < c.groups.length
  · rw [if_pos hi, List.getElem?_range hi]
    rfl
  · rw [if_neg hi, List.getElem?_eq_none (by rwa [List.length_range, ← not_lt])]
    rfl

/-! ### Preparing -/

section Calls

variable {α : Type}

/-- The problem has as many variables as asked for, those of all groups among them. -/
def Admits (c : Constraint) (m : Model α) : Prop :=
  c.size.value ≤ m.size ∧ ∀ group ∈ c.groups, ∀ v ∈ group, v ∈ m.labels

theorem problemFault?_eq_none_iff {m : Model α} : c.problemFault? m = none ↔ c.Admits m := by
  unfold problemFault? Admits
  split
  · next hlt => simp [Nat.not_le.2 hlt]
  · next hle =>
    rw [Option.map_eq_none_iff, List.find?_eq_none]
    simp only [List.mem_flatten, Model.hasVariable, Bool.not_eq_true, Bool.not_eq_false',
      Option.isSome_iff_ne_none, ne_eq, Model.index?_eq_none_iff, not_not]
    constructor
    · exact fun h => ⟨Nat.le_of_not_lt hle, fun group hgroup v hv => h v ⟨group, hgroup, hv⟩⟩
    · rintro ⟨-, h⟩ v ⟨group, hgroup, hv⟩
      exact h group hgroup v hv

variable [Scalar α] {mem : Memory} {s : State α} {graph : List (List Nat)}

theorem setup_of_built (h : mem.graph = some graph) (s : State α) :
    c.setup mem s = ⟨.ok (), mem, []⟩ := by
  unfold setup
  rw [h]

theorem setup_of_admits (h : mem.graph = none) (hs : c.Admits s.problem.model) :
    c.setup mem s = ⟨.ok (), { mem with graph := some c.graph },
      [⟨.constraintGraphBuilt, name, c.edgeCount, ""⟩]⟩ := by
  unfold setup
  rw [h, problemFault?_eq_none_iff.2 hs]

theorem setup_of_not_admits (h : mem.graph = none) (hs : ¬ c.Admits s.problem.model) :
    ∃ fault, c.setup mem s = ⟨.error fault, mem, []⟩ := by
  obtain ⟨fault, hfault⟩ := Option.ne_none_iff_exists'.1 (mt problemFault?_eq_none_iff.1 hs)
  refine ⟨fault, ?_⟩
  unfold setup
  rw [h, hfault]

theorem select_of_not_admits (h : mem.graph = none) (hs : ¬ c.Admits s.problem.model) :
    ∃ fault, c.select mem s = ⟨.error fault, mem, []⟩ := by
  obtain ⟨fault, hfault⟩ := setup_of_not_admits h hs
  refine ⟨fault, ?_⟩
  unfold select
  rw [hfault]

/-- A selection that succeeds in preparing reports after that which variables it selects. -/
theorem events_select (h : (c.setup mem s).result = .ok ()) :
    ∃ labels, (c.select mem s).events = (c.setup mem s).events ++ [.selected name labels] := by
  unfold select
  dsimp only
  rw [h]
  exact ⟨_, rfl⟩

/-- A selection builds the graph as preparing does, and changes it in no other way. -/
theorem graph_select (c : Constraint) (mem : Memory) (s : State α) :
    (c.select mem s).memory.graph = (c.setup mem s).memory.graph := by
  unfold select
  dsimp only
  split <;> rfl

/-! ### Calls one after another -/

/-- The memory after a call. -/
def after (c : Constraint) (mem : Memory) : Call α → Memory
  | .setup s => (c.setup mem s).memory
  | .select s => (c.select mem s).memory

/-- The memory after calls one after another. -/
def memoryAfter (c : Constraint) (mem : Memory) (calls : List (Call α)) : Memory :=
  calls.foldl c.after mem

theorem Reachable.memoryAfter (h : c.Reachable α mem) (calls : List (Call α)) :
    c.Reachable α (c.memoryAfter mem calls) := by
  induction calls generalizing mem with
  | nil => exact h
  | cons call rest ih =>
    cases call with
    | setup s => exact ih (h.setup s)
    | select s => exact ih (h.select s)

theorem graph_after (c : Constraint) (mem : Memory) (call : Call α) :
    (c.after mem call).graph = (c.setup mem call.state).memory.graph := by
  cases call with
  | setup s => rfl
  | select s => exact graph_select c mem s

/-- A graph that is built stays. -/
theorem graph_memoryAfter_of_built (h : mem.graph = some graph) (calls : List (Call α)) :
    (c.memoryAfter mem calls).graph = some graph := by
  induction calls generalizing mem with
  | nil => exact h
  | cons call rest ih =>
    apply ih
    rw [graph_after, setup_of_built h]
    exact h

/-- The graph is built at the first call whose problem admits it, and by no other. -/
theorem graph_memoryAfter (h : mem.graph = none) (calls : List (Call α)) :
    ((∃ call ∈ calls, c.Admits call.state.problem.model) →
        (c.memoryAfter mem calls).graph = some c.graph) ∧
      ((∀ call ∈ calls, ¬ c.Admits call.state.problem.model) →
        (c.memoryAfter mem calls).graph = none) := by
  induction calls generalizing mem with
  | nil => exact ⟨by simp, fun _ => h⟩
  | cons call rest ih =>
    rw [List.exists_mem_cons_iff, List.forall_mem_cons]
    show (_ → (c.memoryAfter (c.after mem call) rest).graph = _) ∧
      (_ → (c.memoryAfter (c.after mem call) rest).graph = _)
    by_cases hcall : c.Admits call.state.problem.model
    · have hbuilt : (c.after mem call).graph = some c.graph := by
        rw [graph_after, setup_of_admits h hcall]
      exact ⟨fun _ => graph_memoryAfter_of_built hbuilt rest, fun hnot => absurd hcall hnot.1⟩
    · have hunbuilt : (c.after mem call).graph = none := by
        obtain ⟨fault, hfault⟩ := setup_of_not_admits h hcall
        rw [graph_after, hfault]
        exact h
      obtain ⟨hsome, hnone⟩ := ih hunbuilt
      exact ⟨fun hor => hsome (hor.resolve_left hcall), fun hnot => hnone hnot.2⟩

theorem neighbors_of_built (h : mem.graph = some c.graph) (hi : i < c.groups.length) :
    mem.neighbors i = .ok (c.neighbors i) := by
  have hrow : c.graph[i]? = some (c.neighbors i) := by
    unfold Constraint.graph
    rw [List.getElem?_map, List.getElem?_range hi]
    rfl
  unfold Memory.neighbors
  rw [h]
  simp [hrow]

/-- After any calls the graph is built, by entering the linked pairs one after another, if the
problem of one of the calls admits it, and not otherwise. Until then preparing succeeds exactly for
a problem that admits it, and changes nothing if it fails, nor does a selection that fails to
prepare. What either of them reports when the graph is built is the number of unordered pairs of
different groups that share a variable. Once preparing succeeded the graph stays the same in all
later calls, and lists for each group, in increasing order, the others that share a variable with
it. -/
theorem graph_is_overlap (c : Constraint) (engine : Engine) (calls : List (Call α)) (s : State α) :
    let mem := c.memoryAfter (.fresh engine) calls
    ((∃ call ∈ calls, c.Admits call.state.problem.model) →
      mem.graph = some (c.linkedPairs.foldl link (List.replicate c.groups.length []))) ∧
    ((∀ call ∈ calls, ¬ c.Admits call.state.problem.model) → mem.graph = none) ∧
    (mem.graph = none →
      ((c.setup mem s).result = .ok () ↔ c.Admits s.problem.model) ∧
      (¬ c.Admits s.problem.model → (c.setup mem s).memory = mem ∧ (c.select mem s).memory = mem) ∧
      (c.Admits s.problem.model → ∃ count : Nat, (count : ℕ∞) = c.overlap.edgeSet.encard ∧
        (c.setup mem s).events = [⟨.constraintGraphBuilt, name, count, ""⟩] ∧
        ∃ labels, (c.select mem s).events =
          [⟨.constraintGraphBuilt, name, count, ""⟩, .selected name labels])) ∧
    ((c.setup mem s).result = .ok () → ∀ later : List (Call α),
      let last := c.memoryAfter (c.setup mem s).memory later
      last.graph = (c.setup mem s).memory.graph ∧
        ∀ i < c.groups.length, ∃ neighbors, last.neighbors i = .ok neighbors ∧
          neighbors.Pairwise (· < ·) ∧ ∀ j, j ∈ neighbors ↔ c.overlap.Adj i j) := by
  intro mem
  have hfresh : (Memory.fresh engine).graph = none := rfl
  obtain ⟨hsome, hnone⟩ := graph_memoryAfter (c := c) hfresh calls
  rw [foldl_link_linkedPairs]
  refine ⟨hsome, hnone, fun hunbuilt => ⟨?succeeds, ?fails, ?reports⟩, ?stays⟩
  case succeeds =>
    constructor
    · intro hok
      by_contra hs
      obtain ⟨fault, hfault⟩ := setup_of_not_admits hunbuilt hs
      rw [hfault] at hok
      cases hok
    · intro hs
      rw [setup_of_admits hunbuilt hs]
  case fails =>
    intro hs
    obtain ⟨fault, hsetup⟩ := setup_of_not_admits hunbuilt hs
    obtain ⟨fault', hselect⟩ := select_of_not_admits hunbuilt hs
    rw [hsetup, hselect]
    exact ⟨rfl, rfl⟩
  case reports =>
    intro hs
    have hsetup := setup_of_admits hunbuilt hs
    obtain ⟨labels, hselect⟩ := events_select (congrArg Step.result hsetup)
    rw [hsetup] at hselect
    refine ⟨c.edgeCount, ?_, by rw [hsetup], labels, hselect⟩
    rw [encard_edgeSet_overlap, length_linkedPairs]
  case stays =>
    intro hok later
    have hbuilt : (c.setup mem s).memory.graph = some c.graph := by
      rcases setup_cases ((Reachable.fresh engine).memoryAfter calls).sound s with
        ⟨fault, hfault⟩ | ⟨-, hmemory⟩
      · rw [hfault] at hok
        cases hok
      · rw [hmemory]
    have hlast := graph_memoryAfter_of_built (c := c) hbuilt later
    refine ⟨hlast.trans hbuilt.symm, fun i hi => ⟨c.neighbors i, neighbors_of_built hlast hi,
      c.neighbors_increasing i, fun j => mem_neighbors_iff_adj⟩⟩

end Calls

open Label (number) in
/-- Two groups that overlap a third, and one of them names a variable twice. Calls with a problem
that is too small build nothing. Then a selection without samples builds the graph, which is the
same after more calls. -/
theorem graph_is_overlap_path :
    let c : Constraint := ⟨⟨3, three_pos⟩,
      [[number 0, number 0, number 1], [number 3], [number 1, number 3]], by decide, by decide⟩
    let small : State Binary64 := { latticePath with problem := ⟨1, .empty .binary⟩ }
    let mem := c.memoryAfter (.fresh (.ofSeed 1)) [.setup small, .select small]
    let last := c.memoryAfter (c.setup mem unsampledPath).memory [.setup small, .select latticePath]
    mem.graph = none ∧ (c.setup mem unsampledPath).result = .ok () ∧
      (∃ count : Nat, (count : ℕ∞) = c.overlap.edgeSet.encard ∧ ∃ labels,
        (c.select mem unsampledPath).events =
          [⟨.constraintGraphBuilt, name, count, ""⟩, .selected name labels]) ∧
      last.graph = (c.setup mem unsampledPath).memory.graph ∧
      ∃ neighbors, last.neighbors 2 = .ok neighbors ∧ neighbors.Pairwise (· < ·) ∧
        0 ∈ neighbors ∧ 1 ∈ neighbors ∧ 2 ∉ neighbors := by
  intro c small mem last
  have hsmall : ¬ c.Admits small.problem.model := fun h => absurd h.1 (by decide)
  have hpath : c.Admits unsampledPath.problem.model := by
    have hlabels : unsampledPath.problem.model.labels = [number 0, number 1, number 3] := by
      decide +kernel
    refine ⟨by decide +kernel, ?_⟩
    rw [hlabels]
    decide
  obtain ⟨-, hnone, hunbuilt, hbuilt⟩ := graph_is_overlap c (.ofSeed 1)
    [.setup small, .select small] unsampledPath
  have hmem : mem.graph = none := hnone (by simpa using hsmall)
  obtain ⟨hsucceeds, -, hreports⟩ := hunbuilt hmem
  obtain ⟨count, hcount, -, hselect⟩ := hreports hpath
  obtain ⟨hsame, hneighbors⟩ := hbuilt (hsucceeds.2 hpath) [.setup small, .select latticePath]
  obtain ⟨neighbors, hok, hincreasing, hmem_iff⟩ := hneighbors 2 (by decide)
  refine ⟨hmem, hsucceeds.2 hpath, ⟨count, hcount, hselect⟩, hsame, neighbors, hok, hincreasing,
    (hmem_iff 0).2 ⟨by decide, number 1, by decide, by decide⟩,
    (hmem_iff 1).2 ⟨by decide, number 3, by decide, by decide⟩, fun h => ?_⟩
  exact ((hmem_iff 2).1 h).ne rfl

end QuboSplit.Constraint
