import QuboSplit.Adjoin
import QuboSplit.Random.Engine
import QuboSplit.Strategy.Step

/-!
# Whole groups of variables

This strategy never splits a group of variables that belong together. It starts from a random group
and goes through the groups that share variables with it, breadth first, taking each one that still
fits.
-/

namespace QuboSplit

/-- A group of variables. -/
abbrev Group := List Label

/-- The settings of the strategy. Every group has variables and fits into the size. -/
structure Constraint where
  size : Size
  groups : List Group
  groups_ne : groups ≠ []
  group_fits : ∀ group ∈ groups, group ≠ [] ∧ group.length ≤ size.value

namespace Constraint

def name : String := "RandomConstraintDecomposer"

/-- Why a group cannot be used with the given size. -/
def groupFault? (size : Nat) (group : Group) : Option Fault :=
  if group = [] then some .emptyConstraint
  else if size < group.length then some .constraintTooLarge
  else none

theorem groupFault?_eq_none {size : Nat} {group : Group} (h : groupFault? size group = none) :
    group ≠ [] ∧ group.length ≤ size := by
  unfold groupFault? at h
  split at h
  · exact nomatch h
  · next hne =>
    split at h
    · exact nomatch h
    · next hle => exact ⟨hne, Nat.le_of_not_lt hle⟩

/-- The given settings. -/
def ofSettings (size : Int) (groups : List Group) : Except Fault Constraint := do
  let size ← Size.ofInt size
  if hne : groups = [] then .error .noConstraints
  else
    match h : groups.findSome? (groupFault? size.value) with
    | some fault => .error fault
    | none =>
      .ok ⟨size, groups, hne, fun group hg =>
        groupFault?_eq_none (List.findSome?_eq_none_iff.1 h group hg)⟩

def text (c : Constraint) : String :=
  name ++ "(size=" ++ toString c.size.value ++ ", constraints=[" ++
    ", ".intercalate (c.groups.map Label.listText) ++ "])"

/-! ### The graph of groups -/

/-- The groups share a variable. -/
def linked (g h : Group) : Bool := h.any (· ∈ g)

/-- The group of a number. -/
def group (c : Constraint) (i : Nat) : Group := c.groups.getD i []

/-- The other groups that share a variable with group `i`, in increasing order. -/
def neighbors (c : Constraint) (i : Nat) : List Nat :=
  (List.range c.groups.length).filter fun j => i ≠ j && linked (c.group i) (c.group j)

/-- The neighbours of every group. -/
def graph (c : Constraint) : List (List Nat) := (List.range c.groups.length).map c.neighbors

/-- The number of pairs of groups that share a variable. -/
def edgeCount (c : Constraint) : Nat :=
  (List.range c.groups.length).foldr
    (fun i total => ((c.neighbors i).filter (i < ·)).length + total) 0

/-! ### Preparing -/

/-- The graph of groups, once it is built, and the random engine. -/
structure Memory where
  graph : Option (List (List Nat)) := none
  engine : Engine
  deriving DecidableEq

/-- The memory before the first problem. -/
def Memory.fresh (engine : Engine) : Memory := { engine }

/-- The neighbours of a group, once the graph is built. -/
def Memory.neighbors (mem : Memory) (i : Int) : Except Fault (List Nat) :=
  match mem.graph with
  | none => .error .graphNotBuilt
  | some graph =>
    if i < 0 then .error .unknownConstraint
    else
      match graph[i.toNat]? with
      | none => .error .unknownConstraint
      | some neighbors => .ok neighbors

variable {α : Type}

/-- Why the groups cannot be used with a problem: it is smaller than the size, or lacks one of
their variables. -/
def problemFault? (c : Constraint) (m : Model α) : Option Fault :=
  if m.size < c.size.value then some .oversized
  else (c.groups.flatten.find? fun v => !m.hasVariable v).map .foreignConstraintVariable

variable [Scalar α]

/-- Builds the graph of groups unless it is built. -/
def setup (c : Constraint) (mem : Memory) (s : State α) : Step Memory Unit :=
  match mem.graph with
  | some _ => ⟨.ok (), mem, []⟩
  | none =>
    match c.problemFault? s.problem.model with
    | some fault => ⟨.error fault, mem, []⟩
    | none =>
      ⟨.ok (), { mem with graph := some c.graph },
        [⟨.constraintGraphBuilt, name, c.edgeCount, ""⟩]⟩

/-! ### Selecting -/

/-- The variables with a group, if its new entries fit into the size. -/
def absorb (size : Nat) (labels : List Label) (group : Group) : List Label :=
  let proposed := group.filter (· ∉ labels)
  if labels.length + proposed.length ≤ size then adjoin labels proposed else labels

/-- A selection that grows: its variables, the groups that have been come to, and those of them
whose neighbours have not been looked at. -/
structure Growth where
  labels : List Label
  discovered : List Nat
  queue : List Nat
  deriving DecidableEq

/-- Goes along the neighbours of a group, takes each new one that fits, and breaks off when the size
is reached. -/
def visit (c : Constraint) : (row : List Nat) → Growth → Growth
  | [], w => w
  | j :: row, w =>
    if j ∈ w.discovered then c.visit row w
    else
      let labels := absorb c.size.value w.labels (c.group j)
      let w : Growth := ⟨labels, j :: w.discovered, w.queue ++ [j]⟩
      if w.labels.length = c.size.value then w else c.visit row w

/-- Visits the neighbours of up to `steps` groups from the queue, until it is empty or the size is
reached. -/
def spread (c : Constraint) (graph : List (List Nat)) : (steps : Nat) → Growth → Growth
  | 0, w => w
  | steps + 1, w =>
    match w.queue with
    | [] => w
    | i :: queue =>
      if w.labels.length < c.size.value then
        c.spread graph steps (c.visit (graph.getD i []) { w with queue })
      else w

/-- The variables selected from the seed group `i`, breadth first along the graph. As every group
enters the queue once there is no step for which there is no group. -/
def collect (c : Constraint) (graph : List (List Nat)) (i : Nat) : List Label :=
  (c.spread graph graph.length ⟨distinct (c.group i), [i], [i]⟩).labels

/-- Selects with a graph that is built. The engine stays advanced if the selection fails. -/
def selectGroups (c : Constraint) (mem : Memory) (graph : List (List Nat)) (s : State α) :
    Step Memory (Selection α) :=
  let (seed, engine) := mem.engine.uniform c.groups.length
  let labels := c.collect graph seed
  { result := s.selectAtBest labels
    memory := { mem with engine }
    events := [.selected name labels] }

/-- One selection. -/
def select (c : Constraint) (mem : Memory) (s : State α) : Step Memory (Selection α) :=
  let prepared := c.setup mem s
  match prepared.result with
  | .error fault => ⟨.error fault, prepared.memory, prepared.events⟩
  | .ok () =>
    (c.selectGroups prepared.memory (prepared.memory.graph.getD []) s).after prepared.events

end Constraint

end QuboSplit
