import QuboSplit.Proofs.Random.Selection
import QuboSplit.Proofs.Strategy.Growth
import QuboSplit.Proofs.Strategy.Step

/-!
# Subproblems of whole groups

Whatever the strategy was used for before, it grows along the graph of its own groups
(`Reachable.sound`), from a seed that it draws (`select_cases`). So its subproblem has the variables
of the groups that it has taken, and none besides (`subproblem_is_union_of_groups`).
-/

namespace QuboSplit

namespace Constraint

variable {c : Constraint}

/-! ### What the strategy remembers -/

/-- A graph that is built is that of the groups. -/
def Memory.Sound (c : Constraint) (mem : Memory) : Prop :=
  ∀ graph, mem.graph = some graph → graph = c.graph

theorem Memory.sound_fresh (c : Constraint) (engine : Engine) : (fresh engine).Sound c := nofun

theorem Memory.sound_built (c : Constraint) (engine : Engine) : Sound c ⟨some c.graph, engine⟩ := by
  rintro _ ⟨⟩
  rfl

variable {α : Type} [Scalar α] {mem : Memory} {s t : State α}

/-- Preparing changes nothing if it fails, and the engine never. -/
theorem setup_cases (h : mem.Sound c) (s : State α) :
    (∃ fault, c.setup mem s = ⟨.error fault, mem, []⟩) ∨
      (c.setup mem s).result = .ok () ∧ (c.setup mem s).memory = ⟨some c.graph, mem.engine⟩ := by
  obtain ⟨graph, engine⟩ := mem
  unfold setup
  cases graph with
  | some graph =>
    obtain rfl : graph = c.graph := h graph rfl
    exact Or.inr ⟨rfl, rfl⟩
  | none =>
    dsimp only
    cases c.problemFault? s.problem.model with
    | some fault => exact Or.inl ⟨fault, rfl⟩
    | none => exact Or.inr ⟨rfl, rfl⟩

/-- A selection grows from a seed that it draws, unless preparing fails. -/
theorem select_cases (h : mem.Sound c) (s : State α) :
    (∃ fault, (c.select mem s).result = .error fault ∧ (c.select mem s).memory = mem) ∨
      (c.select mem s).result =
          s.selectAtBest (c.grow c.graph (mem.engine.uniform c.groups.length).1) ∧
        (c.select mem s).memory = ⟨some c.graph, (mem.engine.uniform c.groups.length).2⟩ := by
  have hseed := Engine.uniform_lt (List.length_pos_of_ne_nil c.groups_ne) mem.engine
  rw [← collect_eq_grow hseed]
  unfold select
  dsimp only
  rcases setup_cases h s with ⟨fault, hsetup⟩ | ⟨hok, hmemory⟩
  · rw [hsetup]
    exact Or.inl ⟨fault, rfl, rfl⟩
  · rw [hok, hmemory]
    exact Or.inr ⟨rfl, rfl⟩

theorem Memory.Sound.setup (h : mem.Sound c) (s : State α) : (c.setup mem s).memory.Sound c := by
  rcases setup_cases h s with ⟨fault, hsetup⟩ | ⟨-, hmemory⟩
  · rwa [hsetup]
  · exact hmemory ▸ sound_built c _

theorem Memory.Sound.select (h : mem.Sound c) (s : State α) :
    (c.select mem s).memory.Sound c := by
  rcases select_cases h s with ⟨fault, -, hmemory⟩ | ⟨-, hmemory⟩
  · rwa [hmemory]
  · exact hmemory ▸ sound_built c _

/-- The memories that arise from a fresh one by preparing for and selecting from states. -/
inductive Reachable (α : Type) [Scalar α] (c : Constraint) : Memory → Prop
  | fresh (engine : Engine) : Reachable α c (.fresh engine)
  | setup {mem : Memory} (s : State α) (h : Reachable α c mem) :
      Reachable α c (c.setup mem s).memory
  | select {mem : Memory} (s : State α) (h : Reachable α c mem) :
      Reachable α c (c.select mem s).memory

theorem Reachable.sound (h : c.Reachable α mem) : mem.Sound c := by
  induction h with
  | fresh engine => exact Memory.sound_fresh c engine
  | setup s _ ih => exact ih.setup s
  | select s _ ih => exact ih.select s

/-- A state that is selected has a subproblem of at most the given size, of different variables:
those of some whole groups, the seed group among them and each at the end of a chain of groups from
there that share variables. -/
theorem subproblem_is_union_of_groups (c : Constraint) (hmem : c.Reachable α mem)
    (hproblem : s.problem.model.Reachable) (h : (c.select mem s).result = .ok (.state t)) :
    (mem.engine.uniform c.groups.length).1 < c.groups.length ∧
      ∃ sub, t.subproblem = some sub ∧ sub.labels.Nodup ∧ sub.labels.length ≤ c.size.value ∧
        ∃ taken : List Nat, (mem.engine.uniform c.groups.length).1 ∈ taken ∧
          (∀ j ∈ taken, j < c.groups.length ∧
            Relation.ReflTransGen c.Share (mem.engine.uniform c.groups.length).1 j) ∧
          ∀ v, v ∈ sub.labels ↔ ∃ j ∈ taken, v ∈ c.group j := by
  have hseed := Engine.uniform_lt (List.length_pos_of_ne_nil c.groups_ne) mem.engine
  rcases select_cases hmem.sound s with ⟨fault, herror, -⟩ | ⟨hresult, -⟩
  · rw [herror] at h
    cases h
  · rw [hresult] at h
    obtain ⟨sub, rfl, hlabels⟩ := (State.selects_of_selectAtBest h).exists_subproblem
    obtain ⟨hfits, htaken⟩ := grow_spec hseed
    have hlabels := hlabels hproblem.wellFormed hfits.nodup
    rw [← hlabels] at hfits htaken
    exact ⟨hseed, sub, rfl, hfits.nodup, hfits.length_le, htaken⟩

/-- Of three groups that share a variable the first is the seed. The second has a variable too many,
the third fits beside the first and fills the size. -/
theorem subproblem_is_union_of_groups_path :
    let m : Model Rat := .ofEdits .binary
      [.setLinear (.number 0) (-1), .setQuadratic (.number 0) (.number 1) 3,
        .addQuadratic (.number 1) (.number 2) (-2), .setLinear (.number 3) 1,
        .setQuadratic (.number 4) (.number 1) 5]
    let best : Sample Rat := ⟨[(.number 0, 1), (.number 1, 1), (.number 2, 1), (.number 3, 1),
      (.number 4, 0)], by decide⟩
    let s : State Rat :=
      { problem := ⟨0, m⟩, samples := ⟨.binary, [⟨best, 0⟩], by decide⟩ }
    let c : Constraint := ⟨⟨3, by decide⟩,
      [[.number 0, .number 1], [.number 1, .number 2, .number 3], [.number 1, .number 4]],
      by decide, by decide⟩
    let sub : Model Rat :=
      ⟨.binary, 0, [⟨.number 0, -1, 0, [(1, 3)]⟩, ⟨.number 1, -2, 1, [(0, 3), (2, 5)]⟩,
        ⟨.number 4, 0, 1, [(1, 5)]⟩]⟩
    (c.select (.fresh (.ofSeed 1)) s).result = .ok (.state (s.withSubproblem sub)) ∧
      sub.labels.length ≤ 3 ∧ ∃ taken : List Nat, 0 ∈ taken ∧ 1 ∉ taken ∧ 2 ∈ taken ∧
        ∀ v, v ∈ sub.labels ↔ ∃ j ∈ taken, v ∈ c.group j := by
  intro m best s c sub
  have hresult : (c.select (.fresh (.ofSeed 1)) s).result =
      .ok (.state (s.withSubproblem sub)) := by
    decide +kernel
  have hseed : ((Memory.fresh (.ofSeed 1)).engine.uniform c.groups.length).1 = 0 := by
    decide +kernel
  obtain ⟨-, sub', hsub, -, hlength, taken, htaken, hlinked, hunion⟩ :=
    subproblem_is_union_of_groups c (.fresh (.ofSeed 1)) ⟨.binary, _, rfl⟩ hresult
  obtain rfl : sub = sub' := Option.some.inj hsub
  have hseen : ∃ j ∈ taken, Label.number 4 ∈ c.group j := (hunion _).1 (by decide)
  refine ⟨hresult, hlength, taken, hseed ▸ htaken, fun hone => ?_, ?_, hunion⟩
  · -- a variable of the second group would be among those selected
    have hmem : Label.number 2 ∈ sub.labels := (hunion _).2 ⟨1, hone, by decide⟩
    exact absurd hmem (by decide)
  · -- only the third group has the last variable
    obtain ⟨j, hj, hmem⟩ := hseen
    have hlt : j < 3 := (hlinked j hj).1
    have hthird : ∀ j < 3, Label.number 4 ∈ c.group j → j = 2 := by decide
    exact hthird j hlt hmem ▸ hj

end Constraint

end QuboSplit
