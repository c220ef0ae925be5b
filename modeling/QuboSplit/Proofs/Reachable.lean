import QuboSplit.Proofs.Chimera.Tile
import QuboSplit.Proofs.Strategy.EnergyImpact
import QuboSplit.Proofs.Strategy.Groups
import QuboSplit.Proofs.Strategy.Tiling

/-!
# What decomposers remember

A decomposer that starts fresh remembers only what its strategy found out about the states it was
called with (`Decomposer.Sound`), whatever calls came before (`Decomposer.Reachable.sound`).
-/

namespace QuboSplit

variable {α : Type} [Scalar α]

/-- No tile that is known names a variable twice. -/
def Tiling.Memory.Distinct (mem : Tiling.Memory) : Prop :=
  ∀ tiles, mem.tiles = some tiles → ∀ tile ∈ tiles, tile.embedding.labels.Nodup

theorem Tiling.Memory.distinct_fresh : Memory.fresh.Distinct := nofun

theorem Tiling.distinct_setup {c : Tiling} {mem : Memory} {s : State α} (h : mem.Distinct)
    (hproblem : s.problem.model.WellFormed) : (c.setup mem s).memory.Distinct :=
  all_setup h fun _ hfound tile htile =>
    (Lattice.covers_of_tiles hproblem.labels_nodup hfound tile htile).nodup

theorem Tiling.distinct_select {c : Tiling} {mem : Memory} {s : State α} (h : mem.Distinct)
    (hproblem : s.problem.model.WellFormed) : (c.select mem s).memory.Distinct := by
  unfold Memory.Distinct
  rw [tiles_select]
  exact distinct_setup h hproblem

namespace Decomposer

/-- The decomposer has not been used. -/
def Fresh (d : Decomposer α) : Prop :=
  match d.strategy with
  | .whole => True
  | .energyImpact _ memory => memory = .fresh
  | .randomSubset _ _ => True
  | .tiling _ memory => memory = .fresh
  | .constraint _ memory => ∃ engine, memory = .fresh engine

/-- What the decomposer remembers is what its strategy could have found out by itself. -/
def Sound (d : Decomposer α) : Prop :=
  match d.strategy with
  | .whole => True
  | .energyImpact settings memory => memory.Sound settings.minGain
  | .randomSubset _ _ => True
  | .tiling _ memory => memory.Distinct
  | .constraint settings memory => memory.Sound settings

variable {d : Decomposer α} {s : State α}

theorem Fresh.sound (h : d.Fresh) : d.Sound := by
  obtain ⟨strategy, observed⟩ := d
  cases strategy with
  | energyImpact settings memory =>
    obtain rfl : memory = .fresh := h
    exact EnergyImpact.Memory.sound_fresh settings.minGain
  | tiling settings memory =>
    obtain rfl : memory = .fresh := h
    exact Tiling.Memory.distinct_fresh
  | constraint settings memory =>
    obtain ⟨engine, rfl⟩ : ∃ engine, memory = .fresh engine := h
    exact Constraint.Memory.sound_fresh settings engine
  | _ => trivial

theorem Sound.setup (h : d.Sound) (hp : s.problem.model.WellFormed) :
    (d.setup s).memory.Sound := by
  obtain ⟨strategy, observed⟩ := d
  cases strategy with
  | energyImpact settings memory => exact h
  | tiling settings memory => exact Tiling.distinct_setup (show memory.Distinct from h) hp
  | constraint settings memory =>
    exact Constraint.Memory.Sound.setup (show memory.Sound settings from h) s
  | _ => trivial

variable [DecidableEq α]

theorem Sound.select (h : d.Sound) (hp : s.problem.model.WellFormed) :
    (d.select s).memory.Sound := by
  obtain ⟨strategy, observed⟩ := d
  cases strategy with
  | energyImpact settings memory =>
    exact EnergyImpact.sound_select hp (show memory.Sound settings.minGain from h)
  | tiling settings memory => exact Tiling.distinct_select (show memory.Distinct from h) hp
  | constraint settings memory =>
    exact Constraint.Memory.Sound.select (show memory.Sound settings from h) s
  | _ => trivial

/-- The decomposers that arise from fresh ones by preparing for and selecting from states. -/
inductive Reachable : Decomposer α → Prop
  | fresh {d : Decomposer α} (h : d.Fresh) : Reachable d
  | setup {d : Decomposer α} (s : State α) (h : Reachable d)
      (hproblem : s.problem.model.Reachable) : Reachable (d.setup s).memory
  | select {d : Decomposer α} (s : State α) (h : Reachable d)
      (hproblem : s.problem.model.Reachable) : Reachable (d.select s).memory

theorem Reachable.sound (h : d.Reachable) : d.Sound := by
  induction h with
  | fresh h => exact h.sound
  | setup s _ hproblem ih => exact ih.setup hproblem.wellFormed
  | select s _ hproblem ih => exact ih.select hproblem.wellFormed

end Decomposer

end QuboSplit
