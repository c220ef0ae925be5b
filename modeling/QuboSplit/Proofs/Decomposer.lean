import QuboSplit.Proofs.Model.Recomposition
import QuboSplit.Proofs.Strategy.Step

/-!
# Subproblems and the energies of their problems

Whatever a decomposer remembers, a state that it yields has a subproblem whose energies are those of
the problem up to a constant (`select_recomposes`). Every strategy reduces to one of two cases, the
problem itself or a model induced at the best sample (`Offers`).
-/

namespace QuboSplit

variable {α : Type} [Scalar α]

/-! ### What each strategy selects -/

theorem Whole.eq_of_select {s t : State α} (h : (Whole.select s).result = .ok (.state t)) :
    t = s.withSubproblem s.problem.model := by
  cases h
  rfl

namespace EnergyImpact

variable {c : EnergyImpact α} {mem : Memory α} {s t : State α} {sample : Sample α}

theorem exists_labels_of_choose (h : (c.choose mem s sample).result = .ok (.state t)) :
    ∃ labels, s.select labels sample = .ok t := by
  unfold choose at h
  dsimp only at h
  split at h
  · cases h
  · next labels _ =>
    cases hselect : s.select labels sample with
    | error fault => simp [hselect, Except.map] at h
    | ok t' =>
      simp only [hselect, Except.map, Except.ok.injEq, Selection.state.injEq] at h
      exact ⟨labels, h ▸ hselect⟩

theorem exists_labels_of_advance (h : (c.advance mem s sample).result = .ok (.state t)) :
    ∃ labels, s.select labels sample = .ok t := by
  unfold advance at h
  dsimp only at h
  split at h
  · split at h
    · rw [Step.result_after] at h
      exact exists_labels_of_choose h
    · cases h
  · exact exists_labels_of_choose h

theorem selects [DecidableEq α] (h : (c.select mem s).result = .ok (.state t)) :
    ∃ labels, s.Selects labels none t := by
  unfold select at h
  split at h
  · cases h
  · next best hbest =>
    split at h
    · cases h
    · rw [Step.result_after] at h
      obtain ⟨labels, hselect⟩ := exists_labels_of_advance h
      exact ⟨labels, best, hbest, hselect⟩

end EnergyImpact

theorem RandomSubset.selects {c : RandomSubset} {g : Engine} {s t : State α}
    (h : (c.select g s).result = .ok (.state t)) : ∃ labels, s.Selects labels none t := by
  unfold select at h
  split at h
  · cases h
  · exact ⟨_, State.selects_of_selectAtBest h⟩

theorem Tiling.upcoming_mem {c : Tiling} {tiles : List Tile} {next number : Nat} {tile : Tile}
    (h : c.upcoming tiles next = some (number, tile)) : tile ∈ tiles := by
  unfold upcoming at h
  split at h
  · next found hfound =>
    cases h
    exact List.mem_of_getElem? hfound
  · split at h
    · obtain ⟨first, hfirst, h⟩ := Option.map_eq_some_iff.1 h
      cases h
      exact List.mem_of_head? hfirst
    · cases h

/-- A tiling selects the variables of one of its tiles. -/
theorem Tiling.selects {c : Tiling} {mem : Memory} {s t : State α}
    (h : (c.select mem s).result = .ok (.state t)) :
    ∃ tiles, (c.setup mem s).memory.tiles = some tiles ∧
      ∃ tile ∈ tiles, s.Selects tile.embedding.labels (some tile.embedding) t := by
  unfold select at h
  dsimp only at h
  split at h
  · cases h
  · rw [Step.result_after] at h
    unfold selectTile at h
    split at h
    · cases h
    · next number tile hupcoming =>
      have hmem := upcoming_mem hupcoming
      cases htiles : (c.setup mem s).memory.tiles with
      | none =>
        rw [htiles] at hmem
        exact absurd hmem List.not_mem_nil
      | some tiles =>
        rw [htiles] at hmem
        exact ⟨tiles, rfl, tile, hmem, State.selects_of_selectAtBest h⟩

theorem Constraint.selects {c : Constraint} {mem : Memory} {s t : State α}
    (h : (c.select mem s).result = .ok (.state t)) : ∃ labels, s.Selects labels none t := by
  unfold select at h
  dsimp only at h
  split at h
  · cases h
  · rw [Step.result_after] at h
    exact ⟨_, State.selects_of_selectAtBest h⟩

/-- The decomposer cuts its problem into tiles. -/
def Decomposer.isTiling (d : Decomposer α) : Prop :=
  match d.strategy with
  | .tiling .. => True
  | _ => False

/-- Every decomposer that is not a tiling selects the whole problem, or some variables without an
embedding. -/
theorem Decomposer.selects_of_not_isTiling [DecidableEq α] {d : Decomposer α} {s t : State α}
    (hd : ¬d.isTiling) (h : (d.select s).result = .ok (.state t)) :
    t = s.withSubproblem s.problem.model ∨ ∃ labels, s.Selects labels none t := by
  obtain ⟨strategy, observed⟩ := d
  cases strategy with
  | whole => exact Or.inl (Whole.eq_of_select h)
  | energyImpact settings memory => exact Or.inr (EnergyImpact.selects h)
  | randomSubset settings engine => exact Or.inr (RandomSubset.selects h)
  | tiling settings memory => exact absurd trivial hd
  | constraint settings memory => exact Or.inr (Constraint.selects h)

/-- Every strategy offers the problem or a model induced at the best sample. -/
theorem Decomposer.offers [DecidableEq α] {d : Decomposer α} {s s' : State α} {sample : Sample α}
    (hbest : s.bestSample = .ok sample) (h : (d.select s).result = .ok (.state s')) :
    s.Offers sample s' := by
  by_cases hd : d.isTiling
  · obtain ⟨strategy, observed⟩ := d
    cases strategy with
    | tiling settings memory =>
      obtain ⟨-, -, tile, -, hselects⟩ := Tiling.selects h
      exact hselects.offers hbest
    | _ => exact hd.elim
  · rcases d.selects_of_not_isTiling hd h with rfl | ⟨labels, hselects⟩
    · exact ⟨s.problem.model, none, rfl, Or.inl rfl⟩
    · exact hselects.offers hbest

/-! ### Energies -/

namespace Model

/-- On any values of its variables `sub` has the energy of the problem, all other variables being as
in the best sample, up to a constant. -/
def Recomposes (m : Model Rat) (best : Sample Rat) (sub : Model Rat) : Prop :=
  ∀ x : Sample Rat, (∀ v, (x.get? v).isSome ↔ v ∈ sub.labels) →
    ∃ e e₀ f f₀, m.energy (best.overwrite x) = .ok e ∧ m.energy best = .ok e₀ ∧
      sub.energy x = .ok f ∧ sub.energy (best.restrict sub.labels) = .ok f₀ ∧ e - e₀ = f - f₀

/-- It is enough that the polynomials differ by a constant while the other variables are fixed. -/
theorem recomposes_of_polynomial {m sub : Model Rat} {best : Sample Rat} (hm : m.WellFormed)
    (hsub : sub.WellFormed) (hbest : m.Assigned best)
    (hlabels : ∀ v ∈ sub.labels, v ∈ m.labels) (rest : Rat)
    (hpoly : ∀ y : Label → Rat, (∀ v, v ∉ sub.labels → y v = (best.get? v).getD 0) →
      m.polynomial y = sub.polynomial y + rest) : m.Recomposes best sub := by
  intro x hx
  have hsome : ∀ v ∈ m.labels, best.get? v = some ((best.get? v).getD 0) :=
    fun v hv => hbest.get?_eq 0 hv
  let y : Label → Rat := fun v => ((best.overwrite x).get? v).getD 0
  have hinside : ∀ v ∈ sub.labels, x.get? v = some (y v) := by
    intro v hv
    obtain ⟨b, hb⟩ := Option.isSome_iff_exists.1 ((hx v).2 hv)
    show x.get? v = some (((best.overwrite x).get? v).getD 0)
    rw [Sample.get?_overwrite, hb]
    rfl
  have houtside : ∀ v, v ∉ sub.labels → (best.overwrite x).get? v = best.get? v := by
    intro v hv
    have hnone : x.get? v = none := by
      rw [← Option.not_isSome_iff_eq_none]
      exact fun h => hv ((hx v).1 h)
    rw [Sample.get?_overwrite, hnone, Option.none_or]
  have hoverwritten : ∀ v ∈ m.labels, (best.overwrite x).get? v = some (y v) := by
    intro v hv
    by_cases hmem : v ∈ sub.labels
    · rw [Sample.get?_overwrite, hinside v hmem]
      rfl
    · show _ = some (((best.overwrite x).get? v).getD 0)
      rw [houtside v hmem]
      exact hsome v hv
  have hrestricted : ∀ v ∈ sub.labels,
      (best.restrict sub.labels).get? v = some ((best.get? v).getD 0) := by
    intro v hv
    rw [Sample.get?_restrict, if_pos hv]
    exact hsome v (hlabels v hv)
  refine ⟨_, _, _, _, energy_eq_polynomial hm hoverwritten, energy_eq_polynomial hm hsome,
    energy_eq_polynomial hsub hinside, energy_eq_polynomial hsub hrestricted, ?_⟩
  rw [hpoly y fun v hv => congrArg (Option.getD · 0) (houtside v hv), hpoly _ fun _ _ => rfl]
  ring

/-- An induced model recomposes its problem. -/
theorem recomposes_of_induced {m sub : Model Rat} {labels : List Label} {best : Sample Rat}
    (hm : m.WellFormed) (hbest : m.Assigned best)
    (h : m.induced labels best = .ok sub) :
    (∀ v ∈ sub.labels, v ∈ m.labels) ∧ m.Recomposes best sub := by
  obtain ⟨hne, hknown⟩ := of_induced_eq_ok h
  obtain ⟨sub', hok, hinherits⟩ := exists_induced hm hne hknown hbest
  obtain rfl : sub' = sub := Except.ok.inj (hok.symm.trans h)
  have hlabels : ∀ v ∈ sub'.labels, v ∈ m.labels := fun v hv =>
    hknown v ((hinherits.mem_labels_iff hknown).1 hv)
  have hsome : ∀ v ∈ m.labels, best.get? v = some ((best.get? v).getD 0) :=
    fun v hv => hbest.get?_eq 0 hv
  exact ⟨hlabels, recomposes_of_polynomial hm hinherits.wellFormed hbest hlabels _ fun y hy =>
    hinherits.polynomial_eq hm (nodup_distinct _) hsome hy⟩

end Model

/-- A decomposer, whatever it remembers, that yields a state at a best sample of all variables keeps
problem and samples, and its subproblem has variables of the problem and recomposes it. -/
theorem Decomposer.select_recomposes (d : Decomposer Rat) {s s' : State Rat} {best : Sample Rat}
    (hproblem : s.problem.model.Reachable) (hbest : s.bestSample = .ok best)
    (hall : ∀ v ∈ s.problem.model.labels, (best.get? v).isSome)
    (h : (d.select s).result = .ok (.state s')) :
    s'.problem = s.problem ∧ s'.samples = s.samples ∧
      ∃ sub, s'.subproblem = some sub ∧ (∀ v ∈ sub.labels, v ∈ s.problem.model.labels) ∧
        ∀ x : Sample Rat, (∀ v, (x.get? v).isSome ↔ v ∈ sub.labels) →
          ∃ e e₀ f f₀, s.problem.model.energy (best.overwrite x) = .ok e ∧
            s.problem.model.energy best = .ok e₀ ∧ sub.energy x = .ok f ∧
            sub.energy (best.restrict sub.labels) = .ok f₀ ∧ e - e₀ = f - f₀ := by
  have hm := hproblem.wellFormed
  obtain ⟨sub, embedding, rfl, hsub⟩ := offers hbest h
  refine ⟨rfl, rfl, sub, rfl, ?_⟩
  rcases hsub with rfl | ⟨labels, hinduced⟩
  · exact ⟨fun v hv => hv,
      Model.recomposes_of_polynomial hm hm hall (fun v hv => hv) 0 fun y _ => (add_zero _).symm⟩
  · exact Model.recomposes_of_induced hm hall hinduced

/-- Two of three variables in a path, selected breadth first. -/
theorem Decomposer.select_recomposes_path :
    let m : Model Rat := .ofEdits .binary
      [.setLinear (.number 0) (-1), .setQuadratic (.number 0) (.number 1) 3,
        .addQuadratic (.number 1) (.number 2) (-2)]
    let best : Sample Rat := ⟨[(.number 0, 1), (.number 1, 1), (.number 2, 1)], by decide⟩
    let s : State Rat :=
      { problem := ⟨0, m⟩, samples := ⟨.binary, [⟨best, 0⟩], by decide +kernel⟩ }
    let c : EnergyImpact Rat :=
      ⟨⟨2, by decide⟩, none, true, ⟨1, by decide +kernel⟩, true, .breadthFirst⟩
    let d : Decomposer Rat := ⟨.energyImpact c .fresh, true⟩
    let sub : Model Rat :=
      ⟨.binary, 0, [⟨.number 0, -1, 0, [(1, 3)]⟩, ⟨.number 1, -2, 1, [(0, 3)]⟩]⟩
    let x : Sample Rat := ⟨[(.number 0, 1), (.number 1, 0)], by decide⟩
    (d.select s).result = .ok (.state (s.withSubproblem sub)) ∧
      ∃ e e₀ f f₀, m.energy (best.overwrite x) = .ok e ∧ m.energy best = .ok e₀ ∧
        sub.energy x = .ok f ∧ sub.energy (best.restrict sub.labels) = .ok f₀ ∧
        e - e₀ = f - f₀ := by
  intro m best s c d sub x
  have hresult : (d.select s).result = .ok (.state (s.withSubproblem sub)) := by decide +kernel
  have hall : ∀ v ∈ s.problem.model.labels, (best.get? v).isSome := by decide +kernel
  obtain ⟨-, -, sub', hsub, -, h⟩ :=
    select_recomposes d ⟨.binary, _, rfl⟩ (by decide +kernel) hall hresult
  obtain rfl : sub = sub' := Option.some.inj hsub
  refine ⟨hresult, h x fun v => Sample.isSome_get?_iff.trans ?_⟩
  rfl

end QuboSplit
