import QuboSplit.Proofs.Reachable

/-!
# Embeddings along a chain of selections

Decomposers may take turns on a state, each with the state that the one before it yielded. Only a
tiling gives an embedding, and that embeds the subproblem it came with (`select_tiling`). The others
replace the subproblem alone (`select_other`), so after them a state has the embedding of the last
tiling still (`Chain.embeds_last_tiling`), which need not embed its present subproblem.
-/

namespace QuboSplit

variable {α : Type} [Scalar α]

namespace Decomposer

/-- If the decomposer is a tiling, no tile that it knows names a variable twice. -/
def Distinct (d : Decomposer α) : Prop :=
  match d.strategy with
  | .tiling _ memory => memory.Distinct
  | _ => True

theorem Sound.distinct {d : Decomposer α} (h : d.Sound) : d.Distinct := by
  obtain ⟨strategy, observed⟩ := d
  cases strategy with
  | tiling settings memory => exact h
  | _ => trivial

variable [DecidableEq α]

/-! ### One selection -/

variable {d : Decomposer α} {s t : State α}

/-- What a tiling yields has an embedding, of exactly the variables of the subproblem. -/
theorem select_tiling (htiling : d.isTiling) (hd : d.Distinct)
    (hproblem : s.problem.model.WellFormed) (h : (d.select s).result = .ok (.state t)) :
    t.problem = s.problem ∧ ∃ e sub, t.embedding = some e ∧ t.subproblem = some sub ∧
      e.labels.Nodup ∧ sub.labels = e.labels := by
  obtain ⟨strategy, observed⟩ := d
  cases strategy with
  | tiling settings memory =>
    obtain ⟨tiles, htiles, tile, htile, hselects⟩ := Tiling.selects h
    have hnodup : tile.embedding.labels.Nodup :=
      Tiling.distinct_setup hd hproblem tiles htiles tile htile
    obtain ⟨sub, rfl, hlabels⟩ := hselects.exists_subproblem
    exact ⟨rfl, tile.embedding, sub, rfl, rfl, hnodup, hlabels hproblem hnodup⟩
  | _ => exact htiling.elim

/-- What any other decomposer yields has the embedding that was there. -/
theorem select_other (htiling : ¬d.isTiling) (h : (d.select s).result = .ok (.state t)) :
    t.problem = s.problem ∧ t.embedding = s.embedding := by
  rcases d.selects_of_not_isTiling htiling h with rfl | ⟨labels, hselects⟩
  · exact ⟨rfl, rfl⟩
  · obtain ⟨sub, rfl, -⟩ := hselects.exists_subproblem
    exact ⟨rfl, rfl⟩

end Decomposer

/-! ### Chains -/

variable [DecidableEq α]

/-- Selections on states each of which the one before yielded, from `s₀` to `s`: the decomposers in
order, with the states that they yielded. -/
inductive Chain (s₀ : State α) : List (Decomposer α × State α) → State α → Prop
  | nil : Chain s₀ [] s₀
  | snoc {steps : List (Decomposer α × State α)} {s t : State α} {d : Decomposer α}
      (h : Chain s₀ steps s) (hd : d.Reachable) (hresult : (d.select s).result = .ok (.state t)) :
      Chain s₀ (steps ++ [(d, t)]) t

theorem Chain.problem_eq {s₀ s : State α} {steps : List (Decomposer α × State α)}
    (h : Chain s₀ steps s) (hproblem : s₀.problem.model.WellFormed) :
    s.problem = s₀.problem := by
  induction h with
  | nil => rfl
  | @snoc steps s t d h hd hresult ih =>
    by_cases htiling : d.isTiling
    · have hs : s.problem.model.WellFormed := ih ▸ hproblem
      exact (Decomposer.select_tiling htiling hd.sound.distinct hs hresult).1.trans ih
    · exact (Decomposer.select_other htiling hresult).1.trans ih

/-- A state that a chain reaches from one without embedding has an embedding only if a tiling took
part. It is then the one that the last tiling gave, and its variables are different and exactly
those of the subproblem which that tiling yielded: the present one if no other decomposer
followed. -/
theorem Chain.embeds_last_tiling {s₀ s : State α} {steps : List (Decomposer α × State α)}
    (h : Chain s₀ steps s) (hproblem : s₀.problem.model.Reachable) (hnone : s₀.embedding = none)
    {e : Embedding} (he : s.embedding = some e) :
    e.labels.Nodup ∧ ∃ before d t after sub, steps = before ++ (d, t) :: after ∧ d.isTiling ∧
      (∀ x ∈ after, ¬x.1.isTiling) ∧ (after = [] → t = s) ∧ t.embedding = some e ∧
      t.subproblem = some sub ∧ sub.labels = e.labels := by
  induction h with
  | nil =>
    rw [hnone] at he
    cases he
  | @snoc steps s t d h hd hresult ih =>
    by_cases htiling : d.isTiling
    · have hs : s.problem.model.WellFormed :=
        h.problem_eq hproblem.wellFormed ▸ hproblem.wellFormed
      obtain ⟨-, e', sub, he', hsub, hnodup, hlabels⟩ :=
        Decomposer.select_tiling htiling hd.sound.distinct hs hresult
      obtain rfl : e' = e := Option.some.inj (he'.symm.trans he)
      exact ⟨hnodup, steps, d, t, [], sub, rfl, htiling, by simp, fun _ => rfl, he, hsub, hlabels⟩
    · rw [(Decomposer.select_other htiling hresult).2] at he
      obtain ⟨hnodup, before, d', t', after, sub, rfl, hd', hafter, -, he', hsub, hlabels⟩ := ih he
      refine ⟨hnodup, before, d', t', after ++ [(d, t)], sub, by simp, hd', ?_, by simp, he', hsub,
        hlabels⟩
      intro x hx
      rcases List.mem_append.1 hx with hx | hx
      · exact hafter x hx
      · obtain rfl := List.mem_singleton.1 hx
        exact htiling

/-! ### An embedding of another subproblem -/

/-- Two variables at zero, with their energy. -/
def cellZeros : Entry Binary64 :=
  ⟨.ofList [(.number 0, .ofInt 0), (.number 2, .ofInt 0)], .ofInt 0⟩

theorem cellZeros_admitted : ∀ e ∈ [cellZeros], e.foreign? .binary = none := by decide +kernel

/-- The variables are in different cells of a lattice of two. -/
def twoCells : State Binary64 where
  problem := ⟨0, .ofEdits .binary
    [.setLinear (.number 0) (.ofInt (-1)), .setLinear (.number 2) (.ofInt 1)]⟩
  samples := ⟨.binary, [cellZeros], cellZeros_admitted⟩

/-- A tiling of that lattice by single cells. -/
def cellTiling : Decomposer Binary64 where
  strategy := .tiling (cellTiles false) .fresh

/-- The two variables with the one in the first cell selected and embedded. -/
def firstCell : State Binary64 :=
  twoCells.withSubproblem ⟨.binary, .ofInt 0, [.isolated (.number 0) (.ofInt (-1))]⟩
    (some [(0, .number 0)])

/-- Then both variables are selected. -/
def bothCells : State Binary64 := firstCell.withSubproblem twoCells.problem.model

theorem chain_bothCells :
    Chain twoCells [(cellTiling, firstCell), (⟨.whole, true⟩, bothCells)] bothCells := by
  have hfirst : (cellTiling.select twoCells).result = .ok (.state firstCell) := by decide +kernel
  have hfresh : cellTiling.Reachable := .fresh rfl
  exact .snoc (.snoc .nil hfresh hfirst) (.fresh trivial) rfl

theorem Chain.embeds_last_tiling_cells :
    bothCells.embedding = some [(0, .number 0)] ∧
      ∃ before d t after sub,
        [(cellTiling, firstCell), (⟨.whole, true⟩, bothCells)] = before ++ (d, t) :: after ∧
        d.isTiling ∧ (∀ x ∈ after, ¬x.1.isTiling) ∧ t.subproblem = some sub ∧
        sub.labels = [.number 0] := by
  have he : bothCells.embedding = some [(0, .number 0)] := rfl
  obtain ⟨-, before, d, t, after, sub, hsteps, hd, hafter, -, -, hsub, hlabels⟩ :=
    embeds_last_tiling chain_bothCells ⟨.binary, _, rfl⟩ rfl he
  exact ⟨he, before, d, t, after, sub, hsteps, hd, hafter, hsub, hlabels⟩

/-- After the tiling and another decomposer the state has an embedding of the first cell and a
subproblem of both. -/
theorem not_embeds_present_subproblem : ¬ ∀ (s₀ s : State Binary64)
    (steps : List (Decomposer Binary64 × State Binary64)) (e : Embedding) (sub : Model Binary64),
    Chain s₀ steps s → s₀.problem.model.Reachable → s₀.embedding = none →
    s.embedding = some e → s.subproblem = some sub →
    e.labels.Nodup ∧ ∀ v, v ∈ e.labels ↔ v ∈ sub.labels := by
  intro h
  obtain ⟨-, hiff⟩ := h twoCells bothCells _ [(0, .number 0)] twoCells.problem.model
    chain_bothCells ⟨.binary, _, rfl⟩ rfl rfl rfl
  have hmem : Label.number 2 ∈ Embedding.labels [(0, .number 0)] :=
    (hiff (.number 2)).2 (by decide +kernel)
  exact absurd hmem (by decide)

end QuboSplit
