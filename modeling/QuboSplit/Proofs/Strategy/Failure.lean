import QuboSplit.Proofs.Strategy.EnergyImpact

/-!
# When rolling selects nothing

The history is a share of all variables, but with a least gain the ranking may list fewer. Once all
of these are exposed while the history is not reached, a selection finds nothing and fails. A
rolling strategy fails in no other way, and without a least gain it always has a variable left
(`exists_ranked_not_exposed`).
-/

namespace QuboSplit

open Scalar (atMost ofInt)

namespace EnergyImpact

/-- The memories that selections on states of constructed problems can leave behind. -/
inductive Reachable {α : Type} [Scalar α] [DecidableEq α] (c : EnergyImpact α) : Memory α → Prop
  | fresh : Reachable c .fresh
  | select {mem : Memory α} (s : State α) (h : Reachable c mem)
      (hproblem : s.problem.model.Reachable) : Reachable c (c.select mem s).memory

variable {α : Type} [Scalar α] [DecidableEq α] {c : EnergyImpact α} {mem : Memory α}

theorem Reachable.sound (h : c.Reachable mem) : mem.Sound c.minGain := by
  induction h with
  | fresh => exact Memory.sound_fresh c.minGain
  | select s _ hproblem ih => exact sound_select hproblem.wellFormed ih

/-- What is exposed when a selection on the problem begins: nothing if the problem is a new one. -/
def Memory.rolled (mem : Memory α) (p : Problem α) : Rolling :=
  if mem.sameProblem p then mem.unrolled else .fresh

/-- The ranking in use: the one that is kept if it was made for the same problem and sample, else
their gains. -/
def Memory.inUse (mem : Memory α) (p : Problem α) (best : Sample α) (gains : Ranking α) :
    Ranking α :=
  if mem.sameProblem p && mem.sameSample best then mem.ranking.getD gains else gains

theorem Memory.rankingFor_eq {minGain : Option α} {p : Problem α} {best : Sample α}
    {gains : Ranking α} (hgains : p.model.ranking best minGain = .ok gains) :
    mem.rankingFor minGain p best = .ok (mem.inUse p best gains) := by
  unfold rankingFor inUse
  rw [hgains]
  cases hkept : mem.ranking with
  | none =>
    rw [Option.getD_none, ite_self]
  | some kept =>
    dsimp only [Option.getD_some]
    split <;> rfl

/-- Without a least gain a variable is left unless a rewind is due. -/
theorem exists_ranked_not_exposed {c : EnergyImpact Binary64} {mem : Memory Binary64}
    {p : Problem Binary64} (hgain : c.minGain = none) (hp : p.model.WellFormed)
    (hpos : 0 < p.model.size) (hlt : p.model.size < 2 ^ 64) (hmem : mem.Rolls c.minGain p) :
    ∃ v ∈ mem.ranked,
      v ∉ if mem.unrolled.exhausted c.history p.model.size then [] else mem.unrolled.visited := by
  by_contra hnone
  push Not at hnone
  -- if all variables were exposed the history would be reached
  have hsub : p.model.labels.Subperm
      (if mem.unrolled.exhausted c.history p.model.size then [] else mem.unrolled.visited) :=
    List.subperm_of_subset hp.labels_nodup fun v hv =>
      hnone v (hmem.covers.mem_ranked hgain v hv)
  have hlength := hsub.length_le
  rw [Model.length_labels] at hlength
  split at hlength
  · rw [List.length_nil] at hlength
    omega
  · next hexhausted =>
    exact hexhausted
      (Rolling.exhausted_of_size_eq hpos hlt (Nat.le_antisymm hmem.covers.length_le hlength))

/-- A rolling strategy that selects on a state with a best sample of all variables, some of which
have the gain asked for, fails only with an empty selection. That happens exactly if no loud rewind
is due and every variable of the ranking in use has been exposed since the last rewind. It never
happens without a least gain. -/
theorem select_fails_iff {c : EnergyImpact Binary64} {mem : Memory Binary64} {s : State Binary64}
    {best : Sample Binary64} {gains : Ranking Binary64} (hrolling : c.rolling = true)
    (hmem : c.Reachable mem) (hproblem : s.problem.model.Reachable)
    (hbest : s.bestSample = .ok best)
    (hall : ∀ v ∈ s.problem.model.labels, (best.get? v).isSome)
    (hgains : s.problem.model.ranking best c.minGain = .ok gains) (hne : gains ≠ []) :
    let rolled := mem.rolled s.problem
    let rewinds := rolled.exhausted c.history s.problem.model.size
    let exposed := if rewinds then [] else rolled.visited
    let ranking := mem.inUse s.problem best gains
    let result := (c.select mem s).result
    (result = .ok .endOfStream ↔ rewinds = true ∧ c.silentRewind = false) ∧
      (result = .error .noSelection ↔
        ¬(rewinds = true ∧ c.silentRewind = false) ∧ ∀ v ∈ ranking.map Prod.fst, v ∈ exposed) ∧
      (∀ fault, result = .error fault → fault = .noSelection) ∧
      (c.minGain = none → s.problem.model.size < 2 ^ 64 → ∃ selection, result = .ok selection) := by
  intro rolled rewinds exposed ranking result
  have hp := hproblem.wellFormed
  obtain ⟨ready, hready⟩ := mem.exists_refresh c.minGain hall
  obtain ⟨hrolls, -, hunrolled⟩ := hmem.sound.refreshed hp hready
  have hready' := mem.refresh_eq c.minGain s.problem best
  rw [Memory.rankingFor_eq hgains, hready] at hready'
  obtain rfl : ready = mem.withRanking s.problem best ranking := Except.ok.inj hready'
  have hpos : 0 < s.problem.model.size := by
    rw [← Model.length_labels]
    obtain ⟨entry, hentry⟩ := List.exists_mem_of_ne_nil gains hne
    exact List.length_pos_of_mem
      ((Model.ranks_of_ranking hp.labels_nodup hgains).known _ (List.mem_map_of_mem hentry))
  have hresult : result = (c.advance (mem.withRanking s.problem best ranking) s best).result := by
    show (c.select mem s).result = _
    rw [select_eq hbest hready, Step.result_after]
  have houtcome := advance_result hrolling hp hall hpos hrolls
  rw [hunrolled, ← hresult] at houtcome
  rcases houtcome with ⟨hrewinds, hloud, hend⟩ | ⟨hquiet, ⟨hspent, hfails⟩ | ⟨hleft, sub, hstate⟩⟩
  · rw [hend]
    exact ⟨⟨fun _ => ⟨hrewinds, hloud⟩, fun _ => rfl⟩,
      ⟨nofun, fun h => absurd ⟨hrewinds, hloud⟩ h.1⟩, nofun, fun _ _ => ⟨_, rfl⟩⟩
  · rw [hfails]
    refine ⟨⟨nofun, fun h => absurd h hquiet⟩, ⟨fun _ => ⟨hquiet, hspent⟩, fun _ => rfl⟩, ?_, ?_⟩
    · intro fault h
      cases h
      rfl
    · intro hgain hlt
      obtain ⟨v, hv, hnot⟩ := exists_ranked_not_exposed hgain hp hpos hlt hrolls
      rw [hunrolled] at hnot
      exact absurd (hspent v hv) hnot
  · rw [hstate]
    refine ⟨⟨nofun, fun h => absurd h hquiet⟩, ⟨nofun, ?_⟩, nofun, fun _ _ => ⟨_, rfl⟩⟩
    rintro ⟨-, hspent⟩
    obtain ⟨v, hv, hnot⟩ := hleft
    exact absurd (hspent v hv) hnot

/-- Two variables at zero. -/
def zeros : Sample Binary64 := ⟨[(.number 0, ofInt 0), (.number 1, ofInt 0)], by decide⟩

/-- A problem in which only the flip of the first variable has a gain of at least zero. -/
def pair : State Binary64 where
  problem := ⟨0, .ofEdits .binary
    [.setLinear (.number 0) (ofInt (-1)), .setLinear (.number 1) (ofInt 1)]⟩
  samples := ⟨.binary, [⟨zeros, ofInt 0⟩], by decide +kernel⟩

theorem whole_inRange :
    (atMost (ofInt 0) (ofInt 1 : Binary64) && atMost (ofInt 1 : Binary64) (ofInt 1)) = true := by
  decide +kernel

/-- One variable at a time, with a gain of at least zero, until all variables are exposed. -/
def oneByOne : EnergyImpact Binary64 :=
  ⟨⟨1, Nat.one_pos⟩, some (ofInt 0), true, ⟨ofInt 1, whole_inRange⟩, false, .energy⟩

/-- The second selection on the pair finds nothing. -/
theorem select_fails_iff_pair :
    (oneByOne.select (oneByOne.select .fresh pair).memory pair).result = .error .noSelection := by
  have hmem : oneByOne.Reachable (oneByOne.select .fresh pair).memory :=
    .select pair .fresh ⟨.binary, _, rfl⟩
  have hbest : pair.bestSample = .ok zeros := by decide +kernel
  have hgains : pair.problem.model.ranking zeros oneByOne.minGain = .ok [(.number 0, ofInt 1)] := by
    decide +kernel
  obtain ⟨-, hfails, -⟩ :=
    select_fails_iff rfl hmem ⟨.binary, _, rfl⟩ hbest (by decide +kernel) hgains (by simp)
  refine hfails.2 ⟨?_, ?_⟩
  · decide +kernel
  · decide +kernel

/-- A rolling strategy with a least gain can come to a point where it selects nothing and fails,
although some variable has that gain. -/
theorem not_always_selects : ¬ ∀ (c : EnergyImpact Binary64) (mem : Memory Binary64)
    (s : State Binary64) (best : Sample Binary64) (gains : Ranking Binary64),
    c.rolling = true → c.Reachable mem → s.problem.model.Reachable → s.bestSample = .ok best →
    (∀ v ∈ s.problem.model.labels, (best.get? v).isSome) →
    s.problem.model.ranking best c.minGain = .ok gains → gains ≠ [] →
    ∃ selection, (c.select mem s).result = .ok selection := by
  intro h
  obtain ⟨selection, hselection⟩ := h oneByOne (oneByOne.select .fresh pair).memory pair zeros
    [(.number 0, ofInt 1)] rfl (.select pair .fresh ⟨.binary, _, rfl⟩) ⟨.binary, _, rfl⟩
    (by decide +kernel) (by decide +kernel) (by decide +kernel) (by simp)
  have hfails : (oneByOne.select (oneByOne.select .fresh pair).memory pair).result =
      .error .noSelection := by
    decide +kernel
  rw [hfails] at hselection
  cases hselection

end EnergyImpact

end QuboSplit
