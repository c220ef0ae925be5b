import QuboSplit.Proofs.Model.Gain
import QuboSplit.Proofs.Strategy.Cache

/-!
# The ranking in use is current

In exact arithmetic gains depend on the contents of problem and sample only, so a ranking that was
made for a problem and a sample like those at hand lists their gains (`MadeFor.lists`). Whatever
calls came before, every call therefore passes the traversal its own gains
(`passed_lists_current_gains`).
-/

namespace QuboSplit.EnergyImpact

/-- In exact arithmetic a ranking lists the gains of any problem and sample like those for which it
was made. -/
theorem MadeFor.lists {c : EnergyImpact Rat} {states : List (State Rat)} {ranking : Ranking Rat}
    {p : Problem Rat} {best : Sample Rat} (h : c.MadeFor states ranking p best)
    (hp : p.model.WellFormed) :
    (∀ v ∈ p.model.labels, ∃ g, p.model.flipGain best v = .ok g) ∧
      (∀ v g, (v, g) ∈ ranking ↔
        p.model.flipGain best v = .ok g ∧ ∀ least, c.minGain = some least → least ≤ g) ∧
      (ranking.map Prod.fst).Nodup ∧ (ranking.map Prod.snd).Pairwise (· ≥ ·) := by
  obtain ⟨t, -, ht, made, -, hproblem, hsample, hranking⟩ := h
  have hmatches : t.problem.model.Matches p.model := by
    rcases hproblem with rfl | hsame
    · exact Model.matches_refl _
    · exact (Model.sameContent_iff ht hp).1 hsame
  have hvalue : ∀ v, made.get? v = best.get? v := by
    rcases hsample with rfl | hagrees
    · exact fun _ => rfl
    · exact fun v => Scalar.equals_rat_iff.1 (Sample.agrees_iff.1 hagrees v)
  have hgain : ∀ v g, t.problem.model.flipGain made v = .ok g ↔
      p.model.flipGain best v = .ok g := fun v g => Model.flipGain_congr ht hp hmatches hvalue
  refine ⟨fun v hv => ?_, fun v g => ?_, (Model.ranks_of_ranking ht.labels_nodup hranking).nodup,
    Model.ranking_sorted hranking⟩
  · exact ⟨_, (hgain v _).1 ((Model.flipGain_eq_ok_iff ht).2
      ⟨Model.assigned_of_ranking hranking, (hmatches.mem_labels_iff v).2 hv, rfl⟩)⟩
  · rw [Model.mem_ranking_iff ht.labels_nodup hranking, hgain, Model.keepsGain_iff]

/-- After any calls, one that passes a ranking to the traversal passes exactly the variables of its
own problem that have at least the least gain under its own best sample, each once and with that
gain, by non-increasing gain. Any other call fails or ends the stream. -/
theorem passed_lists_current_gains (c : EnergyImpact Rat) {states : List (State Rat)}
    {s : State Rat} (hstates : ∀ t ∈ states, t.problem.model.Reachable)
    (hproblem : s.problem.model.Reachable) :
    let mem := c.memoryAfter states
    (c.passed mem s = none → (c.select mem s).result = .ok .endOfStream ∨
        ∃ fault, (c.select mem s).result = .error fault) ∧
      ∀ ranking, c.passed mem s = some ranking → ∃ best visited, s.bestSample = .ok best ∧
        (c.select mem s).result = (do
          let labels ← s.problem.model.traverse c.traversal ranking visited (c.room s)
          let t ← s.select labels best
          return .state t) ∧
        (∀ v ∈ s.problem.model.labels, ∃ g, s.problem.model.flipGain best v = .ok g) ∧
        (∀ v g, (v, g) ∈ ranking ↔ s.problem.model.flipGain best v = .ok g ∧
          ∀ least, c.minGain = some least → least ≤ g) ∧
        (ranking.map Prod.fst).Nodup ∧ (ranking.map Prod.snd).Pairwise (· ≥ ·) := by
  intro mem
  refine ⟨select_of_passed_eq_none, fun ranking hpassed => ?_⟩
  obtain ⟨best, visited, hbest, hranking, -, hresult⟩ := select_of_passed_eq_some hpassed
  have hfits := fits_memoryAfter c fun t ht => (hstates t ht).wellFormed
  have hmade := hfits.rankingFor hproblem.wellFormed hbest hranking
  exact ⟨best, visited, hbest, hresult, hmade.lists hproblem.wellFormed⟩

/-- Two variables at zero, with their energy. -/
def exactZeros : Entry Rat := ⟨.ofList [(.number 0, 0), (.number 1, 0)], 0⟩

theorem exactZeros_admitted : ∀ e ∈ [exactZeros], e.foreign? .binary = none := by decide +kernel

/-- The variables with linear biases, stored in the given order. -/
def twoInOrder (handle : Nat) (u v : Label × Rat) : State Rat where
  problem := ⟨handle, .ofEdits .binary [.setLinear u.1 u.2, .setLinear v.1 v.2]⟩
  samples := ⟨.binary, [exactZeros], exactZeros_admitted⟩

theorem exactShare_inRange :
    (Scalar.atMost (Scalar.ofInt 0) (0 : Rat) && Scalar.atMost (0 : Rat) (Scalar.ofInt 1)) =
      true := by
  decide +kernel

/-- One variable at a time, without rolling. -/
def oneWithoutRolling : EnergyImpact Rat :=
  ⟨⟨1, Nat.one_pos⟩, none, false, ⟨0, exactShare_inRange⟩, true, .energy⟩

/-- The ranking made for a problem is passed on for one that stores its variables the other way
round. -/
theorem passed_lists_current_gains_reordered :
    let states := [twoInOrder 0 (.number 0, -1) (.number 1, 1)]
    let s := twoInOrder 1 (.number 1, 1) (.number 0, -1)
    let ranking : Ranking Rat := [(.number 0, 1), (.number 1, -1)]
    oneWithoutRolling.passed (oneWithoutRolling.memoryAfter states) s = some ranking ∧
      ∃ best, s.bestSample = .ok best ∧ ∀ v g, (v, g) ∈ ranking ↔
        s.problem.model.flipGain best v = .ok g ∧
          ∀ least, oneWithoutRolling.minGain = some least → least ≤ g := by
  intro states s ranking
  have hpassed : oneWithoutRolling.passed (oneWithoutRolling.memoryAfter states) s =
      some ranking := by
    decide +kernel
  have hstates : ∀ t ∈ states, t.problem.model.Reachable :=
    List.forall_mem_singleton.2 ⟨.binary, _, rfl⟩
  obtain ⟨-, hcurrent⟩ :=
    passed_lists_current_gains oneWithoutRolling hstates (s := s) ⟨.binary, _, rfl⟩
  obtain ⟨best, -, hbest, -, -, hlists, -⟩ := hcurrent ranking hpassed
  exact ⟨hpassed, best, hbest, hlists⟩

end QuboSplit.EnergyImpact
