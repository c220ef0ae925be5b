import QuboSplit.Proofs.Strategy.History
import QuboSplit.Proofs.Strategy.Rewind

/-!
# Calls that cannot rank

A call on a state without samples, or whose best sample lacks a variable of the problem, fails
before it changes anything. The ranking that is kept is no way around this: it was made for a
problem and a best sample like the remembered ones, so whoever gets it has every value
(`MadeFor.assigned`). Later calls give the replies that they would have given without the failed one
(`failed_ranking_leaves_no_trace`).
-/

namespace QuboSplit

variable {α : Type} [Scalar α]

/-- There are no samples, or the best one lacks a variable of the problem. -/
def State.Incomplete (s : State α) : Prop :=
  s.samples.entries = [] ∨
    ∃ best, s.bestSample = .ok best ∧ ∃ v ∈ s.problem.model.labels, best.get? v = none

theorem State.bestSample_eq_error {s : State α} (h : s.samples.entries = []) :
    s.bestSample = .error .emptySampleSet := by
  unfold bestSample SampleSet.changeVartype
  split
  · show (s.samples.first >>= fun entry => pure entry.sample) = _
    unfold SampleSet.first
    rw [h]
    rfl
  · rw [h]
    rfl

/-! ### Values that a kept ranking presupposes -/

theorem Problem.Alike.mem_labels_iff {p q : Problem α} (h : p.Alike q) (hp : p.model.WellFormed)
    (v : Label) : v ∈ p.model.labels ↔ v ∈ q.model.labels := by
  rcases h with rfl | hsame
  · exact Iff.rfl
  · exact Model.mem_labels_of_sameContent hp.labels_nodup hsame v

theorem Sample.Alike.get?_eq_none_iff {s t : Sample α} (h : s.Alike t) (v : Label) :
    s.get? v = none ↔ t.get? v = none := by
  rcases h with rfl | hagrees
  · exact Iff.rfl
  · exact (Sample.agrees_iff.1 hagrees v).eq_none_iff

namespace EnergyImpact

variable {c : EnergyImpact α} {mem : Memory α} {s : State α} {best : Sample α}
  {ranking : Ranking α} {states : List (State α)}

/-- A sample for which a ranking was made gives every variable a value. -/
theorem MadeFor.assigned {p : Problem α} (h : c.MadeFor states ranking p best) :
    p.model.Assigned best := by
  obtain ⟨t, -, ht, made, -, hproblem, hsample, hranking⟩ := h
  have hmade : t.problem.model.Assigned made := Model.assigned_of_ranking hranking
  intro v hv
  have hvalue := hmade v ((hproblem.mem_labels_iff ht v).2 hv)
  rw [Option.isSome_iff_ne_none] at hvalue ⊢
  exact mt (hsample.get?_eq_none_iff v).2 hvalue

variable [DecidableEq α]

/-- No ranking is found only if none can be made. -/
theorem Memory.ranking_eq_error {minGain : Option α} {p : Problem α} {fault : Fault}
    (h : mem.rankingFor minGain p best = .error fault) :
    p.model.ranking best minGain = .error fault := by
  unfold rankingFor at h
  split at h
  · split at h
    · cases h
    · exact h
  · exact h

/-- A best sample that lacks a variable cannot be ranked, whatever ranking is kept. -/
theorem Memory.Fits.refresh_eq_error [Scalar.LawfulEqual α] (h : mem.Fits c states)
    (hs : s.problem.model.WellFormed) (hbest : s.bestSample = .ok best) {v : Label}
    (hv : s.problem.model.missing? best = some v) :
    mem.refresh c.minGain s.problem best = .error (.missingValue v) := by
  rw [refresh_eq]
  cases hranking : mem.rankingFor c.minGain s.problem best with
  | ok ranking =>
    have hnone := Model.missing?_eq_none_iff.2 (h.rankingFor hs hbest hranking).assigned
    rw [hnone] at hv
    cases hv
  | error fault =>
    rw [← ranking_eq_error hranking, Model.ranking_eq_error hv]
    rfl

/-- A call that cannot rank fails and changes nothing. -/
theorem Memory.Fits.select_of_incomplete [Scalar.LawfulEqual α] (h : mem.Fits c states)
    (hp : s.problem.model.WellFormed) (hs : s.Incomplete) :
    (∃ fault, (c.select mem s).result = .error fault ∧
      (s.samples.entries = [] ∧ fault = .emptySampleSet ∧ fault.kind = .outOfRange ∨
        ∃ best v, s.bestSample = .ok best ∧ s.problem.model.missing? best = some v ∧
          fault = .missingValue v ∧ fault.kind = .invalidArgument)) ∧
      (c.select mem s).memory = mem := by
  rcases hs with hempty | ⟨best, hbest, v, hv, hnone⟩
  · rw [select_eq_of_bestSample_error (State.bestSample_eq_error hempty)]
    exact ⟨⟨_, rfl, .inl ⟨hempty, rfl, rfl⟩⟩, rfl⟩
  · have hlacks : s.problem.model.missing? best ≠ none := by
      intro hall
      have hsome := Model.missing?_eq_none_iff.1 hall v hv
      rw [hnone] at hsome
      cases hsome
    obtain ⟨u, hu⟩ := Option.ne_none_iff_exists'.1 hlacks
    rw [select_eq_of_refresh_error hbest (h.refresh_eq_error hp hbest hu)]
    exact ⟨⟨_, rfl, .inr ⟨best, u, hbest, hu, rfl, rfl⟩⟩, rfl⟩

/-! ### Replies with and without a failed call -/

theorem length_replies (c : EnergyImpact α) (mem : Memory α) (states : List (State α)) :
    (c.replies mem states).length = states.length := by
  induction states generalizing mem with
  | nil => rfl
  | cons s rest ih =>
    unfold replies
    rw [List.length_cons, List.length_cons, ih]

theorem replies_append (c : EnergyImpact α) (mem : Memory α) (states later : List (State α)) :
    c.replies mem (states ++ later) = c.replies mem states ++
      c.replies (states.foldl (fun mem s => (c.select mem s).memory) mem) later := by
  induction states generalizing mem with
  | nil => rfl
  | cons s rest ih =>
    show reply _ :: c.replies _ (rest ++ later) =
      (reply _ :: c.replies _ rest) ++ c.replies (rest.foldl _ _) later
    rw [ih, List.cons_append]

/-- A call on a state without samples, or with a best sample that lacks a variable, fails, names the
first such variable, and leaves what is remembered as it was; apart from its own reply no reply of a
run depends on it. -/
theorem failed_ranking_leaves_no_trace [Scalar.LawfulEqual α] (c : EnergyImpact α)
    {states : List (State α)} {s : State α} (hstates : ∀ t ∈ states, t.problem.model.Reachable)
    (hproblem : s.problem.model.Reachable) (hs : s.Incomplete) :
    let step := c.select (c.memoryAfter states) s
    (∃ fault, step.result = .error fault ∧
        (s.samples.entries = [] ∧ fault = .emptySampleSet ∧ fault.kind = .outOfRange ∨
          ∃ best v, s.bestSample = .ok best ∧ s.problem.model.missing? best = some v ∧
            fault = .missingValue v ∧ fault.kind = .invalidArgument)) ∧
      step.memory = c.memoryAfter states ∧
      ∀ later, (c.replies .fresh (states ++ s :: later)).eraseIdx states.length =
        c.replies .fresh (states ++ later) := by
  intro step
  have hfits := fits_memoryAfter c fun t ht => (hstates t ht).wellFormed
  obtain ⟨hfails, hmemory⟩ := hfits.select_of_incomplete hproblem.wellFormed hs
  refine ⟨hfails, hmemory, fun later => ?_⟩
  have hlength := c.length_replies .fresh states
  rw [replies_append, List.eraseIdx_append_of_length_le hlength.le, hlength, Nat.sub_self,
    replies_append]
  show _ ++ c.replies step.memory later = _
  rw [hmemory]
  rfl

/-! ### A sample of one variable -/

/-- One of two variables, with an energy. -/
def oneZero : Entry Binary64 := ⟨.ofList [(.number 0, .ofInt 0)], .ofInt 0⟩

theorem oneZero_admitted : ∀ e ∈ [oneZero], e.foreign? .binary = none := by decide +kernel

/-- After a call with a best sample of both variables the same problem comes with one that lacks the
second. -/
theorem failed_ranking_leaves_no_trace_tied :
    let first := tied 0 (.number 0) (.number 1)
    let bad := first.withSamples ⟨.binary, [oneZero], oneZero_admitted⟩
    (single.select (single.memoryAfter [first]) bad).result =
        .error (.missingValue (.number 1)) ∧
      (single.replies .fresh [first, bad, first]).eraseIdx 1 =
        single.replies .fresh [first, first] := by
  intro first bad
  have hstates : ∀ t ∈ [first], t.problem.model.Reachable :=
    List.forall_mem_singleton.2 (tied_reachable ..)
  have hbest : bad.bestSample = .ok oneZero.sample := by decide +kernel
  have hincomplete : bad.Incomplete :=
    Or.inr ⟨_, hbest, .number 1, by decide +kernel, by decide +kernel⟩
  obtain ⟨⟨fault, hfault, hwhy⟩, -, hlater⟩ :=
    failed_ranking_leaves_no_trace (s := bad) single hstates (tied_reachable ..) hincomplete
  refine ⟨?_, hlater [first]⟩
  rcases hwhy with ⟨hempty, -⟩ | ⟨best, v, hbest', hv, rfl, -⟩
  · exact absurd hempty (List.cons_ne_nil _ _)
  · obtain rfl := Except.ok.inj (hbest.symm.trans hbest')
    have hfirst : bad.problem.model.missing? oneZero.sample = some (.number 1) := by decide +kernel
    rw [hfault, Option.some.inj (hv.symm.trans hfirst)]

end EnergyImpact

end QuboSplit
