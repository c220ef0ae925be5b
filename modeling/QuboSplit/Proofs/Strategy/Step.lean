import Mathlib.Tactic
import QuboSplit.Decomposer
import QuboSplit.Proofs.Model.Induced

/-!
# What a selection yields

A strategy that yields a state yields the given one with a new subproblem, and that is the problem
itself or a model induced at the best sample.
-/

namespace QuboSplit

/-! ### Parts of a step -/

namespace Step

variable {μ ρ : Type}

@[simp] theorem result_after (earlier : List Event) (step : Step μ ρ) :
    (step.after earlier).result = step.result := rfl

@[simp] theorem memory_after (earlier : List Event) (step : Step μ ρ) :
    (step.after earlier).memory = step.memory := rfl

end Step

variable {α : Type} [Scalar α]

namespace State

theorem of_select_eq_ok {s s' : State α} {labels : List Label} {sample : Sample α}
    {embedding : Option Embedding} (h : s.select labels sample embedding = .ok s') :
    ∃ sub, s.problem.model.induced labels sample = .ok sub ∧
      s' = s.withSubproblem sub embedding := by
  obtain ⟨sub, hsub, h⟩ := exists_of_bind_eq_ok h
  cases h
  exact ⟨sub, hsub, rfl⟩

/-- The state `s'` is `s` with the problem itself as its subproblem, or with a model induced at the
sample. -/
def Offers (s : State α) (sample : Sample α) (s' : State α) : Prop :=
  ∃ sub embedding, s' = s.withSubproblem sub embedding ∧
    (sub = s.problem.model ∨ ∃ labels, s.problem.model.induced labels sample = .ok sub)

theorem offers_of_select {s s' : State α} {labels : List Label} {sample : Sample α}
    {embedding : Option Embedding} (h : s.select labels sample embedding = .ok s') :
    s.Offers sample s' := by
  obtain ⟨sub, hsub, rfl⟩ := of_select_eq_ok h
  exact ⟨sub, embedding, rfl, Or.inr ⟨labels, hsub⟩⟩

/-- The state `t` is `s` with a subproblem induced by these variables at the best sample. -/
def Selects (s : State α) (labels : List Label) (embedding : Option Embedding) (t : State α) :
    Prop :=
  ∃ best, s.bestSample = .ok best ∧ s.select labels best embedding = .ok t

theorem selects_of_selectAtBest {s t : State α} {labels : List Label}
    {embedding : Option Embedding} (h : s.selectAtBest labels embedding = .ok (.state t)) :
    s.Selects labels embedding t := by
  obtain ⟨best, hbest, h⟩ := exists_of_bind_eq_ok h
  obtain ⟨t', hselect, h⟩ := exists_of_bind_eq_ok h
  cases h
  exact ⟨best, hbest, hselect⟩

theorem Selects.offers {s t : State α} {labels : List Label} {embedding : Option Embedding}
    {sample : Sample α} (h : s.Selects labels embedding t) (hbest : s.bestSample = .ok sample) :
    s.Offers sample t := by
  obtain ⟨best, hbest', hselect⟩ := h
  obtain rfl : best = sample := Except.ok.inj (hbest'.symm.trans hbest)
  exact offers_of_select hselect

/-- Without repeats the variables of the subproblem are the ones that were selected. -/
theorem Selects.exists_subproblem {s t : State α} {labels : List Label}
    {embedding : Option Embedding} (h : s.Selects labels embedding t) :
    ∃ sub, t = s.withSubproblem sub embedding ∧
      (s.problem.model.WellFormed → labels.Nodup → sub.labels = labels) := by
  obtain ⟨best, -, hselect⟩ := h
  obtain ⟨sub, hsub, rfl⟩ := of_select_eq_ok hselect
  refine ⟨sub, rfl, fun hp hnodup => ?_⟩
  exact (Model.inherits_of_induced_eq_ok hp hsub).labels_eq_selection
    (Model.of_induced_eq_ok hsub).2 hnodup

/-- Selecting variables fails without any, and else induces a model of just these. -/
theorem select_labels {s : State α} {sample : Sample α} (hp : s.problem.model.WellFormed)
    (hs : s.problem.model.Assigned sample) {labels : List Label} (hnodup : labels.Nodup)
    (hknown : ∀ v ∈ labels, v ∈ s.problem.model.labels) (embedding : Option Embedding := none) :
    (labels = [] → s.select labels sample embedding = .error .noSelection) ∧
      (labels ≠ [] → ∃ sub, sub.labels = labels ∧
        s.select labels sample embedding = .ok (s.withSubproblem sub embedding)) := by
  constructor
  · rintro rfl
    rfl
  · intro hne
    obtain ⟨sub, hsub, hinherits⟩ := Model.exists_induced hp hne hknown hs
    refine ⟨sub, hinherits.labels_eq_selection hknown hnodup, ?_⟩
    unfold select
    rw [hsub]
    rfl

theorem selectAtBest_of_induced {s : State α} {best : Sample α} (hbest : s.bestSample = .ok best)
    {labels : List Label} {sub : Model α} (hsub : s.problem.model.induced labels best = .ok sub)
    (embedding : Option Embedding) :
    s.selectAtBest labels embedding = .ok (.state (s.withSubproblem sub embedding)) := by
  unfold selectAtBest select
  rw [hbest]
  dsimp only [bind, Except.bind]
  rw [hsub]
  rfl

/-- At a best sample of all variables a selection of some of them succeeds. -/
theorem exists_selectAtBest {s : State α} {best : Sample α} (hp : s.problem.model.WellFormed)
    (hbest : s.bestSample = .ok best) (hs : s.problem.model.Assigned best) {labels : List Label}
    (hne : labels ≠ []) (hnodup : labels.Nodup) (hknown : ∀ v ∈ labels, v ∈ s.problem.model.labels)
    (embedding : Option Embedding) :
    ∃ sub, sub.labels = labels ∧
      s.selectAtBest labels embedding = .ok (.state (s.withSubproblem sub embedding)) := by
  obtain ⟨sub, hlabels, hselect⟩ := (select_labels hp hs hnodup hknown embedding).2 hne
  refine ⟨sub, hlabels, ?_⟩
  unfold selectAtBest
  rw [hbest]
  show (s.select labels best embedding >>= fun t => .ok (Selection.state t)) = _
  rw [hselect]
  rfl

end State

end QuboSplit
