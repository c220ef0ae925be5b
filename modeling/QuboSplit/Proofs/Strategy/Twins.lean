import QuboSplit.Proofs.Strategy.Exposure
import QuboSplit.Proofs.Strategy.Unranked

/-!
# Shared problems and copies

A problem may come again as the same object or as a copy of it. To the strategy that makes no
difference: over finite models an object is recognised exactly if its content is, and what is kept
from one of two runs is like what is kept from the other (`Memory.Twin`, kept by a call of either,
`select_twin`). So the two runs select the same variables, fail alike, end the stream together and
have exposed the same variables (`identity_is_immaterial`).
-/

namespace QuboSplit

open List (Forall₂)

/-- The problems have the same content and store their variables in one order. They may or may not
be one object. -/
structure Problem.Twin (p q : Problem Binary64) : Prop where
  content : p.model.sameContent q.model = true
  labels_eq : p.model.labels = q.model.labels

/-- The states have the same samples, and problems that differ at most as objects. -/
structure State.Twin (s t : State Binary64) : Prop where
  problem : s.problem.Twin t.problem
  samples_eq : s.samples = t.samples

/-- What the same call yields on `s` and on `t`: one fault, an end of the stream, or the states with
what the same variables induce at the same sample. -/
inductive State.Answers (s t : State Binary64) :
    Except Fault (Selection Binary64) → Except Fault (Selection Binary64) → Prop
  | fault (fault : Fault) : Answers s t (.error fault) (.error fault)
  | endOfStream : Answers s t (.ok .endOfStream) (.ok .endOfStream)
  | selected {labels : List Label} {best : Sample Binary64} {sub sub' : Model Binary64}
      (hsub : s.problem.model.induced labels best = .ok sub)
      (hsub' : t.problem.model.induced labels best = .ok sub') (same : sub.Same sub')
      (offset : sub.offset.Same sub'.offset) :
      Answers s t (.ok (.state (s.withSubproblem sub))) (.ok (.state (t.withSubproblem sub')))

section Twin

variable {p q : Problem Binary64} {s t : State Binary64}

theorem Problem.Twin.matches (h : p.Twin q) (hp : p.model.WellFormed) (hq : q.model.WellFormed) :
    p.model.Matches q.model :=
  (Model.sameContent_iff hp hq).1 h.content

theorem Problem.Twin.same (h : p.Twin q) (hp : p.model.WellFormed) (hq : q.model.WellFormed) :
    p.model.Same q.model :=
  .of_matches (h.matches hp hq) h.labels_eq

theorem State.Twin.bestSample_eq (h : s.Twin t) (hs : s.problem.model.WellFormed)
    (ht : t.problem.model.WellFormed) : s.bestSample = t.bestSample := by
  unfold bestSample
  rw [h.samples_eq, (h.problem.matches hs ht).vartype_eq]

end Twin

namespace EnergyImpact

/-- The memories differ at most in which objects they keep and in the signs of zeros. -/
structure Memory.Twin (mem mem' : Memory Binary64) : Prop where
  problem : Option.Rel Problem.Twin mem.problem mem'.problem
  sample_eq : mem.sample = mem'.sample
  ranking : Option.Rel (Forall₂ (Paired Floating.Same)) mem.ranking mem'.ranking
  unrolled_eq : mem.unrolled = mem'.unrolled

/-- The steps yield the same on `s` and on `t`, and leave memories that are alike. -/
structure SameStep (s t : State Binary64)
    (step step' : Step (Memory Binary64) (Selection Binary64)) : Prop where
  answers : s.Answers t step.result step'.result
  memory : step.memory.Twin step'.memory

section

variable {c : EnergyImpact Binary64} {mem mem' : Memory Binary64} {p q : Problem Binary64}
  {s t : State Binary64} {best : Sample Binary64} {states copies : List (State Binary64)}

theorem Memory.twin_fresh : (Memory.fresh : Memory Binary64).Twin .fresh :=
  ⟨.none, rfl, .none, rfl⟩

theorem Memory.Twin.rewind (h : mem.Twin mem') (hpq : p.Twin q) :
    (mem.rewind p).Twin (mem'.rewind q) :=
  ⟨.some hpq, h.sample_eq, h.ranking, rfl⟩

theorem SameStep.after {step step' : Step (Memory Binary64) (Selection Binary64)}
    (h : SameStep s t step step') (earlier earlier' : List Event) :
    SameStep s t (step.after earlier) (step'.after earlier') :=
  ⟨h.answers, h.memory⟩

/-! ### Recognising a problem -/

/-- Finite problems are recognised by their content, and so in both runs or in neither. -/
theorem Memory.Twin.sameProblem_eq (h : mem.Twin mem') (hmem : mem.Recalls states)
    (hmem' : mem'.Recalls copies)
    (hstates : ∀ r ∈ states, r.problem.model.WellFormed ∧ r.problem.model.isFinite = true)
    (hcopies : ∀ r ∈ copies, r.problem.model.WellFormed ∧ r.problem.model.isFinite = true)
    (hpq : p.Twin q) (hp : p.model.WellFormed) (hq : q.model.WellFormed) :
    mem.sameProblem p = mem'.sameProblem q := by
  rw [Bool.eq_iff_iff, hmem.sameProblem_iff hstates hp, hmem'.sameProblem_iff hcopies hq]
  have hproblem := h.problem
  cases hkept : mem.problem with
  | none =>
    rw [hkept] at hproblem
    generalize mem'.problem = kept' at hproblem ⊢
    cases hproblem
    simp
  | some kept =>
    cases hkept' : mem'.problem with
    | none =>
      rw [hkept, hkept'] at hproblem
      cases hproblem
    | some kept' =>
      rw [hkept, hkept'] at hproblem
      obtain hsame : kept.Twin kept' := by
        cases hproblem
        assumption
      obtain ⟨r, hr, rfl⟩ := hmem.seen kept hkept
      obtain ⟨r', hr', rfl⟩ := hmem'.seen kept' hkept'
      have hwell := (hstates r hr).1
      have hwell' := (hcopies r' hr').1
      have hmatches := hsame.matches hwell hwell'
      have hmatches' := hpq.matches hp hq
      simp only [Option.some.injEq, exists_eq_left', Model.sameContent_iff hwell hp,
        Model.sameContent_iff hwell' hq]
      exact ⟨fun hcontent => hmatches.symm.trans (hcontent.trans hmatches'),
        fun hcontent => hmatches.trans (hcontent.trans hmatches'.symm)⟩

/-! ### Ranking -/

/-- The rankings of the two runs are alike, or both are missing for one reason. -/
theorem Memory.Twin.rankingFor_outcomes (h : mem.Twin mem')
    (hsame : mem.sameProblem p = mem'.sameProblem q) (hpq : p.Twin q) (hp : p.model.WellFormed)
    (hq : q.model.WellFormed) (minGain : Option Binary64) (best : Sample Binary64) :
    SameOutcome (Forall₂ (Paired Floating.Same)) (mem.rankingFor minGain p best)
      (mem'.rankingFor minGain q best) := by
  have hnew := Model.ranking_outcomes hp hq (hpq.same hp hq) best minGain
  have hsample : mem.sameSample best = mem'.sameSample best := by
    unfold sameSample
    rw [h.sample_eq]
  have hranking := h.ranking
  unfold Memory.rankingFor
  rw [hsame, hsample]
  generalize mem.ranking = kept at hranking ⊢
  generalize mem'.ranking = kept' at hranking ⊢
  cases hranking with
  | none => exact hnew
  | some hkept =>
    dsimp only
    split
    · exact .ok hkept
    · exact hnew

theorem Memory.Twin.withRanking (h : mem.Twin mem')
    (hsame : mem.sameProblem p = mem'.sameProblem q) (hpq : p.Twin q) (best : Sample Binary64)
    {ranking ranking' : Ranking Binary64}
    (hranking : Forall₂ (Paired Floating.Same) ranking ranking') :
    (mem.withRanking p best ranking).Twin (mem'.withRanking q best ranking') := by
  refine ⟨?_, ?_, .some hranking, ?_⟩
  · rw [problem_withRanking, problem_withRanking, hsame]
    split
    · exact h.problem
    · exact .some hpq
  · unfold Memory.withRanking sameSample
    rw [h.sample_eq]
  · rw [unrolled_withRanking, unrolled_withRanking, hsame, h.unrolled_eq]

/-! ### Choosing -/

section Call

variable (hst : s.Twin t) (hs : s.problem.model.WellFormed) (ht : t.problem.model.WellFormed)

include hst hs ht

/-- With memories that are alike the same variables are chosen. -/
theorem choose_twin (h : mem.Twin mem') (hrolls : mem.Rolls c.minGain s.problem)
    (hassigned : s.problem.model.Assigned best) :
    SameStep s t (c.choose mem s best) (c.choose mem' t best) := by
  have hmodels := hst.problem.same hs ht
  obtain ⟨ranking, labels, hranking, hok, htraversed⟩ := exists_choice hs hrolls
  obtain ⟨ranking', hranking', hpaired⟩ : ∃ ranking', mem'.ranking = some ranking' ∧
      Forall₂ (Paired Floating.Same) ranking ranking' := by
    have hkept := h.ranking
    rw [hranking] at hkept
    generalize mem'.ranking = kept at hkept ⊢
    cases hkept with
    | some hpaired => exact ⟨_, rfl, hpaired⟩
  have hok' : t.problem.model.traverse c.traversal ranking' mem'.unrolled.visited
      (min c.size.value t.problem.model.size : Nat) = .ok labels := by
    rw [← h.unrolled_eq, ← hmodels.size_eq,
      ← Model.traverse_same hs ht hmodels c.traversal hpaired, hok]
  rw [choose_of_traverse hranking hok, choose_of_traverse hranking' hok']
  constructor
  · dsimp only
    by_cases hlabels : labels = []
    · subst hlabels
      exact .fault .noSelection
    · obtain ⟨sub, sub', hsub, hsub', hsame, hoffset, hoffset'⟩ :=
        Model.induced_same hs ht hmodels hlabels htraversed.known hassigned
      unfold State.select
      rw [hsub, hsub']
      refine .selected hsub hsub' hsame ?_
      rw [hoffset, hoffset']
      exact .of_equal (hst.problem.matches hs ht).offset_equal
  · dsimp only
    split
    · exact ⟨h.problem, h.sample_eq, h.ranking, by rw [h.unrolled_eq]⟩
    · exact h

theorem advance_twin (h : mem.Twin mem') (hrolls : mem.Rolls c.minGain s.problem)
    (hassigned : s.problem.model.Assigned best) :
    SameStep s t (c.advance mem s best) (c.advance mem' t best) := by
  have hrewound := h.rewind hst.problem
  unfold advance
  rw [← h.unrolled_eq, ← (hst.problem.same hs ht).size_eq]
  dsimp only
  split
  · split
    · exact (choose_twin hst hs ht hrewound (hrolls.rewind hs) hassigned).after _ _
    · exact ⟨.endOfStream, hrewound⟩
  · exact choose_twin hst hs ht h hrolls hassigned

/-- Calls with memories that are alike yield the same and leave memories that are alike. -/
theorem select_twin (h : mem.Twin mem')
    (hsame : mem.sameProblem s.problem = mem'.sameProblem t.problem)
    (hsound : mem.Sound c.minGain) (hfits : mem.Fits c states) :
    SameStep s t (c.select mem s) (c.select mem' t) := by
  have hsamples := hst.bestSample_eq hs ht
  cases hbest : s.bestSample with
  | error fault =>
    rw [select_eq_of_bestSample_error hbest,
      select_eq_of_bestSample_error (hsamples ▸ hbest)]
    exact ⟨.fault fault, h⟩
  | ok best =>
    have hbest' : t.bestSample = .ok best := hsamples ▸ hbest
    have houtcomes := h.rankingFor_outcomes hsame hst.problem hs ht c.minGain best
    have hrefresh := mem.refresh_eq c.minGain s.problem best
    have hrefresh' := mem'.refresh_eq c.minGain t.problem best
    generalize hranking : mem.rankingFor c.minGain s.problem best = outcome
      at houtcomes hrefresh
    generalize mem'.rankingFor c.minGain t.problem best = outcome' at houtcomes hrefresh'
    cases houtcomes with
    | error fault =>
      rw [select_eq_of_refresh_error hbest hrefresh,
        select_eq_of_refresh_error hbest' hrefresh']
      exact ⟨.fault fault, h⟩
    | ok hpaired =>
      rw [select_eq hbest hrefresh, select_eq hbest' hrefresh']
      refine SameStep.after (advance_twin hst hs ht ?_ ?_ ?_) _ _
      · exact h.withRanking hsame hst.problem best hpaired
      · exact (hsound.refreshed hs hrefresh).1
      · exact (hfits.rankingFor hs hbest hranking).assigned

end Call

/-! ### Runs -/

section Runs

variable
  (hstates : ∀ r ∈ states, r.problem.model.WellFormed ∧ r.problem.model.isFinite = true)
  (hcopies : ∀ r ∈ copies, r.problem.model.WellFormed ∧ r.problem.model.isFinite = true)

include hstates hcopies

/-- The next calls of two runs yield the same if the runs so far left memories that are alike. -/
theorem sameStep_memoryAfter (h : (c.memoryAfter states).Twin (c.memoryAfter copies))
    (hst : s.Twin t) (hs : s.problem.model.WellFormed) (ht : t.problem.model.WellFormed) :
    SameStep s t (c.select (c.memoryAfter states) s) (c.select (c.memoryAfter copies) t) := by
  have hwell : ∀ r ∈ states, r.problem.model.WellFormed := fun r hr => (hstates r hr).1
  have hsame := h.sameProblem_eq (recalls_memoryAfter c states) (recalls_memoryAfter c copies)
    hstates hcopies hst.problem hs ht
  exact select_twin hst hs ht h hsame (sound_memoryAfter c hwell) (fits_memoryAfter c hwell)

theorem twin_memoryAfter (c : EnergyImpact Binary64) (htwins : Forall₂ State.Twin states copies) :
    (c.memoryAfter states).Twin (c.memoryAfter copies) := by
  -- a run grows at its end, so the induction is on the runs read backwards
  suffices hall : ∀ {back back' : List (State Binary64)}, Forall₂ State.Twin back back' →
      (∀ r ∈ back, r.problem.model.WellFormed ∧ r.problem.model.isFinite = true) →
      (∀ r ∈ back', r.problem.model.WellFormed ∧ r.problem.model.isFinite = true) →
      (c.memoryAfter back.reverse).Twin (c.memoryAfter back'.reverse) by
    have hback := hall (List.rel_reverse htwins) (by simpa using hstates) (by simpa using hcopies)
    rwa [List.reverse_reverse, List.reverse_reverse] at hback
  intro back back' hback
  induction hback with
  | nil => exact fun _ _ => Memory.twin_fresh
  | @cons s t back back' hst _ ih =>
    intro hwell hwell'
    obtain ⟨hs, hwell⟩ := List.forall_mem_cons.1 hwell
    obtain ⟨ht, hwell'⟩ := List.forall_mem_cons.1 hwell'
    rw [List.reverse_cons, List.reverse_cons, memoryAfter_append, memoryAfter_append]
    exact (sameStep_memoryAfter (by simpa using hwell) (by simpa using hwell') (ih hwell hwell')
      hst hs.1 ht.1).memory

end Runs

/-- On finite problems that are shared objects in one run and copies in another, each call of the
one run yields what it yields in the other, and the same variables are exposed after it. -/
theorem identity_is_immaterial (c : EnergyImpact Binary64)
    (hstates : ∀ r ∈ states ++ [s],
      r.problem.model.Reachable ∧ r.problem.model.isFinite = true)
    (hcopies : ∀ r ∈ copies ++ [t],
      r.problem.model.Reachable ∧ r.problem.model.isFinite = true)
    (htwins : Forall₂ State.Twin states copies) (hst : s.Twin t) :
    let step := c.select (c.memoryAfter states) s
    let step' := c.select (c.memoryAfter copies) t
    s.Answers t step.result step'.result ∧ step.memory.unrolled = step'.memory.unrolled := by
  have hwell : ∀ {states : List (State Binary64)} {s : State Binary64},
      (∀ r ∈ states ++ [s], r.problem.model.Reachable ∧ r.problem.model.isFinite = true) →
      (∀ r ∈ states, r.problem.model.WellFormed ∧ r.problem.model.isFinite = true) ∧
        s.problem.model.WellFormed := by
    intro states s h
    exact ⟨fun r hr => (h r (by simp [hr])).imp_left Model.Reachable.wellFormed,
      (h s (by simp)).1.wellFormed⟩
  obtain ⟨hstates, hs⟩ := hwell hstates
  obtain ⟨hcopies, ht⟩ := hwell hcopies
  have hsame := sameStep_memoryAfter hstates hcopies (twin_memoryAfter hstates hcopies c htwins)
    hst hs ht
  exact ⟨hsame.answers, hsame.memory.unrolled_eq⟩

end

/-- One object in three calls, the second of which rewinds, and the same with two copies, the last
of which has the other zero for its offset. -/
theorem identity_is_immaterial_tied :
    let first := tied 0 (.number 0) (.number 1)
    let copy := tied 1 (.number 0) (.number 1)
    let last : State Binary64 := { first with
      problem := ⟨2, .ofEdits .binary [.setOffset (-Scalar.ofInt 0),
        .setLinear (.number 0) (Scalar.ofInt (-1)), .setLinear (.number 1) (Scalar.ofInt (-1))]⟩ }
    first.Answers last (halves.select (halves.memoryAfter [first, first]) first).result
        (halves.select (halves.memoryAfter [first, copy]) last).result ∧
      (halves.select (halves.memoryAfter [first, copy]) last).memory.unrolled.visited =
        [.number 0] := by
  intro first copy last
  have hstates : ∀ r ∈ [first, first] ++ [first],
      r.problem.model.Reachable ∧ r.problem.model.isFinite = true := by
    have hfirst : first.problem.model.Reachable ∧ first.problem.model.isFinite = true :=
      ⟨tied_reachable .., by decide +kernel⟩
    simp [hfirst]
  have hcopies : ∀ r ∈ [first, copy] ++ [last],
      r.problem.model.Reachable ∧ r.problem.model.isFinite = true := by
    refine List.forall_mem_append.2 ⟨?_, List.forall_mem_singleton.2 ?_⟩
    · refine List.forall_mem_cons.2 ⟨?_, List.forall_mem_singleton.2 ?_⟩
      · exact ⟨tied_reachable .., by decide +kernel⟩
      · exact ⟨tied_reachable .., by decide +kernel⟩
    · exact ⟨⟨.binary, _, rfl⟩, by decide +kernel⟩
  have hself : first.Twin first := ⟨⟨by decide +kernel, rfl⟩, rfl⟩
  have hcopy : first.Twin copy := ⟨⟨by decide +kernel, rfl⟩, rfl⟩
  have hlast : first.Twin last := ⟨⟨by decide +kernel, by decide +kernel⟩, rfl⟩
  obtain ⟨hanswers, hunrolled⟩ := identity_is_immaterial halves hstates hcopies
    (.cons hself (.cons hcopy .nil)) hlast
  refine ⟨hanswers, ?_⟩
  rw [← hunrolled]
  decide +kernel

end EnergyImpact

end QuboSplit
