import QuboSplit.Proofs.Strategy.EnergyImpact

/-!
# The ranking that is kept

A strategy keeps its last ranking and passes it on as long as problem and best sample compare equal
to those it remembers. The three of them change at different points of a call. Whatever calls came
before, the ranking that is kept was made at one of their states, for a problem and a best sample
like the remembered ones (`Memory.Fits`, kept by every call), so the ranking that a call passes to
the traversal was made for a problem and a sample like its own (`Memory.Fits.rankingFor`).
-/

namespace QuboSplit

variable {α : Type} [Scalar α]

/-! ### Likeness -/

/-- The problems are one object, or have the same content. -/
def Problem.Alike (p q : Problem α) : Prop := p = q ∨ p.model.sameContent q.model = true

/-- The samples are one, or agree. -/
def Sample.Alike (s t : Sample α) : Prop := s = t ∨ s.agrees t = true

section Alike

variable [Scalar.LawfulEqual α] {p q r : Problem α} {s t u : Sample α}

theorem Problem.Alike.symm (h : p.Alike q) (hp : p.model.WellFormed) (hq : q.model.WellFormed) :
    q.Alike p := by
  rcases h with rfl | h
  · exact Or.inl rfl
  · rw [Model.sameContent_iff hp hq] at h
    exact Or.inr ((Model.sameContent_iff hq hp).2 h.symm)

theorem Problem.Alike.trans (h : p.Alike q) (h' : q.Alike r) (hp : p.model.WellFormed)
    (hq : q.model.WellFormed) (hr : r.model.WellFormed) : p.Alike r := by
  rcases h with rfl | h
  · exact h'
  · rcases h' with rfl | h'
    · exact Or.inr h
    · rw [Model.sameContent_iff hp hq] at h
      rw [Model.sameContent_iff hq hr] at h'
      exact Or.inr ((Model.sameContent_iff hp hr).2 (h.trans h'))

theorem Sample.Alike.symm (h : s.Alike t) : t.Alike s := by
  rcases h with rfl | h
  · exact Or.inl rfl
  · exact Or.inr (agrees_iff.2 fun v => (agrees_iff.1 h v).symm)

theorem Sample.Alike.trans (h : s.Alike t) (h' : t.Alike u) : s.Alike u := by
  rcases h with rfl | h
  · exact h'
  · rcases h' with rfl | h'
    · exact Or.inr h
    · exact Or.inr (agrees_iff.2 fun v => (agrees_iff.1 h v).trans (agrees_iff.1 h' v))

end Alike

namespace EnergyImpact

variable {c : EnergyImpact α} {mem ready : Memory α} {s : State α} {best : Sample α}
  {ranking : Ranking α} {states : List (State α)}

/-! ### Choosing -/

/-- How many variables a call may select. -/
def room (c : EnergyImpact α) (s : State α) : Nat := min c.size.value s.problem.model.size

theorem choose_result_eq (hkept : mem.ranking = some ranking) (c : EnergyImpact α) (s : State α)
    (best : Sample α) :
    (c.choose mem s best).result = (do
      let labels ← s.problem.model.traverse c.traversal ranking mem.unrolled.visited (c.room s)
      let t ← s.select labels best
      return .state t) := by
  unfold choose room
  rw [hkept]
  dsimp only [Option.getD_some]
  cases s.problem.model.traverse c.traversal ranking mem.unrolled.visited
    (min c.size.value s.problem.model.size : Nat) with
  | error fault => rfl
  | ok labels => cases s.select labels best <;> rfl

theorem choose_memory (c : EnergyImpact α) (mem : Memory α) (s : State α) (best : Sample α) :
    ∃ unrolled, (c.choose mem s best).memory = { mem with unrolled } ∧
      (c.rolling = false → unrolled = mem.unrolled) := by
  unfold choose
  dsimp only
  split
  · exact ⟨mem.unrolled, rfl, fun _ => rfl⟩
  · next labels _ =>
    by_cases hrolling : c.rolling = true
    · rw [if_pos hrolling]
      exact ⟨mem.unrolled.expose labels, rfl, fun h => absurd hrolling (by simp [h])⟩
    · rw [if_neg hrolling]
      exact ⟨mem.unrolled, rfl, fun _ => rfl⟩

/-! ### Where a ranking was made -/

/-- The ranking was made at one of the states, for a problem and a best sample like these. -/
def MadeFor (c : EnergyImpact α) (states : List (State α)) (ranking : Ranking α) (p : Problem α)
    (best : Sample α) : Prop :=
  ∃ t ∈ states, t.problem.model.WellFormed ∧ ∃ made, t.bestSample = .ok made ∧
    t.problem.Alike p ∧ made.Alike best ∧ t.problem.model.ranking made c.minGain = .ok ranking

/-- The remembered problem is well formed, and the ranking was made for one like it and a best
sample like the remembered one. -/
structure Memory.Fits (c : EnergyImpact α) (states : List (State α)) (mem : Memory α) : Prop where
  known : ∀ p, mem.problem = some p → p.model.WellFormed
  made : ∀ ranking, mem.ranking = some ranking →
    ∃ p best, mem.problem = some p ∧ mem.sample = some best ∧ c.MadeFor states ranking p best

theorem Memory.fits_fresh (c : EnergyImpact α) : (Memory.fresh : Memory α).Fits c [] :=
  ⟨nofun, nofun⟩

theorem MadeFor.append {p : Problem α} (h : c.MadeFor states ranking p best) (s : State α) :
    c.MadeFor (states ++ [s]) ranking p best := by
  obtain ⟨t, ht, hmade⟩ := h
  exact ⟨t, List.mem_append_left _ ht, hmade⟩

theorem MadeFor.congr [Scalar.LawfulEqual α] {p q : Problem α} {r : Sample α}
    (h : c.MadeFor states ranking p best) (hpq : p.Alike q) (hp : p.model.WellFormed)
    (hq : q.model.WellFormed) (hr : best.Alike r) : c.MadeFor states ranking q r := by
  obtain ⟨t, ht, hwell, made, hmade, hproblem, hsample, hranking⟩ := h
  exact ⟨t, ht, hwell, made, hmade, hproblem.trans hpq hwell hp hq, hsample.trans hr, hranking⟩

theorem Memory.alike_of_sameSample (h : mem.sameSample best = true) :
    ∃ r, mem.sample = some r ∧ r.Alike best := by
  unfold sameSample at h
  obtain ⟨r, hr, hagrees⟩ := (Option.any_eq_true _ _).1 h
  exact ⟨r, hr, Or.inr hagrees⟩

variable [DecidableEq α]

/-! ### Runs -/

/-- What is remembered after calls on states one after another. -/
def memoryAfter (c : EnergyImpact α) (states : List (State α)) : Memory α :=
  states.foldl (fun mem s => (c.select mem s).memory) .fresh

theorem memoryAfter_append (c : EnergyImpact α) (states : List (State α)) (s : State α) :
    c.memoryAfter (states ++ [s]) = (c.select (c.memoryAfter states) s).memory := by
  unfold memoryAfter
  rw [List.foldl_append]
  rfl

/-- The ranking that a call passes to the traversal. There is none if the call fails before, or if
it ends the stream. -/
def passed (c : EnergyImpact α) (mem : Memory α) (s : State α) : Option (Ranking α) :=
  match s.bestSample with
  | .error _ => none
  | .ok best =>
    match mem.refresh c.minGain s.problem best with
    | .error _ => none
    | .ok ready =>
      if c.rolling && ready.unrolled.exhausted c.history s.problem.model.size && !c.silentRewind
      then none
      else ready.ranking

/-! ### What a call does with its ranking -/

/-- A call that passes no ranking on yields no state. -/
theorem select_of_passed_eq_none (h : c.passed mem s = none) :
    (c.select mem s).result = .ok .endOfStream ∨
      ∃ fault, (c.select mem s).result = .error fault := by
  rcases hbest : s.bestSample with fault | best
  · exact Or.inr ⟨fault, by rw [select_eq_of_bestSample_error hbest]⟩
  rcases hready : mem.refresh c.minGain s.problem best with fault | ready
  · exact Or.inr ⟨fault, by rw [select_eq_of_refresh_error hbest hready]⟩
  unfold passed at h
  rw [hbest] at h
  dsimp only at h
  rw [hready] at h
  dsimp only at h
  split at h
  · next hend =>
    rw [Bool.and_eq_true, Bool.not_eq_true'] at hend
    left
    rw [select_eq hbest hready, Step.result_after]
    unfold advance
    dsimp only
    rw [if_pos hend.1, hend.2]
    rfl
  · obtain ⟨ranking, -, rfl⟩ := Memory.of_refresh_eq_ok hready
    cases h

/-- A call that passes a ranking on takes it from its refreshed memory, and selects what the
traversal yields. -/
theorem select_of_passed_eq_some (h : c.passed mem s = some ranking) :
    ∃ best visited, s.bestSample = .ok best ∧
      mem.rankingFor c.minGain s.problem best = .ok ranking ∧
      (mem.unrolled = .fresh → visited = []) ∧
      (c.select mem s).result = (do
        let labels ← s.problem.model.traverse c.traversal ranking visited (c.room s)
        let t ← s.select labels best
        return .state t) := by
  unfold passed at h
  split at h
  · cases h
  next best hbest =>
  split at h
  · cases h
  next ready hready =>
  split at h
  · cases h
  next hgoes =>
  obtain ⟨ranking', hranking, rfl⟩ := Memory.of_refresh_eq_ok hready
  obtain rfl : ranking' = ranking := Option.some.inj h
  generalize hnext : mem.withRanking s.problem best ranking' = ready at *
  have hkept : ready.ranking = some ranking' := hnext ▸ rfl
  rw [select_eq hbest hready, Step.result_after]
  unfold advance
  dsimp only
  split
  · next hdue =>
    -- a rewind that is due must be silent, and nothing is exposed after it
    rw [hdue, Bool.true_and, Bool.not_eq_true, Bool.not_eq_false'] at hgoes
    have hrewound : (ready.rewind s.problem).ranking = some ranking' := hkept
    rw [if_pos hgoes, Step.result_after]
    exact ⟨best, [], hbest, hranking, fun _ => rfl, choose_result_eq hrewound c s best⟩
  · refine ⟨best, ready.unrolled.visited, hbest, hranking, fun hfresh => ?_,
      choose_result_eq hkept c s best⟩
    rw [← hnext, Memory.unrolled_withRanking, hfresh, ite_self]
    rfl

/-- Without rolling a call that finds its best sample and a ranking for it passes that on. -/
theorem passed_of_not_rolling (hrolling : c.rolling = false) (hbest : s.bestSample = .ok best)
    (hranking : mem.rankingFor c.minGain s.problem best = .ok ranking) :
    c.passed mem s = some ranking := by
  have hready : mem.refresh c.minGain s.problem best =
      .ok (mem.withRanking s.problem best ranking) := by
    rw [Memory.refresh_eq, hranking]
    rfl
  unfold passed
  rw [hbest]
  dsimp only
  rw [hready, hrolling]
  rfl

/-! ### What a call remembers -/

/-- A call either changes nothing or keeps what it has refreshed, up to rewinding and exposing. -/
theorem select_memory (c : EnergyImpact α) (mem : Memory α) (s : State α) :
    (c.select mem s).memory = mem ∨ ∃ best ready turned unrolled, s.bestSample = .ok best ∧
      mem.refresh c.minGain s.problem best = .ok ready ∧
      (turned = ready ∨ turned = ready.rewind s.problem ∧ c.rolling = true) ∧
      (c.select mem s).memory = { turned with unrolled } ∧
      (c.rolling = false → unrolled = turned.unrolled) := by
  rcases hbest : s.bestSample with fault | best
  · exact Or.inl (by rw [select_eq_of_bestSample_error hbest])
  rcases hready : mem.refresh c.minGain s.problem best with fault | ready
  · exact Or.inl (by rw [select_eq_of_refresh_error hbest hready])
  right
  rw [select_eq hbest hready, Step.memory_after]
  unfold advance
  dsimp only
  split
  · next hdue =>
    have hrewinds : ready.rewind s.problem = ready ∨
        ready.rewind s.problem = ready.rewind s.problem ∧ c.rolling = true :=
      Or.inr ⟨rfl, ((Bool.and_eq_true _ _).mp hdue).1⟩
    split
    · obtain ⟨unrolled, hmemory, hunrolled⟩ := choose_memory c (ready.rewind s.problem) s best
      exact ⟨best, ready, _, unrolled, rfl, hready, hrewinds, hmemory, hunrolled⟩
    · exact ⟨best, ready, _, _, rfl, hready, hrewinds, rfl, fun _ => rfl⟩
  · obtain ⟨unrolled, hmemory, hunrolled⟩ := choose_memory c ready s best
    exact ⟨best, ready, ready, unrolled, rfl, hready, Or.inl rfl, hmemory, hunrolled⟩

/-- Without rolling nothing is ever exposed. -/
theorem unrolled_memoryAfter (hrolling : c.rolling = false) (states : List (State α)) :
    (c.memoryAfter states).unrolled = .fresh := by
  induction states using List.reverseRecOn with
  | nil => rfl
  | append_singleton states s ih =>
    rw [memoryAfter_append]
    rcases select_memory c (c.memoryAfter states) s with
      hsame | ⟨best, ready, turned, unrolled, -, hready, hturned, hmemory, h⟩
    · rw [hsame, ih]
    rw [hmemory]
    rcases hturned with rfl | ⟨-, hrolls⟩
    · obtain ⟨ranking, -, rfl⟩ := Memory.of_refresh_eq_ok hready
      rw [h hrolling, Memory.unrolled_withRanking, ih, ite_self]
    · rw [hrolling] at hrolls
      cases hrolls

/-! ### Every call keeps a ranking that fits -/

/-- The problem is like the remembered one if it is taken for the same. -/
theorem Memory.alike_of_sameProblem {p : Problem α} (h : mem.sameProblem p = true) :
    ∃ q, mem.problem = some q ∧ q.Alike p := by
  unfold sameProblem at h
  split at h
  · cases h
  · next q hq =>
    rw [Bool.or_eq_true, decide_eq_true_eq, Bool.and_eq_true] at h
    exact ⟨q, hq, h.imp id And.right⟩

/-- A refreshed memory remembers a problem and a sample like those at hand. -/
theorem Memory.alike_of_refresh {p : Problem α}
    (hready : mem.refresh c.minGain p best = .ok ready) :
    (∃ q, ready.problem = some q ∧ q.Alike p ∧ (q = p ∨ mem.problem = some q)) ∧
      ∃ r, ready.sample = some r ∧ r.Alike best := by
  obtain ⟨ranking, -, rfl⟩ := of_refresh_eq_ok hready
  rw [problem_withRanking, sample_withRanking]
  constructor
  · by_cases hsame : mem.sameProblem p = true
    · obtain ⟨q, hq, hlike⟩ := alike_of_sameProblem hsame
      exact ⟨q, by rw [if_pos hsame, hq], hlike, Or.inr hq⟩
    · exact ⟨p, if_neg hsame, Or.inl rfl, Or.inl rfl⟩
  · by_cases hsame : mem.sameSample best = true
    · obtain ⟨r, hr, hlike⟩ := alike_of_sameSample hsame
      exact ⟨r, by rw [if_pos hsame, hr], hlike⟩
    · exact ⟨best, if_neg hsame, Or.inl rfl⟩

variable [Scalar.LawfulEqual α]

/-- The ranking that a call uses was made for a problem and a best sample like its own. -/
theorem Memory.Fits.rankingFor (h : mem.Fits c states) (hs : s.problem.model.WellFormed)
    (hbest : s.bestSample = .ok best)
    (hranking : mem.rankingFor c.minGain s.problem best = .ok ranking) :
    c.MadeFor (states ++ [s]) ranking s.problem best := by
  have hnew : s.problem.model.ranking best c.minGain = .ok ranking →
      c.MadeFor (states ++ [s]) ranking s.problem best := fun hranking =>
    ⟨s, by simp, hs, best, hbest, Or.inl rfl, Or.inl rfl, hranking⟩
  unfold Memory.rankingFor at hranking
  split at hranking
  · next kept hkept =>
    split at hranking
    · next hsame =>
      cases hranking
      rw [Bool.and_eq_true] at hsame
      obtain ⟨p, r, hp, hr, hmade⟩ := h.made _ hkept
      obtain ⟨p', hp', hlike⟩ := alike_of_sameProblem hsame.1
      obtain ⟨r', hr', hlike'⟩ := alike_of_sameSample hsame.2
      obtain rfl : p' = p := Option.some.inj (hp'.symm.trans hp)
      obtain rfl : r' = r := Option.some.inj (hr'.symm.trans hr)
      exact (hmade.congr hlike (h.known _ hp) hs hlike').append s
    · exact hnew hranking
  · exact hnew hranking

/-- Every call keeps a ranking that fits. -/
theorem Memory.Fits.select (h : mem.Fits c states) (hs : s.problem.model.WellFormed) :
    (c.select mem s).memory.Fits c (states ++ [s]) := by
  rcases select_memory c mem s with
    hsame | ⟨best, ready, turned, unrolled, hbest, hready, hturned, hmemory, -⟩
  · rw [hsame]
    refine ⟨h.known, fun ranking hkept => ?_⟩
    obtain ⟨p, r, hp, hr, hmade⟩ := h.made ranking hkept
    exact ⟨p, r, hp, hr, hmade.append s⟩
  obtain ⟨⟨q, hq, hlike, horigin⟩, r, hr, hlike'⟩ := alike_of_refresh hready
  have hwell : q.model.WellFormed := horigin.elim (fun e => e ▸ hs) (h.known q)
  obtain ⟨ranking, hused, rfl⟩ := of_refresh_eq_ok hready
  have hmade := h.rankingFor hs hbest hused
  -- the problem remembered in the end is the refreshed one, or the one at hand after a rewind
  obtain ⟨p, hp, hpwell, hlike'', hranking, hsample⟩ : ∃ p, turned.problem = some p ∧
      p.model.WellFormed ∧ s.problem.Alike p ∧ turned.ranking = some ranking ∧
      turned.sample = some r := by
    rcases hturned with rfl | ⟨rfl, -⟩
    · exact ⟨q, hq, hwell, hlike.symm hwell hs, rfl, hr⟩
    · exact ⟨s.problem, rfl, hs, Or.inl rfl, rfl, hr⟩
  rw [hmemory]
  refine ⟨fun p' hp' => ?_, fun ranking' hkept => ?_⟩
  · obtain rfl : p = p' := Option.some.inj (hp.symm.trans hp')
    exact hpwell
  · obtain rfl : ranking = ranking' := Option.some.inj (hranking.symm.trans hkept)
    exact ⟨p, r, hp, hsample, hmade.congr hlike'' hs hpwell hlike'.symm⟩

theorem fits_memoryAfter (c : EnergyImpact α)
    (hstates : ∀ t ∈ states, t.problem.model.WellFormed) :
    (c.memoryAfter states).Fits c states := by
  induction states using List.reverseRecOn with
  | nil => exact Memory.fits_fresh c
  | append_singleton states s ih =>
    rw [memoryAfter_append]
    exact (ih fun t ht => hstates t (List.mem_append_left _ ht)).select (hstates s (by simp))

end EnergyImpact

end QuboSplit
