import Mathlib.Tactic
import QuboSplit.Proofs.Model.Content
import QuboSplit.Proofs.Model.Induced
import QuboSplit.Proofs.Ranking
import QuboSplit.Proofs.Rolling
import QuboSplit.Proofs.Strategy.Step
import QuboSplit.Proofs.Traversal.Ranked

/-!
# One selection by energy impact

What the strategy remembers fits the problem over which it rolls (`Memory.Sound`): it ranks
variables of that problem and has exposed variables of it, each once. Every selection keeps this
(`sound_select`). With such a memory choosing fails only if every ranked variable is exposed
(`choose_result`).
-/

namespace QuboSplit

variable {α : Type}

namespace EnergyImpact

/-! ### What is remembered -/

/-- The memory ranks variables among these labels and has exposed some of them, each once. -/
structure Memory.Over (labels : List Label) (minGain : Option α) (mem : Memory α) : Prop where
  ranks : ∃ ranking, mem.ranking = some ranking ∧ Ranks labels minGain ranking
  visited_nodup : mem.unrolled.visited.Nodup
  visited_known : ∀ v ∈ mem.unrolled.visited, v ∈ labels

/-- The memory is fresh, or fits the problem over which it rolls. -/
def Memory.Sound (minGain : Option α) (mem : Memory α) : Prop :=
  match mem.problem with
  | none => mem.ranking = none ∧ mem.unrolled = .fresh
  | some p => p.model.WellFormed ∧ mem.Over p.model.labels minGain

theorem Memory.sound_fresh (minGain : Option α) : (Memory.fresh : Memory α).Sound minGain :=
  ⟨rfl, rfl⟩

/-- Only the set of labels matters. -/
theorem Memory.Over.congr {labels labels' : List Label} {minGain : Option α} {mem : Memory α}
    (h : mem.Over labels minGain) (hset : ∀ v, v ∈ labels ↔ v ∈ labels') :
    mem.Over labels' minGain := by
  obtain ⟨⟨ranking, hranking, hranks⟩, hnodup, hknown⟩ := h
  exact ⟨⟨ranking, hranking, hranks.congr hset⟩, hnodup, fun v hv => (hset v).1 (hknown v hv)⟩

theorem Memory.Over.length_le {m : Model α} {minGain : Option α} {mem : Memory α}
    (h : mem.Over m.labels minGain) : mem.unrolled.visited.length ≤ m.size := by
  rw [← Model.length_labels]
  exact (List.subperm_of_subset h.visited_nodup h.visited_known).length_le

/-- The memory rolls over the problem, or over one with the same variables. -/
structure Memory.Rolls (minGain : Option α) (p : Problem α) (mem : Memory α) : Prop where
  covers : mem.Over p.model.labels minGain
  problem : ∃ q, mem.problem = some q ∧ q.model.WellFormed ∧
    ∀ v, v ∈ q.model.labels ↔ v ∈ p.model.labels

theorem Memory.Rolls.sound {mem : Memory α} {minGain : Option α} {p : Problem α}
    (h : mem.Rolls minGain p) : mem.Sound minGain := by
  obtain ⟨q, hq, hwell, hset⟩ := h.problem
  unfold Sound
  rw [hq]
  exact ⟨hwell, h.covers.congr fun v => (hset v).symm⟩

/-- The variables of the ranking that is kept. -/
def Memory.ranked (mem : Memory α) : List Label := (mem.ranking.getD []).map Prod.fst

/-- Without a least gain every variable is ranked. -/
theorem Memory.Over.mem_ranked {labels : List Label} {minGain : Option α} {mem : Memory α}
    (h : mem.Over labels minGain) (hgain : minGain = none) : ∀ v ∈ labels, v ∈ mem.ranked := by
  obtain ⟨ranking, hranking, hranks⟩ := h.ranks
  unfold ranked
  rw [hranking]
  exact hranks.complete hgain

/-! ### Choosing -/

variable [Scalar α]

theorem Memory.Rolls.rewind {mem : Memory α} {minGain : Option α} {p : Problem α}
    (h : mem.Rolls minGain p) (hp : p.model.WellFormed) : (mem.rewind p).Rolls minGain p where
  covers := ⟨h.covers.ranks, List.nodup_nil, fun _ hv => absurd hv List.not_mem_nil⟩
  problem := ⟨p, rfl, hp, fun _ => Iff.rfl⟩

variable {c : EnergyImpact α} {mem : Memory α} {s : State α}

/-- With a memory that rolls over the problem the traversal succeeds. -/
theorem exists_choice (hp : s.problem.model.WellFormed) (hmem : mem.Rolls c.minGain s.problem) :
    ∃ ranking labels, mem.ranking = some ranking ∧
      s.problem.model.traverse c.traversal ranking mem.unrolled.visited
        (min c.size.value s.problem.model.size : Nat) = .ok labels ∧
      Traversed s.problem.model mem.ranked mem.unrolled.visited
        (min c.size.value s.problem.model.size) labels := by
  obtain ⟨⟨⟨ranking, hranking, hranks⟩, hnodup, hknown⟩, -⟩ := hmem
  obtain ⟨labels, hok, htraversed⟩ := Model.exists_traverse hp c.traversal
    (min c.size.value s.problem.model.size) hranks.nodup hranks.known hnodup hknown
  refine ⟨ranking, labels, hranking, hok, ?_⟩
  unfold Memory.ranked
  rw [hranking]
  exact htraversed

theorem choose_of_traverse {ranking : Ranking α} {labels : List Label}
    (hranking : mem.ranking = some ranking)
    (hok : s.problem.model.traverse c.traversal ranking mem.unrolled.visited
      (min c.size.value s.problem.model.size : Nat) = .ok labels) (sample : Sample α) :
    c.choose mem s sample =
      { result := (s.select labels sample).map .state
        memory := if c.rolling then { mem with unrolled := mem.unrolled.expose labels } else mem
        events := [.selected name labels] } := by
  unfold choose
  rw [hranking]
  dsimp only [Option.getD_some]
  rw [hok]

/-- With a memory that rolls over the problem, choosing traverses what is left of it. -/
theorem choose_eq (hp : s.problem.model.WellFormed) (hmem : mem.Rolls c.minGain s.problem)
    (sample : Sample α) :
    ∃ labels,
      Traversed s.problem.model mem.ranked mem.unrolled.visited
        (min c.size.value s.problem.model.size) labels ∧
      c.choose mem s sample =
        { result := (s.select labels sample).map .state
          memory := if c.rolling then { mem with unrolled := mem.unrolled.expose labels } else mem
          events := [.selected name labels] } := by
  obtain ⟨ranking, labels, hranking, hok, htraversed⟩ := exists_choice hp hmem
  exact ⟨labels, htraversed, choose_of_traverse hranking hok sample⟩

/-- Choosing fails exactly if every ranked variable is exposed. -/
theorem choose_result {best : Sample α} (hp : s.problem.model.WellFormed)
    (hs : s.problem.model.Assigned best) (hpos : 0 < s.problem.model.size)
    (hmem : mem.Rolls c.minGain s.problem) :
    ((∀ v ∈ mem.ranked, v ∈ mem.unrolled.visited) ∧
        (c.choose mem s best).result = .error .noSelection) ∨
      ((∃ v ∈ mem.ranked, v ∉ mem.unrolled.visited) ∧
        ∃ sub, (c.choose mem s best).result = .ok (.state (s.withSubproblem sub))) := by
  obtain ⟨labels, htraversed, hchoose⟩ := choose_eq hp hmem best
  have hnil := htraversed.eq_nil_iff (Nat.lt_min.2 ⟨c.size.pos, hpos⟩)
  obtain ⟨hfails, hsucceeds⟩ := State.select_labels hp hs htraversed.nodup htraversed.known
  rw [hchoose]
  by_cases hlabels : labels = []
  · refine Or.inl ⟨hnil.1 hlabels, ?_⟩
    dsimp only
    rw [hfails hlabels]
    rfl
  · obtain ⟨sub, -, hsub⟩ := hsucceeds hlabels
    refine Or.inr ⟨?_, sub, ?_⟩
    · by_contra hnone
      push Not at hnone
      exact hlabels (hnil.2 hnone)
    · dsimp only
      rw [hsub]
      rfl

theorem Memory.Rolls.expose {p : Problem α} {size : Nat} {labels : List Label}
    (h : mem.Rolls c.minGain p)
    (htraversed : Traversed p.model mem.ranked mem.unrolled.visited size labels) :
    (mem.unrolled.expose labels).visited = mem.unrolled.visited ++ labels ∧
      Memory.Rolls c.minGain p { mem with unrolled := mem.unrolled.expose labels } := by
  have hvisited := Rolling.visited_expose h.covers.visited_nodup htraversed.nodup
    htraversed.unvisited
  refine ⟨hvisited, ⟨h.covers.ranks, ?_, ?_⟩, h.problem⟩
  · exact nodup_adjoin h.covers.visited_nodup labels
  · intro v hv
    rcases mem_adjoin.1 hv with hv | hv
    · exact h.covers.visited_known v hv
    · exact htraversed.known v hv

theorem advance_eq (hrolling : c.rolling = true) (mem : Memory α) (s : State α) (best : Sample α) :
    c.advance mem s best =
      if mem.unrolled.exhausted c.history s.problem.model.size then
        if c.silentRewind then (c.choose (mem.rewind s.problem) s best).after [rewound mem]
        else ⟨.ok .endOfStream, mem.rewind s.problem, [rewound mem, ⟨.endOfStream, name, 0, ""⟩]⟩
      else c.choose mem s best := by
  unfold advance
  rw [hrolling, Bool.true_and]

/-- Nothing is exposed after a rewind, so none is due. -/
theorem advance_rewind (c : EnergyImpact α) (mem : Memory α) (s : State α) (best : Sample α) :
    c.advance (mem.rewind s.problem) s best = c.choose (mem.rewind s.problem) s best := by
  have hnone : (mem.rewind s.problem).unrolled.exhausted c.history s.problem.model.size = false :=
    rfl
  unfold advance
  rw [hnone, Bool.and_false]
  rfl

/-- A selection ends the stream at a loud rewind. Otherwise it fails if every ranked variable is
exposed, and else yields a state. -/
theorem advance_result {s : State α} {best : Sample α} (hrolling : c.rolling = true)
    (hp : s.problem.model.WellFormed) (hs : s.problem.model.Assigned best)
    (hpos : 0 < s.problem.model.size) (hmem : mem.Rolls c.minGain s.problem) :
    let rewinds := mem.unrolled.exhausted c.history s.problem.model.size
    let exposed := if rewinds then [] else mem.unrolled.visited
    (rewinds = true ∧ c.silentRewind = false ∧ (c.advance mem s best).result = .ok .endOfStream) ∨
      (¬(rewinds = true ∧ c.silentRewind = false) ∧
        (((∀ v ∈ mem.ranked, v ∈ exposed) ∧ (c.advance mem s best).result = .error .noSelection) ∨
          ((∃ v ∈ mem.ranked, v ∉ exposed) ∧
            ∃ sub, (c.advance mem s best).result = .ok (.state (s.withSubproblem sub))))) := by
  intro rewinds exposed
  rw [advance_eq hrolling]
  by_cases hrewinds : rewinds = true
  · have hnone : exposed = (mem.rewind s.problem).unrolled.visited := if_pos hrewinds
    rw [if_pos hrewinds, hnone]
    cases hsilent : c.silentRewind with
    | false => exact Or.inl ⟨hrewinds, rfl, rfl⟩
    | true => exact Or.inr ⟨by simp, choose_result hp hs hpos (hmem.rewind hp)⟩
  · have hkept : exposed = mem.unrolled.visited := if_neg hrewinds
    rw [if_neg hrewinds, hkept]
    exact Or.inr ⟨fun h => hrewinds h.1, choose_result hp hs hpos hmem⟩

theorem choose_result_ne_end (c : EnergyImpact α) (mem : Memory α) (s : State α)
    (best : Sample α) : (c.choose mem s best).result ≠ .ok .endOfStream := by
  unfold choose
  dsimp only
  split
  · intro h
    cases h
  · next labels _ =>
    intro h
    cases hselect : s.select labels best <;> rw [hselect] at h <;> cases h

/-! ### Refreshing -/

variable [DecidableEq α]

theorem Memory.sameProblem_self {mem : Memory α} {p : Problem α} (h : mem.problem = some p) :
    mem.sameProblem p = true := by
  unfold sameProblem
  rw [h]
  simp

/-- The same problem has the same variables. -/
theorem Memory.Sound.of_sameProblem {mem : Memory α} {minGain : Option α} {p : Problem α}
    (h : mem.Sound minGain) (hsame : mem.sameProblem p = true) :
    ∃ q, mem.problem = some q ∧ q.model.WellFormed ∧ mem.Over q.model.labels minGain ∧
      ∀ v, v ∈ q.model.labels ↔ v ∈ p.model.labels := by
  unfold sameProblem at hsame
  unfold Sound at h
  cases hq : mem.problem with
  | none => rw [hq] at hsame; cases hsame
  | some q =>
    rw [hq] at hsame h
    refine ⟨q, rfl, h.1, h.2, ?_⟩
    rw [Bool.or_eq_true, decide_eq_true_eq, Bool.and_eq_true] at hsame
    rcases hsame with rfl | hsame
    · exact fun v => Iff.rfl
    · exact Model.mem_labels_of_sameContent h.1.labels_nodup hsame.2

/-- The ranking that is used for a problem and a sample: the one kept, if it was made for these. -/
def Memory.rankingFor (mem : Memory α) (minGain : Option α) (p : Problem α) (s : Sample α) :
    Except Fault (Ranking α) :=
  match mem.ranking with
  | some ranking =>
    if mem.sameProblem p && mem.sameSample s then .ok ranking else p.model.ranking s minGain
  | none => p.model.ranking s minGain

/-- The memory with a ranking for a problem and a sample. -/
def Memory.withRanking (mem : Memory α) (p : Problem α) (s : Sample α) (ranking : Ranking α) :
    Memory α :=
  { (if mem.sameProblem p then mem else mem.rewind p) with
    ranking := some ranking
    sample := if mem.sameSample s then mem.sample else some s }

theorem Memory.refresh_eq (mem : Memory α) (minGain : Option α) (p : Problem α) (s : Sample α) :
    mem.refresh minGain p s = (mem.rankingFor minGain p s).map (mem.withRanking p s) := by
  unfold refresh rankingFor
  cases mem.ranking with
  | none => rfl
  | some ranking =>
    dsimp only
    split <;> rfl

theorem Memory.of_refresh_eq_ok {mem ready : Memory α} {minGain : Option α} {p : Problem α}
    {s : Sample α} (h : mem.refresh minGain p s = .ok ready) :
    ∃ ranking, mem.rankingFor minGain p s = .ok ranking ∧ ready = mem.withRanking p s ranking := by
  rw [refresh_eq] at h
  cases hranking : mem.rankingFor minGain p s with
  | error fault => rw [hranking] at h; cases h
  | ok ranking =>
    rw [hranking] at h
    exact ⟨ranking, rfl, (Except.ok.inj h).symm⟩

theorem Memory.problem_withRanking (mem : Memory α) (p : Problem α) (s : Sample α)
    (ranking : Ranking α) :
    (mem.withRanking p s ranking).problem = if mem.sameProblem p then mem.problem else some p := by
  unfold withRanking
  split <;> rfl

theorem Memory.unrolled_withRanking (mem : Memory α) (p : Problem α) (s : Sample α)
    (ranking : Ranking α) : (mem.withRanking p s ranking).unrolled =
      if mem.sameProblem p then mem.unrolled else .fresh := by
  unfold withRanking
  split <;> rfl

theorem Memory.sample_withRanking (mem : Memory α) (p : Problem α) (s : Sample α)
    (ranking : Ranking α) :
    (mem.withRanking p s ranking).sample = if mem.sameSample s then mem.sample else some s := rfl

/-- The ranking kept is used if it was made for the problem and sample, or could be made for them
now. -/
theorem Memory.rankingFor_of_kept {mem : Memory α} {minGain : Option α} {p : Problem α}
    {s : Sample α} {ranking : Ranking α} (hkept : mem.ranking = some ranking)
    (h : (mem.sameProblem p && mem.sameSample s) = true ∨
      p.model.ranking s minGain = .ok ranking) : mem.rankingFor minGain p s = .ok ranking := by
  unfold rankingFor
  rw [hkept]
  dsimp only
  split
  · rfl
  · next hother => exact h.resolve_left hother

/-- A ranking that was made for another problem or sample is not used. -/
theorem Memory.rankingFor_of_not_same {mem : Memory α} {p : Problem α} {s : Sample α}
    (h : (mem.sameProblem p && mem.sameSample s) = false) (minGain : Option α) :
    mem.rankingFor minGain p s = p.model.ranking s minGain := by
  unfold rankingFor
  rw [h]
  split <;> rfl

theorem Memory.Sound.ranks {mem : Memory α} {minGain : Option α} {p : Problem α} {s : Sample α}
    {ranking : Ranking α} (h : mem.Sound minGain) (hp : p.model.WellFormed)
    (hranking : mem.rankingFor minGain p s = .ok ranking) :
    Ranks p.model.labels minGain ranking := by
  unfold rankingFor at hranking
  split at hranking
  · next kept hkept =>
    split at hranking
    · next hsame =>
      cases hranking
      obtain ⟨q, -, -, hover, hset⟩ := h.of_sameProblem ((Bool.and_eq_true _ _).mp hsame).1
      obtain ⟨kept', hkept', hranks⟩ := hover.ranks
      obtain rfl : kept' = ranking := Option.some.inj (hkept'.symm.trans hkept)
      exact hranks.congr hset
    · exact Model.ranks_of_ranking hp.labels_nodup hranking
  · exact Model.ranks_of_ranking hp.labels_nodup hranking

/-- A refreshed memory rolls over the problem at hand. Nothing is exposed if that is a new one. -/
theorem Memory.Sound.refreshed {mem ready : Memory α} {minGain : Option α} {p : Problem α}
    {s : Sample α} (h : mem.Sound minGain) (hp : p.model.WellFormed)
    (hready : mem.refresh minGain p s = .ok ready) :
    ready.Rolls minGain p ∧
      ready.problem = (if mem.sameProblem p then mem.problem else some p) ∧
      ready.unrolled = if mem.sameProblem p then mem.unrolled else .fresh := by
  obtain ⟨ranking, hranking, rfl⟩ := of_refresh_eq_ok hready
  have hranks := h.ranks hp hranking
  have hproblem := mem.problem_withRanking p s ranking
  have hunrolled := mem.unrolled_withRanking p s ranking
  refine ⟨?_, hproblem, hunrolled⟩
  by_cases hsame : mem.sameProblem p = true
  · obtain ⟨q, hq, hwell, hover, hset⟩ := h.of_sameProblem hsame
    rw [if_pos hsame] at hproblem hunrolled
    refine ⟨⟨⟨ranking, rfl, hranks⟩, ?_, ?_⟩, q, hproblem.trans hq, hwell, hset⟩
    · rw [hunrolled]
      exact hover.visited_nodup
    · rw [hunrolled]
      intro v hv
      exact (hset v).1 (hover.visited_known v hv)
  · rw [if_neg hsame] at hproblem hunrolled
    refine ⟨⟨⟨ranking, rfl, hranks⟩, ?_, ?_⟩, p, hproblem, hp, fun v => Iff.rfl⟩
    · rw [hunrolled]
      exact List.nodup_nil
    · rw [hunrolled]
      intro v hv
      exact absurd hv List.not_mem_nil

/-- Refreshing succeeds at a sample of all variables. -/
theorem Memory.exists_refresh (mem : Memory α) (minGain : Option α) {p : Problem α} {s : Sample α}
    (hs : p.model.Assigned s) : ∃ ready, mem.refresh minGain p s = .ok ready := by
  obtain ⟨ranking, hranking⟩ := Model.exists_ranking hs minGain
  rw [refresh_eq]
  unfold rankingFor
  split
  · next kept _ =>
    split
    · exact ⟨_, rfl⟩
    · exact ⟨mem.withRanking p s ranking, by rw [hranking]; rfl⟩
  · exact ⟨mem.withRanking p s ranking, by rw [hranking]; rfl⟩

/-! ### Selecting -/

theorem select_eq {best : Sample α} {ready : Memory α} (hbest : s.bestSample = .ok best)
    (hready : mem.refresh c.minGain s.problem best = .ok ready) :
    c.select mem s = (c.advance ready s best).after (c.adapted s) := by
  unfold select
  rw [hbest]
  dsimp only
  rw [hready]

theorem select_eq_of_bestSample_error {fault : Fault} (hbest : s.bestSample = .error fault)
    (c : EnergyImpact α) (mem : Memory α) : c.select mem s = ⟨.error fault, mem, []⟩ := by
  unfold select
  rw [hbest]

theorem select_eq_of_refresh_error {best : Sample α} {fault : Fault}
    (hbest : s.bestSample = .ok best)
    (hready : mem.refresh c.minGain s.problem best = .error fault) :
    c.select mem s = ⟨.error fault, mem, c.adapted s⟩ := by
  unfold select
  rw [hbest]
  dsimp only
  rw [hready]

/-- Whatever the result, a selection leaves a sound memory. -/
theorem sound_select (hp : s.problem.model.WellFormed) (hmem : mem.Sound c.minGain) :
    (c.select mem s).memory.Sound c.minGain := by
  have hchoose : ∀ {mem : Memory α} {sample : Sample α}, mem.Rolls c.minGain s.problem →
      (c.choose mem s sample).memory.Sound c.minGain := by
    intro mem sample hrolls
    obtain ⟨labels, htraversed, hchoose⟩ := choose_eq hp hrolls sample
    rw [hchoose]
    dsimp only
    split
    · exact (hrolls.expose htraversed).2.sound
    · exact hrolls.sound
  unfold select
  split
  · exact hmem
  · next sample _ =>
    split
    · exact hmem
    · next ready hready =>
      obtain ⟨hrolls, -, -⟩ := hmem.refreshed hp hready
      rw [Step.memory_after]
      unfold advance
      dsimp only
      split
      · split
        · exact hchoose (hrolls.rewind hp)
        · exact (hrolls.rewind hp).sound
      · exact hchoose hrolls

end EnergyImpact

end QuboSplit
