import QuboSplit.Proofs.Strategy.Recognition

/-!
# What a rolling strategy has exposed

Along any run a rolling strategy has exposed exactly what its calls have chosen since the last
rewind, each variable once (`visited_eq_choices`). A call that gets a ranking rewinds exactly if its
problem has another content than the one rolled over or the rolling is exhausted
(`Memory.Recalls.clears_iff`); then it starts again with nothing exposed. What it chooses is new
(`Exposes`, proved of every call by `exposes_select`), so the exposed variables stay within one
selection of their share (`rolling_invariant`).
-/

namespace QuboSplit

open Scalar (atMost half ofInt ofNat)

namespace EnergyImpact

section

variable {α : Type} [Scalar α] [DecidableEq α]

/-! ### One call -/

/-- The call gets a ranking: it finds a best sample, which has every value that a ranking asks
for. -/
def GetsRanking (c : EnergyImpact α) (mem : Memory α) (s : State α) : Prop :=
  ∃ best ready, s.bestSample = .ok best ∧ mem.refresh c.minGain s.problem best = .ok ready

/-- The call rewinds: with its ranking at hand it takes the problem for a new one, or finds the
rolling exhausted. -/
def clears (c : EnergyImpact α) (mem : Memory α) (s : State α) : Bool :=
  match s.bestSample with
  | .error _ => false
  | .ok best =>
    match mem.refresh c.minGain s.problem best with
    | .error _ => false
    | .ok ready =>
      !mem.sameProblem s.problem ||
        (c.rolling && ready.unrolled.exhausted c.history s.problem.model.size)

/-- What is exposed when the call comes to choose. -/
def kept (c : EnergyImpact α) (mem : Memory α) (s : State α) : List Label :=
  if c.clears mem s then [] else mem.unrolled.visited

/-- What the traversal of the call yields, if the call gets so far. -/
def chosen (c : EnergyImpact α) (mem : Memory α) (s : State α) : Option (List Label) :=
  (c.passed mem s).bind fun ranking =>
    (s.problem.model.traverse c.traversal ranking (c.kept mem s) (c.room s)).toOption

section

variable {c : EnergyImpact α} {mem ready : Memory α} {s : State α} {best : Sample α}

theorem clears_of_ready (hbest : s.bestSample = .ok best)
    (hready : mem.refresh c.minGain s.problem best = .ok ready) :
    c.clears mem s = (!mem.sameProblem s.problem ||
      (c.rolling && ready.unrolled.exhausted c.history s.problem.model.size)) := by
  unfold clears
  rw [hbest]
  dsimp only
  rw [hready]

/-- A refreshed memory has forgotten what a new problem makes it forget. -/
theorem Memory.unrolled_of_refresh {p : Problem α} {minGain : Option α}
    (h : mem.refresh minGain p best = .ok ready) :
    ready.unrolled = if mem.sameProblem p then mem.unrolled else .fresh := by
  obtain ⟨ranking, -, rfl⟩ := of_refresh_eq_ok h
  exact mem.unrolled_withRanking p best ranking

theorem kept_of_ready (hbest : s.bestSample = .ok best)
    (hready : mem.refresh c.minGain s.problem best = .ok ready) :
    c.kept mem s =
      if c.rolling && ready.unrolled.exhausted c.history s.problem.model.size then []
      else ready.unrolled.visited := by
  have hunrolled := Memory.unrolled_of_refresh hready
  unfold kept
  rw [clears_of_ready hbest hready]
  cases hsame : mem.sameProblem s.problem with
  | true =>
    rw [hsame, if_pos rfl] at hunrolled
    rw [hunrolled]
    rfl
  | false =>
    rw [hsame] at hunrolled
    rw [hunrolled]
    exact (ite_self _).symm

theorem passed_of_ready (hbest : s.bestSample = .ok best)
    (hready : mem.refresh c.minGain s.problem best = .ok ready) :
    c.passed mem s =
      if c.rolling && ready.unrolled.exhausted c.history s.problem.model.size && !c.silentRewind
      then none
      else ready.ranking := by
  unfold passed
  rw [hbest]
  dsimp only
  rw [hready]

/-- A call without a ranking changes nothing and chooses nothing. -/
theorem select_of_not_getsRanking (h : ¬ c.GetsRanking mem s) :
    (c.select mem s).memory = mem ∧ c.clears mem s = false ∧ c.chosen mem s = none := by
  unfold clears chosen passed
  rcases hbest : s.bestSample with fault | best
  · rw [select_eq_of_bestSample_error hbest]
    exact ⟨rfl, rfl, rfl⟩
  rcases hready : mem.refresh c.minGain s.problem best with fault | ready
  · rw [select_eq_of_refresh_error hbest hready]
    dsimp only
    rw [hready]
    exact ⟨rfl, rfl, rfl⟩
  exact absurd ⟨best, ready, hbest, hready⟩ h

end

/-- What one call does to the exposed variables: it keeps or forgets them, and adds new variables of
the problem, as many as the size allows. -/
structure Exposes (c : EnergyImpact α) (mem : Memory α) (s : State α) : Prop where
  visited_eq : (c.select mem s).memory.unrolled.visited =
    c.kept mem s ++ (c.chosen mem s).getD []
  nodup : ∀ labels, c.chosen mem s = some labels → labels.Nodup
  fresh : ∀ labels, c.chosen mem s = some labels → ∀ v ∈ labels, v ∉ c.kept mem s
  length_le : ∀ labels, c.chosen mem s = some labels → labels.length ≤ c.size.value

variable {c : EnergyImpact α} {mem : Memory α} {s : State α}

theorem exposes_of_chosen_eq_none (hvisited : (c.select mem s).memory.unrolled.visited =
    c.kept mem s) (hchosen : c.chosen mem s = none) : c.Exposes mem s := by
  refine ⟨?_, ?_, ?_, ?_⟩
  · rw [hvisited, hchosen]
    exact (List.append_nil _).symm
  all_goals
    intro labels hlabels
    rw [hchosen] at hlabels
    cases hlabels

/-- Choosing from a memory that rolls over the problem exposes what it chooses. -/
theorem exposes_of_choose {next : Memory α} {best : Sample α} {ranking : Ranking α}
    (hrolling : c.rolling = true) (hp : s.problem.model.WellFormed)
    (hnext : next.Rolls c.minGain s.problem) (hkept : c.kept mem s = next.unrolled.visited)
    (hranking : next.ranking = some ranking) (hpassed : c.passed mem s = some ranking)
    (hmemory : (c.select mem s).memory = (c.choose next s best).memory) : c.Exposes mem s := by
  obtain ⟨ranking', labels, hranking', hok, htraversed⟩ := exists_choice hp hnext
  obtain rfl : ranking' = ranking := Option.some.inj (hranking'.symm.trans hranking)
  have hchosen : c.chosen mem s = some labels := by
    unfold chosen
    rw [hpassed, Option.bind_some, hkept]
    exact congrArg Except.toOption hok
  refine ⟨?_, ?_, ?_, ?_⟩
  · rw [hmemory, choose_of_traverse hranking hok, if_pos hrolling, hchosen, hkept]
    exact (hnext.expose htraversed).1
  all_goals
    intro labels' hlabels'
    obtain rfl : labels = labels' := Option.some.inj (hchosen.symm.trans hlabels')
  · exact htraversed.nodup
  · exact hkept ▸ htraversed.unvisited
  · exact (Model.length_traverse_le hok).trans (Nat.min_le_left _ _)

/-- Every call of a rolling strategy exposes what it chooses. -/
theorem exposes_select (hrolling : c.rolling = true) (hp : s.problem.model.WellFormed)
    (hmem : mem.Sound c.minGain) : c.Exposes mem s := by
  by_cases hranks : c.GetsRanking mem s
  · obtain ⟨best, ready, hbest, hready⟩ := hranks
    obtain ⟨hrolls, -, -⟩ := hmem.refreshed hp hready
    obtain ⟨ranking, hranking, -⟩ := hrolls.covers.ranks
    have hkept := kept_of_ready hbest hready
    have hpassed := passed_of_ready hbest hready
    have hmemory : (c.select mem s).memory = (c.advance ready s best).memory := by
      rw [select_eq hbest hready]
      rfl
    rw [advance_eq hrolling] at hmemory
    rw [hrolling, Bool.true_and] at hkept hpassed
    by_cases hdue : ready.unrolled.exhausted c.history s.problem.model.size = true
    · rw [if_pos hdue] at hkept hmemory
      rw [hdue, Bool.true_and] at hpassed
      cases hsilent : c.silentRewind with
      | false =>
        -- the stream ends and nothing is chosen
        rw [hsilent] at hmemory hpassed
        refine exposes_of_chosen_eq_none ?_ ?_
        · rw [hmemory, hkept]
          rfl
        · unfold chosen
          rw [hpassed]
          rfl
      | true =>
        rw [hsilent] at hmemory hpassed
        exact exposes_of_choose hrolling hp (hrolls.rewind hp) hkept hranking
          (hpassed.trans hranking) hmemory
    · rw [if_neg hdue] at hkept hmemory
      rw [Bool.eq_false_of_not_eq_true hdue, Bool.false_and] at hpassed
      exact exposes_of_choose hrolling hp hrolls hkept hranking (hpassed.trans hranking) hmemory
  · obtain ⟨hmemory, hclears, hchosen⟩ := select_of_not_getsRanking hranks
    refine exposes_of_chosen_eq_none ?_ hchosen
    unfold kept
    rw [hmemory, hclears]
    rfl

/-! ### Runs -/

/-- What a call does to the memory and to the choices since the last rewind. -/
def follow (c : EnergyImpact α) (run : Memory α × List (List Label)) (s : State α) :
    Memory α × List (List Label) :=
  ((c.select run.1 s).memory,
    (if c.clears run.1 s then [] else run.2) ++ (c.chosen run.1 s).toList)

/-- The choices since the last rewind after calls on states one after another. -/
def choicesAfter (c : EnergyImpact α) (states : List (State α)) : List (List Label) :=
  (states.foldl c.follow (.fresh, [])).2

theorem choicesAfter_append (c : EnergyImpact α) (states : List (State α)) (s : State α) :
    c.choicesAfter (states ++ [s]) =
      (if c.clears (c.memoryAfter states) s then [] else c.choicesAfter states) ++
        (c.chosen (c.memoryAfter states) s).toList := by
  have hmemory : ∀ states : List (State α),
      (states.foldl c.follow (.fresh, [])).1 = c.memoryAfter states := by
    intro states
    induction states using List.reverseRecOn with
    | nil => rfl
    | append_singleton states s ih =>
      rw [List.foldl_append, memoryAfter_append, ← ih]
      rfl
  unfold choicesAfter
  rw [List.foldl_append, ← hmemory]
  rfl

variable {states : List (State α)}

theorem sound_memoryAfter (c : EnergyImpact α)
    (hstates : ∀ t ∈ states, t.problem.model.WellFormed) :
    (c.memoryAfter states).Sound c.minGain := by
  induction states using List.reverseRecOn with
  | nil => exact Memory.sound_fresh _
  | append_singleton states s ih =>
    rw [memoryAfter_append]
    exact sound_select (hstates s (by simp)) (ih fun t ht => hstates t (List.mem_append_left _ ht))

/-- What is exposed after a run is what its calls chose since the last rewind, each variable
once. -/
theorem visited_eq_choices (hrolling : c.rolling = true)
    (hstates : ∀ t ∈ states, t.problem.model.WellFormed) :
    (c.memoryAfter states).unrolled.visited = (c.choicesAfter states).flatten ∧
      (c.choicesAfter states).flatten.Nodup := by
  induction states using List.reverseRecOn with
  | nil => exact ⟨rfl, List.nodup_nil⟩
  | append_singleton states s ih =>
    have hbefore : ∀ t ∈ states, t.problem.model.WellFormed := fun t ht =>
      hstates t (List.mem_append_left _ ht)
    obtain ⟨hvisited, hnodup⟩ := ih hbefore
    have hturn : c.Exposes (c.memoryAfter states) s :=
      exposes_select hrolling (hstates s (by simp)) (sound_memoryAfter c hbefore)
    have hkept : (if c.clears (c.memoryAfter states) s then [] else c.choicesAfter states).flatten =
        c.kept (c.memoryAfter states) s := by
      unfold kept
      rw [hvisited]
      split <;> rfl
    have hkeptNodup : (c.kept (c.memoryAfter states) s).Nodup := by
      unfold kept
      split
      · exact List.nodup_nil
      · exact hvisited ▸ hnodup
    rw [memoryAfter_append, choicesAfter_append, hturn.visited_eq, List.flatten_append, hkept]
    cases hchosen : c.chosen (c.memoryAfter states) s with
    | none => exact ⟨rfl, by simpa using hkeptNodup⟩
    | some labels =>
      refine ⟨by simp, ?_⟩
      rw [Option.toList_some, List.flatten_singleton]
      refine List.nodup_append.2 ⟨hkeptNodup, hturn.nodup labels hchosen, fun v hv w hw e => ?_⟩
      exact hturn.fresh labels hchosen w hw (e ▸ hv)

end

/-! ### When a call rewinds -/

variable {c : EnergyImpact Binary64} {mem : Memory Binary64} {s : State Binary64}
  {states : List (State Binary64)}

/-- A call that gets a ranking rewinds exactly if the content of its problem is new or the exposed
variables have reached their share. -/
theorem Memory.Recalls.clears_iff (h : mem.Recalls states)
    (hstates : ∀ t ∈ states, t.problem.model.WellFormed ∧ t.problem.model.isFinite = true)
    (hp : s.problem.model.WellFormed) (hrolling : c.rolling = true)
    (hranks : c.GetsRanking mem s) :
    c.clears mem s = true ↔
      (∀ q, mem.problem = some q → q.model.sameContent s.problem.model = false) ∨
        (mem.unrolled.visited ≠ [] ∧ atMost (c.history.share * ofInt s.problem.model.size)
          (ofNat mem.unrolled.visited.length : Binary64) = true) := by
  obtain ⟨best, ready, hbest, hready⟩ := hranks
  have hunrolled := Memory.unrolled_of_refresh hready
  have hiff := h.sameProblem_iff hstates hp
  rw [clears_of_ready hbest hready, hrolling, Bool.true_and]
  cases hsame : mem.sameProblem s.problem with
  | true =>
    obtain ⟨q, hq, hcontent⟩ := hiff.1 hsame
    rw [hsame, if_pos rfl] at hunrolled
    rw [hunrolled, Bool.not_true, Bool.false_or, Rolling.exhausted_iff]
    refine ⟨Or.inr, fun hcase => hcase.resolve_left fun hnew => ?_⟩
    rw [hnew q hq] at hcontent
    cases hcontent
  | false =>
    refine ⟨fun _ => Or.inl fun q hq => ?_, fun _ => by simp⟩
    rw [← Bool.not_eq_true]
    intro hcontent
    rw [hiff.2 ⟨q, hq, hcontent⟩] at hsame
    cases hsame

theorem getsRanking_of_chosen {labels : List Label} (h : c.chosen mem s = some labels) :
    c.GetsRanking mem s := by
  by_contra hnot
  rw [(select_of_not_getsRanking hnot).2.2] at h
  cases h

/-- What is exposed when a call chooses is nothing, or is short of its share. -/
theorem Memory.Recalls.kept_short (h : mem.Recalls states)
    (hstates : ∀ t ∈ states, t.problem.model.WellFormed ∧ t.problem.model.isFinite = true)
    (hp : s.problem.model.WellFormed) (hrolling : c.rolling = true)
    (hranks : c.GetsRanking mem s) :
    c.kept mem s = [] ∨ atMost (c.history.share * ofInt s.problem.model.size)
      (ofNat (c.kept mem s).length : Binary64) = false := by
  unfold kept
  cases hclears : c.clears mem s with
  | true => exact .inl rfl
  | false =>
    rw [← Bool.not_eq_true, h.clears_iff hstates hp hrolling hranks] at hclears
    rw [if_neg Bool.false_ne_true]
    by_cases hempty : mem.unrolled.visited = []
    · exact .inl hempty
    · exact .inr (Bool.eq_false_of_not_eq_true fun hreached => hclears (.inr ⟨hempty, hreached⟩))

/-! ### The invariant -/

/-- What holds of a rolling strategy after a run. -/
structure Rolled (c : EnergyImpact Binary64) (states : List (State Binary64)) : Prop where
  visited_iff : ∀ v, v ∈ (c.memoryAfter states).unrolled.visited ↔
    ∃ labels ∈ c.choicesAfter states, v ∈ labels
  nodup : (c.memoryAfter states).unrolled.visited.Nodup
  disjoint : (c.choicesAfter states).Pairwise List.Disjoint
  known : ∀ v ∈ (c.memoryAfter states).unrolled.visited,
    ∃ p, (c.memoryAfter states).problem = some p ∧ v ∈ p.model.labels

/-- How a rolling strategy goes on with a call. The numbers are compared as rounded ones, save in
the last bound. -/
structure RollsOn (c : EnergyImpact Binary64) (mem : Memory Binary64) (s : State Binary64) :
    Prop where
  without_ranking : ¬ c.GetsRanking mem s → (c.select mem s).memory = mem
  clears_iff : c.GetsRanking mem s → (c.clears mem s = true ↔
    (∀ q, mem.problem = some q → q.model.sameContent s.problem.model = false) ∨
      (mem.unrolled.visited ≠ [] ∧ atMost (c.history.share * ofInt s.problem.model.size)
        (ofNat mem.unrolled.visited.length : Binary64) = true))
  visited_eq : (c.select mem s).memory.unrolled.visited =
    (if c.clears mem s then [] else mem.unrolled.visited) ++ (c.chosen mem s).getD []
  short : ∀ labels, c.chosen mem s = some labels → c.kept mem s = [] ∨
    atMost (c.history.share * ofInt s.problem.model.size)
      (ofNat (c.kept mem s).length : Binary64) = false
  length_le : ∀ labels, c.chosen mem s = some labels →
    (c.select mem s).memory.unrolled.visited.length ≤ c.size.value ∨
      ∀ total, (c.history.share * ofInt s.problem.model.size : Binary64).value? = some total →
        ((c.select mem s).memory.unrolled.visited.length : Rat) < total + c.size.value

theorem rolled (hrolling : c.rolling = true)
    (hstates : ∀ t ∈ states, t.problem.model.WellFormed) : c.Rolled states := by
  obtain ⟨hvisited, hnodup⟩ := visited_eq_choices hrolling hstates
  refine ⟨fun v => ?_, hvisited ▸ hnodup, (List.nodup_flatten.1 hnodup).2, fun v hv => ?_⟩
  · rw [hvisited, List.mem_flatten]
  · have hsound := sound_memoryAfter c hstates
    unfold Memory.Sound at hsound
    cases hproblem : (c.memoryAfter states).problem with
    | none =>
      -- before the first problem nothing is exposed
      rw [hproblem] at hsound
      rw [hsound.2] at hv
      cases hv
    | some p =>
      rw [hproblem] at hsound
      exact ⟨p, rfl, hsound.2.visited_known v hv⟩

theorem Memory.Recalls.rollsOn (h : mem.Recalls states)
    (hstates : ∀ t ∈ states, t.problem.model.WellFormed ∧ t.problem.model.isFinite = true)
    (hp : s.problem.model.WellFormed) (hrolling : c.rolling = true)
    (hmem : mem.Sound c.minGain) : c.RollsOn mem s := by
  have hturn : c.Exposes mem s := exposes_select hrolling hp hmem
  have hshort : ∀ labels, c.chosen mem s = some labels → c.kept mem s = [] ∨
      atMost (c.history.share * ofInt s.problem.model.size)
        (ofNat (c.kept mem s).length : Binary64) = false := fun labels hlabels =>
    h.kept_short hstates hp hrolling (getsRanking_of_chosen hlabels)
  refine ⟨fun hnot => (select_of_not_getsRanking hnot).1, h.clears_iff hstates hp hrolling,
    hturn.visited_eq, hshort, fun labels hlabels => ?_⟩
  have hadded := hturn.length_le labels hlabels
  rw [hturn.visited_eq, hlabels, Option.getD_some, List.length_append]
  refine (hshort labels hlabels).imp (fun hempty => ?_) fun hless total htotal => ?_
  · rw [hempty]
    simpa using hadded
  · rw [atMost_eq, ofNat_eq] at hless
    have hkept := Floating.lt_of_not_atMost hless htotal
    have hadded' : (labels.length : Rat) ≤ c.size.value := by exact_mod_cast hadded
    push_cast
    linarith

/-- After any run of a rolling strategy on finite models the exposed variables are the ones chosen
since the last rewind, each chosen once and all of the problem rolled over. The next call rewinds
exactly if its problem has another content or the exposed variables have reached their share, and
chooses only with nothing exposed or less than the share. Without rolling nothing is exposed. -/
theorem rolling_invariant (c : EnergyImpact Binary64) {states : List (State Binary64)}
    (hstates : ∀ t ∈ states, t.problem.model.Reachable ∧ t.problem.model.isFinite = true) :
    (c.rolling = true → c.Rolled states ∧
      ∀ s : State Binary64, s.problem.model.Reachable → c.RollsOn (c.memoryAfter states) s) ∧
    (c.rolling = false → (c.memoryAfter states).unrolled.visited = []) := by
  have hwell : ∀ t ∈ states, t.problem.model.WellFormed ∧ t.problem.model.isFinite = true :=
    fun t ht => ⟨(hstates t ht).1.wellFormed, (hstates t ht).2⟩
  have hwell' : ∀ t ∈ states, t.problem.model.WellFormed := fun t ht => (hwell t ht).1
  refine ⟨fun hrolling => ⟨rolled hrolling hwell', fun s hs => ?_⟩, fun hrolling => ?_⟩
  · exact (recalls_memoryAfter c states).rollsOn hwell hs.wellFormed hrolling
      (sound_memoryAfter c hwell')
  · rw [unrolled_memoryAfter hrolling]
    rfl

theorem half_inRange : (atMost (ofInt 0) (half (ofInt 1) : Binary64) &&
    atMost (half (ofInt 1) : Binary64) (ofInt 1)) = true := by
  decide +kernel

/-- One variable at a time, until half of them are exposed. -/
def halves : EnergyImpact Binary64 :=
  ⟨⟨1, Nat.one_pos⟩, none, true, ⟨half (ofInt 1), half_inRange⟩, false, .energy⟩

/-- One of two variables is half of them, so the call after the first rewinds. -/
theorem rolling_invariant_tied :
    let first := tied 0 (.number 0) (.number 1)
    let copy := tied 1 (.number 0) (.number 1)
    halves.Rolled [first] ∧ (halves.memoryAfter [first]).unrolled.visited = [.number 0] ∧
      halves.clears (halves.memoryAfter [first]) copy = true := by
  intro first copy
  have hstates : ∀ t ∈ [first], t.problem.model.Reachable ∧ t.problem.model.isFinite = true :=
    List.forall_mem_singleton.2 ⟨tied_reachable .., by decide +kernel⟩
  obtain ⟨hrolled, hnext⟩ := (rolling_invariant halves hstates).1 rfl
  have hbest : copy.bestSample = .ok tiedZeros.sample := by decide +kernel
  have hassigned : ∀ v ∈ copy.problem.model.labels, (tiedZeros.sample.get? v).isSome := by
    decide +kernel
  obtain ⟨ready, hready⟩ :=
    (halves.memoryAfter [first]).exists_refresh halves.minGain hassigned
  have hvisited : (halves.memoryAfter [first]).unrolled.visited = [.number 0] := by decide +kernel
  refine ⟨hrolled, hvisited, ?_⟩
  refine ((hnext copy (tied_reachable ..)).clears_iff ⟨_, ready, hbest, hready⟩).2 (.inr ?_)
  rw [hvisited]
  decide +kernel

end EnergyImpact

end QuboSplit
