import QuboSplit.Proofs.Strategy.EnergyImpact

/-!
# Rolling over a problem

Repeated selections on one state go through the problem in cycles. Without a least gain each
selection of a cycle takes variables that the cycle has not exposed yet, as many as the size and the
variables left allow (`Turn`, proved of every call by `turn_call`). A cycle ends at the first call
that finds it exhausted; with a share of one its selections partition the problem.
-/

namespace QuboSplit

open Scalar (ofInt ofNat atMost)

namespace Step

variable {μ : Type} {α : Type} [Scalar α]

/-- The step reports a rewind. -/
def rewinds (step : Step μ (Selection α)) : Bool :=
  step.events.any fun e => e.kind = .rollingRewind

/-- The variables of the subproblem that the step yields, if it yields a state. -/
def selected? (step : Step μ (Selection α)) : Option (List Label) :=
  match step.result with
  | .ok (.state s) => s.subproblem.map Model.labels
  | _ => none

theorem rewinds_after (earlier : List Event) (step : Step μ (Selection α)) :
    (step.after earlier).rewinds =
      ((earlier.any fun e => e.kind = .rollingRewind) || step.rewinds) := by
  unfold rewinds after
  rw [List.any_append]

theorem selected?_of_state {step : Step μ (Selection α)} {s : State α} {sub : Model α}
    (h : step.result = .ok (.state (s.withSubproblem sub))) : step.selected? = some sub.labels := by
  unfold selected?
  rw [h]
  rfl

theorem selected?_of_endOfStream {step : Step μ (Selection α)}
    (h : step.result = .ok .endOfStream) : step.selected? = none := by
  unfold selected?
  rw [h]

end Step

namespace EnergyImpact

variable {α : Type} [Scalar α]

/-! ### Choosing without a least gain -/

theorem any_adapted (c : EnergyImpact α) (s : State α) :
    ((c.adapted s).any fun e => e.kind = .rollingRewind) = false := by
  unfold adapted
  dsimp only
  split <;> rfl

/-- As long as a variable is left, choosing without a least gain selects some. -/
theorem choose_of_room {c : EnergyImpact α} {mem : Memory α} {s : State α} {best : Sample α}
    (hrolling : c.rolling = true) (hgain : c.minGain = none) (hp : s.problem.model.WellFormed)
    (hs : s.problem.model.Assigned best) (hmem : mem.Rolls c.minGain s.problem)
    (hroom : mem.unrolled.visited.length < s.problem.model.size) :
    ∃ sub, (c.choose mem s best).result = .ok (.state (s.withSubproblem sub)) ∧
      (c.choose mem s best).rewinds = false ∧
      (c.choose mem s best).memory.problem = mem.problem ∧
      (c.choose mem s best).memory.unrolled.visited = mem.unrolled.visited ++ sub.labels ∧
      sub.labels.Nodup ∧
      (∀ v ∈ sub.labels, v ∈ s.problem.model.labels ∧ v ∉ mem.unrolled.visited) ∧
      sub.labels.length =
        min c.size.value (s.problem.model.size - mem.unrolled.visited.length) ∧
      0 < sub.labels.length := by
  obtain ⟨labels, htraversed, hchoose⟩ := choose_eq hp hmem best
  have hlength := htraversed.length_eq (hmem.covers.mem_ranked hgain)
  have hsize := c.size.pos
  have hpos : 0 < labels.length := by omega
  obtain ⟨sub, rfl, hsub⟩ := (State.select_labels hp hs htraversed.nodup htraversed.known).2
    (List.ne_nil_of_length_pos hpos)
  have hvisited := (hmem.expose htraversed).1
  rw [hchoose, hsub, hrolling]
  refine ⟨sub, rfl, rfl, rfl, hvisited, htraversed.nodup,
    fun v hv => ⟨htraversed.known v hv, htraversed.unvisited v hv⟩, ?_, hpos⟩
  omega

/-! ### One call -/

/-- What one call does when `exposed` has been exposed. If it rewinds it may end the stream; else it
selects different variables of the problem, none of them exposed since the last rewind, as many as
the size and the variables left allow. -/
structure Turn (c : EnergyImpact α) (s : State α) (exposed : List Label)
    (step : Step (Memory α) (Selection α)) : Prop where
  problem_eq : step.memory.problem = some s.problem
  rewinds_iff : step.rewinds = true ↔ exposed ≠ [] ∧
    atMost (c.history.share * ofInt s.problem.model.size) (ofNat exposed.length : α) = true
  outcome :
    (step.rewinds = true ∧ c.silentRewind = false ∧ step.result = .ok .endOfStream ∧
      step.memory.unrolled.visited = []) ∨
    ((step.rewinds = true → c.silentRewind = true) ∧
      ∃ sub kept, kept = (if step.rewinds then [] else exposed) ∧
        step.result = .ok (.state (s.withSubproblem sub)) ∧ sub.labels.Nodup ∧
        (∀ v ∈ sub.labels, v ∈ s.problem.model.labels ∧ v ∉ kept) ∧
        sub.labels.length = min c.size.value (s.problem.model.size - kept.length) ∧
        0 < sub.labels.length ∧ step.memory.unrolled.visited = kept ++ sub.labels)

variable {c : EnergyImpact α} {s : State α} {exposed : List Label}
  {step : Step (Memory α) (Selection α)}

theorem Turn.exists_selection (h : Turn c s exposed step) :
    ∃ selection, step.result = .ok selection := by
  rcases h.outcome with ⟨-, -, hresult, -⟩ | ⟨-, sub, -, -, hresult, -⟩
  · exact ⟨_, hresult⟩
  · exact ⟨_, hresult⟩

theorem Turn.selected?_eq_none_iff (h : Turn c s exposed step) :
    step.selected? = none ↔ step.rewinds = true ∧ c.silentRewind = false := by
  rcases h.outcome with ⟨hrewinds, hloud, hresult, -⟩ | ⟨hsilent, sub, -, -, hresult, -⟩
  · exact ⟨fun _ => ⟨hrewinds, hloud⟩, fun _ => Step.selected?_of_endOfStream hresult⟩
  · rw [Step.selected?_of_state hresult]
    constructor
    · intro e
      cases e
    · rintro ⟨hrewinds, hloud⟩
      rw [hsilent hrewinds] at hloud
      cases hloud

theorem Turn.of_selected? (h : Turn c s exposed step) {labels : List Label}
    (hlabels : step.selected? = some labels) :
    let kept := if step.rewinds then [] else exposed
    labels.Nodup ∧ (∀ v ∈ labels, v ∈ s.problem.model.labels ∧ v ∉ kept) ∧
      labels.length = min c.size.value (s.problem.model.size - kept.length) ∧
      0 < labels.length := by
  rcases h.outcome with ⟨-, -, hresult, -⟩ |
    ⟨-, sub, kept, hkept, hresult, hnodup, hnew, hlength, hpos, -⟩
  · rw [Step.selected?_of_endOfStream hresult] at hlabels
    cases hlabels
  · rw [Step.selected?_of_state hresult] at hlabels
    obtain rfl := Option.some.inj hlabels
    subst hkept
    exact ⟨hnodup, hnew, hlength, hpos⟩

/-! ### Repeated selections -/

variable [DecidableEq α]

/-- The memory before call `k` when a fresh strategy selects on one state again and again. -/
def memoryAt (c : EnergyImpact α) (s : State α) : Nat → Memory α
  | 0 => .fresh
  | k + 1 => (c.select (c.memoryAt s k) s).memory

/-- Call `k` of these selections. -/
def call (c : EnergyImpact α) (s : State α) (k : Nat) : Step (Memory α) (Selection α) :=
  c.select (c.memoryAt s k) s

/-- The variable sets selected before call `k` since the last rewind. -/
def cycle (c : EnergyImpact α) (s : State α) : Nat → List (List Label)
  | 0 => []
  | k + 1 =>
    (if (c.call s k).rewinds then [] else c.cycle s k) ++ (c.call s k).selected?.toList

/-! ### Single calls -/

/-- The problem can be rolled over: no least gain, some variables, no more than can be counted in
64 bits, and a best sample of all of them. -/
structure RollsOver (c : EnergyImpact Binary64) (s : State Binary64) (best : Sample Binary64) :
    Prop where
  rolling : c.rolling = true
  minGain : c.minGain = none
  wellFormed : s.problem.model.WellFormed
  pos : 0 < s.problem.model.size
  lt : s.problem.model.size < 2 ^ 64
  best_eq : s.bestSample = .ok best
  assigned : s.problem.model.Assigned best

variable {c : EnergyImpact Binary64} {s : State Binary64} {best : Sample Binary64}

theorem turn_advance (h : RollsOver c s best) {mem : Memory Binary64}
    (hmem : mem.Rolls c.minGain s.problem) (hproblem : mem.problem = some s.problem) :
    Turn c s mem.unrolled.visited (c.advance mem s best) := by
  have hle := hmem.covers.length_le
  rw [advance_eq h.rolling]
  by_cases hex : mem.unrolled.exhausted c.history s.problem.model.size = true
  · rw [if_pos hex]
    have hiff := Rolling.exhausted_iff.1 hex
    cases hsilent : c.silentRewind with
    | false =>
      rw [if_neg (by simp)]
      exact ⟨rfl, ⟨fun _ => hiff, fun _ => rfl⟩, Or.inl ⟨rfl, hsilent, rfl, rfl⟩⟩
    | true =>
      rw [if_pos rfl]
      obtain ⟨sub, hresult, -, hproblem', hvisited, hnodup, hnew, hlength, hpos⟩ :=
        choose_of_room h.rolling h.minGain h.wellFormed h.assigned (hmem.rewind h.wellFormed) h.pos
      have hrewinds : ((c.choose (mem.rewind s.problem) s best).after [rewound mem]).rewinds =
          true := by
        rw [Step.rewinds_after]
        rfl
      refine ⟨hproblem', ⟨fun _ => hiff, fun _ => hrewinds⟩, Or.inr ⟨fun _ => hsilent, sub, [], ?_,
        hresult, hnodup, hnew, hlength, hpos, hvisited⟩⟩
      rw [hrewinds, if_pos rfl]
  · -- not being exhausted means that some variable is left, since the whole problem exhausts
    have hroom : mem.unrolled.visited.length < s.problem.model.size := by
      by_contra hfull
      exact hex (Rolling.exhausted_of_size_eq h.pos h.lt (by unfold Rolling.size; omega))
    obtain ⟨sub, hresult, hrewinds, hproblem', hvisited, hnodup, hnew, hlength, hpos⟩ :=
      choose_of_room h.rolling h.minGain h.wellFormed h.assigned hmem hroom
    rw [if_neg hex]
    refine ⟨hproblem'.trans hproblem, ?_, Or.inr ⟨?_, sub, _, ?_, hresult, hnodup, hnew, hlength,
      hpos, hvisited⟩⟩
    · rw [hrewinds]
      constructor
      · intro e
        cases e
      · intro hiff
        exact absurd (Rolling.exhausted_iff.2 hiff) hex
    · rw [hrewinds]
      intro e
      cases e
    · rw [hrewinds, if_neg (by simp)]

theorem turn_select (h : RollsOver c s best) {mem : Memory Binary64} (hmem : mem.Sound c.minGain)
    (hproblem : mem.problem = none ∨ mem.problem = some s.problem) :
    Turn c s mem.unrolled.visited (c.select mem s) := by
  obtain ⟨ready, hready⟩ := mem.exists_refresh c.minGain h.assigned
  obtain ⟨hrolls, hproblem', hunrolled⟩ := hmem.refreshed h.wellFormed hready
  -- a fresh memory takes the problem over with nothing exposed, which is what it had
  have hsame : ready.problem = some s.problem ∧ ready.unrolled = mem.unrolled := by
    rcases hproblem with hnone | hsome
    · have hother : mem.sameProblem s.problem = false := by
        unfold Memory.sameProblem
        rw [hnone]
      unfold Memory.Sound at hmem
      rw [hnone] at hmem
      rw [hother] at hproblem' hunrolled
      exact ⟨hproblem', hunrolled.trans hmem.2.symm⟩
    · rw [Memory.sameProblem_self hsome, if_pos rfl] at hproblem' hunrolled
      exact ⟨hproblem'.trans hsome, hunrolled⟩
  have hturn := turn_advance h hrolls hsame.1
  have hrewinds : ((c.advance ready s best).after (c.adapted s)).rewinds =
      (c.advance ready s best).rewinds := by
    rw [Step.rewinds_after, any_adapted, Bool.false_or]
  rw [select_eq h.best_eq hready, ← hsame.2]
  exact ⟨hturn.problem_eq, by rw [hrewinds]; exact hturn.rewinds_iff,
    by rw [hrewinds]; exact hturn.outcome⟩

/-! ### Whole runs -/

/-- Before every call the memory is sound and has exposed what the cycle selected. -/
theorem memoryAt_spec (h : RollsOver c s best) (k : Nat) :
    (c.memoryAt s k).Sound c.minGain ∧
      ((c.memoryAt s k).problem = none ∨ (c.memoryAt s k).problem = some s.problem) ∧
      (c.memoryAt s k).unrolled.visited = (c.cycle s k).flatten := by
  induction k with
  | zero => exact ⟨Memory.sound_fresh c.minGain, Or.inl rfl, rfl⟩
  | succ k ih =>
    obtain ⟨hsound, hproblem, hvisited⟩ := ih
    have hturn : Turn c s (c.memoryAt s k).unrolled.visited (c.call s k) :=
      turn_select h hsound hproblem
    refine ⟨sound_select h.wellFormed hsound, Or.inr hturn.problem_eq, ?_⟩
    show (c.call s k).memory.unrolled.visited =
      ((if (c.call s k).rewinds then [] else c.cycle s k) ++
        (c.call s k).selected?.toList).flatten
    rcases hturn.outcome with ⟨hrewinds, -, hresult, hempty⟩ |
      ⟨-, sub, kept, hkept, hresult, -, -, -, -, hafter⟩
    · rw [hrewinds, Step.selected?_of_endOfStream hresult]
      exact hempty
    · rw [Step.selected?_of_state hresult, List.flatten_append]
      refine hafter.trans ?_
      rw [hkept, hvisited]
      show _ = _ ++ [sub.labels].flatten
      rw [List.flatten_singleton]
      congr 1
      show (if (c.call s k).rewinds then [] else (c.cycle s k).flatten) = _
      split <;> rfl

theorem turn_call (h : RollsOver c s best) (k : Nat) :
    Turn c s (c.cycle s k).flatten (c.call s k) := by
  obtain ⟨hsound, hproblem, hvisited⟩ := memoryAt_spec h k
  rw [← hvisited]
  exact turn_select h hsound hproblem

/-! ### Whole cycles -/

/-- The sets selected in a cycle: different variables of the model, filled up in order, the last set
being needed. -/
structure Filled (m : Model Binary64) (size : Nat) (sets : List (List Label)) : Prop where
  nodup : sets.flatten.Nodup
  known : ∀ v ∈ sets.flatten, v ∈ m.labels
  length_eq : sets.flatten.length = min (sets.length * size) m.size
  needed : (sets.length - 1) * size < m.size

theorem Filled.nil {m : Model Binary64} (hpos : 0 < m.size) (size : Nat) : Filled m size [] where
  nodup := List.nodup_nil
  known := by simp
  length_eq := by simp
  needed := by simpa using hpos

theorem Filled.append {m : Model Binary64} {size : Nat} {sets : List (List Label)}
    (h : Filled m size sets) {labels : List Label} (hnodup : labels.Nodup)
    (hnew : ∀ v ∈ labels, v ∈ m.labels ∧ v ∉ sets.flatten)
    (hlength : labels.length = min size (m.size - sets.flatten.length))
    (hpos : 0 < labels.length) : Filled m size (sets ++ [labels]) := by
  have hflatten : (sets ++ [labels]).flatten = sets.flatten ++ labels := by simp
  have hcount := h.length_eq
  refine ⟨?_, ?_, ?_, ?_⟩
  · rw [hflatten]
    refine List.nodup_append.2 ⟨h.nodup, hnodup, ?_⟩
    intro v hv w hw e
    exact (hnew w hw).2 (e ▸ hv)
  · rw [hflatten]
    intro v hv
    rcases List.mem_append.1 hv with hv | hv
    · exact h.known v hv
    · exact (hnew v hv).1
  · rw [hflatten, List.length_append, List.length_append, List.length_singleton, Nat.succ_mul]
    omega
  · rw [List.length_append, List.length_singleton, Nat.add_sub_cancel]
    omega

/-- Once all variables are in, the number of sets is the rounded up quotient. -/
theorem Filled.full_iff {m : Model Binary64} {size : Nat} {sets : List (List Label)}
    (h : Filled m size sets) (hsize : 0 < size) :
    sets.flatten.length = m.size ↔ sets.length = (m.size + size - 1) / size := by
  have hdiv := Nat.div_add_mod (m.size + size - 1) size
  have hmod := Nat.mod_lt (m.size + size - 1) hsize
  have hneeded := h.needed
  rw [h.length_eq]
  generalize (m.size + size - 1) / size = q at *
  have hupper : m.size ≤ q * size := by
    rw [Nat.mul_comm q size]
    omega
  constructor
  · -- more sets than `q` would leave the last one unneeded, fewer would not hold all variables
    intro hfull
    have hle : m.size ≤ sets.length * size := by omega
    rcases Nat.lt_trichotomy sets.length q with hlt | heq | hgt
    · have hstep : (sets.length + 1) * size ≤ q * size := Nat.mul_le_mul_right size hlt
      rw [Nat.succ_mul, Nat.mul_comm q size] at hstep
      omega
    · exact heq
    · have hstep : q * size ≤ (sets.length - 1) * size := Nat.mul_le_mul_right size (by omega)
      omega
  · intro heq
    rw [heq]
    omega

theorem filled_cycle (h : RollsOver c s best) (k : Nat) :
    Filled s.problem.model c.size.value (c.cycle s k) := by
  induction k with
  | zero => exact Filled.nil h.pos _
  | succ k ih =>
    show Filled _ _ ((if (c.call s k).rewinds then [] else c.cycle s k) ++
      (c.call s k).selected?.toList)
    have hkept : Filled s.problem.model c.size.value
        (if (c.call s k).rewinds then [] else c.cycle s k) := by
      split
      · exact Filled.nil h.pos _
      · exact ih
    rcases (turn_call h k).outcome with ⟨-, -, hresult, -⟩ |
      ⟨-, sub, kept, hkept', hresult, hnodup, hnew, hlength, hpos, -⟩
    · rw [Step.selected?_of_endOfStream hresult]
      simpa using hkept
    · have hflatten : kept = (if (c.call s k).rewinds then [] else c.cycle s k).flatten := by
        rw [hkept']
        split <;> rfl
      rw [Step.selected?_of_state hresult]
      rw [hflatten] at hnew hlength
      exact hkept.append hnodup hnew hlength hpos

/-- With a share of one and exact counts a rewind is due when all variables are exposed. -/
theorem rewinds_iff_full (h : RollsOver c s best) (hshare : c.history.share = ofInt 1)
    (hexact : s.problem.model.size ≤ 2 ^ 53) (k : Nat) :
    (c.call s k).rewinds = true ↔ (c.cycle s k).flatten.length = s.problem.model.size := by
  have hle : (Rolling.mk (c.cycle s k).flatten).size ≤ s.problem.model.size := by
    show (c.cycle s k).flatten.length ≤ s.problem.model.size
    rw [(filled_cycle h k).length_eq]
    exact Nat.min_le_right _ _
  rw [(turn_call h k).rewinds_iff]
  refine Rolling.exhausted_iff.symm.trans
    ((Rolling.exhausted_iff_of_share_one hshare hexact hle).trans ?_)
  constructor
  · exact fun hfull => hfull.2
  · intro hfull
    exact ⟨List.ne_nil_of_length_pos (by rw [hfull]; exact h.pos), hfull⟩

/-- When a fresh rolling strategy without a least gain selects on one state again and again, no call
fails; a call rewinds exactly if some variables are exposed and they have reached the share of the
history, which is at most all; a call selects nothing exactly if it ends the stream at a rewind, and
else as many new variables of the problem as the size and the variables left allow, at least one.
With a share of one, and few enough variables to be counted exactly, a cycle ends with the rounded
up quotient of problem and subproblem size, and has then selected each variable once. -/
theorem rolling_covers {c : EnergyImpact Binary64} {s : State Binary64} {best : Sample Binary64}
    (hrolling : c.rolling = true) (hgain : c.minGain = none)
    (hproblem : s.problem.model.Reachable) (hpos : 0 < s.problem.model.size)
    (hlt : s.problem.model.size < 2 ^ 64) (hbest : s.bestSample = .ok best)
    (hall : ∀ v ∈ s.problem.model.labels, (best.get? v).isSome) :
    let m := s.problem.model
    atMost (c.history.share * ofInt m.size) (ofNat m.size : Binary64) = true ∧
    ∀ k,
      let step := c.call s k
      let exposed := (c.cycle s k).flatten
      let kept := if step.rewinds then [] else exposed
      (∃ selection, step.result = .ok selection) ∧
      (step.rewinds = true ↔ exposed ≠ [] ∧
        atMost (c.history.share * ofInt m.size) (ofNat exposed.length : Binary64) = true) ∧
      exposed.Nodup ∧
      (step.selected? = none ↔ step.rewinds = true ∧ c.silentRewind = false) ∧
      (∀ labels, step.selected? = some labels →
        labels.Nodup ∧ (∀ v ∈ labels, v ∈ m.labels ∧ v ∉ kept) ∧
        labels.length = min c.size.value (m.size - kept.length) ∧ 0 < labels.length) ∧
      (c.history.share = ofInt 1 → m.size ≤ 2 ^ 53 →
        (step.rewinds = true ↔
          (c.cycle s k).length = (m.size + c.size.value - 1) / c.size.value) ∧
        (step.rewinds = true → exposed.Perm m.labels)) := by
  intro m
  have h : RollsOver c s best :=
    ⟨hrolling, hgain, hproblem.wellFormed, hpos, hlt, hbest, hall⟩
  refine ⟨c.history.atMost_total hlt, ?_⟩
  intro k step exposed kept
  have hturn := turn_call h k
  have hfilled := filled_cycle h k
  refine ⟨hturn.exists_selection, hturn.rewinds_iff, hfilled.nodup, hturn.selected?_eq_none_iff,
    fun labels hlabels => hturn.of_selected? hlabels, ?_⟩
  intro hshare hexact
  have hfull : step.rewinds = true ↔ exposed.length = m.size := rewinds_iff_full h hshare hexact k
  refine ⟨hfull.trans (hfilled.full_iff c.size.pos), fun hend => ?_⟩
  refine (List.subperm_of_subset hfilled.nodup hfilled.known).perm_of_length_le ?_
  rw [hfull.1 hend, Model.length_labels]

/-- Three variables in a path, selected two at a time. -/
theorem rolling_covers_path :
    let m : Model Binary64 := .ofEdits .spin
      [.setQuadratic (.number 0) (.number 1) (ofInt 1),
        .setQuadratic (.number 1) (.number 2) (ofInt (-1))]
    let best : Sample Binary64 :=
      ⟨[(.number 0, ofInt 1), (.number 1, ofInt 1), (.number 2, ofInt 1)], by decide⟩
    let s : State Binary64 :=
      { problem := ⟨0, m⟩, samples := ⟨.spin, [⟨best, ofInt 0⟩], by decide +kernel⟩ }
    let c : EnergyImpact Binary64 :=
      ⟨⟨2, by decide⟩, none, true, ⟨ofInt 1, by decide +kernel⟩, false, .priorityFirst⟩
    (c.call s 2).rewinds = true ∧ (c.cycle s 2).length = 2 ∧
      (c.cycle s 2).flatten.Perm m.labels := by
  intro m best s c
  have hsize : s.problem.model.size = 3 := by decide +kernel
  have hbest : s.bestSample = .ok best := by decide +kernel
  have hall : ∀ v ∈ s.problem.model.labels, (best.get? v).isSome := by decide +kernel
  have hrewinds : (c.call s 2).rewinds = true := by decide +kernel
  obtain ⟨-, h⟩ := rolling_covers (c := c) rfl rfl ⟨.spin, _, rfl⟩ (by omega) (by omega) hbest hall
  obtain ⟨-, -, -, -, -, hone⟩ := h 2
  obtain ⟨hlength, hperm⟩ := hone rfl (by omega)
  refine ⟨hrewinds, ?_, hperm hrewinds⟩
  rw [hlength.1 hrewinds, hsize, show c.size.value = 2 from rfl]

end EnergyImpact

end QuboSplit
