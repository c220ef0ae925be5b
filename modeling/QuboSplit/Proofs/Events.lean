import QuboSplit.Proofs.Random.Selection
import QuboSplit.Proofs.Reachable
import QuboSplit.Proofs.Strategy.TileFailure

/-!
# Reports of selections

A selection is reported by its variables, as they were chosen. The subproblem has each variable
once, so a report is true only of a choice without repeats. No strategy chooses a variable twice
(`Step.Reports`, proved of each of them), given a memory that arose from a fresh one
(`Decomposer.Sound`, kept by every call). So the last event of a call tells what it yielded, and
none before it does (`events_report_selection`).
-/

namespace QuboSplit

/-! ### The last event -/

namespace Event

/-- The event reports neither a selection nor the end of the stream. -/
def Quiet (e : Event) : Prop := e.kind ≠ .variablesSelected ∧ e.kind ≠ .endOfStream

/-- The event comes last, and all before it are quiet. -/
def Closes (e : Event) (events : List Event) : Prop :=
  ∃ earlier, events = earlier ++ [e] ∧ ∀ x ∈ earlier, x.Quiet

theorem closes_singleton (e : Event) : e.Closes [e] := ⟨[], rfl, by simp⟩

theorem Closes.after {e : Event} {earlier events : List Event} (h : e.Closes events)
    (hquiet : ∀ x ∈ earlier, x.Quiet) : e.Closes (earlier ++ events) := by
  obtain ⟨before, rfl, hbefore⟩ := h
  exact ⟨earlier ++ before, (List.append_assoc ..).symm, List.forall_mem_append.2 ⟨hquiet, hbefore⟩⟩

end Event

variable {α : Type} [Scalar α]

namespace Step

variable {μ : Type} {source : String} {s : State α} {step : Step μ (Selection α)}

/-- A step that yields a state closes with the report of the variables it selected, each once, and
one that ends the stream with a report of that. -/
structure Reports (source : String) (s : State α) (step : Step μ (Selection α)) : Prop where
  selected : ∀ t, step.result = .ok (.state t) → ∃ labels embedding,
    s.Selects labels embedding t ∧ labels.Nodup ∧ (Event.selected source labels).Closes step.events
  ended : step.result = .ok .endOfStream → ∃ e : Event, e.kind = .endOfStream ∧
    e.Closes step.events

/-- A step that fails need not report anything. -/
theorem reports_of_error {fault : Fault} (h : step.result = .error fault) :
    step.Reports source s := by
  constructor
  · intro t ht
    rw [h] at ht
    cases ht
  · intro hend
    rw [h] at hend
    cases hend

/-- Earlier quiet events leave the report as it is. -/
theorem Reports.after (h : step.Reports source s) {earlier : List Event}
    (hquiet : ∀ x ∈ earlier, x.Quiet) : (step.after earlier).Reports source s := by
  constructor
  · intro t ht
    obtain ⟨labels, embedding, hselects, hnodup, hcloses⟩ := h.selected t ht
    exact ⟨labels, embedding, hselects, hnodup, hcloses.after hquiet⟩
  · intro hend
    obtain ⟨e, he, hcloses⟩ := h.ended hend
    exact ⟨e, he, hcloses.after hquiet⟩

/-- The memory has no part in the report. -/
theorem Reports.mapMemory {ν : Type} (h : step.Reports source s) (f : μ → ν) :
    (step.mapMemory f).Reports source s :=
  ⟨h.selected, h.ended⟩

/-- The report of a selection at the best sample is true if no variable is selected twice. -/
theorem reports_selectAtBest {labels : List Label} (hnodup : labels.Nodup)
    (embedding : Option Embedding) (memory : μ) :
    Reports source s
      ⟨s.selectAtBest labels embedding, memory, [.selected source labels]⟩ := by
  constructor
  · intro t ht
    exact ⟨labels, embedding, State.selects_of_selectAtBest ht, hnodup, Event.closes_singleton _⟩
  · intro hend
    exact absurd hend (State.selectAtBest_ne_endOfStream s labels embedding)

end Step

/-! ### Energy impact -/

namespace EnergyImpact

variable {c : EnergyImpact α} {mem : Memory α} {s : State α} {best : Sample α}

theorem quiet_adapted (c : EnergyImpact α) (s : State α) : ∀ x ∈ c.adapted s, x.Quiet := by
  unfold adapted
  dsimp only
  split <;> simp [Event.Quiet]

omit [Scalar α] in
theorem quiet_rewound (mem : Memory α) : (rewound mem).Quiet := ⟨nofun, nofun⟩

theorem reports_choose (hp : s.problem.model.WellFormed) (hmem : mem.Rolls c.minGain s.problem)
    (hbest : s.bestSample = .ok best) : (c.choose mem s best).Reports name s := by
  obtain ⟨labels, htraversed, hchoose⟩ := choose_eq hp hmem best
  constructor
  · intro t ht
    rw [hchoose] at ht ⊢
    cases hselect : s.select labels best with
    | error fault =>
      rw [hselect] at ht
      cases ht
    | ok t' =>
      rw [hselect] at ht
      cases ht
      exact ⟨labels, none, ⟨best, hbest, hselect⟩, htraversed.nodup, Event.closes_singleton _⟩
  · intro hend
    exact absurd hend (choose_result_ne_end c mem s best)

theorem reports_advance (hp : s.problem.model.WellFormed) (hmem : mem.Rolls c.minGain s.problem)
    (hbest : s.bestSample = .ok best) : (c.advance mem s best).Reports name s := by
  have hquiet : ∀ x ∈ [rewound mem], x.Quiet := List.forall_mem_singleton.2 (quiet_rewound mem)
  unfold advance
  dsimp only
  split
  · split
    · exact (reports_choose hp (hmem.rewind hp) hbest).after hquiet
    · exact ⟨fun t ht => (nomatch ht),
        fun _ => ⟨_, rfl, (Event.closes_singleton _).after hquiet⟩⟩
  · exact reports_choose hp hmem hbest

theorem reports_select [DecidableEq α] (hp : s.problem.model.WellFormed)
    (hmem : mem.Sound c.minGain) : (c.select mem s).Reports name s := by
  rcases hbest : s.bestSample with fault | best
  · rw [select_eq_of_bestSample_error hbest]
    exact Step.reports_of_error rfl
  rcases hready : mem.refresh c.minGain s.problem best with fault | ready
  · rw [select_eq_of_refresh_error hbest hready]
    exact Step.reports_of_error rfl
  rw [select_eq hbest hready]
  exact (reports_advance hp (hmem.refreshed hp hready).1 hbest).after (quiet_adapted c s)

end EnergyImpact

/-! ### Random subsets -/

theorem RandomSubset.reports_select {s : State α} (c : RandomSubset) (g : Engine)
    (hp : s.problem.model.WellFormed) : (c.select g s).Reports name s := by
  unfold select
  split
  · exact Step.reports_of_error rfl
  · next labels g' hlabels =>
    refine Step.reports_selectAtBest ?_ none g'
    unfold Model.randomVariables at hlabels
    split at hlabels
    · cases hlabels
    · split at hlabels
      · cases hlabels
      · have hsub := Engine.sample_sublist s.problem.model.labels (c.size.value : Int).toNat g
        rw [Except.ok.inj hlabels] at hsub
        exact hp.labels_nodup.sublist hsub

/-! ### Tiles -/

namespace Tiling

variable {c : Tiling} {mem : Memory} {s : State α}

theorem quiet_setup (c : Tiling) (mem : Memory) (s : State α) :
    ∀ x ∈ (c.setup mem s).events, x.Quiet := by
  unfold setup
  split
  · simp
  · split <;> simp [Event.Quiet]

theorem reports_selectTile {tiles : List Tile}
    (htiles : ∀ tile ∈ tiles, tile.embedding.labels.Nodup) (mem : Memory) (s : State α) :
    (c.selectTile mem tiles s).Reports name s := by
  unfold selectTile
  split
  · exact ⟨fun t ht => (nomatch ht), fun _ => ⟨_, rfl, Event.closes_singleton _⟩⟩
  · next number tile hupcoming =>
    exact Step.reports_selectAtBest (htiles tile (upcoming_mem hupcoming)) _ _

theorem reports_select (hp : s.problem.model.WellFormed) (hmem : mem.Distinct) :
    (c.select mem s).Reports name s := by
  have hdistinct := distinct_setup (c := c) hmem hp
  unfold select
  dsimp only
  split
  · exact Step.reports_of_error rfl
  · refine (reports_selectTile ?_ _ s).after (quiet_setup c mem s)
    cases htiles : (c.setup mem s).memory.tiles with
    | none => simp
    | some tiles => exact hdistinct tiles htiles

end Tiling

/-! ### Whole groups -/

namespace Constraint

variable {c : Constraint} {mem : Memory} {s : State α}

theorem quiet_setup (c : Constraint) (mem : Memory) (s : State α) :
    ∀ x ∈ (c.setup mem s).events, x.Quiet := by
  unfold setup
  split
  · simp
  · split <;> simp [Event.Quiet]

theorem reports_select (hmem : mem.Sound c) : (c.select mem s).Reports name s := by
  have hseed := Engine.uniform_lt (List.length_pos_of_ne_nil c.groups_ne) mem.engine
  rcases setup_cases hmem s with ⟨fault, hsetup⟩ | ⟨hok, hmemory⟩
  · have hfails : (c.select mem s).result = .error fault := by
      unfold select
      rw [hsetup]
    exact Step.reports_of_error hfails
  · unfold select
    dsimp only
    rw [hok, hmemory]
    have hnodup := (collect_eq_grow hseed).symm ▸ (grow_spec hseed).1.nodup
    exact (Step.reports_selectAtBest hnodup none _).after (quiet_setup c mem s)

end Constraint

/-! ### Decomposers -/

namespace Decomposer

variable [DecidableEq α] {d : Decomposer α} {s : State α}

/-- Every strategy but the simplest reports the variables that it selects. -/
theorem Sound.reports (h : d.Sound) (hp : s.problem.model.WellFormed)
    (hstrategy : d.strategy ≠ .whole) :
    (d.strategy.select s).Reports d.strategy.name s := by
  obtain ⟨strategy, observed⟩ := d
  cases strategy with
  | whole => exact absurd rfl hstrategy
  | energyImpact settings memory =>
    exact (EnergyImpact.reports_select hp (show memory.Sound settings.minGain from h)).mapMemory _
  | randomSubset settings engine =>
    exact (RandomSubset.reports_select settings engine hp).mapMemory _
  | tiling settings memory =>
    exact (Tiling.reports_select hp (show memory.Distinct from h)).mapMemory _
  | constraint settings memory =>
    exact (Constraint.reports_select (show memory.Sound settings from h)).mapMemory _

/-- Whatever an observed decomposer was used for before, the last event of a selection that yields a
state reports the size of the subproblem and, unless that is the whole problem by design, lists its
variables in order; the last event of one that ends the stream reports that. No earlier event
reports either. -/
theorem events_report_selection (hd : d.Reachable) (hobserved : d.observed = true)
    (hproblem : s.problem.model.Reachable) :
    (∀ t, (d.select s).result = .ok (.state t) → ∃ (e : Event) (sub : Model α),
      e.Closes (d.select s).events ∧ e.kind = .variablesSelected ∧ t.subproblem = some sub ∧
        e.value = sub.size ∧ (d.strategy ≠ .whole → e.message = Label.listText sub.labels)) ∧
      ((d.select s).result = .ok .endOfStream → ∃ e : Event,
        e.Closes (d.select s).events ∧ e.kind = .endOfStream) := by
  have hevents : (d.select s).events = (d.strategy.select s).events := if_pos hobserved
  have hp := hproblem.wellFormed
  rw [hevents]
  by_cases hstrategy : d.strategy = .whole
  · rw [hstrategy]
    constructor
    · intro t ht
      have ht' : (Whole.select s).result = .ok (.state t) := by
        change (d.strategy.select s).result = _ at ht
        rwa [hstrategy] at ht
      obtain rfl := Whole.eq_of_select ht'
      exact ⟨_, s.problem.model, Event.closes_singleton _, rfl, rfl, rfl, fun h => absurd rfl h⟩
    · intro hend
      change (d.strategy.select s).result = _ at hend
      rw [hstrategy] at hend
      cases hend
  · obtain ⟨hselected, hended⟩ := hd.sound.reports hp hstrategy
    constructor
    · intro t ht
      obtain ⟨labels, embedding, hselects, hnodup, hcloses⟩ := hselected t ht
      obtain ⟨sub, rfl, hlabels⟩ := hselects.exists_subproblem
      refine ⟨_, sub, hcloses, rfl, rfl, ?_, fun _ => ?_⟩
      · rw [← Model.length_labels, hlabels hp hnodup]
        rfl
      · rw [hlabels hp hnodup]
        rfl
    · intro hend
      obtain ⟨e, he, hcloses⟩ := hended hend
      exact ⟨e, hcloses, he⟩

/-- Two groups share a variable, and the first names one of its own twice. -/
theorem events_report_selection_groups :
    let m : Model Rat := .ofEdits .binary
      [.setLinear (.number 0) (-1), .setQuadratic (.number 0) (.number 1) 3,
        .addQuadratic (.number 1) (.number 2) (-2)]
    let best : Sample Rat := ⟨[(.number 0, 1), (.number 1, 1), (.number 2, 1)], by decide⟩
    let s : State Rat :=
      { problem := ⟨0, m⟩, samples := ⟨.binary, [⟨best, 0⟩], by decide⟩ }
    let c : Constraint := ⟨⟨3, by decide⟩,
      [[.number 0, .number 0, .number 1], [.number 1, .number 2]], by decide, by decide⟩
    let d : Decomposer Rat := ⟨.constraint c (.fresh (.ofSeed 1)), true⟩
    ((d.setup s).memory.select s).result = .ok (.state (s.withSubproblem m)) ∧ ∃ e : Event,
      e.Closes ((d.setup s).memory.select s).events ∧ e.kind = .variablesSelected ∧ e.value = 3 ∧
        e.message = "[0, 1, 2]" := by
  intro m best s c d
  have hproblem : s.problem.model.Reachable := ⟨.binary, _, rfl⟩
  have hd : (d.setup s).memory.Reachable := .setup s (.fresh ⟨_, rfl⟩) hproblem
  have hresult : ((d.setup s).memory.select s).result = .ok (.state (s.withSubproblem m)) := by
    decide +kernel
  obtain ⟨e, sub, hcloses, hkind, hsub, hvalue, hmessage⟩ :=
    (events_report_selection hd rfl hproblem).1 _ hresult
  obtain rfl : m = sub := Option.some.inj hsub
  exact ⟨hresult, e, hcloses, hkind, hvalue, hmessage nofun⟩

end Decomposer

end QuboSplit
