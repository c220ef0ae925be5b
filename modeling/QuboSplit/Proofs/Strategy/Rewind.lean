import QuboSplit.Proofs.Strategy.EnergyImpact

/-!
# Silent and loud rewinds

A strategy with loud rewinds ends the stream where one with silent rewinds goes on to a selection.
The loud one keeps what it has ranked (`refresh_rewind`), so when it is called on the same state
again it does what the silent one did at once (`select_loud`). Two such strategies therefore yield
one stream of subproblems and faults (`loud_insist_eq_silent_replies`).
-/

namespace QuboSplit.EnergyImpact

variable {α : Type} [Scalar α]

/-! ### The two settings -/

/-- The settings with rewinds that are not reported as an end. -/
def silent (c : EnergyImpact α) : EnergyImpact α := { c with silentRewind := true }

/-- The settings with rewinds that end the stream. -/
def loud (c : EnergyImpact α) : EnergyImpact α := { c with silentRewind := false }

/-- What is seen of a call: its result and the variables exposed after it. -/
structure Reply (α : Type) [Scalar α] where
  result : Except Fault (Selection α)
  unrolled : Rolling

/-- The reply is the end of the stream. -/
def Reply.ends (r : Reply α) : Bool :=
  match r.result with
  | .ok .endOfStream => true
  | _ => false

theorem Reply.ends_iff {r : Reply α} : r.ends = true ↔ r.result = .ok .endOfStream := by
  obtain ⟨result, unrolled⟩ := r
  unfold ends
  rcases result with fault | s | _ <;> simp

/-- What is seen of a step. -/
def reply (step : Step (Memory α) (Selection α)) : Reply α := ⟨step.result, step.memory.unrolled⟩

variable [DecidableEq α]

/-- The replies of calls on states one after another. -/
def replies (c : EnergyImpact α) : Memory α → List (State α) → List (Reply α)
  | _, [] => []
  | mem, s :: rest => reply (c.select mem s) :: c.replies (c.select mem s).memory rest

/-- The replies of calls on states one after another, with a second call on a state at which the
stream ends. -/
def insist (c : EnergyImpact α) : Memory α → List (State α) → List (Reply α)
  | _, [] => []
  | mem, s :: rest =>
    let first := c.select mem s
    let second := c.select first.memory s
    if (reply first).ends then
      reply first :: reply second :: c.insist second.memory rest
    else reply first :: c.insist first.memory rest

/-! ### One call -/

variable {c : EnergyImpact α} {mem ready : Memory α} {s : State α} {best : Sample α}

/-- What has been ranked for a problem stays current when the rolling over it starts afresh. -/
theorem Memory.refresh_rewind {minGain : Option α} {p : Problem α}
    (hready : mem.refresh minGain p best = .ok ready) :
    (ready.rewind p).refresh minGain p best = .ok (ready.rewind p) := by
  obtain ⟨ranking, hranking, rfl⟩ := of_refresh_eq_ok hready
  generalize hnext : (mem.withRanking p best ranking).rewind p = next
  have hkept : next.ranking = some ranking := hnext ▸ rfl
  have hproblem : next.sameProblem p = true := sameProblem_self (hnext ▸ rfl)
  have hsample : next.sample = if mem.sameSample best then mem.sample else some best := hnext ▸ rfl
  cases hsame : mem.sameSample best with
  | true =>
    rw [hsame, if_pos rfl] at hsample
    have hsame' : next.sameSample best = true := by
      unfold sameSample at hsame ⊢
      rwa [hsample]
    rw [refresh_eq, rankingFor_of_kept hkept (Or.inl (by rw [hproblem, hsame']; rfl))]
    show Except.ok (next.withRanking p best ranking) = _
    unfold withRanking
    rw [hproblem, hsame', if_pos rfl, if_pos rfl, ← hkept]
  | false =>
    -- the ranking was made for this problem and sample
    rw [hsame, if_neg (by simp)] at hsample
    rw [rankingFor_of_not_same (by rw [hsame, Bool.and_false])] at hranking
    rw [refresh_eq, rankingFor_of_kept hkept (Or.inr hranking)]
    show Except.ok (next.withRanking p best ranking) = _
    unfold withRanking
    rw [hproblem, if_pos rfl, ← hkept, ← hsample, ite_self]

/-- A call with loud rewinds either does what one with silent rewinds does, or ends the stream and
leaves that to the next call on the same state. -/
theorem select_loud (c : EnergyImpact α) (mem : Memory α) (s : State α) :
    let first := c.loud.select mem s
    let second := c.loud.select first.memory s
    let same := c.silent.select mem s
    same.result ≠ .ok .endOfStream ∧
      ((first.result = same.result ∧ first.memory = same.memory) ∨
        (first.result = .ok .endOfStream ∧ second.result = same.result ∧
          second.memory = same.memory)) := by
  intro first second same
  rcases hbest : s.bestSample with fault | best
  · have hfirst : first = ⟨.error fault, mem, []⟩ := select_eq_of_bestSample_error hbest _ _
    have hsame : same = ⟨.error fault, mem, []⟩ := select_eq_of_bestSample_error hbest _ _
    rw [hfirst, hsame]
    exact ⟨nofun, Or.inl ⟨rfl, rfl⟩⟩
  rcases hready : mem.refresh c.minGain s.problem best with fault | ready
  · have hfirst : first = ⟨.error fault, mem, c.adapted s⟩ :=
      select_eq_of_refresh_error hbest hready
    have hsame : same = ⟨.error fault, mem, c.adapted s⟩ :=
      select_eq_of_refresh_error hbest hready
    rw [hfirst, hsame]
    exact ⟨nofun, Or.inl ⟨rfl, rfl⟩⟩
  have hfirst : first = (c.loud.advance ready s best).after (c.adapted s) := select_eq hbest hready
  have hsame : same = (c.silent.advance ready s best).after (c.adapted s) := select_eq hbest hready
  rw [hsame, Step.result_after, Step.memory_after]
  by_cases hdue : (c.rolling && ready.unrolled.exhausted c.history s.problem.model.size) = true
  · -- both rewind, and the silent one then chooses where the loud one stops
    have hend : first.result = .ok .endOfStream ∧ first.memory = ready.rewind s.problem := by
      rw [hfirst, show c.loud.advance ready s best = _ from if_pos hdue]
      exact ⟨rfl, rfl⟩
    have hchoose : second = (c.choose (ready.rewind s.problem) s best).after (c.adapted s) := by
      show c.loud.select first.memory s = _
      rw [hend.2, select_eq (c := c.loud) hbest (Memory.refresh_rewind hready), advance_rewind]
      rfl
    rw [show c.silent.advance ready s best = _ from if_pos hdue, hchoose]
    exact ⟨choose_result_ne_end c _ s best, Or.inr ⟨hend.1, rfl, rfl⟩⟩
  · rw [show c.silent.advance ready s best = _ from if_neg hdue, hfirst,
      show c.loud.advance ready s best = _ from if_neg hdue]
    exact ⟨choose_result_ne_end c _ s best, Or.inl ⟨rfl, rfl⟩⟩

/-! ### Whole runs -/

/-- Called on any states one after another, and once more on each state at which the stream ends, a
strategy with loud rewinds gives the replies of one with silent rewinds and, between them, ends of
the stream; a second call on a state never ends it. -/
theorem loud_insist_eq_silent_replies (c : EnergyImpact α) (mem : Memory α)
    (states : List (State α)) :
    (∀ (mem : Memory α) (s : State α), (c.loud.select mem s).result = .ok .endOfStream →
      (c.loud.select (c.loud.select mem s).memory s).result ≠ .ok .endOfStream) ∧
    (c.loud.insist mem states).filter (fun r => !r.ends) = c.silent.replies mem states := by
  refine ⟨fun mem s hend => ?_, ?_⟩
  · obtain ⟨hgoes, ⟨hfirst, -⟩ | ⟨-, hsecond, -⟩⟩ := select_loud c mem s
    · exact absurd (hfirst.symm.trans hend) hgoes
    · exact fun h => hgoes (hsecond.symm.trans h)
  induction states generalizing mem with
  | nil => rfl
  | cons s rest ih =>
    obtain ⟨hgoes, hcase⟩ := select_loud c mem s
    have hkept : (reply (c.silent.select mem s)).ends = false := by
      rw [← Bool.not_eq_true, Reply.ends_iff]
      exact hgoes
    unfold insist replies
    dsimp only
    rcases hcase with ⟨hresult, hmemory⟩ | ⟨hend, hresult, hmemory⟩
    · have hreply : reply (c.loud.select mem s) = reply (c.silent.select mem s) := by
        unfold reply
        rw [hresult, hmemory]
      rw [hreply, hkept, if_neg (by simp), List.filter_cons_of_pos (by simp [hkept]), ih, hmemory]
    · have hreply : reply (c.loud.select (c.loud.select mem s).memory s) =
          reply (c.silent.select mem s) := by
        unfold reply
        rw [hresult, hmemory]
      have hends : (reply (c.loud.select mem s)).ends = true := Reply.ends_iff.2 hend
      rw [hends, if_pos rfl, List.filter_cons_of_neg (by simp [hends]), hreply,
        List.filter_cons_of_pos (by simp [hkept]), ih, hmemory]

end QuboSplit.EnergyImpact
