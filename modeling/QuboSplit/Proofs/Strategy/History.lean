import QuboSplit.Proofs.Congruence
import QuboSplit.Proofs.Strategy.Cache

/-!
# Earlier calls without rolling

Without rolling all that a call takes from earlier ones is the ranking. It was made for an equal
problem and an equal best sample, but it lists variables of one gain in the order in which that
problem stores them, so the selection can depend on earlier calls (`depends_on_history`). It does
not if every equal problem came with its variables in the same order (`select_without_rolling`).
-/

namespace QuboSplit

/-- The number is finite. -/
def Floating.isFinite {f : Format} : Floating f → Bool
  | .finite .. => true
  | _ => false

/-- The offset and all biases of the model are finite. -/
def Model.isFinite (m : Model Binary64) : Bool :=
  m.offset.isFinite && m.nodes.all fun n => n.linear.isFinite && n.row.all (·.2.isFinite)

namespace EnergyImpact

open Scalar (atMost ofInt)

section

variable {α : Type} [Scalar α] [DecidableEq α] {c : EnergyImpact α} {mem : Memory α} {s : State α}
  {best : Sample α} {ranking : Ranking α}

/-- Without rolling the traversal gets the ranking and finds nothing exposed. -/
theorem select_of_not_rolling (hrolling : c.rolling = false) (hmem : mem.unrolled = .fresh)
    (hbest : s.bestSample = .ok best)
    (hranking : mem.rankingFor c.minGain s.problem best = .ok ranking) :
    (c.select mem s).result = (do
      let labels ← s.problem.model.traverse c.traversal ranking [] (c.room s)
      let t ← s.select labels best
      return .state t) := by
  obtain ⟨best', visited, hbest', -, hvisited, hresult⟩ :=
    select_of_passed_eq_some (passed_of_not_rolling hrolling hbest hranking)
  obtain rfl : best' = best := Except.ok.inj (hbest'.symm.trans hbest)
  rw [hresult, hvisited hmem]

end

/-- Without rolling a call selects along a ranking that was made, now or at an earlier call, for an
equal problem and an equal best sample. If no equal problem with an equal best sample came with its
variables in another order, the call yields what it would without any earlier calls. -/
theorem select_without_rolling {c : EnergyImpact Binary64} {states : List (State Binary64)}
    {s : State Binary64} {best : Sample Binary64} (hrolling : c.rolling = false)
    (hstates : ∀ t ∈ states, t.problem.model.Reachable) (hproblem : s.problem.model.Reachable)
    (hbest : s.bestSample = .ok best) (hall : ∀ v ∈ s.problem.model.labels, (best.get? v).isSome) :
    (∃ t ∈ states ++ [s], ∃ made ranking, t.bestSample = .ok made ∧
      t.problem.Alike s.problem ∧ made.Alike best ∧
      t.problem.model.ranking made c.minGain = .ok ranking ∧
      (c.select (c.memoryAfter states) s).result = (do
        let labels ← s.problem.model.traverse c.traversal ranking [] (c.room s)
        let t ← s.select labels best
        return .state t)) ∧
    ((∀ t ∈ states, ∀ made, t.bestSample = .ok made → t.problem.Alike s.problem →
        made.Alike best → t.problem.model.labels = s.problem.model.labels) →
      (c.select (c.memoryAfter states) s).result = (c.select .fresh s).result) := by
  have hwell := hproblem.wellFormed
  obtain ⟨ready, hready⟩ := (c.memoryAfter states).exists_refresh c.minGain hall
  obtain ⟨ranking, hranking, -⟩ := Memory.of_refresh_eq_ok hready
  obtain ⟨t, ht, htwell, made, hmade, hlike, hlike', hmaking⟩ :=
    (fits_memoryAfter c fun t ht => (hstates t ht).wellFormed).rankingFor hwell hbest hranking
  have hresult :=
    select_of_not_rolling hrolling (unrolled_memoryAfter hrolling states) hbest hranking
  refine ⟨⟨t, ht, made, ranking, hmade, hlike, hlike', hmaking, hresult⟩, fun horder => ?_⟩
  obtain ⟨own, hown⟩ := Model.exists_ranking hall c.minGain
  have hfresh : Memory.fresh.rankingFor c.minGain s.problem best = .ok own :=
    (Memory.rankingFor_of_not_same rfl c.minGain).trans hown
  rw [hresult, select_of_not_rolling hrolling rfl hbest hfresh]
  have hlabels : t.problem.model.labels = s.problem.model.labels := by
    rcases List.mem_append.1 ht with ht | ht
    · exact horder t ht made hmade hlike hlike'
    · rw [List.mem_singleton.1 ht]
  have hsame : t.problem.model.Same s.problem.model := by
    rcases hlike with e | hcontent
    · rw [e]
      exact .refl _
    · exact .of_matches ((Model.sameContent_iff htwell hwell).1 hcontent) hlabels
  have hvalues : ∀ v, SameOption (made.get? v) (best.get? v) := by
    rcases hlike' with rfl | hagrees
    · exact fun v => .refl _
    · exact fun v => .of_equals (Sample.agrees_iff.1 hagrees v)
  rw [Model.traverse_congr _ _ (Model.ranking_same htwell hwell hsame hvalues hmaking hown)]

/-! ### Two orders of the same variables -/

/-- Two variables at zero, with their energy. -/
def tiedZeros : Entry Binary64 :=
  ⟨.ofList [(.number 0, ofInt 0), (.number 1, ofInt 0)], ofInt 0⟩

theorem tiedZeros_admitted : ∀ e ∈ [tiedZeros], e.foreign? .binary = none := by decide +kernel

/-- The variables stored in the given order. Their flips have one gain. -/
def tied (handle : Nat) (u v : Label) : State Binary64 where
  problem := ⟨handle, .ofEdits .binary [.setLinear u (ofInt (-1)), .setLinear v (ofInt (-1))]⟩
  samples := ⟨.binary, [tiedZeros], tiedZeros_admitted⟩

theorem tied_reachable (handle : Nat) (u v : Label) :
    (tied handle u v).problem.model.Reachable :=
  ⟨.binary, _, rfl⟩

theorem share_inRange :
    (atMost (ofInt 0) (ofInt 0 : Binary64) && atMost (ofInt 0 : Binary64) (ofInt 1)) = true := by
  decide +kernel

/-- One variable at a time, without rolling. -/
def single : EnergyImpact Binary64 :=
  ⟨⟨1, Nat.one_pos⟩, none, false, ⟨ofInt 0, share_inRange⟩, true, .energy⟩

/-- A copy of the problem with its variables in the same order. -/
theorem select_without_rolling_copy :
    let first := tied 0 (.number 0) (.number 1)
    let copy := tied 1 (.number 0) (.number 1)
    (single.select (single.memoryAfter [first]) copy).result =
      (single.select .fresh copy).result := by
  intro first copy
  have hstates : ∀ t ∈ [first], t.problem.model.Reachable :=
    List.forall_mem_singleton.2 (tied_reachable ..)
  have hbest : copy.bestSample = .ok tiedZeros.sample := by decide +kernel
  refine (select_without_rolling rfl hstates (tied_reachable ..) hbest (by decide +kernel)).2 ?_
  exact List.forall_mem_singleton.2 fun _ _ _ _ => rfl

/-- After a call on a problem in one order of its variables, a call on the same problem in the other
order selects the first variable of the former, where a fresh strategy selects that of its own. -/
theorem depends_on_history : ¬ ∀ (c : EnergyImpact Binary64) (states : List (State Binary64))
    (s t t' : State Binary64) (best : Sample Binary64), c.rolling = false →
    (∀ t ∈ states, t.problem.model.Reachable) → s.problem.model.Reachable →
    s.problem.model.isFinite = true → s.bestSample = .ok best →
    (∀ v ∈ s.problem.model.labels, (best.get? v).isSome) →
    (c.select (c.memoryAfter states) s).result = .ok (.state t) →
    (c.select .fresh s).result = .ok (.state t') →
    t.subproblem.map Model.labels = t'.subproblem.map Model.labels := by
  intro h
  let first := tied 0 (.number 0) (.number 1)
  let second := tied 1 (.number 1) (.number 0)
  have hstates : ∀ t ∈ [first], t.problem.model.Reachable :=
    List.forall_mem_singleton.2 (tied_reachable ..)
  have hlabels := h single [first] second
    (second.withSubproblem ⟨.binary, ofInt 0, [.isolated (.number 0) (ofInt (-1))]⟩)
    (second.withSubproblem ⟨.binary, ofInt 0, [.isolated (.number 1) (ofInt (-1))]⟩)
    tiedZeros.sample rfl hstates (tied_reachable ..) (by decide +kernel) (by decide +kernel)
    (by decide +kernel) (by decide +kernel) (by decide +kernel)
  exact absurd hlabels (by decide)

end EnergyImpact

end QuboSplit
