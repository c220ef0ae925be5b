import Mathlib.Order.Bounds.Basic
import QuboSplit.Proofs.Strategy.Cache
import QuboSplit.Proofs.Strategy.Cycle
import QuboSplit.Proofs.Strategy.Failure

/-!
# Down the ranking

By energy a rolling strategy without a least gain exposes the ranking from the top: after `i`
selections since the last rewind it has exposed the first `i` slices (`Descended`), so the next
selection is the next slice, until the slices reach the share of the history. On one state the
selections are therefore periodic, with a call that ends the stream between two periods if rewinds
are not silent (`selects_slices`).
-/

namespace QuboSplit

open Scalar (ofInt ofNat atMost)

/-! ### Slices of a ranking -/

namespace Ranking

variable {α : Type} {ranking : Ranking α}

/-- The ranked variables at the positions from `i * width` up to but excluding `(i + 1) * width`, or
up to the end of the ranking. -/
def slice (ranking : Ranking α) (width i : Nat) : List Label :=
  (ranking.map Prod.fst).extract (i * width) (min ((i + 1) * width) ranking.length)

theorem slice_eq (ranking : Ranking α) (width i : Nat) :
    ranking.slice width i = ((ranking.map Prod.fst).drop (i * width)).take width := by
  unfold slice
  rw [List.extract_eq_take_drop, List.take_eq_take_iff, List.length_drop, List.length_map,
    Nat.succ_mul]
  omega

/-- The first slices and the next one are the first slices of one more. -/
theorem take_append_slice (ranking : Ranking α) (width i : Nat) :
    (ranking.map Prod.fst).take (i * width) ++ ranking.slice width i =
      (ranking.map Prod.fst).take ((i + 1) * width) := by
  rw [slice_eq, Nat.succ_mul, List.take_add]

theorem slice_ne_nil {width i : Nat} (hwidth : 0 < width) (hleft : i * width < ranking.length) :
    ranking.slice width i ≠ [] := by
  rw [slice_eq]
  refine List.ne_nil_of_length_pos ?_
  rw [List.length_take, List.length_drop, List.length_map]
  omega

/-- When the first slices have been visited a walk takes the next one. -/
theorem walk_eq_slice (hnodup : (ranking.map Prod.fst).Nodup) (width i : Nat) :
    ranking.walk ((ranking.map Prod.fst).take (i * width)) width = ranking.slice width i := by
  unfold walk
  rw [filter_not_mem_take hnodup, Int.toNat_natCast, slice_eq]

end Ranking

/-- The step yields the state with the subproblem induced by these variables, in this order. -/
def Step.Yields {μ α : Type} [Scalar α] (step : Step μ (Selection α)) (s : State α)
    (best : Sample α) (labels : List Label) : Prop :=
  ∃ sub, s.problem.model.induced labels best = .ok sub ∧ sub.labels = labels ∧
    step.result = .ok (.state (s.withSubproblem sub))

namespace EnergyImpact

/-! ### One selection -/

section

variable {α : Type} [Scalar α] {c : EnergyImpact α} {s : State α} {ranking : Ranking α} {i : Nat}
  {mem : Memory α} {best : Sample α}

/-- The memory rolls over the problem of the state along the ranking, and has exposed its first `i`
slices. -/
structure Descended (c : EnergyImpact α) (s : State α) (ranking : Ranking α) (i : Nat)
    (mem : Memory α) : Prop where
  problem_eq : mem.problem = some s.problem
  ranking_eq : mem.ranking = some ranking
  visited_eq : mem.unrolled.visited = (ranking.map Prod.fst).take (i * c.room s)

theorem Descended.rewind (h : Descended c s ranking i mem) :
    Descended c s ranking 0 (mem.rewind s.problem) := by
  refine ⟨rfl, h.ranking_eq, ?_⟩
  rw [Nat.zero_mul, List.take_zero]
  rfl

/-- Nothing depends on whether the memory is refreshed once more. -/
theorem Descended.refresh [DecidableEq α] (h : Descended c s ranking i mem)
    (hranking : s.problem.model.ranking best c.minGain = .ok ranking) :
    ∃ ready, mem.refresh c.minGain s.problem best = .ok ready ∧ Descended c s ranking i ready := by
  have hsame := Memory.sameProblem_self h.problem_eq
  have hproblem := mem.problem_withRanking s.problem best ranking
  have hunrolled := mem.unrolled_withRanking s.problem best ranking
  rw [if_pos hsame] at hproblem hunrolled
  refine ⟨mem.withRanking s.problem best ranking, ?_, hproblem.trans h.problem_eq, rfl, ?_⟩
  · rw [Memory.refresh_eq, Memory.rankingFor_of_kept h.ranking_eq (Or.inr hranking)]
    rfl
  · rw [hunrolled]
    exact h.visited_eq

end

/-- So many exposed variables reach the share of the history. -/
def reaches (c : EnergyImpact Binary64) (s : State Binary64) (count : Nat) : Prop :=
  atMost (c.history.share * ofInt s.problem.model.size) (ofNat count : Binary64) = true

/-- When `i` slices are exposed a rewind is due: there are some, and they reach the share. -/
def Due (c : EnergyImpact Binary64) (s : State Binary64) (i : Nat) : Prop :=
  1 ≤ i ∧ c.reaches s (min (i * c.room s) s.problem.model.size)

/-- The period is the least number of slices after which a rewind is due. -/
def IsPeriod (c : EnergyImpact Binary64) (s : State Binary64) (period : Nat) : Prop :=
  IsLeast {i | c.Due s i} period

/-- The ranking of the problem at its best sample, along which the strategy walks. -/
structure WalksDown (c : EnergyImpact Binary64) (s : State Binary64) (best : Sample Binary64)
    (ranking : Ranking Binary64) : Prop extends RollsOver c s best where
  traversal : c.traversal = .energy
  ranking_eq : s.problem.model.ranking best c.minGain = .ok ranking

section

variable {c : EnergyImpact Binary64} {s : State Binary64} {ranking : Ranking Binary64} {i : Nat}
  {mem : Memory Binary64} {best : Sample Binary64} (h : WalksDown c s best ranking)

include h

theorem WalksDown.ranks : Ranks s.problem.model.labels c.minGain ranking :=
  Model.ranks_of_ranking h.wellFormed.labels_nodup h.ranking_eq

theorem WalksDown.length_eq : ranking.length = s.problem.model.size := by
  have hperm := h.ranks.perm h.minGain h.wellFormed.labels_nodup
  rw [← Model.length_labels, ← hperm.length_eq, List.length_map]

theorem WalksDown.room_pos : 0 < c.room s := Nat.lt_min.2 ⟨c.size.pos, h.pos⟩

/-- All variables reach the share. -/
theorem WalksDown.reaches_size : c.reaches s s.problem.model.size := c.history.atMost_total h.lt

/-- A rewind is due if there are slices exposed and they reach the share. -/
theorem Descended.exhausted_iff (hd : Descended c s ranking i mem) :
    mem.unrolled.exhausted c.history s.problem.model.size = true ↔ c.Due s i := by
  have hsize : mem.unrolled.size = min (i * c.room s) s.problem.model.size := by
    unfold Rolling.size
    rw [hd.visited_eq, List.length_take, List.length_map, h.length_eq]
  have hne : mem.unrolled.visited ≠ [] ↔ 0 < i := by
    have hroom := h.room_pos
    have hpos := h.pos
    rw [← List.length_pos_iff]
    show 0 < mem.unrolled.size ↔ 0 < i
    rw [hsize, Nat.lt_min]
    constructor
    · rintro ⟨hlt, -⟩
      exact Nat.pos_of_mul_pos_right hlt
    · exact fun hi => ⟨Nat.mul_pos hi hroom, hpos⟩
  rw [Rolling.exhausted_iff, hne, hsize]
  rfl

/-- Choosing takes the next slice, if there is one. -/
theorem Descended.choose (hd : Descended c s ranking i mem)
    (hleft : i * c.room s < s.problem.model.size) :
    (c.choose mem s best).Yields s best (ranking.slice (c.room s) i) ∧
      Descended c s ranking (i + 1) (c.choose mem s best).memory := by
  have hranks := h.ranks
  have hwalk : s.problem.model.traverse c.traversal ranking mem.unrolled.visited
      (c.room s : Nat) = .ok (ranking.slice (c.room s) i) := by
    rw [h.traversal, hd.visited_eq, ← Ranking.walk_eq_slice hranks.nodup]
    rfl
  have hslice := ranking.slice_eq (c.room s) i
  have hsub : (ranking.slice (c.room s) i).Sublist (ranking.map Prod.fst) := by
    rw [hslice]
    exact (List.take_sublist _ _).trans (List.drop_sublist _ _)
  have hnodup := hranks.nodup.sublist hsub
  obtain ⟨sub, hlabels, hselect⟩ := (State.select_labels h.wellFormed h.assigned hnodup
    fun v hv => hranks.known v (hsub.subset hv)).2
    (Ranking.slice_ne_nil h.room_pos (by rwa [h.length_eq]))
  obtain ⟨sub', hinduced, hsub'⟩ := State.of_select_eq_ok hselect
  obtain rfl : sub = sub' := Option.some.inj (congrArg State.subproblem hsub')
  have htaken := ranking.take_append_slice (c.room s) i
  have hjoined := hranks.nodup.take (i := (i + 1) * c.room s)
  rw [← htaken] at hjoined
  have hvisited : (mem.unrolled.expose (ranking.slice (c.room s) i)).visited =
      (ranking.map Prod.fst).take ((i + 1) * c.room s) := by
    obtain ⟨hbefore, hafter, hnew⟩ := List.nodup_append.1 hjoined
    rw [Rolling.visited_expose (hd.visited_eq ▸ hbefore) hafter, hd.visited_eq, htaken]
    rw [hd.visited_eq]
    exact fun v hv hmem => hnew v hmem v hv rfl
  rw [choose_of_traverse hd.ranking_eq hwalk, hselect, h.rolling, if_pos rfl]
  exact ⟨⟨sub, hinduced, hlabels, rfl⟩, hd.problem_eq, hd.ranking_eq, hvisited⟩

/-- A selection before the share is reached takes the next slice. -/
theorem Descended.advance_on (hd : Descended c s ranking i mem)
    (hdue : ¬ c.Due s i) :
    (c.advance mem s best).Yields s best (ranking.slice (c.room s) i) ∧
      Descended c s ranking (i + 1) (c.advance mem s best).memory := by
  -- a slice is left, since all of them together reach the share
  have hleft : i * c.room s < s.problem.model.size := by
    by_contra hfull
    rw [Nat.not_lt] at hfull
    have hi : 0 < i := by
      rcases Nat.eq_zero_or_pos i with rfl | hi
      · have := h.pos
        omega
      · exact hi
    refine hdue ⟨hi, ?_⟩
    rw [Nat.min_eq_right hfull]
    exact h.reaches_size
  rw [advance_eq h.rolling, if_neg (mt (hd.exhausted_iff h).1 hdue)]
  exact hd.choose h hleft

/-- A silent rewind takes the first slice. -/
theorem Descended.advance_silent (hd : Descended c s ranking i mem)
    (hdue : c.Due s i)
    (hsilent : c.silentRewind = true) :
    (c.advance mem s best).Yields s best (ranking.slice (c.room s) 0) ∧
      Descended c s ranking 1 (c.advance mem s best).memory := by
  rw [advance_eq h.rolling, if_pos ((hd.exhausted_iff h).2 hdue), if_pos hsilent]
  exact hd.rewind.choose h (by rw [Nat.zero_mul]; exact h.pos)

/-- A loud rewind ends the stream. -/
theorem Descended.advance_loud (hd : Descended c s ranking i mem)
    (hdue : c.Due s i)
    (hloud : c.silentRewind = false) :
    (c.advance mem s best).result = .ok .endOfStream ∧
      Descended c s ranking 0 (c.advance mem s best).memory := by
  rw [advance_eq h.rolling, if_pos ((hd.exhausted_iff h).2 hdue), hloud]
  exact ⟨rfl, hd.rewind⟩

end

/-! ### Repeated selections -/

/-- A number of calls and one more, counted in periods. -/
theorem mod_succ_cases {p : Nat} (hp : 0 < p) (k : Nat) :
    (k % p + 1 < p ∧ (k + 1) % p = k % p + 1) ∨ (k % p + 1 = p ∧ (k + 1) % p = 0) := by
  rw [← Nat.mod_add_mod]
  rcases Nat.lt_or_eq_of_le (Nat.mod_lt k hp) with hlt | heq
  · exact Or.inl ⟨hlt, Nat.mod_eq_of_lt hlt⟩
  · exact Or.inr ⟨heq, by rw [← Nat.succ_eq_add_one, heq, Nat.mod_self]⟩

section

variable {c : EnergyImpact Binary64} {s : State Binary64} {ranking : Ranking Binary64}
  {best : Sample Binary64}

/-- Call `k` starts with the first `i` slices exposed. -/
def StartsAt (c : EnergyImpact Binary64) (s : State Binary64) (best : Sample Binary64)
    (ranking : Ranking Binary64) (k i : Nat) : Prop :=
  ∃ ready, (c.memoryAt s k).refresh c.minGain s.problem best = .ok ready ∧
    Descended c s ranking i ready

variable (h : WalksDown c s best ranking)

include h

theorem WalksDown.startsAt_zero : StartsAt c s best ranking 0 0 := by
  refine ⟨(Memory.fresh).withRanking s.problem best ranking, ?_, rfl, rfl, ?_⟩
  · show Memory.fresh.refresh c.minGain s.problem best = _
    rw [Memory.refresh_eq, Memory.rankingFor_of_not_same rfl, h.ranking_eq]
    rfl
  · rw [Nat.zero_mul, List.take_zero]
    rfl

/-- What a call leaves is what the next one starts with. -/
theorem WalksDown.startsAt_succ {k i : Nat}
    (hd : Descended c s ranking i (c.call s k).memory) : StartsAt c s best ranking (k + 1) i :=
  hd.refresh h.ranking_eq

variable {k i period : Nat}

/-- One call takes the next slice. If a rewind is due it takes the first one, or ends the stream. -/
theorem StartsAt.step (hstart : StartsAt c s best ranking k i) :
    (¬ c.Due s i → (c.call s k).Yields s best (ranking.slice (c.room s) i) ∧
      StartsAt c s best ranking (k + 1) (i + 1)) ∧
    (c.Due s i → c.silentRewind = true →
      (c.call s k).Yields s best (ranking.slice (c.room s) 0) ∧
      StartsAt c s best ranking (k + 1) 1) ∧
    (c.Due s i → c.silentRewind = false →
      (c.call s k).result = .ok .endOfStream ∧ StartsAt c s best ranking (k + 1) 0) := by
  obtain ⟨ready, hready, hd⟩ := hstart
  have hcall : c.call s k = (c.advance ready s best).after (c.adapted s) :=
    select_eq h.best_eq hready
  have hnext : ∀ {j}, Descended c s ranking j (c.advance ready s best).memory →
      StartsAt c s best ranking (k + 1) j := fun hafter => h.startsAt_succ (hcall ▸ hafter)
  rw [hcall]
  refine ⟨fun hdue => ?_, fun hdue hsilent => ?_, fun hdue hloud => ?_⟩
  · exact (hd.advance_on h hdue).imp_right hnext
  · exact (hd.advance_silent h hdue hsilent).imp_right hnext
  · exact (hd.advance_loud h hdue hloud).imp_right hnext

/-! ### Periods -/

theorem WalksDown.exists_period : ∃ period, c.IsPeriod s period := by
  classical
  have hall : ∃ p, 1 ≤ p ∧ c.reaches s (min (p * c.room s) s.problem.model.size) := by
    refine ⟨s.problem.model.size, h.pos, ?_⟩
    rw [Nat.min_eq_right (Nat.le_mul_of_pos_right _ h.room_pos)]
    exact h.reaches_size
  exact ⟨Nat.find hall, Nat.find_spec hall, fun p hp => Nat.find_min' hall hp⟩

omit h in
theorem IsPeriod.not_due (hperiod : c.IsPeriod s period) (hi : i < period) : ¬ c.Due s i :=
  fun hdue => absurd (hperiod.2 hdue) (Nat.not_le.2 hi)

/-- With silent rewinds a period of slices follows upon another. Where one ends the next call starts
with a whole period exposed. -/
theorem WalksDown.startsAt_of_silent (hperiod : c.IsPeriod s period)
    (hsilent : c.silentRewind = true) (k : Nat) :
    (StartsAt c s best ranking k (k % period) ∨
      (k % period = 0 ∧ StartsAt c s best ranking k period)) ∧
    (c.call s k).Yields s best (ranking.slice (c.room s) (k % period)) := by
  have hpos : 0 < period := hperiod.1.1
  -- a call with its slice exposes one slice more
  have hcall : ∀ k, (StartsAt c s best ranking k (k % period) ∨
      (k % period = 0 ∧ StartsAt c s best ranking k period)) →
      (c.call s k).Yields s best (ranking.slice (c.room s) (k % period)) ∧
        StartsAt c s best ranking (k + 1) (k % period + 1) := by
    rintro k (hstart | ⟨hzero, hstart⟩)
    · exact (hstart.step h).1 (hperiod.not_due (Nat.mod_lt k hpos))
    · rw [hzero]
      exact (hstart.step h).2.1 hperiod.1 hsilent
  have hstart : StartsAt c s best ranking k (k % period) ∨
      (k % period = 0 ∧ StartsAt c s best ranking k period) := by
    induction k with
    | zero => exact Or.inl (by rw [Nat.zero_mod]; exact h.startsAt_zero)
    | succ k ih =>
      have hnext := (hcall k ih).2
      rcases mod_succ_cases hpos k with ⟨-, hmod⟩ | ⟨hlast, hmod⟩
      · exact Or.inl (hmod ▸ hnext)
      · exact Or.inr ⟨hmod, hlast ▸ hnext⟩
  exact ⟨hstart, (hcall k hstart).1⟩

/-- With loud rewinds there is one more call between two periods. -/
theorem WalksDown.startsAt_of_loud (hperiod : c.IsPeriod s period)
    (hloud : c.silentRewind = false) (k : Nat) :
    StartsAt c s best ranking k (k % (period + 1)) := by
  induction k with
  | zero => rw [Nat.zero_mod]; exact h.startsAt_zero
  | succ k ih =>
    rcases mod_succ_cases period.succ_pos k with ⟨hlt, hmod⟩ | ⟨hlast, hmod⟩
    · rw [hmod]
      exact ((ih.step h).1 (hperiod.not_due (Nat.lt_of_succ_lt_succ hlt))).2
    · rw [hmod]
      rw [Nat.add_right_cancel hlast] at ih
      exact ((ih.step h).2.2 hperiod.1 hloud).2

end

/-- A rolling strategy by energy without a least gain selects on one state again and again. Its
period is the least positive number of slices that reach the share of the history, and there is one.
With silent rewinds call `k` yields the slice of the ranking at the position of `k` in its period.
With loud ones the same slices come, and the call after each period ends the stream. -/
theorem selects_slices {c : EnergyImpact Binary64} {s : State Binary64} {best : Sample Binary64}
    (hrolling : c.rolling = true) (htraversal : c.traversal = .energy) (hgain : c.minGain = none)
    (hproblem : s.problem.model.Reachable) (hpos : 0 < s.problem.model.size)
    (hlt : s.problem.model.size < 2 ^ 64) (hbest : s.bestSample = .ok best)
    (hall : ∀ v ∈ s.problem.model.labels, (best.get? v).isSome) :
    let n := s.problem.model.size
    let room := min c.size.value n
    ∃ ranking period, s.problem.model.ranking best none = .ok ranking ∧ ranking.length = n ∧
      IsLeast {p | 1 ≤ p ∧ atMost (c.history.share * ofInt n)
        (ofNat (min (p * room) n) : Binary64) = true} period ∧
      ∀ k,
        let slice (i : Nat) := (ranking.map Prod.fst).extract (i * room) (min ((i + 1) * room) n)
        (c.silentRewind = true → (c.call s k).Yields s best (slice (k % period))) ∧
        (c.silentRewind = false →
          (k % (period + 1) ≠ period →
            (c.call s k).Yields s best (slice (k % (period + 1)))) ∧
          (k % (period + 1) = period → (c.call s k).result = .ok .endOfStream)) := by
  intro n room
  obtain ⟨ranking, hranking⟩ := Model.exists_ranking hall c.minGain
  have h : WalksDown c s best ranking :=
    ⟨⟨hrolling, hgain, hproblem.wellFormed, hpos, hlt, hbest, hall⟩, htraversal, hranking⟩
  obtain ⟨period, hperiod⟩ := h.exists_period
  refine ⟨ranking, period, hgain ▸ hranking, h.length_eq, hperiod, fun k => ?_⟩
  intro slice
  have hslice : ∀ i, slice i = ranking.slice (c.room s) i := by
    intro i
    unfold Ranking.slice
    rw [h.length_eq]
    rfl
  rw [hslice, hslice]
  refine ⟨fun hsilent => (h.startsAt_of_silent hperiod hsilent k).2, fun hloud => ?_⟩
  have hstart := h.startsAt_of_loud hperiod hloud k
  have hmod : k % (period + 1) < period + 1 := Nat.mod_lt k period.succ_pos
  constructor
  · intro hne
    exact ((hstart.step h).1 (hperiod.not_due (by omega))).1
  · intro hlast
    rw [hlast] at hstart
    exact ((hstart.step h).2.2 hperiod.1 hloud).1

/-! ### Three variables, two at a time -/

/-- Three variables at zero, with their energy. -/
def unequalZeros : Entry Binary64 :=
  ⟨.ofList [(.number 0, ofInt 0), (.number 1, ofInt 0), (.number 2, ofInt 0)], ofInt 0⟩

theorem unequalZeros_admitted : ∀ e ∈ [unequalZeros], e.foreign? .binary = none := by
  decide +kernel

/-- Three variables of different gains. -/
def unequal : State Binary64 where
  problem := ⟨0, .ofEdits .binary [.setLinear (.number 0) (ofInt (-1)),
    .setLinear (.number 1) (ofInt 1), .setLinear (.number 2) (ofInt (-2))]⟩
  samples := ⟨.binary, [unequalZeros], unequalZeros_admitted⟩

/-- Two variables at a time, until all of them are exposed. -/
def twoByTwo (silent : Bool) : EnergyImpact Binary64 :=
  ⟨⟨2, Nat.two_pos⟩, none, true, ⟨ofInt 1, whole_inRange⟩, silent, .energy⟩

/-- Two slices make a period, the second one being short. -/
theorem selects_slices_unequal :
    ((twoByTwo true).call unequal 2).Yields unequal unequalZeros.sample [.number 2, .number 0] ∧
      ((twoByTwo true).call unequal 5).Yields unequal unequalZeros.sample [.number 1] ∧
      ((twoByTwo false).call unequal 4).Yields unequal unequalZeros.sample [.number 1] ∧
      ((twoByTwo false).call unequal 5).result = .ok .endOfStream := by
  have hsize : unequal.problem.model.size = 3 := by decide +kernel
  have hbest : unequal.bestSample = .ok unequalZeros.sample := by decide +kernel
  have hall : ∀ v ∈ unequal.problem.model.labels, (unequalZeros.sample.get? v).isSome := by
    decide +kernel
  have hranked : unequal.problem.model.ranking unequalZeros.sample none =
      .ok [(.number 2, ofInt 2), (.number 0, ofInt 1), (.number 1, ofInt (-1))] := by
    decide +kernel
  have htwo : ∀ silent, IsLeast {p | 1 ≤ p ∧
      atMost ((twoByTwo silent).history.share * ofInt unequal.problem.model.size)
        (ofNat (min (p * min (twoByTwo silent).size.value unequal.problem.model.size)
          unequal.problem.model.size) : Binary64) = true} 2 := by
    intro silent
    refine ⟨⟨by decide, by cases silent <;> decide +kernel⟩, fun p hp => ?_⟩
    by_contra hlt
    obtain rfl : p = 1 := by
      have := hp.1
      omega
    exact absurd hp.2 (by cases silent <;> decide +kernel)
  have hcalls : ∀ silent, _ := fun silent => selects_slices (c := twoByTwo silent) (s := unequal)
    rfl rfl rfl ⟨.binary, _, rfl⟩ (by omega) (by omega) hbest hall
  obtain ⟨ranking, period, hranking, -, hperiod, hsilent⟩ := hcalls true
  obtain ⟨ranking', period', hranking', -, hperiod', hloud⟩ := hcalls false
  obtain rfl := Except.ok.inj (hranking.symm.trans hranked)
  obtain rfl := Except.ok.inj (hranking'.symm.trans hranked)
  obtain rfl := hperiod.unique (htwo true)
  obtain rfl := hperiod'.unique (htwo false)
  rw [hsize] at hsilent hloud
  refine ⟨(hsilent 2).1 rfl, (hsilent 5).1 rfl, ?_, ?_⟩
  · exact ((hloud 4).2 rfl).1 (by decide)
  · exact ((hloud 5).2 rfl).2 (by decide)

end EnergyImpact

end QuboSplit
