import Mathlib.Tactic
import QuboSplit.Proofs.Model.Energy
import QuboSplit.Proofs.Number.Order
import QuboSplit.Proofs.Ranking
import QuboSplit.Proofs.StableSort

/-!
# The order of a ranking

A ranking goes from greater gains to smaller ones, and from smaller indices to greater ones among
equal gains (`ranking_ordered`). This order of entries is strict, so there is one list of the
variables with their gains that stands in it (`IsRanking.unique`), and leaving out the gains below a
least one leaves the ranking that asks for it (`IsRanking.filter`). Only a missing value prevents a
ranking (`ranking_eq_error_iff`).
-/

namespace QuboSplit.Model

/-! ### Faults -/

/-- A ranking fails on the first variable without a value, and on nothing else. -/
theorem ranking_eq_error_iff {α : Type} [Scalar α] {m : Model α} {s : Sample α} {minGain : Option α}
    {fault : Fault} :
    m.ranking s minGain = .error fault ↔ ∃ v, m.missing? s = some v ∧ fault = .missingValue v := by
  cases hmissing : m.missing? s with
  | none =>
    obtain ⟨ranking, hranking⟩ := exists_ranking (missing?_eq_none_iff.1 hmissing) minGain
    rw [hranking]
    exact ⟨nofun, nofun⟩
  | some v =>
    rw [ranking_eq_error hmissing]
    constructor
    · intro h
      cases h
      exact ⟨v, rfl, rfl⟩
    · rintro ⟨w, hw, rfl⟩
      cases hw
      rfl

/-! ### The order of entries -/

/-- Of greater gain, or of equal gain and smaller index. -/
def Precedes (m : Model Binary64) (e f : Label × Binary64) : Prop :=
  f.2.less e.2 = true ∨ e.2.equal f.2 = true ∧ m.indexOf e.1 < m.indexOf f.1

variable {m : Model Binary64} {s : Sample Binary64} {minGain : Option Binary64}
  {ranking : Ranking Binary64}

theorem Precedes.asymm {e f : Label × Binary64} (h : m.Precedes e f) : ¬ m.Precedes f e :=
  Floating.asymm_of_ties Nat.lt_asymm h

/-- Variables are listed by increasing index. -/
theorem pairwise_indexOf_labels {α : Type} {m : Model α} (hm : m.WellFormed) :
    m.labels.Pairwise fun u v => m.indexOf u < m.indexOf v := by
  have hindex : ∀ (i : Nat) (hi : i < m.labels.length), m.indexOf m.labels[i] = i := by
    intro i hi
    have hlabel : m.label? i = some m.labels[i] :=
      (label?_eq_getElem? m i).trans (List.getElem?_eq_getElem hi)
    exact Option.some.inj ((index?_indexOf (List.getElem_mem hi)).symm.trans
      (hm.index?_iff.2 hlabel))
  refine List.pairwise_iff_getElem.2 fun i j hi hj hij => ?_
  rwa [hindex i hi, hindex j hj]

/-- Gains that are numbers are ranked in strict order. -/
theorem ranking_ordered (hm : m.WellFormed) (h : m.ranking s minGain = .ok ranking)
    (hgains : ∀ e ∈ ranking, e.2 ≠ .nan) : ranking.Pairwise m.Precedes := by
  obtain ⟨values, -, h⟩ := exists_of_bind_eq_ok h
  cases h
  let before : Label × Binary64 → Label × Binary64 → Bool := fun e f => Scalar.less f.2 e.2
  let kept := (m.gains values).filter fun entry => keepsGain minGain entry.2
  have hgains : ∀ e ∈ kept, e.2 ≠ .nan := fun e he =>
    hgains e ((stableSort_perm before kept).mem_iff.2 he)
  have hindices : kept.Pairwise fun e f => m.indexOf e.1 < m.indexOf f.1 := by
    have hlabels := pairwise_indexOf_labels hm
    rw [← map_fst_gains m values, List.pairwise_map] at hlabels
    exact hlabels.filter _
  have hsorted : (stableSort before kept).Pairwise fun e f => before f e = false :=
    stableSort_sorted (fun _ _ he => Floating.less_asymm he)
      (fun _ _ _ hnumber he hf => Floating.not_less_trans hnumber hf he) hgains
  have hkeeps : (stableSort before kept).Pairwise fun e f =>
      before e f = true ∨ m.indexOf e.1 < m.indexOf f.1 := stableSort_keeps hindices
  refine (hsorted.and hkeeps).imp_of_mem fun {e f} he hf h => ?_
  have he := hgains e ((stableSort_perm before kept).mem_iff.1 he)
  have hf := hgains f ((stableSort_perm before kept).mem_iff.1 hf)
  obtain ⟨hnot, hmore | hindex⟩ := h
  · exact .inl hmore
  · cases hmore : f.2.less e.2 with
    | true => exact .inl hmore
    | false => exact .inr ⟨Floating.equal_of_not_less he hf hnot hmore, hindex⟩

/-! ### The one ranking -/

/-- The variables whose gain is not less than `minGain`, each once with that gain, by decreasing
gain and among equal gains by increasing index. -/
structure IsRanking (m : Model Binary64) (s : Sample Binary64) (minGain : Option Binary64)
    (ranking : Ranking Binary64) : Prop where
  nodup : (ranking.map Prod.fst).Nodup
  mem_iff : ∀ v g, (v, g) ∈ ranking ↔
    m.flipGain s v = .ok g ∧ ∀ least, minGain = some least → g.less least = false
  ordered : ranking.Pairwise m.Precedes

namespace IsRanking

/-- The variables and the order leave no choice. -/
theorem unique {other : Ranking Binary64} (h : m.IsRanking s minGain ranking)
    (h' : m.IsRanking s minGain other) : other = ranking := by
  have hperm : other.Perm ranking :=
    (List.perm_ext_iff_of_nodup h'.nodup.of_map h.nodup.of_map).2 fun e =>
      (h'.mem_iff e.1 e.2).trans (h.mem_iff e.1 e.2).symm
  exact hperm.eq_of_pairwise (fun _ _ _ _ he hf => absurd hf he.asymm) h'.ordered h.ordered

theorem filter {all : Ranking Binary64} (h : m.IsRanking s none all) (minGain : Option Binary64) :
    m.IsRanking s minGain (all.filter fun e => keepsGain minGain e.2) where
  nodup := h.nodup.sublist (List.filter_sublist.map Prod.fst)
  mem_iff v g := by
    rw [List.mem_filter, h.mem_iff, keepsGain_iff_not_less]
    simp only [reduceCtorEq, false_implies, implies_true, and_true]
    rfl
  ordered := h.ordered.filter _

end IsRanking

theorem ne_nan_of_mem_ranking (hm : m.WellFormed)
    (hgains : ∀ v ∈ m.labels, m.flipGain s v ≠ .ok .nan)
    (h : m.ranking s minGain = .ok ranking) : ∀ e ∈ ranking, e.2 ≠ .nan := by
  intro e he hnan
  have hknown := (ranks_of_ranking hm.labels_nodup h).known e.1 (List.mem_map_of_mem he)
  refine hgains e.1 hknown ?_
  rw [((mem_ranking_iff hm.labels_nodup h).1 he).1, hnan]

/-- What is ranked stands in the order of a ranking, if the gains are numbers. -/
theorem isRanking_of_ranking (hm : m.WellFormed)
    (hgains : ∀ v ∈ m.labels, m.flipGain s v ≠ .ok .nan)
    (h : m.ranking s minGain = .ok ranking) : m.IsRanking s minGain ranking where
  nodup := (ranks_of_ranking hm.labels_nodup h).nodup
  mem_iff v g := by
    rw [mem_ranking_iff hm.labels_nodup h, keepsGain_iff_not_less]
    rfl
  ordered := ranking_ordered hm h (ne_nan_of_mem_ranking hm hgains h)

/-- A ranking fails exactly if the sample gives some variable no value. Otherwise, if the gains are
numbers, it is the only list of the variables whose gain is not less than the least one asked for,
each once with its gain, by decreasing gain and then by increasing index. It is the ranking of all
variables without the gains that are less. -/
theorem ranking_unique (hm : m.Reachable) (s : Sample Binary64) (minGain : Option Binary64) :
    ((∃ fault, m.ranking s minGain = .error fault) ↔ ∃ v ∈ m.labels, s.get? v = none) ∧
    (∀ fault, m.ranking s minGain = .error fault →
      ∃ v ∈ m.labels, s.get? v = none ∧ fault = .missingValue v ∧
        fault.kind = .invalidArgument) ∧
    ((∀ v ∈ m.labels, (s.get? v).isSome) → (∀ v ∈ m.labels, m.flipGain s v ≠ .ok .nan) →
      ∃ all ranking, m.ranking s none = .ok all ∧ m.ranking s minGain = .ok ranking ∧
        (all.map Prod.fst).Perm m.labels ∧
        m.IsRanking s minGain ranking ∧ (∀ other, m.IsRanking s minGain other → other = ranking) ∧
        ranking = all.filter fun e => keepsGain minGain e.2) := by
  have hwell := hm.wellFormed
  refine ⟨?_, fun fault h => ?_, fun hs hgains => ?_⟩
  · rw [← exists_missing?_iff]
    constructor
    · rintro ⟨fault, h⟩
      obtain ⟨v, hv, -⟩ := ranking_eq_error_iff.1 h
      exact ⟨v, hv⟩
    · rintro ⟨v, hv⟩
      exact ⟨_, ranking_eq_error_iff.2 ⟨v, hv, rfl⟩⟩
  · obtain ⟨v, hv, rfl⟩ := ranking_eq_error_iff.1 h
    exact ⟨v, (missing?_spec hv).1, (missing?_spec hv).2, rfl, rfl⟩
  · obtain ⟨all, hall⟩ := exists_ranking (m := m) hs none
    obtain ⟨ranking, hranking⟩ := exists_ranking (m := m) hs minGain
    have hperm := (ranks_of_ranking hwell.labels_nodup hall).perm rfl hwell.labels_nodup
    have hfiltered := (isRanking_of_ranking hwell hgains hall).filter minGain
    have his := isRanking_of_ranking hwell hgains hranking
    exact ⟨all, ranking, hall, hranking, hperm, his, fun other => his.unique,
      (his.unique hfiltered).symm⟩

open Label (number) in
/-- Spins that are not indexed by label, with two equal gains that are just kept and one that is
not. Without a value of the last variable there is no ranking. -/
theorem ranking_unique_tied :
    let m : Model Binary64 := .ofEdits .spin
      [.setLinear (number 9) (.ofInt 1), .setLinear (number 0) (.ofInt (-5)),
        .setQuadratic (number 5) (number 7) (.ofInt 3), .setLinear (number 5) (.ofInt 2),
        .setLinear (number 7) (.ofInt (-1)), .setLinear (number 3) (.ofInt 1)]
    let s : Sample Binary64 := ⟨[(number 0, .ofInt 1), (number 3, .ofInt 1), (number 5, .ofInt 1),
      (number 7, .ofInt 1), (number 9, .ofInt 1)], by decide⟩
    let t : Sample Binary64 := ⟨[(number 0, .ofInt 1), (number 5, .ofInt 1), (number 7, .ofInt 1),
      (number 9, .ofInt 1)], by decide⟩
    let ranking : Ranking Binary64 := [(number 5, .ofInt 10), (number 7, .ofInt 4),
      (number 9, .ofInt 2), (number 3, .ofInt 2)]
    m.ranking s (some (.ofInt 2)) = .ok ranking ∧
      (∀ other, m.IsRanking s (some (.ofInt 2)) other → other = ranking) ∧
      ∃ fault, m.ranking t none = .error fault := by
  intro m s t ranking
  have hm : m.Reachable := ⟨.spin, _, rfl⟩
  have hs : ∀ v ∈ m.labels, (s.get? v).isSome := by decide +kernel
  have hgains : ∀ v ∈ m.labels, m.flipGain s v ≠ .ok .nan := by decide +kernel
  have hmissing : ∃ v ∈ m.labels, t.get? v = none := by decide +kernel
  have hranking : m.ranking s (some (.ofInt 2)) = .ok ranking := by decide +kernel
  obtain ⟨-, -, hranked⟩ := ranking_unique hm s (some (.ofInt 2))
  obtain ⟨-, ranking', -, hok, -, -, hunique, -⟩ := hranked hs hgains
  obtain rfl : ranking' = ranking := Except.ok.inj (hok.symm.trans hranking)
  exact ⟨hranking, hunique, (ranking_unique hm t none).1.2 hmissing⟩

end QuboSplit.Model
