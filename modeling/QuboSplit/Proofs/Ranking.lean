import Mathlib.Tactic
import QuboSplit.Proofs.Model.Entries
import QuboSplit.Proofs.Sample
import QuboSplit.Ranking

/-!
# What a ranking lists

A ranking lists variables of the model, each at most once, and without a least gain it lists all of
them. It can be made whenever the sample gives every variable a value, and it lists the variables
whose gains are kept, with these gains (`mem_ranking_iff`).
-/

namespace QuboSplit

variable {α : Type}

/-- The ranking lists some of these labels, and all of them without a least gain. -/
structure Ranks (labels : List Label) (minGain : Option α) (ranking : Ranking α) : Prop where
  nodup : (ranking.map Prod.fst).Nodup
  known : ∀ v ∈ ranking.map Prod.fst, v ∈ labels
  complete : minGain = none → ∀ v ∈ labels, v ∈ ranking.map Prod.fst

/-- Only the set of labels matters. -/
theorem Ranks.congr {labels labels' : List Label} {minGain : Option α} {ranking : Ranking α}
    (h : Ranks labels minGain ranking) (hset : ∀ v, v ∈ labels ↔ v ∈ labels') :
    Ranks labels' minGain ranking where
  nodup := h.nodup
  known := fun v hv => (hset v).1 (h.known v hv)
  complete := fun hgain v hv => h.complete hgain v ((hset v).2 hv)

/-- Without a least gain it lists each of them once. -/
theorem Ranks.perm {labels : List Label} {minGain : Option α} {ranking : Ranking α}
    (h : Ranks labels minGain ranking) (hgain : minGain = none) (hlabels : labels.Nodup) :
    (ranking.map Prod.fst).Perm labels :=
  (List.perm_ext_iff_of_nodup h.nodup hlabels).2 fun v => ⟨h.known v, h.complete hgain v⟩

namespace Model

variable [Scalar α] {m : Model α}

theorem map_fst_gains (m : Model α) (values : List α) :
    (m.gains values).map Prod.fst = m.labels := by
  unfold gains
  rw [List.map_map]
  exact List.zipIdx_map_fst 0 m.labels

theorem ranks_of_ranking (hm : m.labels.Nodup) {s : Sample α} {minGain : Option α}
    {ranking : Ranking α} (h : m.ranking s minGain = .ok ranking) :
    Ranks m.labels minGain ranking := by
  obtain ⟨values, -, h⟩ := exists_of_bind_eq_ok h
  cases h
  have hperm := (stableSort_perm (fun a b => Scalar.less b.2 a.2)
    ((m.gains values).filter fun entry => keepsGain minGain entry.2)).map Prod.fst
  have hsub : (((m.gains values).filter fun entry => keepsGain minGain entry.2).map
      Prod.fst).Sublist m.labels := by
    have := (List.filter_sublist (l := m.gains values)
      (p := fun entry => keepsGain minGain entry.2)).map Prod.fst
    rwa [map_fst_gains] at this
  refine ⟨hperm.nodup_iff.2 (hm.sublist hsub), fun v hv => hsub.subset (hperm.mem_iff.1 hv), ?_⟩
  rintro rfl v hv
  have hall : (m.gains values).filter (fun entry => keepsGain none entry.2) = m.gains values := by
    refine List.filter_eq_self.2 fun entry _ => ?_
    rfl
  rw [hperm.mem_iff, hall, map_fst_gains]
  exact hv

/-- What can be ranked has a value for every variable. -/
theorem assigned_of_ranking {s : Sample α} {minGain : Option α} {ranking : Ranking α}
    (h : m.ranking s minGain = .ok ranking) : m.Assigned s := by
  obtain ⟨values, hvalues, -⟩ := exists_of_bind_eq_ok h
  exact assigned_of_values hvalues

theorem mem_gains_iff {values : List α} {v : Label} {g : α} :
    (v, g) ∈ m.gains values ↔ ∃ i, m.label? i = some v ∧ m.gainAt values i = g := by
  unfold gains
  rw [List.mem_map]
  constructor
  · rintro ⟨⟨u, i⟩, hmem, hpair⟩
    obtain ⟨rfl, rfl⟩ := Prod.mk.inj hpair
    rw [List.mk_mem_zipIdx_iff_getElem?] at hmem
    exact ⟨i, (label?_eq_getElem? m i).trans hmem, rfl⟩
  · rintro ⟨i, hi, rfl⟩
    rw [label?_eq_getElem?] at hi
    exact ⟨(v, i), List.mk_mem_zipIdx_iff_getElem?.2 hi, rfl⟩

/-- A ranking lists the variables whose gain is kept, with that gain. -/
theorem mem_ranking_iff (hm : m.labels.Nodup) {s : Sample α} {minGain : Option α}
    {ranking : Ranking α} (h : m.ranking s minGain = .ok ranking) {v : Label} {g : α} :
    (v, g) ∈ ranking ↔ m.flipGain s v = .ok g ∧ keepsGain minGain g = true := by
  obtain ⟨values, hvalues, h⟩ := exists_of_bind_eq_ok h
  cases h
  rw [(stableSort_perm _ _).mem_iff, List.mem_filter, mem_gains_iff]
  refine and_congr_left fun _ => ?_
  unfold flipGain index
  rw [hvalues]
  constructor
  · rintro ⟨i, hi, rfl⟩
    rw [(index?_eq_some_iff hm).2 hi]
    rfl
  · intro hgain
    cases hi : m.index? v with
    | none =>
      rw [hi] at hgain
      cases hgain
    | some i =>
      rw [hi] at hgain
      exact ⟨i, label?_of_index? hi, Except.ok.inj hgain⟩

/-- A gain is kept if it is not less than the least one asked for. -/
theorem keepsGain_iff_not_less {minGain : Option α} {g : α} :
    keepsGain minGain g = true ↔ ∀ least, minGain = some least → Scalar.less g least = false := by
  unfold keepsGain
  cases minGain <;> simp

/-- A sample of all variables can be ranked. -/
theorem exists_ranking {s : Sample α} (hs : m.Assigned s)
    (minGain : Option α) : ∃ ranking, m.ranking s minGain = .ok ranking := by
  have hvalues := values_eq_ok fun v hv => hs.get?_eq (Scalar.ofInt 0) hv
  unfold ranking
  rw [hvalues]
  exact ⟨_, rfl⟩

/-- A sample that lacks a variable cannot. -/
theorem ranking_eq_error {s : Sample α} {v : Label} (h : m.missing? s = some v)
    (minGain : Option α) : m.ranking s minGain = .error (.missingValue v) := by
  unfold ranking
  rw [values_eq_error h]
  rfl

end Model

end QuboSplit
