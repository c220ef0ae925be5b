import QuboSplit.Proofs.Decomposer
import QuboSplit.Proofs.Number.Order
import QuboSplit.Proofs.StableSort
import QuboSplit.Proofs.Vartype

/-!
# Conversion of sample sets

The entries of a sample set are what was given to it, sorted (`Built.entries_eq`), and every value
is one of the vartype. Hence a conversion cannot fail, and since energies stay, sorting the
converted entries again moves none of them (`exists_changeVartype`). Conversion therefore loses
nothing, and the best sample of a state is the converted first one of least energy
(`changeVartype_lossless`).
-/

namespace QuboSplit

open List (Forall₂)

variable {α : Type} [Scalar α]

/-! ### Entries -/

namespace Entry

theorem foreign?_eq_none_iff {e : Entry α} {vartype : Vartype} :
    e.foreign? vartype = none ↔
      ∀ v x, e.sample.get? v = some x → vartype.admits x = true := by
  unfold foreign?
  simp only [Option.map_eq_none_iff, List.find?_eq_none, Prod.forall, Sample.mem_entries_iff,
    Bool.not_eq_true', Bool.not_eq_false]

/-- The entry with every value converted; its energy stays. -/
def convert (source target : Vartype) (e : Entry α) : Entry α :=
  { e with sample := e.sample.map (source.convert target) }

theorem convert_self (vartype : Vartype) (e : Entry α) : e.convert vartype vartype = e := by
  obtain ⟨⟨entries, hnodup⟩, energy⟩ := e
  have hmap : (entries.map fun x => (x.1, vartype.convert vartype x.2)) = entries := by
    cases vartype <;> exact List.map_id entries
  unfold convert Sample.map
  simp only [hmap]

/-- The entries have one energy, and their samples agree. -/
def Agrees (e e' : Entry α) : Prop := e.energy = e'.energy ∧ e.sample.agrees e'.sample = true

variable {e : Entry Binary64} {source : Vartype}

theorem foreign?_convert (target : Vartype) (h : e.foreign? source = none) :
    (e.convert source target).foreign? target = none := by
  rw [foreign?_eq_none_iff] at h ⊢
  intro v y hy
  obtain ⟨x, hx, rfl⟩ := Option.map_eq_some_iff.1 ((Sample.get?_map _ _ _).symm.trans hy)
  exact Vartype.admits_convert target (h v x hx)

theorem agrees_convert_convert (target : Vartype) (h : e.foreign? source = none) :
    e.Agrees ((e.convert source target).convert target source) := by
  refine ⟨rfl, Sample.agrees_iff.2 fun v => ?_⟩
  show Scalar.Equals _ (((e.sample.map _).map _).get? v)
  rw [Sample.get?_map, Sample.get?_map]
  cases hx : e.sample.get? v with
  | none => exact .none
  | some x => exact .some (Vartype.convert_convert target (foreign?_eq_none_iff.1 h v x hx))

end Entry

/-! ### Construction -/

/-- The samples with their energies in the model, without those that have none. -/
def Model.rated (m : Model α) (samples : List (Sample α)) : List (Entry α) :=
  samples.filterMap fun s => (m.energy s).toOption.map (Entry.mk s)

namespace SampleSet

variable {set : SampleSet α} {given entries : List (Entry α)} {vartype : Vartype}

theorem exists_ofEntries (h : ∀ e ∈ entries, e.foreign? vartype = none) :
    ∃ set, ofEntries vartype entries = .ok set ∧ set.vartype = vartype ∧
      set.entries = stableSort Entry.less entries := by
  unfold ofEntries
  split
  · next v hv =>
    obtain ⟨e, he, hforeign⟩ := List.exists_of_findSome?_eq_some hv
    rw [h e he] at hforeign
    cases hforeign
  · exact ⟨_, rfl, rfl, rfl⟩

theorem entries_of_ofEntries (h : ofEntries vartype entries = .ok set) :
    set.entries = stableSort Entry.less entries := by
  unfold ofEntries at h
  split at h
  · cases h
  · cases h
    rfl

theorem ofEntries_of_ofSamples {m : Model α} {samples : List (Sample α)}
    (h : ofSamples m samples = .ok set) : ofEntries m.vartype (m.rated samples) = .ok set := by
  obtain ⟨entries, hentries, h⟩ := exists_of_bind_eq_ok h
  have hrated : m.rated samples = entries := by
    rw [eq_filterMap_of_mapM_eq_ok hentries]
    unfold Model.rated
    congr 1
    funext s
    cases m.energy s <;> rfl
  rwa [hrated]

/-- The set was built of the given entries, or of samples that all have an energy in a model. -/
inductive Built : SampleSet α → List (Entry α) → Prop
  | ofEntries {set : SampleSet α} {vartype : Vartype} {entries : List (Entry α)}
      (h : ofEntries vartype entries = .ok set) : Built set entries
  | ofSamples {set : SampleSet α} {m : Model α} {samples : List (Sample α)}
      (h : ofSamples m samples = .ok set) : Built set (m.rated samples)

theorem Built.entries_eq (h : set.Built given) : set.entries = stableSort Entry.less given := by
  cases h with
  | ofEntries h => exact entries_of_ofEntries h
  | ofSamples h => exact entries_of_ofEntries (ofEntries_of_ofSamples h)

/-! ### Conversion -/

section Convert

variable {set : SampleSet Binary64} {given : List (Entry Binary64)}

/-- No entry has less energy than one before it. -/
def Sorted (set : SampleSet Binary64) : Prop :=
  set.entries.Pairwise fun a b => Entry.less b a = false

theorem Built.ne_nan (h : set.Built given) (henergy : ∀ e ∈ set.entries, e.energy ≠ .nan) :
    ∀ e ∈ given, e.energy ≠ .nan := by
  intro e he
  apply henergy
  rw [h.entries_eq]
  exact (stableSort_perm Entry.less given).mem_iff.2 he

theorem Built.sorted (h : set.Built given) (henergy : ∀ e ∈ set.entries, e.energy ≠ .nan) :
    set.Sorted := by
  unfold Sorted
  rw [h.entries_eq]
  exact stableSort_sorted (fun _ _ => Floating.less_asymm)
    (fun _ _ _ => Floating.not_less_trans) (h.ne_nan henergy)

/-- No value is foreign to the target, and the converted entries are sorted already. -/
theorem exists_changeVartype (hsorted : set.Sorted) (target : Vartype) :
    ∃ other, set.changeVartype target = .ok other ∧ other.vartype = target ∧ other.Sorted ∧
      other.entries = set.entries.map (Entry.convert set.vartype target) := by
  unfold changeVartype
  split
  · next htarget =>
    subst htarget
    have hself := List.map_id'' (Entry.convert_self set.vartype) set.entries
    exact ⟨set, rfl, rfl, hsorted, hself.symm⟩
  · have hadmitted : ∀ e ∈ set.entries.map (Entry.convert set.vartype target),
        e.foreign? target = none := by
      intro e he
      obtain ⟨e', he', rfl⟩ := List.mem_map.1 he
      exact Entry.foreign?_convert target (set.admitted e' he')
    have hconverted : (set.entries.map (Entry.convert set.vartype target)).Pairwise
        fun a b => Entry.less b a = false := List.pairwise_map.2 hsorted
    obtain ⟨other, hother, hvartype, hentries⟩ := exists_ofEntries hadmitted
    rw [stableSort_eq_self hconverted] at hentries
    refine ⟨other, hother, hvartype, ?_, hentries⟩
    unfold Sorted
    rwa [hentries]

theorem first_map {other : SampleSet Binary64} {f : Entry Binary64 → Entry Binary64}
    (h : other.entries = set.entries.map f) : other.first = set.first.map f := by
  unfold first
  rw [h]
  cases set.entries <;> rfl

theorem bestSample_eq {e : Entry Binary64} (hsorted : set.Sorted) (hfirst : set.first = .ok e)
    {s : State Binary64} (hs : s.samples = set) :
    s.bestSample = .ok (e.convert set.vartype s.problem.model.vartype).sample := by
  obtain ⟨other, hother, -, -, hentries⟩ := exists_changeVartype hsorted s.problem.model.vartype
  unfold State.bestSample
  rw [hs, hother]
  show (other.first >>= fun entry => pure entry.sample) = _
  rw [first_map hentries, hfirst]
  rfl

theorem Built.exists_first (h : set.Built given) (henergy : ∀ e ∈ set.entries, e.energy ≠ .nan)
    (hgiven : given ≠ []) : ∃ e, set.first = .ok e ∧ IsFirstLeast Entry.less e given := by
  cases hentries : set.entries with
  | nil =>
    have hperm := stableSort_perm Entry.less given
    rw [← h.entries_eq, hentries] at hperm
    exact absurd hperm.symm.eq_nil hgiven
  | cons e rest =>
    refine ⟨e, by unfold first; rw [hentries], ?_⟩
    exact isFirstLeast_of_stableSort_eq_cons (fun _ _ => Floating.less_asymm)
      (fun _ _ _ => Floating.not_less_trans) (h.ne_nan henergy) (h.entries_eq ▸ hentries)

/-- Conversion of a set without `nan` energies succeeds and converts entry by entry, to admitted
values; conversion back yields entries that agree with the original ones, in their order. The first
entry of the converted set is the converted first entry. That is the first one of least energy among
those given, and a state of the set uses it, converted for its problem, wherever it selects. -/
theorem changeVartype_lossless (hset : set.Built given)
    (henergy : ∀ e ∈ set.entries, e.energy ≠ .nan) (target : Vartype) :
    ∃ other, set.changeVartype target = .ok other ∧ other.vartype = target ∧
      other.entries = set.entries.map (Entry.convert set.vartype target) ∧
      (∀ e ∈ other.entries, ∀ v x, e.sample.get? v = some x → target.admits x = true) ∧
      (∃ back, other.changeVartype set.vartype = .ok back ∧ back.vartype = set.vartype ∧
        Forall₂ Entry.Agrees set.entries back.entries) ∧
      other.first = set.first.map (Entry.convert set.vartype target) ∧
      (given ≠ [] → ∃ e, set.first = .ok e ∧ IsFirstLeast Entry.less e given ∧
        ∀ s : State Binary64, s.samples = set → ∃ best,
          best = (e.convert set.vartype s.problem.model.vartype).sample ∧
          s.bestSample = .ok best ∧ ∀ (d : Decomposer Binary64) t,
            (d.select s).result = .ok (.state t) → s.Offers best t) := by
  have hsorted := hset.sorted henergy
  obtain ⟨other, hother, hvartype, hother_sorted, hentries⟩ := exists_changeVartype hsorted target
  obtain ⟨back, hback, hback_vartype, -, hback_entries⟩ :=
    exists_changeVartype hother_sorted set.vartype
  refine ⟨other, hother, hvartype, hentries, ?_, ⟨back, hback, hback_vartype, ?_⟩,
    first_map hentries, fun hgiven => ?_⟩
  · intro e he
    exact hvartype ▸ Entry.foreign?_eq_none_iff.1 (other.admitted e he)
  · rw [hback_entries, hentries, hvartype, List.map_map, List.forall₂_map_right_iff,
      List.forall₂_same]
    exact fun e he => Entry.agrees_convert_convert target (set.admitted e he)
  · obtain ⟨e, hfirst, hleast⟩ := hset.exists_first henergy hgiven
    refine ⟨e, hfirst, hleast, fun s hs => ⟨_, rfl, bestSample_eq hsorted hfirst hs, ?_⟩⟩
    intro d t ht
    exact Decomposer.offers (bestSample_eq hsorted hfirst hs) ht

/-- Two entries of one least energy behind one of more. The first of the two has a negative zero. -/
def tiedEntries : List (Entry Binary64) :=
  [⟨.ofList [(.number 0, Scalar.ofInt 1)], Scalar.ofInt 1⟩,
    ⟨.ofList [(.number 0, -Scalar.ofInt 0), (.number 1, Scalar.ofInt 1)], Scalar.ofInt 0⟩,
    ⟨.ofList [(.number 1, Scalar.ofInt 0)], Scalar.ofInt 0⟩]

theorem changeVartype_lossless_tiedEntries :
    ∃ set other back : SampleSet Binary64, ofEntries .binary tiedEntries = .ok set ∧
      (∀ e ∈ set.entries, e.energy ≠ .nan) ∧ set.changeVartype .spin = .ok other ∧
      other.changeVartype .binary = .ok back ∧ Forall₂ Entry.Agrees set.entries back.entries ∧
      other.first = .ok ⟨.ofList [(.number 0, Scalar.ofInt (-1)), (.number 1, Scalar.ofInt 1)],
        Scalar.ofInt 0⟩ ∧
      ∃ e, set.first = .ok e ∧ IsFirstLeast Entry.less e tiedEntries := by
  have hadmitted : ∀ e ∈ tiedEntries, e.foreign? .binary = none := by decide +kernel
  have hnumbers : ∀ e ∈ tiedEntries, e.energy ≠ .nan := by decide +kernel
  obtain ⟨set, hset, hvartype, hentries⟩ := exists_ofEntries hadmitted
  have henergy : ∀ e ∈ set.entries, e.energy ≠ .nan := fun e he =>
    hnumbers e ((stableSort_perm Entry.less tiedEntries).mem_iff.1 (hentries ▸ he))
  obtain ⟨other, hother, -, -, -, ⟨back, hback, -, hagrees⟩, hfirst, hbest⟩ :=
    changeVartype_lossless (.ofEntries hset) henergy .spin
  rw [hvartype] at hback hfirst
  obtain ⟨e, he, hleast, -⟩ := hbest (List.cons_ne_nil _ _)
  refine ⟨set, other, back, hset, henergy, hother, hback, hagrees, hfirst.trans ?_, e, he, hleast⟩
  unfold first
  rw [hentries]
  decide +kernel

end Convert

end SampleSet

end QuboSplit
