import Mathlib.Tactic
import QuboSplit.Model.Energy
import QuboSplit.Proofs.Lists
import QuboSplit.Proofs.Number.Equality

/-!
# Values of samples

Samples as finite maps: what a variable is given after an assignment, after applying a function to
every value, after overwriting one sample by another, and after restricting a sample to some
variables. Samples agree if they are equal as
maps (`agrees_iff`). A sample of all variables of a model has a list of values for it
(`values_eq_ok`).
-/

namespace QuboSplit

variable {α : Type}

theorem lookup_assign (v : Label) (x : α) (entries : List (Label × α)) (w : Label) :
    (assign v x entries).lookup w = if w = v then some x else entries.lookup w := by
  induction entries with
  | nil =>
    unfold assign
    rw [List.lookup_cons]
    by_cases hw : w = v
    · simp [hw]
    · rw [beq_false_of_ne hw, if_neg hw]
  | cons e rest ih =>
    obtain ⟨u, y⟩ := e
    unfold assign
    by_cases hu : u = v
    · subst hu
      rw [if_pos rfl, List.lookup_cons, List.lookup_cons]
      by_cases hw : w = u
      · simp [hw]
      · rw [beq_false_of_ne hw, if_neg hw]
    · rw [if_neg hu, List.lookup_cons, List.lookup_cons, ih]
      by_cases hw : w = u
      · subst hw
        simp [hu]
      · rw [beq_false_of_ne hw]

theorem lookup_eq_none_iff {κ : Type} [DecidableEq κ] {entries : List (κ × α)} {v : κ} :
    entries.lookup v = none ↔ v ∉ entries.map Prod.fst := by
  induction entries with
  | nil => simp
  | cons e rest ih =>
    rw [List.lookup_cons, List.map_cons, List.mem_cons]
    by_cases hv : v = e.1
    · simp [hv]
    · rw [beq_false_of_ne hv, ih]
      simp [hv]

theorem lookup_filter (p : Label → Bool) (entries : List (Label × α)) (v : Label) :
    (entries.filter fun e => p e.1).lookup v = if p v then entries.lookup v else none := by
  induction entries with
  | nil => simp
  | cons e rest ih =>
    rw [List.filter_cons, List.lookup_cons]
    by_cases hv : v = e.1
    · subst hv
      by_cases hp : p e.1
      · rw [if_pos hp, if_pos hp, List.lookup_cons]
        simp
      · rw [if_neg hp, ih, if_neg hp, if_neg hp]
    · rw [beq_false_of_ne hv, ← ih]
      by_cases hp : p e.1
      · rw [if_pos hp, List.lookup_cons, beq_false_of_ne hv]
      · rw [if_neg hp]

theorem lookup_map_snd (f : α → α) (entries : List (Label × α)) (v : Label) :
    (entries.map fun e => (e.1, f e.2)).lookup v = (entries.lookup v).map f := by
  induction entries with
  | nil => rfl
  | cons e rest ih =>
    rw [List.map_cons, List.lookup_cons, List.lookup_cons]
    cases v == e.1 with
    | true => rfl
    | false => exact ih

namespace Sample

theorem isSome_get?_iff {s : Sample α} {v : Label} :
    (s.get? v).isSome ↔ v ∈ s.entries.map Prod.fst := by
  rw [← not_iff_not, Option.not_isSome_iff_eq_none]
  exact lookup_eq_none_iff

@[simp] theorem get?_insert (s : Sample α) (v : Label) (x : α) (w : Label) :
    (s.insert v x).get? w = if w = v then some x else s.get? w := lookup_assign v x s.entries w

@[simp] theorem get?_map (f : α → α) (s : Sample α) (v : Label) :
    (s.map f).get? v = (s.get? v).map f := lookup_map_snd f s.entries v

/-- The sample with the values of `t` in place of its own. -/
def overwrite (s t : Sample α) : Sample α := t.entries.foldl (fun s e => s.insert e.1 e.2) s

theorem get?_overwrite (s t : Sample α) (v : Label) :
    (s.overwrite t).get? v = (t.get? v).or (s.get? v) := by
  obtain ⟨entries, hnodup⟩ := t
  show (entries.foldl (fun s e => s.insert e.1 e.2) s).get? v = (entries.lookup v).or (s.get? v)
  induction entries generalizing s with
  | nil => rfl
  | cons e rest ih =>
    obtain ⟨hnot, hrest⟩ := List.nodup_cons.1 hnodup
    rw [List.foldl_cons, ih _ hrest, get?_insert, List.lookup_cons]
    by_cases hv : v = e.1
    · subst hv
      rw [if_pos rfl, lookup_eq_none_iff.2 hnot]
      simp
    · rw [if_neg hv, beq_false_of_ne hv]

/-- The values of the given variables only. -/
def restrict (s : Sample α) (labels : List Label) : Sample α where
  entries := s.entries.filter fun e => decide (e.1 ∈ labels)
  nodup := s.nodup.sublist (List.filter_sublist.map Prod.fst)

theorem get?_restrict (s : Sample α) (labels : List Label) (v : Label) :
    (s.restrict labels).get? v = if v ∈ labels then s.get? v else none := by
  refine (lookup_filter (fun v => decide (v ∈ labels)) s.entries v).trans ?_
  by_cases hv : v ∈ labels <;> simp [hv, get?]

theorem mem_entries_iff {s : Sample α} {v : Label} {x : α} :
    (v, x) ∈ s.entries ↔ s.get? v = some x := by
  have hmem : ∀ {y}, s.get? v = some y → (v, y) ∈ s.entries := by
    intro y hy
    obtain ⟨before, after, hentries, -⟩ := List.lookup_eq_some_iff.1 hy
    rw [hentries]
    exact List.mem_append_right before List.mem_cons_self
  refine ⟨fun hx => ?_, hmem⟩
  obtain ⟨y, hy⟩ := Option.isSome_iff_exists.1 (isSome_get?_iff.2 (List.mem_map_of_mem hx))
  have hpair : (v, y) = (v, x) := List.inj_on_of_nodup_map s.nodup (hmem hy) hx rfl
  rw [hy, (Prod.mk.inj hpair).2]

theorem mem_keys_iff {s : Sample α} (v : Label) :
    v ∈ s.entries.map Prod.fst ↔ s.get? v ≠ none := by
  rw [← isSome_get?_iff, Option.isSome_iff_ne_none]

/-- Samples agree if every variable has equal values in both, or no value in either. -/
theorem agrees_iff [Scalar α] {s t : Sample α} :
    s.agrees t = true ↔ ∀ v, Scalar.Equals (s.get? v) (t.get? v) := by
  have hentries : (∀ e ∈ s.entries, (t.get? e.1).any (Scalar.equal e.2) = true) ↔
      ∀ v x, s.get? v = some x → ∃ y, t.get? v = some y ∧ Scalar.equal x y = true := by
    simp only [Prod.forall, mem_entries_iff, Option.any_eq_true]
  unfold agrees
  rw [Bool.and_eq_true, beq_iff_eq, List.all_eq_true, hentries,
    ← Scalar.equals_iff_of_keys s.nodup t.nodup mem_keys_iff mem_keys_iff, List.length_map,
    List.length_map]

end Sample

/-! ### Values for a model -/

namespace Model

/-- The sample gives every variable of the model a value. -/
def Assigned (m : Model α) (s : Sample α) : Prop := ∀ v ∈ m.labels, (s.get? v).isSome

theorem Assigned.get?_eq {m : Model α} {s : Sample α} (h : m.Assigned s) (x : α) {v : Label}
    (hv : v ∈ m.labels) : s.get? v = some ((s.get? v).getD x) := by
  obtain ⟨y, hy⟩ := Option.isSome_iff_exists.1 (h v hv)
  rw [hy]
  rfl

/-- A sample that gives every variable the value of an assignment yields these values. -/
theorem values_eq_ok {m : Model α} {s : Sample α} {x : Label → α}
    (h : ∀ v ∈ m.labels, s.get? v = some (x v)) : m.values s = .ok (m.labels.map x) := by
  unfold values labels
  rw [List.map_map]
  refine mapM_eq_ok fun n hn => ?_
  rw [h n.label (List.mem_map_of_mem hn)]
  rfl

/-- The first variable of the model that the sample gives no value. -/
def missing? (m : Model α) (s : Sample α) : Option Label :=
  m.labels.find? fun v => (s.get? v).isNone

theorem missing?_eq_none_iff {m : Model α} {s : Sample α} : m.missing? s = none ↔ m.Assigned s := by
  unfold missing? Assigned
  simp only [List.find?_eq_none, Option.isNone_iff_eq_none, Option.isSome_iff_ne_none, ne_eq]

/-- Without a value of some variable there are no values, and the first such variable is named. -/
theorem values_eq_error {m : Model α} {s : Sample α} {v : Label} (h : m.missing? s = some v) :
    m.values s = .error (.missingValue v) := by
  unfold missing? labels at h
  rw [List.find?_map] at h
  obtain ⟨n, hn, rfl⟩ := Option.map_eq_some_iff.1 h
  have hnone := List.find?_some hn
  rw [Function.comp_apply, Option.isNone_iff_eq_none] at hnone
  refine mapM_eq_error hn (by rw [hnone]) fun n' _ hn' => ?_
  obtain ⟨x, hx⟩ := Option.isSome_iff_exists.1 (Option.isNone_eq_false_iff.1 hn')
  exact ⟨x, by rw [hx]⟩

/-- A sample that yields values has one for every variable. -/
theorem assigned_of_values {m : Model α} {s : Sample α} {values : List α}
    (h : m.values s = .ok values) : m.Assigned s := by
  intro v hv
  obtain ⟨n, hn, rfl⟩ := List.mem_map.1 hv
  obtain ⟨x, -, hx⟩ := exists_of_mapM_eq_ok h n hn
  cases hs : s.get? n.label with
  | none =>
    rw [hs] at hx
    cases hx
  | some y => rfl

end Model

end QuboSplit
