import Mathlib.Tactic
import QuboSplit.Model.Induced
import QuboSplit.Proofs.Model.Entries
import QuboSplit.Proofs.Sample

/-!
# What an induced model contains

Inducing a model is one pass over the couplings of the selected variables. Each coupling of two
selected variables is copied once, from its smaller end, and each coupling to another variable is
added to the linear bias of its selected end (`Inherits`, kept by every step of the pass). The pass
succeeds if the sample has the values that it needs (`exists_induced_of_needed`) and else fails on
the first one that is missing (`induced_eq_error`).
-/

namespace QuboSplit.Model

open Scalar (ofInt)

variable {α : Type}

/-! ### The chosen variables -/

/-- The indices of the selected variables, each once. -/
def chosen (m : Model α) (selection : List Label) : List Nat := distinct (selection.map m.indexOf)

theorem mem_chosen {m : Model α} {selection : List Label} {i : Nat} :
    i ∈ m.chosen selection ↔ ∃ v ∈ selection, m.indexOf v = i := by
  unfold chosen
  rw [mem_distinct, List.mem_map]

/-- The selected variables have their indices in order of first appearance. -/
theorem chosen_eq {m : Model α} {selection : List Label} (hknown : ∀ v ∈ selection, v ∈ m.labels) :
    m.chosen selection = (distinct selection).map m.indexOf :=
  distinct_map fun u hu v hv => indexOf_injOn (hknown u hu) (hknown v hv)

theorem filterMap_label?_chosen {m : Model α} {selection : List Label}
    (hknown : ∀ v ∈ selection, v ∈ m.labels) :
    (m.chosen selection).filterMap m.label? = distinct selection := by
  rw [chosen_eq hknown]
  exact filterMap_label?_map_indexOf fun v hv => hknown v (mem_distinct.1 hv)

theorem mem_restriction {m : Model α} {chosen : List Nat} {n : Node α}
    (h : n ∈ (m.restriction chosen).nodes) :
    ∃ i n₀, i ∈ chosen ∧ m.nodes[i]? = some n₀ ∧ n = .isolated n₀.label n₀.linear := by
  obtain ⟨i, hi, h⟩ := List.mem_filterMap.1 h
  obtain ⟨n₀, hn₀, rfl⟩ := Option.map_eq_some_iff.1 h
  exact ⟨i, n₀, hi, hn₀, rfl⟩

theorem labels_restriction (m : Model α) (chosen : List Nat) :
    (m.restriction chosen).labels = chosen.filterMap m.label? := by
  unfold restriction labels
  rw [List.map_filterMap]
  congr 1
  funext i
  unfold label?
  cases m.nodes[i]? <;> rfl

theorem row_restriction (m : Model α) (chosen : List Nat) (i : Nat) :
    (m.restriction chosen).row i = [] := by
  unfold row
  cases hn : (m.restriction chosen).nodes[i]? with
  | none => rfl
  | some n =>
    obtain ⟨j, n₀, -, -, rfl⟩ := mem_restriction (List.mem_of_getElem? hn)
    rfl

theorem WellFormed.restriction {m : Model α} (h : m.WellFormed) {chosen : List Nat}
    (hchosen : chosen.Nodup) : (m.restriction chosen).WellFormed where
  labels_nodup := by
    rw [labels_restriction]
    refine hchosen.filterMap fun i j v hi hj => ?_
    exact Option.some.inj ((h.index?_iff.2 hi).symm.trans (h.index?_iff.2 hj))
  sound i n hn := by
    obtain ⟨j, n₀, -, -, rfl⟩ := mem_restriction (List.mem_of_getElem? hn)
    exact Node.Sound.isolated _ _ _ _
  symmetric i j := by rw [row_restriction, row_restriction]; rfl

/-! ### One pass over couplings -/

/-- The couplings of the chosen variables, each with the index of the end at which it is stored. -/
def couplings (m : Model α) (chosen : List Nat) : List (Nat × Nat × α) :=
  chosen.flatMap fun i => (m.row i).map fun c => (i, c)

theorem mem_couplings {m : Model α} {chosen : List Nat} {e : Nat × Nat × α} :
    e ∈ m.couplings chosen ↔ e.1 ∈ chosen ∧ e.2 ∈ m.row e.1 := by
  unfold couplings
  rw [List.mem_flatMap]
  constructor
  · rintro ⟨i, hi, he⟩
    obtain ⟨c, hc, rfl⟩ := List.mem_map.1 he
    exact ⟨hi, hc⟩
  · rintro ⟨hi, hc⟩
    exact ⟨e.1, hi, List.mem_map.2 ⟨e.2, hc, rfl⟩⟩

/-- A stored coupling is an interaction of two variables of the model. -/
theorem WellFormed.exists_labels {m : Model α} (h : m.WellFormed) {chosen : List Nat}
    {e : Nat × Nat × α} (he : e ∈ m.couplings chosen) :
    ∃ v w, m.label? e.1 = some v ∧ m.label? e.2.1 = some w ∧ v ≠ w ∧
      m.coupling? v w = some e.2.2 := by
  have hrow := (mem_couplings.1 he).2
  obtain ⟨hj, hi, hne⟩ := h.lt_of_mem_row hrow
  obtain ⟨n, hn⟩ := exists_node hi
  obtain ⟨n', hn'⟩ := exists_node hj
  have hv := label?_of_node hn
  have hw := label?_of_node hn'
  refine ⟨n.label, n'.label, hv, hw, fun e' => hne ?_, ?_⟩
  · rw [e', ← h.index?_iff] at hv
    exact Option.some.inj ((h.index?_iff.2 hw).symm.trans hv)
  · rw [coupling?_of_index? (h.index?_iff.2 hv) (h.index?_iff.2 hw)]
    exact h.mem_row_iff.1 hrow

/-- The variable whose value a coupling needs: the one at its other end, unless that is chosen. -/
def needs? (m : Model α) (chosen : List Nat) (e : Nat × Nat × α) : Option Label :=
  if e.2.1 ∈ chosen then none else m.label? e.2.1

/-- The variables whose values the pass needs, in the order in which it comes to them. -/
def needed (m : Model α) (chosen : List Nat) : List Label :=
  (m.couplings chosen).filterMap (m.needs? chosen)

theorem mem_labels_of_needed {m : Model α} {chosen : List Nat} {w : Label}
    (h : w ∈ m.needed chosen) : w ∈ m.labels := by
  obtain ⟨e, -, he⟩ := List.mem_filterMap.1 h
  unfold needs? at he
  split at he
  · cases he
  · exact mem_labels_of_label? he

variable [Scalar α]

/-- Carries one coupling over to `sub`. -/
def inheritCoupling (m : Model α) (chosen : List Nat) (s : Sample α) (sub : Model α)
    (e : Nat × Nat × α) : Except Fault (Model α) :=
  match m.label? e.1 with
  | none => .ok sub
  | some v => m.inherit chosen s e.1 v sub e.2

theorem inheritRow_eq (m : Model α) (chosen : List Nat) (s : Sample α) (sub : Model α) (i : Nat) :
    m.inheritRow chosen s sub i =
      (m.row i).foldlM (fun sub c => m.inheritCoupling chosen s sub (i, c)) sub := by
  unfold inheritRow inheritCoupling
  cases hv : m.label? i with
  | some v => simp only [hv]
  | none =>
    simp only [hv]
    generalize m.row i = row
    induction row with
    | nil => rfl
    | cons c row ih => exact ih

theorem foldlM_inheritRow (m : Model α) (chosen : List Nat) (s : Sample α) (sub : Model α)
    (indices : List Nat) :
    indices.foldlM (m.inheritRow chosen s) sub =
      (m.couplings indices).foldlM (m.inheritCoupling chosen s) sub := by
  unfold couplings
  rw [foldlM_flatMap]
  congr 1
  funext sub i
  rw [inheritRow_eq, List.foldlM_map]

/-- What a coupling adds to the linear bias of `v`. One to a variable that is not selected adds its
bias times the value there to the end at which it is stored; one that is copied adds zero to both
of its ends, which are added again. -/
def shift? (m : Model α) (chosen : List Nat) (s : Sample α) (v : Label) (e : Nat × Nat × α) :
    Option α :=
  if e.2.1 ∈ chosen then
    if e.1 < e.2.1 ∧ (m.label? e.1 = some v ∨ m.label? e.2.1 = some v) then some (ofInt 0) else none
  else if m.label? e.1 = some v then ((m.label? e.2.1).bind s.get?).map (e.2.2 * ·)
  else none

/-- The model `sub` has the chosen variables of `m` and what the couplings in `done` hand over. -/
structure Inherits (m : Model α) (chosen : List Nat) (s : Sample α) (done : List (Nat × Nat × α))
    (sub : Model α) : Prop where
  wellFormed : sub.WellFormed
  vartype_eq : sub.vartype = m.vartype
  offset_eq : sub.offset = m.offset
  labels_eq : sub.labels = chosen.filterMap m.label?
  linear_eq : ∀ v ∈ sub.labels, sub.linear? v =
    (m.linear? v).map fun b => (done.filterMap (m.shift? chosen s v)).foldl (· + ·) b
  coupling_or : ∀ u v, sub.coupling? u v = none ∨ sub.coupling? u v = m.coupling? u v
  coupling_eq : ∀ e ∈ done, e.2.1 ∈ chosen → e.1 < e.2.1 → ∀ v w, m.label? e.1 = some v →
    m.label? e.2.1 = some w → sub.coupling? v w = m.coupling? v w

namespace Inherits

variable {m sub : Model α} {chosen : List Nat} {s : Sample α} {done : List (Nat × Nat × α)}

theorem mem_labels (h : Inherits m chosen s done sub) {i : Nat} {v : Label} (hi : i ∈ chosen)
    (hv : m.label? i = some v) : v ∈ sub.labels := by
  rw [h.labels_eq]
  exact List.mem_filterMap.2 ⟨i, hi, hv⟩

/-- The linear biases after one more coupling. -/
theorem linear_append (h : Inherits m chosen s done sub) {sub' : Model α} {e : Nat × Nat × α}
    {v : Label} (hv : v ∈ sub.labels) (hsub : sub'.linear? v =
      (sub.linear? v).map fun b => (m.shift? chosen s v e).toList.foldl (· + ·) b) :
    sub'.linear? v = (m.linear? v).map fun b =>
      ((done ++ [e]).filterMap (m.shift? chosen s v)).foldl (· + ·) b := by
  have hlast : [e].filterMap (m.shift? chosen s v) = (m.shift? chosen s v e).toList := by
    cases he : m.shift? chosen s v e with
    | none => rw [List.filterMap_cons_none he]; rfl
    | some y => rw [List.filterMap_cons_some he]; rfl
  rw [hsub, h.linear_eq v hv, Option.map_map, List.filterMap_append, hlast]
  simp only [List.foldl_append]
  rfl

/-- A coupling that is copied from its other end changes nothing. -/
theorem skip (h : Inherits m chosen s done sub) {e : Nat × Nat × α} (hc : e.2.1 ∈ chosen)
    (hlt : ¬ e.1 < e.2.1) : Inherits m chosen s (done ++ [e]) sub := by
  refine { h with linear_eq := fun v hv => ?_, coupling_eq := fun e' he' => ?_ }
  · have hnone : m.shift? chosen s v e = none := by
      unfold shift?
      rw [if_pos hc, if_neg fun hand => hlt hand.1]
    refine h.linear_append hv ?_
    rw [hnone]
    cases sub.linear? v <;> rfl
  · rcases List.mem_append.1 he' with he' | he'
    · exact h.coupling_eq e' he'
    · obtain rfl := List.mem_singleton.1 he'
      exact fun _ hlt' => absurd hlt' hlt

/-- A coupling of two selected variables is copied from its smaller end. -/
theorem copy (h : Inherits m chosen s done sub) (hm : m.WellFormed) {e : Nat × Nat × α}
    {v w : Label} (hv : m.label? e.1 = some v) (hw : m.label? e.2.1 = some w) (hvw : v ≠ w)
    (hb : m.coupling? v w = some e.2.2) (hi : e.1 ∈ chosen) (hj : e.2.1 ∈ chosen)
    (hlt : e.1 < e.2.1) :
    ∃ sub', sub.setQuadratic v w e.2.2 = .ok sub' ∧ Inherits m chosen s (done ++ [e]) sub' := by
  obtain ⟨sub', hok, hvartype, hoffset, hlabels, hlinear, hcoupling⟩ :=
    h.wellFormed.exists_reviseQuadratic hvw fun _ => e.2.2
  have hvs : v ∈ sub.labels := h.mem_labels hi hv
  have hws : w ∈ sub.labels := h.mem_labels hj hw
  have hlabels : sub'.labels = sub.labels := hlabels.trans (labels_addEnds hvs hws)
  -- a coupling is changed only to what it is in `m`
  have hsame : ∀ a b, sub'.coupling? a b = sub.coupling? a b ∨
      sub'.coupling? a b = m.coupling? a b := by
    intro a b
    rw [hcoupling a b]
    split
    · next hab =>
      right
      rcases hab with ⟨rfl, rfl⟩ | ⟨rfl, rfl⟩
      · exact hb.symm
      · rw [hm.coupling?_comm]
        exact hb.symm
    · exact Or.inl rfl
  refine ⟨sub', hok,
    { wellFormed := h.wellFormed.reviseQuadratic hok
      vartype_eq := hvartype.trans h.vartype_eq
      offset_eq := hoffset.trans h.offset_eq
      labels_eq := hlabels.trans h.labels_eq
      linear_eq := fun u hu => ?_
      coupling_or := fun a b => ?_
      coupling_eq := fun e' he' hc' hlt' v' w' hv' hw' => ?_ }⟩
  · rw [hlabels] at hu
    have hends : m.shift? chosen s u e = if u = v ∨ u = w then some (ofInt 0) else none := by
      unfold shift?
      rw [if_pos hj, hv, hw]
      simp only [Option.some.injEq, hlt, true_and, eq_comm]
    refine h.linear_append hu ?_
    rw [hlinear, hends, linear?_addEnds hvs hws hvw]
    split
    · rfl
    · cases sub.linear? u <;> rfl
  · rcases hsame a b with e' | e'
    · rw [e']
      exact h.coupling_or a b
    · exact Or.inr e'
  · rcases hsame v' w' with e'' | e''
    · rcases List.mem_append.1 he' with he' | he'
      · rw [e'']
        exact h.coupling_eq e' he' hc' hlt' v' w' hv' hw'
      · obtain rfl := List.mem_singleton.1 he'
        obtain rfl := Option.some.inj (hv.symm.trans hv')
        obtain rfl := Option.some.inj (hw.symm.trans hw')
        rw [hcoupling, if_pos (Or.inl ⟨rfl, rfl⟩), hb]
    · exact e''

/-- A coupling to another variable moves into the linear bias of its selected end. -/
theorem absorb (h : Inherits m chosen s done sub) {e : Nat × Nat × α} {v w : Label} {x : α}
    (hv : m.label? e.1 = some v) (hw : m.label? e.2.1 = some w) (hx : s.get? w = some x)
    (hi : e.1 ∈ chosen) (hj : e.2.1 ∉ chosen) :
    Inherits m chosen s (done ++ [e]) (sub.addLinear v (e.2.2 * x)) := by
  have hmem : v ∈ sub.labels := h.mem_labels hi hv
  have hlabels : (sub.addLinear v (e.2.2 * x)).labels = sub.labels := labels_addVariable hmem _
  have hcoupling : ∀ a b, (sub.addLinear v (e.2.2 * x)).coupling? a b = sub.coupling? a b :=
    h.wellFormed.coupling?_reviseLinear v _ _
  refine
    { wellFormed := h.wellFormed.addVariable v _
      vartype_eq := (vartype_reviseLinear _ _ _ _).trans h.vartype_eq
      offset_eq := (offset_reviseLinear _ _ _ _).trans h.offset_eq
      labels_eq := hlabels.trans h.labels_eq
      linear_eq := fun u hu => ?_
      coupling_or := fun a b => by rw [hcoupling]; exact h.coupling_or a b
      coupling_eq := fun e' he' hc' => ?_ }
  · have hshift : m.shift? chosen s u e = if u = v then some (e.2.2 * x) else none := by
      unfold shift?
      rw [if_neg hj, hv, hw, Option.bind_some, hx, Option.map_some]
      simp only [Option.some.injEq, eq_comm]
    refine h.linear_append (hlabels ▸ hu) ?_
    rw [hshift]
    refine (linear?_addVariable hmem _ u).trans ?_
    by_cases huv : u = v
    · subst huv
      rw [if_pos rfl, if_pos rfl]
      rfl
    · rw [if_neg huv, if_neg huv]
      cases sub.linear? u <;> rfl
  · rcases List.mem_append.1 he' with he' | he'
    · simpa only [hcoupling] using h.coupling_eq e' he' hc'
    · obtain rfl := List.mem_singleton.1 he'
      exact absurd hc' hj

end Inherits

/-! ### The whole pass -/

theorem Inherits.restriction {m : Model α} (h : m.WellFormed) {chosen : List Nat}
    (hchosen : chosen.Nodup) (s : Sample α) : Inherits m chosen s [] (m.restriction chosen) := by
  have hnone : ∀ u v, (m.restriction chosen).coupling? u v = none := by
    intro u v
    unfold coupling?
    simp only [row_restriction, Row.bias?_nil]
    cases (m.restriction chosen).index? u <;> cases (m.restriction chosen).index? v <;> rfl
  refine
    { wellFormed := h.restriction hchosen
      vartype_eq := rfl
      offset_eq := rfl
      labels_eq := labels_restriction m chosen
      linear_eq := fun v hv => ?_
      coupling_or := fun u v => Or.inl (hnone u v)
      coupling_eq := fun e he => absurd he List.not_mem_nil }
  obtain ⟨k, hk⟩ := exists_index?_of_mem hv
  obtain ⟨n, hn⟩ := exists_node (lt_size_of_index? hk)
  obtain ⟨i, n₀, -, hn₀, rfl⟩ := mem_restriction (List.mem_of_getElem? hn)
  obtain rfl : n₀.label = v :=
    Option.some.inj ((label?_of_node hn).symm.trans (label?_of_index? hk))
  rw [linear?_of_index? hk hn, linear?_of_index? (h.index?_iff.2 (label?_of_node hn₀)) hn₀]
  rfl

/-- A step of the pass fails if the sample lacks the value that it needs. -/
theorem inheritCoupling_eq_error {m : Model α} (hm : m.WellFormed) {chosen : List Nat}
    {s : Sample α} {e : Nat × Nat × α} (he : e ∈ m.couplings chosen) {w : Label}
    (hw : m.needs? chosen e = some w) (hnone : s.get? w = none) (sub : Model α) :
    m.inheritCoupling chosen s sub e = .error (.missingValue w) := by
  obtain ⟨v, -, hv, -, -, -⟩ := hm.exists_labels he
  unfold needs? at hw
  unfold inheritCoupling inherit
  split at hw
  · cases hw
  · next hj =>
    rw [hv, hw]
    dsimp only
    rw [if_neg hj, hnone]

/-- Each step of the pass succeeds if the sample has the value that it needs. -/
theorem Inherits.step {m sub : Model α} {chosen : List Nat} {s : Sample α}
    {done : List (Nat × Nat × α)} (h : Inherits m chosen s done sub) (hm : m.WellFormed)
    {e : Nat × Nat × α} (he : e ∈ m.couplings chosen)
    (hs : ∀ w, m.needs? chosen e = some w → s.get? w ≠ none) :
    ∃ sub', m.inheritCoupling chosen s sub e = .ok sub' ∧
      Inherits m chosen s (done ++ [e]) sub' := by
  obtain ⟨v, w, hv, hw, hvw, hb⟩ := hm.exists_labels he
  have hi := (mem_couplings.1 he).1
  unfold needs? at hs
  unfold inheritCoupling inherit
  rw [hv, hw]
  dsimp only
  by_cases hj : e.2.1 ∈ chosen
  · rw [if_pos hj]
    by_cases hlt : e.1 < e.2.1
    · rw [if_pos hlt]
      exact h.copy hm hv hw hvw hb hi hj hlt
    · rw [if_neg hlt]
      exact ⟨sub, rfl, h.skip hj hlt⟩
  · rw [if_neg hj, hw] at hs
    obtain ⟨x, hx⟩ := Option.ne_none_iff_exists'.1 (hs w rfl)
    rw [if_neg hj, hx]
    exact ⟨_, rfl, h.absorb hv hw hx hi hj⟩

theorem induced_eq {m : Model α} {selection : List Label} (hne : selection ≠ [])
    (hknown : ∀ v ∈ selection, v ∈ m.labels) (s : Sample α) :
    m.induced selection s = (m.couplings (m.chosen selection)).foldlM
      (m.inheritCoupling (m.chosen selection) s) (m.restriction (m.chosen selection)) := by
  unfold induced
  rw [if_neg hne, mapM_index hknown]
  exact foldlM_inheritRow m _ s _ _

/-- Some variables of a well-formed model induce a model at a sample that has the values needed. -/
theorem exists_induced_of_needed {m : Model α} (h : m.WellFormed) {selection : List Label}
    {s : Sample α} (hne : selection ≠ []) (hknown : ∀ v ∈ selection, v ∈ m.labels)
    (hs : ∀ w ∈ m.needed (m.chosen selection), s.get? w ≠ none) :
    ∃ sub, m.induced selection s = .ok sub ∧
      Inherits m (m.chosen selection) s (m.couplings (m.chosen selection)) sub := by
  rw [induced_eq hne hknown]
  exact exists_foldlM_eq_ok (P := Inherits m (m.chosen selection) s)
    (Inherits.restriction h (nodup_distinct _) s) fun done e sub he hp =>
      hp.step h he fun w hw => hs w (List.mem_filterMap.2 ⟨e, he, hw⟩)

/-- Some variables of a well-formed model induce a model at a sample that gives every variable a
value. -/
theorem exists_induced {m : Model α} (h : m.WellFormed) {selection : List Label} {s : Sample α}
    (hne : selection ≠ []) (hknown : ∀ v ∈ selection, v ∈ m.labels)
    (hs : m.Assigned s) :
    ∃ sub, m.induced selection s = .ok sub ∧
      Inherits m (m.chosen selection) s (m.couplings (m.chosen selection)) sub :=
  exists_induced_of_needed h hne hknown fun w hw =>
    Option.isSome_iff_ne_none.1 (hs w (mem_labels_of_needed hw))

/-- Without some value that is needed nothing is induced, and the first such variable is named. -/
theorem induced_eq_error {m : Model α} (h : m.WellFormed) {selection : List Label} {s : Sample α}
    (hne : selection ≠ []) (hknown : ∀ v ∈ selection, v ∈ m.labels) {w : Label}
    (hw : (m.needed (m.chosen selection)).find? (fun w => (s.get? w).isNone) = some w) :
    m.induced selection s = .error (.missingValue w) := by
  unfold needed at hw
  rw [List.find?_filterMap] at hw
  obtain ⟨e, hfirst, hneeds⟩ := Option.bind_eq_some_iff.1 hw
  obtain ⟨hmissing, before, after, hsplit, hbefore⟩ := List.find?_eq_some_iff_append.1 hfirst
  rw [hneeds, Option.any_some, Option.isNone_iff_eq_none] at hmissing
  have hmem : ∀ e' ∈ before, e' ∈ m.couplings (m.chosen selection) := fun e' he' =>
    hsplit ▸ List.mem_append_left _ he'
  obtain ⟨sub, hok, -⟩ : ∃ sub, before.foldlM (m.inheritCoupling (m.chosen selection) s)
      (m.restriction (m.chosen selection)) = .ok sub ∧
      Inherits m (m.chosen selection) s before sub := by
    refine exists_foldlM_eq_ok (Inherits.restriction h (nodup_distinct _) s) ?_
    refine fun done e' sub he' hp => hp.step h (hmem e' he') fun w' hw' hnone => ?_
    have hgiven := hbefore e' he'
    rw [hw', Option.any_some, hnone] at hgiven
    cases hgiven
  rw [induced_eq hne hknown, hsplit]
  refine foldlM_eq_error hok ?_
  exact inheritCoupling_eq_error h (hsplit ▸ List.mem_append_right before List.mem_cons_self) hneeds
    hmissing sub

namespace Inherits

variable {m sub : Model α} {selection : List Label} {s : Sample α} {done : List (Nat × Nat × α)}

/-- The variables of an induced model are the selected ones in order of first appearance. -/
theorem labels_eq_distinct (h : Inherits m (m.chosen selection) s done sub)
    (hknown : ∀ v ∈ selection, v ∈ m.labels) : sub.labels = distinct selection :=
  h.labels_eq.trans (filterMap_label?_chosen hknown)

theorem mem_labels_iff (h : Inherits m (m.chosen selection) s done sub)
    (hknown : ∀ v ∈ selection, v ∈ m.labels) {v : Label} : v ∈ sub.labels ↔ v ∈ selection := by
  rw [h.labels_eq_distinct hknown, mem_distinct]

theorem toFinset_labels (h : Inherits m (m.chosen selection) s done sub)
    (hknown : ∀ v ∈ selection, v ∈ m.labels) : sub.labels.toFinset = selection.toFinset := by
  ext v
  rw [List.mem_toFinset, List.mem_toFinset, h.mem_labels_iff hknown]

/-- Without repeats the selected variables keep their order. -/
theorem labels_eq_selection (h : Inherits m (m.chosen selection) s done sub)
    (hknown : ∀ v ∈ selection, v ∈ m.labels) (hnodup : selection.Nodup) :
    sub.labels = selection :=
  (h.labels_eq_distinct hknown).trans (distinct_eq_self hnodup)

/-- Between its variables an induced model has the interactions of `m`. -/
theorem coupling?_eq {chosen : List Nat} (h : Inherits m chosen s (m.couplings chosen) sub)
    (hm : m.WellFormed) {u v : Label} (hu : u ∈ sub.labels) (hv : v ∈ sub.labels) :
    sub.coupling? u v = m.coupling? u v := by
  rw [h.labels_eq] at hu hv
  obtain ⟨i, hi, hu⟩ := List.mem_filterMap.1 hu
  obtain ⟨j, hj, hv⟩ := List.mem_filterMap.1 hv
  -- a coupling of smaller to larger index has been carried over
  have hcarried : ∀ {i j u v b}, i ∈ chosen → j ∈ chosen → m.label? i = some u →
      m.label? j = some v → i < j → m.coupling? u v = some b →
      sub.coupling? u v = m.coupling? u v := by
    intro i j u v b hi hj hu hv hlt hb
    rw [coupling?_of_index? (hm.index?_iff.2 hu) (hm.index?_iff.2 hv)] at hb
    have he : (i, j, b) ∈ m.couplings chosen := mem_couplings.2 ⟨hi, hm.mem_row_iff.2 hb⟩
    exact h.coupling_eq (i, j, b) he hj hlt u v hu hv
  cases hb : m.coupling? u v with
  | none =>
    rcases h.coupling_or u v with e | e
    · exact e
    · exact e.trans hb
  | some b =>
    rcases lt_trichotomy i j with hlt | rfl | hlt
    · exact (hcarried hi hj hu hv hlt hb).trans hb
    · obtain rfl := Option.some.inj (hu.symm.trans hv)
      rw [hm.coupling?_self] at hb
      cases hb
    · rw [h.wellFormed.coupling?_comm]
      rw [hm.coupling?_comm] at hb
      exact (hcarried hj hi hv hu hlt hb).trans hb

end Inherits

/-- What is induced selects known variables, and some. -/
theorem of_induced_eq_ok {m : Model α} {selection : List Label} {s : Sample α} {sub : Model α}
    (h : m.induced selection s = .ok sub) :
    selection ≠ [] ∧ ∀ v ∈ selection, v ∈ m.labels := by
  unfold induced at h
  split at h
  · cases h
  · next hne =>
    obtain ⟨indices, hindices, -⟩ := exists_of_bind_eq_ok h
    refine ⟨hne, fun v hv => ?_⟩
    obtain ⟨i, -, hi⟩ := exists_of_mapM_eq_ok hindices v hv
    by_contra hnot
    unfold index at hi
    rw [index?_eq_none_iff.2 hnot] at hi
    cases hi

/-- Whatever else the sample lacks, what is induced has what the couplings hand over. -/
theorem inherits_of_induced_eq_ok {m sub : Model α} (hm : m.WellFormed) {selection : List Label}
    {s : Sample α} (h : m.induced selection s = .ok sub) :
    Inherits m (m.chosen selection) s (m.couplings (m.chosen selection)) sub := by
  obtain ⟨hne, hknown⟩ := of_induced_eq_ok h
  rw [induced_eq hne hknown] at h
  refine of_foldlM_eq_ok h (Inherits.restriction hm (nodup_distinct _) s) ?_
  intro done e todo sub t hsplit hp ht
  have he := hsplit ▸ List.mem_append_right done List.mem_cons_self
  by_cases hmissing : ∃ w, m.needs? (m.chosen selection) e = some w ∧ s.get? w = none
  · obtain ⟨w, hw, hnone⟩ := hmissing
    rw [inheritCoupling_eq_error hm he hw hnone] at ht
    cases ht
  · obtain ⟨sub', hsub', hinherits⟩ := hp.step hm he fun w hw hnone => hmissing ⟨w, hw, hnone⟩
    rw [hsub'] at ht
    cases ht
    exact hinherits

end QuboSplit.Model
