import QuboSplit.Proofs.Model.Content
import QuboSplit.Proofs.Model.Induced
import QuboSplit.Proofs.Ranking
import QuboSplit.Proofs.StableSort
import QuboSplit.Traversal.Basic

/-!
# Selections do not see the sign of a zero

Two models of the same content that store their variables in one order differ in the signs of zeros
at most (`Model.Same`), and so do samples that agree. Gains computed from them are the same up to
the sign of a zero, their rankings list the same variables in the same order (`ranking_same`), and a
traversal selects the same variables along either of them (`traverse_same`). What these variables
induce is the same up to the signs of zeros again (`induced_same`).
-/

namespace QuboSplit

open List (Forall₂)
open Scalar (Equals accumulate ofInt)

/-! ### Lists of pairs -/

/-- The pairs have one key, and related values. -/
def Paired {κ α : Type} (R : α → α → Prop) (a b : κ × α) : Prop := a.1 = b.1 ∧ R a.2 b.2

section Pairs

variable {κ α : Type} {R : α → α → Prop} {xs ys : List (κ × α)}

theorem map_fst_of_paired (h : Forall₂ (Paired R) xs ys) :
    xs.map Prod.fst = ys.map Prod.fst := by
  induction h with
  | nil => rfl
  | cons hxy _ ih => rw [List.map_cons, List.map_cons, hxy.1, ih]

theorem map_snd_of_paired (h : Forall₂ (Paired R) xs ys) :
    Forall₂ R (xs.map Prod.snd) (ys.map Prod.snd) := by
  induction h with
  | nil => exact .nil
  | cons hxy _ ih => exact .cons hxy.2 ih

theorem zip_paired {as bs : List α} (h : Forall₂ R as bs) (keys : List κ) :
    Forall₂ (Paired R) (keys.zip as) (keys.zip bs) := by
  induction h generalizing keys with
  | nil => cases keys <;> exact .nil
  | cons hab _ ih =>
    cases keys with
    | nil => exact .nil
    | cons k keys => exact .cons ⟨rfl, hab⟩ (ih keys)

theorem lookup_paired [BEq κ] (h : Forall₂ (Paired R) xs ys) (k : κ) :
    Option.Rel R (xs.lookup k) (ys.lookup k) := by
  induction h with
  | nil => exact .none
  | @cons x y xs ys hxy _ ih =>
    obtain ⟨i, a⟩ := x
    obtain ⟨j, b⟩ := y
    obtain ⟨rfl, hab⟩ : i = j ∧ R a b := hxy
    rw [List.lookup_cons, List.lookup_cons]
    cases k == i with
    | true => exact .some hab
    | false => exact ih

end Pairs

/-- Lists of the same keys that are related as maps are related pair by pair. -/
theorem paired_of_lookup {κ α : Type} [DecidableEq κ] {R : α → α → Prop}
    {xs ys : List (κ × α)} (hkeys : xs.map Prod.fst = ys.map Prod.fst)
    (hnodup : (xs.map Prod.fst).Nodup) (h : ∀ k, Option.Rel R (xs.lookup k) (ys.lookup k)) :
    Forall₂ (Paired R) xs ys := by
  induction xs generalizing ys with
  | nil =>
    obtain rfl : ys = [] := List.map_eq_nil_iff.1 hkeys.symm
    exact .nil
  | cons x xs ih =>
    obtain ⟨k, a⟩ := x
    cases ys with
    | nil => cases hkeys
    | cons y ys =>
      obtain ⟨k', b⟩ := y
      obtain ⟨rfl, htail⟩ : k = k' ∧ xs.map Prod.fst = ys.map Prod.fst := List.cons.inj hkeys
      obtain ⟨hk, hnodup⟩ := List.nodup_cons.1 hnodup
      have hfirst := h k
      rw [List.lookup_cons_self, List.lookup_cons_self] at hfirst
      refine .cons ⟨rfl, by cases hfirst; assumption⟩ (ih htail hnodup fun j => ?_)
      by_cases hj : j = k
      · -- the first key does not come again
        subst hj
        rw [lookup_eq_none_iff.2 hk, lookup_eq_none_iff.2 (htail ▸ hk)]
        exact .none
      · have hrest := h j
        rwa [List.lookup_cons, List.lookup_cons, beq_false_of_ne hj] at hrest

/-- Increasing rows that are related as maps are related coupling by coupling. -/
theorem Row.paired_of_bias? {α : Type} {R : α → α → Prop} {row row' : Row α}
    (h : Increasing row) (h' : Increasing row')
    (hbias : ∀ j, Option.Rel R (bias? row j) (bias? row' j)) : Forall₂ (Paired R) row row' := by
  have hkeys : row.map Prod.fst = row'.map Prod.fst := by
    refine h.eq_of_mem_iff h' fun j => ?_
    rw [← not_iff_not, ← bias?_eq_none_iff, ← bias?_eq_none_iff]
    have hj := hbias j
    generalize bias? row j = b at hj ⊢
    generalize bias? row' j = b' at hj ⊢
    cases hj <;> simp
  exact paired_of_lookup hkeys (h.imp fun hlt => Nat.ne_of_lt hlt) hbias

/-! ### Numbers that may be missing -/

/-- Both numbers are missing, or they are the same up to the sign of a zero. -/
abbrev SameOption : Option Binary64 → Option Binary64 → Prop := Option.Rel Floating.Same

theorem SameOption.refl : (a : Option Binary64) → SameOption a a
  | none => .none
  | some x => .some (.refl x)

theorem SameOption.of_equals {a b : Option Binary64} (h : Equals a b) : SameOption a b := by
  cases h with
  | none => exact .none
  | some h => exact .some (.of_equal h)

theorem SameOption.getD {a b : Option Binary64} (h : SameOption a b) :
    (a.getD (ofInt 0)).Same (b.getD (ofInt 0)) := by
  cases h with
  | none => exact .refl _
  | some h => exact h

/-! ### Steps that may fail -/

/-- Both fail for one reason, or both succeed with results that are related. -/
inductive SameOutcome {β : Type} (R : β → β → Prop) : Except Fault β → Except Fault β → Prop
  | error (fault : Fault) : SameOutcome R (.error fault) (.error fault)
  | ok {a b : β} (h : R a b) : SameOutcome R (.ok a) (.ok b)

/-! ### Sums -/

theorem accumulate_same {start start' : Binary64} {terms terms' : List Binary64}
    (hstart : start.Same start') (h : Forall₂ Floating.Same terms terms') :
    Floating.Same (f := .extended) (accumulate start terms) (accumulate start' terms') := by
  suffices hfold : ∀ total total' : Floating .extended, total.Same total' →
      Floating.Same (f := .extended)
        (terms.foldl (fun total x => total + x.convert .extended) total)
        (terms'.foldl (fun total x => total + x.convert .extended) total') from
    hfold _ _ (hstart.convert _)
  induction h with
  | nil => exact fun _ _ htotal => htotal
  | cons hx _ ih => exact fun _ _ htotal => ih _ _ (htotal.add (hx.convert _))

section Values

variable {x y : Label → Binary64} (hxy : ∀ v, (x v).Same (y v))

include hxy

theorem valueAt_same (labels : List Label) (i : Nat) :
    (valueAt (labels.map x) i).Same (valueAt (labels.map y) i) := by
  unfold valueAt
  rw [List.getD_eq_getElem?_getD, List.getD_eq_getElem?_getD, List.getElem?_map, List.getElem?_map]
  cases labels[i]? with
  | none => exact .refl _
  | some v => exact hxy v

theorem pull_same (labels : List Label) {linear linear' : Binary64}
    {row row' : Row Binary64} (hlinear : linear.Same linear')
    (hrow : Forall₂ (Paired Floating.Same) row row') :
    Floating.Same (f := .extended) (pull (labels.map x) linear row)
      (pull (labels.map y) linear' row') := by
  refine accumulate_same hlinear ?_
  induction hrow with
  | nil => exact .nil
  | @cons c d _ _ hcd _ ih =>
    refine .cons ?_ ih
    show Floating.Same (valueAt (labels.map x) c.1 * c.2) (valueAt (labels.map y) d.1 * d.2)
    rw [hcd.1]
    exact (valueAt_same hxy labels _).mul hcd.2

end Values

/-! ### Gains -/

namespace Model

/-- An entry of a row is an interaction of the two variables. -/
theorem WellFormed.bias?_eq {α : Type} {m : Model α} (h : m.WellFormed) (i j : Nat) :
    Row.bias? (m.row i) j = (m.label? i).bind fun u => (m.label? j).bind (m.coupling? u) := by
  by_cases hi : i < m.size
  · obtain ⟨n, hn⟩ := exists_node hi
    have hu := label?_of_node hn
    rw [hu, Option.bind_some]
    by_cases hj : j < m.size
    · obtain ⟨n', hn'⟩ := exists_node hj
      have hv := label?_of_node hn'
      rw [hv, Option.bind_some, coupling?_of_index? (h.index?_iff.2 hu) (h.index?_iff.2 hv)]
    · rw [label?_eq_getElem?, List.getElem?_eq_none (by rw [length_labels]; omega),
        Option.bind_none, h.symmetric, row_of_size_le (Nat.le_of_not_lt hj)]
      rfl
  · rw [label?_eq_getElem?, List.getElem?_eq_none (by rw [length_labels]; omega),
      Option.bind_none, row_of_size_le (Nat.le_of_not_lt hi)]
    rfl

/-- The models store the same variables in one order, with entries that are the same up to the signs
of zeros. -/
structure Same (m m' : Model Binary64) : Prop where
  vartype_eq : m.vartype = m'.vartype
  labels_eq : m.labels = m'.labels
  linear : ∀ v, SameOption (m.linear? v) (m'.linear? v)
  coupling : ∀ u v, SameOption (m.coupling? u v) (m'.coupling? u v)

theorem Same.refl (m : Model Binary64) : m.Same m :=
  ⟨rfl, rfl, fun _ => .refl _, fun _ _ => .refl _⟩

theorem Same.of_matches {m m' : Model Binary64} (h : m.Matches m')
    (hlabels : m.labels = m'.labels) : m.Same m' :=
  ⟨h.vartype_eq, hlabels, fun v => .of_equals (h.linear v), fun u v => .of_equals (h.coupling u v)⟩

section Same

variable {m m' : Model Binary64} (hm : m.WellFormed) (hm' : m'.WellFormed) (h : m.Same m')

include hm hm' h

theorem linearAt_same (i : Nat) : (m.linearAt i).Same (m'.linearAt i) := by
  have hlinear : ∀ {m : Model Binary64}, m.WellFormed →
      m.linearAt i = ((m.labels[i]?).bind m.linear?).getD (ofInt 0) := by
    intro m hm
    rw [← label?_eq_getElem?]
    unfold linearAt linear?
    cases hn : m.nodes[i]? with
    | none =>
      unfold label?
      rw [hn]
      rfl
    | some n =>
      rw [label?_of_node hn, Option.bind_some, hm.index?_iff.2 (label?_of_node hn),
        Option.bind_some, hn]
  rw [hlinear hm, hlinear hm', h.labels_eq]
  cases m'.labels[i]? with
  | none => exact .refl _
  | some v => exact (h.linear v).getD

theorem row_same (i : Nat) : Forall₂ (Paired Floating.Same) (m.row i) (m'.row i) := by
  refine Row.paired_of_bias? (hm.increasing i) (hm'.increasing i) fun j => ?_
  rw [hm.bias?_eq, hm'.bias?_eq, label?_eq_getElem?, label?_eq_getElem?, label?_eq_getElem?,
    label?_eq_getElem?, h.labels_eq]
  cases m'.labels[i]? with
  | none => exact .none
  | some u =>
    cases m'.labels[j]? with
    | none => exact .none
    | some v => exact h.coupling u v

variable {x y : Label → Binary64} (hxy : ∀ v, (x v).Same (y v))

include hxy

theorem gainAt_same (i : Nat) :
    (m.gainAt (m.labels.map x) i).Same (m'.gainAt (m'.labels.map y) i) := by
  have hvalue := valueAt_same hxy m'.labels i
  have hdelta : (m.vartype.flip (valueAt (m.labels.map x) i) - valueAt (m.labels.map x) i).Same
      (m'.vartype.flip (valueAt (m'.labels.map y) i) - valueAt (m'.labels.map y) i) := by
    rw [h.labels_eq, h.vartype_eq]
    refine Floating.Same.sub ?_ hvalue
    cases m'.vartype with
    | binary => exact (Floating.Same.refl _).sub hvalue
    | spin => exact hvalue.neg
  have hpull := pull_same hxy m'.labels (linearAt_same hm hm' h i) (row_same hm hm' h i)
  unfold gainAt
  rw [h.labels_eq] at hdelta ⊢
  exact ((hdelta.neg.convert .extended).mul hpull).convert .double

end Same

/-! ### Rankings -/

theorem keepsGain_same (minGain : Option Binary64) {g g' : Binary64} (h : g.Same g') :
    keepsGain minGain g = keepsGain minGain g' := by
  unfold keepsGain
  cases minGain with
  | none => rfl
  | some least => exact congrArg (!·) (h.less_eq (.refl least))

/-- What is the same up to the signs of zeros is ranked in one order. -/
theorem ranking_same {m m' : Model Binary64} (hm : m.WellFormed) (hm' : m'.WellFormed)
    (h : m.Same m') {s t : Sample Binary64} (hst : ∀ v, SameOption (s.get? v) (t.get? v))
    {minGain : Option Binary64} {ranking ranking' : Ranking Binary64}
    (hranking : m.ranking s minGain = .ok ranking)
    (hranking' : m'.ranking t minGain = .ok ranking') :
    Forall₂ (Paired Floating.Same) ranking ranking' := by
  have hvalues : ∀ {m : Model Binary64} {s : Sample Binary64} {ranking},
      m.ranking s minGain = .ok ranking → ranking =
        stableSort (fun a b => Scalar.less b.2 a.2)
          ((m.gains (m.labels.map fun v => (s.get? v).getD (ofInt 0))).filter
            fun entry => keepsGain minGain entry.2) := by
    intro m s ranking hranking
    have hvalues := values_eq_ok fun v hv => (assigned_of_ranking hranking).get?_eq (ofInt 0) hv
    unfold Model.ranking at hranking
    rw [hvalues] at hranking
    exact (Except.ok.inj hranking).symm
  rw [hvalues hranking, hvalues hranking']
  refine stableSort_forall₂ (fun a a' b b' hab hbc => hbc.2.less_eq hab.2) ?_
  refine List.rel_filter (fun a a' haa => Bool.eq_iff_iff.1 (keepsGain_same minGain haa.2)) ?_
  unfold gains
  rw [h.labels_eq, List.forall₂_map_left_iff, List.forall₂_map_right_iff, List.forall₂_same]
  rintro ⟨v, i⟩ -
  have hgain := gainAt_same hm hm' h (fun v => (hst v).getD) i
  rw [h.labels_eq] at hgain
  exact ⟨rfl, hgain⟩

theorem Same.missing?_eq {m m' : Model Binary64} (h : m.Same m') (s : Sample Binary64) :
    m.missing? s = m'.missing? s := by
  unfold missing?
  rw [h.labels_eq]

/-- A sample ranks both models alike, or neither. -/
theorem ranking_outcomes {m m' : Model Binary64} (hm : m.WellFormed) (hm' : m'.WellFormed)
    (h : m.Same m') (s : Sample Binary64) (minGain : Option Binary64) :
    SameOutcome (Forall₂ (Paired Floating.Same)) (m.ranking s minGain) (m'.ranking s minGain) := by
  have hmissing := h.missing?_eq s
  cases hv : m.missing? s with
  | some v =>
    rw [ranking_eq_error hv, ranking_eq_error (hmissing ▸ hv)]
    exact .error _
  | none =>
    obtain ⟨ranking, hranking⟩ := exists_ranking (missing?_eq_none_iff.1 hv) minGain
    obtain ⟨ranking', hranking'⟩ :=
      exists_ranking (missing?_eq_none_iff.1 (hmissing ▸ hv)) minGain
    rw [hranking, hranking']
    exact .ok (ranking_same hm hm' h (fun _ => .refl _) hranking hranking')

/-! ### Traversals -/

theorem exceeds_same {a a' b b' : Score Binary64} (ha : SameOption a a')
    (hb : SameOption b b') : a.exceeds b = a'.exceeds b' := by
  cases ha with
  | none => rfl
  | some ha =>
    cases hb with
    | none => exact ha.aboveLeast_eq
    | some hb => exact hb.less_eq ha

/-- Rankings that are the same up to the signs of zeros select the same variables. -/
theorem traverse_congr (m : Model Binary64) (mode : Traversal) {ranking ranking' : Ranking Binary64}
    (h : Forall₂ (Paired Floating.Same) ranking ranking') (visited : List Label) (size : Int) :
    m.traverse mode ranking visited size = m.traverse mode ranking' visited size := by
  have hlabels := map_fst_of_paired h
  unfold traverse
  cases mode with
  | energy =>
    unfold Ranking.walk
    rw [hlabels]
  | breadthFirst =>
    dsimp only
    rw [hlabels]
  | priorityFirst =>
    dsimp only
    rw [hlabels]
    have hscore : ∀ (seeds : List Nat) (i : Nat), SameOption
        (scoreOf (seeds.zip (ranking.map Prod.snd)) i)
        (scoreOf (seeds.zip (ranking'.map Prod.snd)) i) := fun seeds i =>
      lookup_paired (List.rel_reverse (zip_paired (map_snd_of_paired h) seeds)) i
    congr 1
    funext seeds
    rw [show (fun i j => Score.exceeds (scoreOf (seeds.zip (ranking.map Prod.snd)) i)
        (scoreOf (seeds.zip (ranking.map Prod.snd)) j)) =
      fun i j => Score.exceeds (scoreOf (seeds.zip (ranking'.map Prod.snd)) i)
        (scoreOf (seeds.zip (ranking'.map Prod.snd)) j) from
      funext fun i => funext fun j => exceeds_same (hscore seeds i) (hscore seeds j)]

section Stored

variable {m m' : Model Binary64}

theorem Same.size_eq (h : m.Same m') : m.size = m'.size := by
  rw [← length_labels, ← length_labels, h.labels_eq]

theorem Same.index?_eq (h : m.Same m') : m.index? = m'.index? :=
  funext fun v => index?_congr h.labels_eq v

theorem Same.label?_eq (h : m.Same m') : m.label? = m'.label? := by
  funext i
  rw [label?_eq_getElem?, label?_eq_getElem?, h.labels_eq]

variable (hm : m.WellFormed) (hm' : m'.WellFormed) (h : m.Same m')

include hm hm' h

/-- The traversal of one model selects what that of the other does. -/
theorem traverse_same (mode : Traversal) {ranking ranking' : Ranking Binary64}
    (hranking : Forall₂ (Paired Floating.Same) ranking ranking') (visited : List Label)
    (size : Int) :
    m.traverse mode ranking visited size = m'.traverse mode ranking' visited size := by
  rw [traverse_congr m mode hranking]
  have hindex : m.index = m'.index := by
    funext v
    unfold index
    rw [h.index?_eq]
  have hlinks : m.links = m'.links := funext fun i => map_fst_of_paired (row_same hm hm' h i)
  have hsearch : ∀ pick seeds,
      m.search pick seeds visited size = m'.search pick seeds visited size := by
    intro pick seeds
    unfold search knownIndices
    rw [hlinks, h.index?_eq, h.label?_eq]
  unfold traverse
  cases mode with
  | energy => rfl
  | breadthFirst => simp only [hindex, hsearch]
  | priorityFirst => simp only [hindex, hsearch]

/-! ### Induced models -/

theorem couplings_same (chosen : List Nat) :
    Forall₂ (Paired (Paired Floating.Same)) (m.couplings chosen) (m'.couplings chosen) := by
  have hchosen : Forall₂ (· = ·) chosen chosen := List.forall₂_refl chosen
  unfold couplings
  refine List.rel_flatMap hchosen ?_
  rintro i _ rfl
  exact List.rel_map (fun _ _ hcd => ⟨rfl, hcd⟩) (row_same hm hm' h i)

omit hm hm'

theorem shift?_same (chosen : List Nat) (s : Sample Binary64) (v : Label)
    {e e' : Nat × Nat × Binary64} (he : Paired (Paired Floating.Same) e e') :
    SameOption (m.shift? chosen s v e) (m'.shift? chosen s v e') := by
  obtain ⟨i, j, b⟩ := e
  obtain ⟨i', j', b'⟩ := e'
  obtain ⟨rfl, rfl, hb⟩ : i = i' ∧ j = j' ∧ b.Same b' := he
  unfold shift?
  rw [h.label?_eq]
  dsimp only
  split
  · exact .refl _
  · split
    · cases (m'.label? j).bind s.get? with
      | none => exact .none
      | some x => exact .some (hb.mul (.refl x))
    · exact .none

include hm hm'

/-- Models that take over the same variables are the same. -/
theorem Inherits.same {chosen : List Nat} {s : Sample Binary64} {sub sub' : Model Binary64}
    (hsub : Inherits m chosen s (m.couplings chosen) sub)
    (hsub' : Inherits m' chosen s (m'.couplings chosen) sub') : sub.Same sub' := by
  have hlabels : sub.labels = sub'.labels := by
    rw [hsub.labels_eq, hsub'.labels_eq, h.label?_eq]
  have hset : ∀ v, v ∈ sub.labels ↔ v ∈ sub'.labels := fun v => by rw [hlabels]
  refine ⟨?_, hlabels, rel_linear? hset fun v hv => ?_, rel_coupling? hset fun u hu v hv => ?_⟩
  · rw [hsub.vartype_eq, hsub'.vartype_eq, h.vartype_eq]
  · have hshifts := List.rel_filterMap (fun _ _ he => shift?_same h chosen s v he)
      (couplings_same hm hm' h chosen)
    rw [hsub.linear_eq v hv, hsub'.linear_eq v ((hset v).1 hv)]
    have hlinear := h.linear v
    generalize m.linear? v = b at hlinear ⊢
    generalize m'.linear? v = b' at hlinear ⊢
    cases hlinear with
    | none => exact .none
    | some hb => exact .some (List.rel_foldl (fun _ _ hx _ _ hy => hx.add hy) hb hshifts)
  · rw [hsub.coupling?_eq hm hu hv, hsub'.coupling?_eq hm' ((hset u).1 hu) ((hset v).1 hv)]
    exact h.coupling u v

/-- The same variables induce the same models at a sample of all variables. -/
theorem induced_same {selection : List Label} {s : Sample Binary64} (hne : selection ≠ [])
    (hknown : ∀ v ∈ selection, v ∈ m.labels) (hs : m.Assigned s) :
    ∃ sub sub', m.induced selection s = .ok sub ∧ m'.induced selection s = .ok sub' ∧
      sub.Same sub' ∧ sub.offset = m.offset ∧ sub'.offset = m'.offset := by
  have hchosen : m'.chosen selection = m.chosen selection := by
    unfold chosen indexOf
    rw [h.index?_eq]
  obtain ⟨sub, hsub, hinherits⟩ := exists_induced hm hne hknown hs
  obtain ⟨sub', hsub', hinherits'⟩ := exists_induced hm' hne (h.labels_eq ▸ hknown)
    (fun v hv => hs v (h.labels_eq ▸ hv))
  rw [hchosen] at hinherits'
  exact ⟨sub, sub', hsub, hsub', hinherits.same hm hm' h hinherits', hinherits.offset_eq,
    hinherits'.offset_eq⟩

end Stored

end Model

end QuboSplit
