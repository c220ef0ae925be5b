import Mathlib.Tactic
import QuboSplit.Adjoin

/-!
# Passes over lists

A pass over a list of steps that may fail succeeds when each of its steps does, and a pass that
succeeded had only steps that do. A list without repeats is collected as it is, and counted by what
is taken out of it.
-/

namespace QuboSplit

variable {ε β γ σ : Type}

/-! ### Steps that may fail -/

theorem exists_of_bind_eq_ok {x : Except ε β} {f : β → Except ε γ} {r : γ} (h : x >>= f = .ok r) :
    ∃ a, x = .ok a ∧ f a = .ok r := by
  cases x with
  | error e => cases h
  | ok a => exact ⟨a, rfl, h⟩

theorem mapM_eq_ok {f : β → Except ε γ} {g : β → γ} {xs : List β}
    (h : ∀ x ∈ xs, f x = .ok (g x)) : xs.mapM f = .ok (xs.map g) := by
  induction xs with
  | nil => rfl
  | cons x xs ih =>
    rw [List.mapM_cons, h x List.mem_cons_self, ih fun y hy => h y (List.mem_cons_of_mem x hy)]
    rfl

theorem exists_of_mapM_eq_ok {f : β → Except ε γ} {xs : List β} {ys : List γ}
    (h : xs.mapM f = .ok ys) : ∀ x ∈ xs, ∃ y ∈ ys, f x = .ok y := by
  induction xs generalizing ys with
  | nil => simp
  | cons x xs ih =>
    rw [List.mapM_cons] at h
    obtain ⟨y, hx, h⟩ := exists_of_bind_eq_ok h
    obtain ⟨zs, hxs, h⟩ := exists_of_bind_eq_ok h
    cases h
    intro a ha
    rcases List.mem_cons.1 ha with rfl | ha
    · exact ⟨y, List.mem_cons_self, hx⟩
    · obtain ⟨z, hz, e⟩ := ih hxs a ha
      exact ⟨z, List.mem_cons_of_mem y hz, e⟩

theorem eq_filterMap_of_mapM_eq_ok {f : β → Except ε γ} {xs : List β} {ys : List γ}
    (h : xs.mapM f = .ok ys) : ys = xs.filterMap fun x => (f x).toOption := by
  induction xs generalizing ys with
  | nil =>
    cases h
    rfl
  | cons x xs ih =>
    rw [List.mapM_cons] at h
    obtain ⟨y, hx, h⟩ := exists_of_bind_eq_ok h
    obtain ⟨zs, hxs, h⟩ := exists_of_bind_eq_ok h
    cases h
    rw [List.filterMap_cons, hx, ← ih hxs]
    rfl

/-- The first element that fails is the one whose failure counts. -/
theorem mapM_eq_error {f : β → Except ε γ} {p : β → Bool} {xs : List β} {x : β} {e : ε}
    (hx : xs.find? p = some x) (hbad : f x = .error e)
    (hgood : ∀ y ∈ xs, p y = false → ∃ z, f y = .ok z) : xs.mapM f = .error e := by
  induction xs with
  | nil => cases hx
  | cons y xs ih =>
    rw [List.find?_cons] at hx
    rw [List.mapM_cons]
    cases hy : p y with
    | true =>
      rw [hy] at hx
      obtain rfl := Option.some.inj hx
      rw [hbad]
      rfl
    | false =>
      rw [hy] at hx
      obtain ⟨z, hz⟩ := hgood y List.mem_cons_self hy
      rw [hz, ih hx fun y' hy' => hgood y' (List.mem_cons_of_mem y hy')]
      rfl

/-- Passes nested in a pass are one pass over all their steps. -/
theorem foldlM_flatMap (f : σ → γ → Except ε σ) (g : β → List γ) (xs : List β) (s : σ) :
    (xs.flatMap g).foldlM f s = xs.foldlM (fun s x => (g x).foldlM f s) s := by
  induction xs generalizing s with
  | nil => rfl
  | cons x xs ih =>
    rw [List.flatMap_cons, List.foldlM_append, List.foldlM_cons]
    congr 1
    funext t
    exact ih t

/-- A pass succeeds, and keeps an invariant, if each step does. -/
theorem exists_foldlM_eq_ok {f : σ → β → Except ε σ} {P : List β → σ → Prop} {xs : List β} {s : σ}
    (h₀ : P [] s)
    (hstep : ∀ done x s, x ∈ xs → P done s → ∃ s', f s x = .ok s' ∧ P (done ++ [x]) s') :
    ∃ s', xs.foldlM f s = .ok s' ∧ P xs s' := by
  suffices h : ∀ todo done s, (∀ x ∈ todo, x ∈ xs) → P done s →
      ∃ s', todo.foldlM f s = .ok s' ∧ P (done ++ todo) s' from
    h xs [] s (fun _ hx => hx) h₀
  intro todo
  induction todo with
  | nil =>
    intro done s _ hs
    exact ⟨s, rfl, by rwa [List.append_nil]⟩
  | cons x todo ih =>
    intro done s hsub hs
    obtain ⟨t, ht, hp⟩ := hstep done x s (hsub x List.mem_cons_self) hs
    obtain ⟨s', hs', hp'⟩ := ih (done ++ [x]) t (fun y hy => hsub y (List.mem_cons_of_mem x hy)) hp
    refine ⟨s', ?_, by rwa [List.append_assoc] at hp'⟩
    rw [List.foldlM_cons, ht]
    exact hs'

/-- A pass that succeeded keeps what each of its steps keeps. -/
theorem of_foldlM_eq_ok {f : σ → β → Except ε σ} {P : List β → σ → Prop} {xs : List β} {s s' : σ}
    (h : xs.foldlM f s = .ok s') (h₀ : P [] s)
    (hstep : ∀ done x todo s t, done ++ x :: todo = xs → P done s → f s x = .ok t →
      P (done ++ [x]) t) : P xs s' := by
  suffices hall : ∀ todo done s, done ++ todo = xs → todo.foldlM f s = .ok s' → P done s → P xs s'
    from hall xs [] s rfl h h₀
  intro todo
  induction todo with
  | nil =>
    intro done s hsplit hok hs
    cases hok
    rwa [← hsplit, List.append_nil]
  | cons x todo ih =>
    intro done s hsplit hok hs
    rw [List.foldlM_cons] at hok
    obtain ⟨t, ht, hok⟩ := exists_of_bind_eq_ok hok
    exact ih (done ++ [x]) t (by rwa [List.append_assoc]) hok (hstep done x todo s t hsplit hs ht)

/-- A pass that failed did so at one step, all steps before which succeeded. -/
theorem exists_of_foldlM_eq_error {f : σ → β → Except ε σ} {xs : List β} {s : σ} {e : ε}
    (h : xs.foldlM f s = .error e) :
    ∃ before x after t, xs = before ++ x :: after ∧ before.foldlM f s = .ok t ∧
      f t x = .error e := by
  induction xs generalizing s with
  | nil => cases h
  | cons x xs ih =>
    rw [List.foldlM_cons] at h
    cases hx : f s x with
    | error e' =>
      rw [hx] at h
      cases h
      exact ⟨[], x, xs, s, rfl, rfl, hx⟩
    | ok t =>
      rw [hx] at h
      obtain ⟨before, y, after, t', rfl, hbefore, hy⟩ := ih h
      refine ⟨x :: before, y, after, t', rfl, ?_, hy⟩
      rw [List.foldlM_cons, hx]
      exact hbefore

/-- A pass fails at a step that fails after steps that succeeded. -/
theorem foldlM_eq_error {f : σ → β → Except ε σ} {before after : List β} {x : β} {s t : σ} {e : ε}
    (hbefore : before.foldlM f s = .ok t) (hx : f t x = .error e) :
    (before ++ x :: after).foldlM f s = .error e := by
  rw [List.foldlM_append, hbefore]
  show (x :: after).foldlM f t = _
  rw [List.foldlM_cons, hx]
  rfl

/-! ### Positions -/

theorem modify_append_length (f : β → β) (xs : List β) (y : β) (ys : List β) :
    (xs ++ y :: ys).modify xs.length f = xs ++ f y :: ys := by
  induction xs with
  | nil => rfl
  | cons x xs ih => exact congrArg (x :: ·) ih

theorem insertIdx_append_length (xs : List β) (y : β) (ys : List β) :
    (xs ++ ys).insertIdx xs.length y = xs ++ y :: ys := by
  induction xs with
  | nil => rfl
  | cons x xs ih => exact congrArg (x :: ·) ih

theorem set_modify (f : β → β) (y : β) (i : Nat) (xs : List β) :
    (xs.modify i f).set i y = xs.modify i fun _ => y := by
  induction xs generalizing i with
  | nil => rw [List.modify_nil, List.modify_nil, List.set_nil]
  | cons x xs ih =>
    cases i with
    | zero => rfl
    | succ i => exact congrArg (x :: ·) (ih i)

theorem map_modify {g : β → γ} {f : β → β} {f' : γ → γ} {xs : List β} {i : Nat}
    (h : ∀ x, xs[i]? = some x → g (f x) = f' (g x)) :
    (xs.modify i f).map g = (xs.map g).modify i f' := by
  refine List.ext_getElem? fun k => ?_
  rw [List.getElem?_map, List.getElem?_modify, List.getElem?_modify, List.getElem?_map]
  cases hk : xs[k]? with
  | none => rfl
  | some x =>
    by_cases hik : i = k
    · subst hik
      simp [h x hk]
    · simp [hik]

/-- A list is read off index by index. -/
theorem filterMap_getElem?_range (xs : List β) :
    (List.range xs.length).filterMap (xs[·]?) = xs := by
  induction xs with
  | nil => rfl
  | cons x xs ih =>
    rw [List.length_cons, List.range_succ_eq_map, List.filterMap_cons, List.filterMap_map]
    exact congrArg (x :: ·) ih

/-! ### Lists without repeats -/

variable [DecidableEq β]

/-- Taking out some of the elements. -/
theorem length_filter_not_mem {xs ys : List β} (hxs : xs.Nodup) (hys : ys.Nodup)
    (hsub : ∀ y ∈ ys, y ∈ xs) : (xs.filter (· ∉ ys)).length = xs.length - ys.length := by
  have hperm : (xs.filter (· ∈ ys)).Perm ys := by
    refine (List.perm_ext_iff_of_nodup (hxs.filter _) hys).2 fun y => ?_
    rw [List.mem_filter, decide_eq_true_eq]
    exact ⟨fun h => h.2, fun h => ⟨hsub y h, h⟩⟩
  have hsplit := List.length_eq_length_filter_add (l := xs) fun y => decide (y ∈ ys)
  have hnot : xs.filter (fun y => !decide (y ∈ ys)) = xs.filter (· ∉ ys) :=
    List.filter_congr fun y _ => by simp
  rw [hnot, hperm.length_eq] at hsplit
  omega

/-- Without its first elements a list is the rest. -/
theorem filter_not_mem_take {xs : List β} (h : xs.Nodup) (k : Nat) :
    xs.filter (· ∉ xs.take k) = xs.drop k := by
  have hsplit : (xs.take k ++ xs.drop k).Nodup := by rwa [List.take_append_drop]
  have hnew := (List.nodup_append.1 hsplit).2.2
  have hfirst : (xs.take k).filter (· ∉ xs.take k) = [] := by
    refine List.filter_eq_nil_iff.2 fun x hx => ?_
    simpa using hx
  have hrest : (xs.drop k).filter (· ∉ xs.take k) = xs.drop k := by
    refine List.filter_eq_self.2 fun x hx => ?_
    simpa using fun hmem => hnew x hmem x hx rfl
  calc xs.filter (· ∉ xs.take k)
      = (xs.take k ++ xs.drop k).filter (· ∉ xs.take k) := by rw [List.take_append_drop]
    _ = xs.drop k := by rw [List.filter_append, hfirst, hrest, List.nil_append]

theorem length_adjoin_le (xs ys : List β) : (adjoin xs ys).length ≤ xs.length + ys.length := by
  induction ys generalizing xs with
  | nil => rfl
  | cons y ys ih =>
    rw [adjoin_cons]
    refine (ih _).trans ?_
    rw [List.length_cons]
    split
    · omega
    · rw [List.length_append, List.length_singleton]
      omega

theorem adjoin_eq_append {xs ys : List β} (h : (xs ++ ys).Nodup) : adjoin xs ys = xs ++ ys := by
  induction ys generalizing xs with
  | nil => simp [adjoin]
  | cons y ys ih =>
    have hy : y ∉ xs := fun hm => (List.nodup_append.1 h).2.2 y hm y List.mem_cons_self rfl
    rw [adjoin_cons, if_neg hy, ih (by rwa [List.append_assoc]), List.append_assoc]
    rfl

theorem distinct_eq_self {ys : List β} (h : ys.Nodup) : distinct ys = ys :=
  adjoin_eq_append (List.nil_append ys ▸ h)

theorem adjoin_map [DecidableEq γ] {f : β → γ} {zs : List β}
    (hf : ∀ x ∈ zs, ∀ y ∈ zs, f x = f y → x = y) {xs ys : List β} (hxs : ∀ x ∈ xs, x ∈ zs)
    (hys : ∀ y ∈ ys, y ∈ zs) : adjoin (xs.map f) (ys.map f) = (adjoin xs ys).map f := by
  induction ys generalizing xs with
  | nil => rfl
  | cons y ys ih =>
    obtain ⟨hy, hys⟩ := List.forall_mem_cons.1 hys
    have hmem : f y ∈ xs.map f ↔ y ∈ xs := by
      refine ⟨fun h => ?_, List.mem_map_of_mem⟩
      obtain ⟨x, hx, e⟩ := List.mem_map.1 h
      rwa [← hf x (hxs x hx) y hy e]
    rw [List.map_cons, adjoin_cons, adjoin_cons]
    by_cases hseen : y ∈ xs
    · rw [if_pos hseen, if_pos (hmem.2 hseen), ih hxs hys]
    · have hnew : ∀ x ∈ xs ++ [y], x ∈ zs := by
        simpa [or_imp, forall_and] using ⟨hxs, hy⟩
      rw [if_neg hseen, if_neg fun h => hseen (hmem.1 h), ← ih hnew hys, List.map_append]
      rfl

/-- Renaming elements apart keeps which of them are repeats. -/
theorem distinct_map [DecidableEq γ] {f : β → γ} {ys : List β}
    (hf : ∀ x ∈ ys, ∀ y ∈ ys, f x = f y → x = y) : distinct (ys.map f) = (distinct ys).map f := by
  have hnil : ∀ x ∈ ([] : List β), x ∈ ys := fun _ h => absurd h List.not_mem_nil
  exact adjoin_map hf hnil fun _ h => h

end QuboSplit
