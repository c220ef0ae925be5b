import Mathlib.Combinatorics.SimpleGraph.Connectivity.Connected
import Mathlib.Data.Set.Card
import Mathlib.Tactic

/-!
# Selections that grow

What a search selects, said without a search. A selection grows if each node in it is the preferred
one of the fringe of those before, or the next seed where they have no fringe; and if it goes on as
long as it can (`Grows`). The fringe is ordered by where its nodes were found (`FoundBefore`).

Whatever is preferred, such a selection repeats nothing, stays in the components of the open seeds
and takes as much of them as its size allows (`Grows.takesFrom`). If the preference is strict there
is only one (`Grows.unique`).
-/

namespace QuboSplit.Search

variable {β : Type} [DecidableEq β]

/-! ### Fringes and seeds -/

/-- Neither removed nor selected, and next to a selected node. -/
def Fringe (near : β → β → Bool) (removed selected : List β) (v : β) : Prop :=
  v ∉ removed ∧ v ∉ selected ∧ ∃ u ∈ selected, near u v = true

/-- The place of the first selected node that has `v` next to it. -/
def foundAt (near : β → β → Bool) (selected : List β) (v : β) : Nat :=
  selected.findIdx fun u => near u v

/-- Found next to an earlier selected node, or next to the same one and of smaller index. -/
def FoundBefore (near : β → β → Bool) (index : β → Nat) (selected : List β) (v w : β) : Prop :=
  foundAt near selected v < foundAt near selected w ∨
    foundAt near selected v = foundAt near selected w ∧ index v < index w

/-- The first seed that is neither removed nor selected. -/
def nextSeed? (seeds removed selected : List β) : Option β :=
  seeds.find? fun v => v ∉ removed ∧ v ∉ selected

/-! ### Growth -/

/-- The node may come after the selected ones: it is preferred to all others of their fringe, or
they have no fringe and it is the next seed. -/
inductive Follows (near : β → β → Bool) (prefers : β → β → Prop) (seeds removed selected : List β) :
    β → Prop
  | grown {v : β} (h : Fringe near removed selected v)
      (hbest : ∀ w, Fringe near removed selected w → w ≠ v → prefers v w) :
      Follows near prefers seeds removed selected v
  | seeded {v : β} (hnone : ∀ w, ¬ Fringe near removed selected w)
      (h : nextSeed? seeds removed selected = some v) :
      Follows near prefers seeds removed selected v

/-- The selected nodes have no fringe, and no seed is left. -/
def Exhausted (near : β → β → Bool) (seeds removed selected : List β) : Prop :=
  (∀ w, ¬ Fringe near removed selected w) ∧ nextSeed? seeds removed selected = none

/-- Each node of `out` follows those before it, and `out` stops exactly where it is as long as asked
for or nothing is left. -/
structure Grows (near : β → β → Bool) (prefers : List β → β → β → Prop) (seeds removed : List β)
    (size : Nat) (out : List β) : Prop where
  follows : ∀ p v, out[p]? = some v →
    Follows near (prefers (out.take p)) seeds removed (out.take p) v
  stops : ∀ p ≤ out.length,
    (p = out.length ↔ p = size ∨ Exhausted near seeds removed (out.take p))

/-! ### What can be selected -/

/-- The graph without the removed nodes. -/
def remaining (near : β → β → Bool) (removed : List β) : SimpleGraph β :=
  .fromRel fun u v => u ∉ removed ∧ v ∉ removed ∧ near u v = true

/-- The components of the remaining graph with a seed in them. -/
def attainable (near : β → β → Bool) (seeds removed : List β) : Set β :=
  {v | ∃ u ∈ seeds, u ∉ removed ∧ (remaining near removed).Reachable u v}

/-- Different elements of a set, all of them or as many as asked for. -/
structure TakesFrom (pool : Set β) (size : Nat) (out : List β) : Prop where
  nodup : out.Nodup
  mem : ∀ v ∈ out, v ∈ pool
  length_eq : out.length = min size pool.ncard

variable {near : β → β → Bool} {prefers : List β → β → β → Prop} {seeds removed selected : List β}
  {size : Nat} {out : List β}

theorem mem_of_nextSeed?_eq_some {v : β} (h : nextSeed? seeds removed selected = some v) :
    v ∈ seeds ∧ v ∉ removed ∧ v ∉ selected := by
  have hopen := List.find?_some h
  simp only [decide_eq_true_eq] at hopen
  exact ⟨List.mem_of_find?_eq_some h, hopen⟩

theorem nextSeed?_eq_none_iff :
    nextSeed? seeds removed selected = none ↔ ∀ v ∈ seeds, v ∉ removed → v ∈ selected := by
  unfold nextSeed?
  simp only [List.find?_eq_none, decide_eq_true_eq, not_and, not_not]

theorem Follows.isOpen {prefers : β → β → Prop} {v : β}
    (h : Follows near prefers seeds removed selected v) : v ∉ removed ∧ v ∉ selected := by
  cases h with
  | grown h => exact ⟨h.1, h.2.1⟩
  | seeded _ h => exact (mem_of_nextSeed?_eq_some h).2

omit [DecidableEq β] in
theorem FoundBefore.asymm {index : β → Nat} {v w : β} (h : FoundBefore near index selected v w) :
    ¬ FoundBefore near index selected w v := by
  unfold FoundBefore at h ⊢
  omega

/-- A strict preference leaves no choice of what follows. -/
theorem Follows.unique {prefers : β → β → Prop} (hasymm : ∀ v w, prefers v w → ¬ prefers w v)
    {v w : β} (h : Follows near prefers seeds removed selected v)
    (h' : Follows near prefers seeds removed selected w) : v = w := by
  cases h with
  | grown hv hbest =>
    cases h' with
    | grown hw hbest' =>
      by_contra hne
      exact hasymm v w (hbest w hw (Ne.symm hne)) (hbest' v hv hne)
    | seeded hnone _ => exact absurd hv (hnone v)
  | seeded hnone h =>
    cases h' with
    | grown hw _ => exact absurd hw (hnone w)
    | seeded _ h' => exact Option.some.inj (h.symm.trans h')

omit [DecidableEq β] in
/-- No removed node is reached from one that is not. -/
theorem not_mem_of_reachable {u v : β} (h : (remaining near removed).Reachable u v)
    (hu : u ∉ removed) : v ∉ removed := by
  rw [SimpleGraph.reachable_iff_reflTransGen] at h
  cases h with
  | refl => exact hu
  | tail _ hadj =>
    obtain ⟨-, h | h⟩ := (SimpleGraph.fromRel_adj _ _ _).1 hadj
    · exact h.2.1
    · exact h.1

/-- What follows attainable nodes is attainable. -/
theorem Follows.attainable {prefers : β → β → Prop} {v : β}
    (h : Follows near prefers seeds removed selected v)
    (hselected : ∀ u ∈ selected, u ∈ attainable near seeds removed) :
    v ∈ attainable near seeds removed := by
  cases h with
  | grown h =>
    obtain ⟨hremoved, hnew, u, hu, huv⟩ := h
    obtain ⟨seed, hseed, hopen, hreach⟩ := hselected u hu
    have hadj : (remaining near removed).Adj u v := (SimpleGraph.fromRel_adj _ _ _).2
      ⟨fun e => hnew (e ▸ hu), .inl ⟨not_mem_of_reachable hreach hopen, hremoved, huv⟩⟩
    exact ⟨seed, hseed, hopen, hreach.trans hadj.reachable⟩
  | seeded _ h =>
    obtain ⟨hseed, hopen, -⟩ := mem_of_nextSeed?_eq_some h
    exact ⟨v, hseed, hopen, .refl v⟩

/-- Once nothing is left all that is attainable has been selected. -/
theorem Exhausted.mem_of_attainable (hsymm : ∀ u v, near u v = near v u)
    (h : Exhausted near seeds removed selected) {v : β} (hv : v ∈ attainable near seeds removed) :
    v ∈ selected := by
  obtain ⟨u, hu, hopen, hreach⟩ := hv
  rw [SimpleGraph.reachable_iff_reflTransGen] at hreach
  induction hreach with
  | refl => exact nextSeed?_eq_none_iff.1 h.2 u hu hopen
  | @tail a b _ hadj ih =>
    obtain ⟨-, hlink⟩ := (SimpleGraph.fromRel_adj _ _ _).1 hadj
    have hb : b ∉ removed := hlink.elim (fun h => h.2.1) fun h => h.1
    have hab : near a b = true := hlink.elim (fun h => h.2.2) fun h => hsymm a b ▸ h.2.2
    by_contra hnew
    exact h.1 b ⟨hb, hnew, a, ih, hab⟩

namespace Grows

variable (h : Grows near prefers seeds removed size out)

include h

theorem length_le : out.length ≤ size := by
  by_contra hlt
  have := (h.stops size (by omega)).2 (.inl rfl)
  omega

theorem nodup : out.Nodup := by
  refine List.nodup_iff_getElem?_ne_getElem?.2 fun p q hpq hq hsame => ?_
  have hlast := List.getElem?_eq_getElem hq
  refine (h.follows q _ hlast).isOpen.2 ?_
  exact List.mem_of_getElem? ((List.getElem?_take_of_lt hpq).trans (hsame.trans hlast))

/-- Where one selection ends another of the same beginning does not go on. -/
theorem getElem?_eq_none {out' : List β} (h' : Grows near prefers seeds removed size out') {p : Nat}
    (htake : out.take p = out'.take p) (hend : out[p]? = none) : out'[p]? = none := by
  by_contra hmore
  rw [List.getElem?_eq_none_iff] at hend hmore
  have hlength := congrArg List.length htake
  rw [List.length_take, List.length_take] at hlength
  have hstops := (h.stops p (by omega)).1 (by omega)
  rw [htake] at hstops
  have := (h'.stops p (by omega)).2 hstops
  omega

/-- Selections by a strict preference agree, by induction on their beginnings. -/
theorem unique (hasymm : ∀ selected v w, prefers selected v w → ¬ prefers selected w v)
    {out' : List β} (h' : Grows near prefers seeds removed size out') : out = out' := by
  have hnext : ∀ p, out.take p = out'.take p → out[p]? = out'[p]? := by
    intro p htake
    cases hv : out[p]? with
    | none => exact (h.getElem?_eq_none h' htake hv).symm
    | some v =>
      cases hw : out'[p]? with
      | none => exact hv.symm.trans (h'.getElem?_eq_none h htake.symm hw)
      | some w =>
        have hfollows := h.follows p v hv
        rw [htake] at hfollows
        rw [hfollows.unique (hasymm _) (h'.follows p w hw)]
  have htaken : ∀ p, out.take p = out'.take p := by
    intro p
    induction p with
    | zero => rfl
    | succ p ih => rw [List.take_add_one, List.take_add_one, ih, hnext p ih]
  exact List.ext_getElem? fun p => hnext p (htaken p)

theorem subset_attainable : ∀ v ∈ out, v ∈ attainable near seeds removed := by
  suffices htaken : ∀ p, ∀ v ∈ out.take p, v ∈ attainable near seeds removed by
    intro v hv
    exact htaken out.length v (by rwa [List.take_length])
  intro p
  induction p with
  | zero => simp
  | succ p ih =>
    intro v hv
    rw [List.take_add_one, List.mem_append, Option.mem_toList] at hv
    rcases hv with hv | hv
    · exact ih v hv
    · exact (h.follows p v hv).attainable ih

/-- A selection takes all that is attainable, or as much as it is asked for. -/
theorem takesFrom (hsymm : ∀ u v, near u v = near v u)
    (hfinite : (attainable near seeds removed).Finite) :
    TakesFrom (attainable near seeds removed) size out where
  nodup := h.nodup
  mem := h.subset_attainable
  length_eq := by
    have hcount : (out.toFinset : Set β).ncard = out.length := by
      rw [Set.ncard_coe_finset, List.toFinset_card_of_nodup h.nodup]
    have hsub : (out.toFinset : Set β) ⊆ attainable near seeds removed := fun v hv =>
      h.subset_attainable v (List.mem_toFinset.1 hv)
    have hle := h.length_le
    rcases (h.stops out.length le_rfl).1 rfl with hsize | hexhausted
    · have := Set.ncard_le_ncard hsub hfinite
      omega
    · rw [List.take_length] at hexhausted
      have hall : attainable near seeds removed = (out.toFinset : Set β) :=
        Set.Subset.antisymm
          (fun v hv => List.mem_toFinset.2 (hexhausted.mem_of_attainable hsymm hv)) hsub
      rw [hall, hcount, Nat.min_eq_right hle]

end Grows

end QuboSplit.Search
