import QuboSplit.Proofs.Strategy.Groups

/-!
# What is left out when growing by groups

The search comes to every group at the end of a chain of groups that share variables
(`reachable_of_chain`). A group is taken or left at its turn, while the selection still grows, and
it is measured by the length of its list of variables that are new. Whatever was left would
therefore still make the selection too large at the end, if the variables that a group names again
are counted again (`grow_maximal`). Counting each variable once, as the selection does, it might
have fitted (`not_maximal`).
-/

namespace QuboSplit.Constraint

open Relation (ReflTransGen)
open Scalar (ofInt)

variable {c : Constraint} {size i j : Nat} {labels labels' : List Label} {group : Group}

/-! ### The search is complete -/

/-- The search comes to every group at the end of a chain of groups that share variables. -/
theorem reachable_of_chain (hi : i < c.groups.length) (hchain : ReflTransGen c.Share i j) :
    j ∈ reachable c.graph i := by
  refine Search.mem_run_of_chain c.graph_sound Search.picks_firstFound
    (List.forall_mem_singleton.2 hi) (length_graph c).ge (List.mem_singleton_self i) ?_
  refine ReflTransGen.trans_induction_on hchain (fun _ => .refl) (fun {a b} hshare => ?_)
    fun _ _ h h' => h.trans h'
  -- a group shares variables with itself without being linked to itself
  by_cases hab : a = b
  · rw [hab]
  · obtain ⟨v, ha, hb⟩ := hshare
    exact .single (mem_graph_iff.2 ⟨lt_of_mem_group ha, lt_of_mem_group hb, hab, v, ha, hb⟩)

/-! ### Measuring a group -/

/-- How many entries of a group name a variable again. -/
def repeats (group : Group) : Nat := group.length - group.toFinset.card

theorem repeats_eq_zero (h : group.Nodup) : repeats group = 0 := by
  unfold repeats
  rw [List.toFinset_card_of_nodup h, Nat.sub_self]

/-- With the group the variables are too many, if its repeats are counted. -/
def Crowds (size : Nat) (labels : List Label) (group : Group) : Prop :=
  size < (labels ++ group).toFinset.card + repeats group

/-- What does not fit beside some variables does not fit beside more. -/
theorem Crowds.mono (h : Crowds size labels group) (hsub : labels ⊆ labels') :
    Crowds size labels' group := by
  have hcard : (labels ++ group).toFinset.card ≤ (labels' ++ group).toFinset.card := by
    apply Finset.card_le_card
    intro v
    simp only [List.mem_toFinset, List.mem_append]
    exact Or.imp_left fun hv => hsub hv
  unfold Crowds at h ⊢
  omega

/-- The entries of a group that are new are as many as the new variables, up to its repeats. -/
theorem length_new_le (h : labels.Nodup) (group : Group) :
    labels.length + (group.filter (· ∉ labels)).length ≤
      (labels ++ group).toFinset.card + repeats group := by
  have hunion : (labels ++ group).toFinset.card =
      labels.length + (group.filter (· ∉ labels)).toFinset.card := by
    have hset : (labels ++ group).toFinset =
        labels.toFinset ∪ (group.filter (· ∉ labels)).toFinset := by
      ext v
      by_cases hv : v ∈ labels <;> simp [hv]
    rw [hset, Finset.card_union_of_disjoint, List.toFinset_card_of_nodup h]
    rw [List.disjoint_toFinset_iff_disjoint]
    intro v hv hnew
    simp [hv] at hnew
  -- an entry that is not new adds at most one to the variables of the group
  have hgroup : group.toFinset.card ≤
      (group.filter (· ∉ labels)).toFinset.card + (group.filter (· ∈ labels)).length := by
    have hset : group.toFinset =
        (group.filter (· ∉ labels)).toFinset ∪ (group.filter (· ∈ labels)).toFinset := by
      ext v
      by_cases hv : v ∈ labels <;> simp [hv]
    calc group.toFinset.card
        ≤ (group.filter (· ∉ labels)).toFinset.card +
            (group.filter (· ∈ labels)).toFinset.card := hset ▸ Finset.card_union_le _ _
      _ ≤ _ := Nat.add_le_add_left (List.toFinset_card_le _) _
  have hlength : group.length =
      (group.filter (· ∈ labels)).length + (group.filter (· ∉ labels)).length := by
    have hsplit := List.length_eq_length_filter_add (l := group) fun v => decide (v ∈ labels)
    simpa using hsplit
  unfold repeats
  omega

/-! ### Taking what fits -/

/-- At its turn a group is taken, or is too large. -/
theorem absorb_or_crowds (h : labels.Nodup) (group : Group) :
    (∀ v ∈ group, v ∈ absorb size labels group) ∨ Crowds size labels group := by
  unfold absorb
  dsimp only
  split
  · left
    intro v hv
    rw [mem_adjoin, List.mem_filter]
    by_cases hlabels : v ∈ labels <;> simp [hlabels, hv]
  · next hlarge =>
    right
    have := length_new_le h group
    unfold Crowds
    omega

theorem subset_foldl_absorb (order : List Nat) (h : Fits c.size.value labels) :
    labels ⊆ (order.map c.group).foldl (absorb c.size.value) labels := by
  obtain ⟨taken, -, -, hmem⟩ := exists_taken c order h
  exact fun v hv => (hmem v).2 (Or.inl hv)

/-- Of the groups gone through each is taken, or is still too large in the end. -/
theorem foldl_absorb_maximal (order : List Nat) (h : Fits c.size.value labels) :
    let final := (order.map c.group).foldl (absorb c.size.value) labels
    ∀ j ∈ order, (∀ v ∈ c.group j, v ∈ final) ∨ Crowds c.size.value final (c.group j) := by
  induction order generalizing labels with
  | nil => simp
  | cons i order ih =>
    have hfits : Fits c.size.value (absorb c.size.value labels (c.group i)) ∧
        labels ⊆ absorb c.size.value labels (c.group i) := by
      rcases absorb_cases h (c.group i) with hsame | ⟨hfits, hunion⟩
      · rw [hsame]
        exact ⟨h, List.Subset.refl _⟩
      · exact ⟨hfits, fun v hv => (hunion v).2 (Or.inl hv)⟩
    have hrest := subset_foldl_absorb order hfits.1
    rw [List.map_cons, List.foldl_cons]
    intro final j hj
    rcases List.mem_cons.1 hj with rfl | hj
    · rcases absorb_or_crowds h.nodup (c.group j) with htaken | hcrowds
      · exact Or.inl fun v hv => hrest (htaken v hv)
      · exact Or.inr (hcrowds.mono fun v hv => hrest (hfits.2 hv))
    · exact ih hfits.1 j hj

/-- From a seed grows a selection that takes every group at the end of a chain from there which
still fits, its repeats counted. -/
theorem grow_maximal (hi : i < c.groups.length) (hchain : ReflTransGen c.Share i j) :
    (∀ v ∈ c.group j, v ∈ c.grow c.graph i) ∨
      Crowds c.size.value (c.grow c.graph i) (c.group j) := by
  have hnone : Fits c.size.value [] := ⟨List.nodup_nil, Nat.zero_le _⟩
  exact foldl_absorb_maximal (reachable c.graph i) hnone j (reachable_of_chain hi hchain)

/-! ### Selections -/

variable {α : Type} [Scalar α] {mem : Memory} {s t : State α}

/-- Of the groups at the end of a chain from the seed group, each is selected as a whole or makes
the subproblem too large, where variables that the group names again count again. If it names none
again the different variables alone are too many. -/
theorem selection_leaves_no_room (c : Constraint) (hmem : c.Reachable α mem)
    (hproblem : s.problem.model.Reachable) (h : (c.select mem s).result = .ok (.state t)) :
    ∃ sub, t.subproblem = some sub ∧
      ∀ j, ReflTransGen c.Share (mem.engine.uniform c.groups.length).1 j →
        (∀ v ∈ c.group j, v ∈ sub.labels) ∨
          c.size.value < (sub.labels ++ c.group j).toFinset.card + repeats (c.group j) ∧
            ((c.group j).Nodup → c.size.value < (sub.labels ++ c.group j).toFinset.card) := by
  have hseed := Engine.uniform_lt (List.length_pos_of_ne_nil c.groups_ne) mem.engine
  rcases select_cases hmem.sound s with ⟨fault, herror, -⟩ | ⟨hresult, -⟩
  · rw [herror] at h
    cases h
  · rw [hresult] at h
    obtain ⟨sub, rfl, hlabels⟩ := (State.selects_of_selectAtBest h).exists_subproblem
    have hlabels := hlabels hproblem.wellFormed (grow_spec hseed).1.nodup
    refine ⟨sub, rfl, fun j hchain => ?_⟩
    rw [hlabels]
    refine (grow_maximal hseed hchain).imp_right fun hcrowds => ⟨hcrowds, fun hnodup => ?_⟩
    rwa [repeats_eq_zero hnodup] at hcrowds

/-! ### A group that names a variable twice -/

/-- The second group has one variable more than the first, and names it twice. -/
def twice : Constraint :=
  ⟨⟨3, by decide⟩, [[.number 0, .number 1], [.number 1, .number 2, .number 2]], by decide,
    by decide⟩

/-- Three variables at zero, with their energy. -/
def threeZeros : Entry Binary64 :=
  ⟨.ofList [(.number 0, ofInt 0), (.number 1, ofInt 0), (.number 2, ofInt 0)], ofInt 0⟩

theorem threeZeros_admitted : ∀ e ∈ [threeZeros], e.foreign? .binary = none := by decide +kernel

/-- Three variables without interactions. -/
def three : State Binary64 where
  problem := ⟨0, .ofEdits .binary [.setLinear (.number 0) (ofInt (-1)),
    .setLinear (.number 1) (ofInt 1), .setLinear (.number 2) (ofInt 1)]⟩
  samples := ⟨.binary, [threeZeros], threeZeros_admitted⟩

/-- What is selected from the first group as the seed. -/
def firstGroup : Model Binary64 :=
  ⟨.binary, ofInt 0, [.isolated (.number 0) (ofInt (-1)), .isolated (.number 1) (ofInt 1)]⟩

theorem select_three : (twice.select (.fresh (.ofSeed 1)) three).result =
    .ok (.state (three.withSubproblem firstGroup)) := by
  decide +kernel

theorem chain_twice : ReflTransGen twice.Share
    ((Memory.fresh (.ofSeed 1)).engine.uniform twice.groups.length).1 1 := by
  have hseed : ((Memory.fresh (.ofSeed 1)).engine.uniform twice.groups.length).1 = 0 := by
    decide +kernel
  rw [hseed]
  exact .single ⟨.number 1, by decide, by decide⟩

/-- The second group is left out: with its repeat it is too large. -/
theorem selection_leaves_no_room_twice :
    (twice.select (.fresh (.ofSeed 1)) three).result =
        .ok (.state (three.withSubproblem firstGroup)) ∧
      3 < (firstGroup.labels ++ twice.group 1).toFinset.card + repeats (twice.group 1) := by
  refine ⟨select_three, ?_⟩
  obtain ⟨sub, hsub, hroom⟩ :=
    selection_leaves_no_room twice (.fresh (.ofSeed 1)) ⟨.binary, _, rfl⟩ select_three
  obtain rfl : firstGroup = sub := Option.some.inj hsub
  rcases hroom 1 chain_twice with hall | ⟨hlarge, -⟩
  · exact absurd (hall (.number 2) (by decide)) (by decide)
  · exact hlarge

/-- The different variables of the second group and of the selection would have fitted. -/
theorem not_maximal : ¬ ∀ (c : Constraint) (mem : Memory) (s t : State Binary64)
    (sub : Model Binary64), c.Reachable Binary64 mem → s.problem.model.Reachable →
    (c.select mem s).result = .ok (.state t) → t.subproblem = some sub →
    ∀ j, ReflTransGen c.Share (mem.engine.uniform c.groups.length).1 j →
      (∀ v ∈ c.group j, v ∈ sub.labels) ∨
        c.size.value < (sub.labels ++ c.group j).toFinset.card := by
  intro h
  rcases h twice (.fresh (.ofSeed 1)) three _ firstGroup (.fresh (.ofSeed 1)) ⟨.binary, _, rfl⟩
    select_three rfl 1 chain_twice with hall | hlarge
  · exact absurd (hall (.number 2) (by decide)) (by decide)
  · exact absurd hlarge (by decide)

end QuboSplit.Constraint
