import QuboSplit.Proofs.Number.Order
import QuboSplit.Proofs.Sample
import QuboSplit.Proofs.Traversal.Order

/-!
# Greedy selections

The discipline of a priority-first search picks the first of the best nodes of its frontier
(`bestFound_eq_some`). The frontier is in the order found, so among equal scores the node that was
found before is preferred (`Outranks`), and a priority-first traversal grows its selection by score
(`priorityFirst_grows`).
-/

namespace QuboSplit

/-! ### The best node of a frontier -/

namespace Search

variable {better : Nat → Nat → Bool} (hasymm : ∀ u v, better u v = true → better v u = false)
  (htrans : ∀ u v w, better v u = false → better w v = false → better w u = false)

include hasymm htrans

/-- What is picked is better than all before it, and no worse than all after it. -/
theorem bestFound_eq_some {frontier : List Nat} {v : Nat} (h : bestFound better frontier = some v) :
    ∃ before after, frontier = before ++ v :: after ∧ (∀ w ∈ before, better v w = true) ∧
      ∀ w ∈ after, better w v = false := by
  cases frontier with
  | nil => cases h
  | cons x rest =>
    obtain rfl : rest.foldl (fun best y => if better y best then y else best) x = v :=
      Option.some.inj h
    clear h
    induction rest using List.reverseRecOn with
    | nil => exact ⟨[], [], rfl, by simp, by simp⟩
    | append_singleton rest y ih =>
      rw [List.foldl_append, List.foldl_cons, List.foldl_nil]
      generalize rest.foldl (fun best y => if better y best then y else best) x = best at ih ⊢
      obtain ⟨before, after, hsplit, hbefore, hafter⟩ := ih
      have hbest : ∀ w ∈ x :: rest, better w best = false := by
        intro w hw
        have hself : better best best = false := by
          cases hself : better best best with
          | false => rfl
          | true => exact hself.symm.trans (hasymm best best hself)
        rw [hsplit, List.mem_append, List.mem_cons] at hw
        rcases hw with hw | rfl | hw
        · exact hasymm best w (hbefore w hw)
        · exact hself
        · exact hafter w hw
      split
      · next hy =>
        -- the last node beats the best so far, which none of the others beats
        refine ⟨x :: rest, [], rfl, fun w hw => ?_, by simp⟩
        by_contra hworse
        rw [Bool.not_eq_true] at hworse
        exact Bool.noConfusion (hy.symm.trans (htrans best w y (hbest w hw) hworse))
      · next hy =>
        rw [Bool.not_eq_true] at hy
        refine ⟨before, after ++ [y], ?_, hbefore, fun w hw => ?_⟩
        · rw [← List.cons_append, hsplit, List.append_assoc, List.cons_append]
        · rcases List.mem_append.1 hw with hw | hw
          · exact hafter w hw
          · exact List.mem_singleton.1 hw ▸ hy

theorem picksBest_bestFound (links : Nat → List Nat) :
    PicksBest links (bestFound better) fun selected v w =>
      better v w = true ∨ better w v = false ∧ FoundBefore (linked links) id selected v w := by
  intro selected frontier v hordered hpicked w hw hne
  obtain ⟨before, after, rfl, hbefore, hafter⟩ := bestFound_eq_some hasymm htrans hpicked
  rcases List.mem_append.1 hw with hw | hw
  · exact .inl (hbefore w hw)
  · have hw := (List.mem_cons.1 hw).resolve_left hne
    have hordered := (List.pairwise_append.1 hordered).2.1
    exact .inr ⟨hafter w hw, (List.pairwise_cons.1 hordered).1 w hw⟩

end Search

/-! ### Scores -/

/-- The gain of the last entry that names the variable, or minus infinity if there is none. -/
def Ranking.score (ranking : Ranking Binary64) (v : Label) : Binary64 :=
  (ranking.reverse.lookup v).getD (.infinite true)

/-- The score of a ranked variable is one of its gains. -/
theorem Ranking.mem_score {ranking : Ranking Binary64} {v : Label}
    (hv : v ∈ ranking.map Prod.fst) : (v, ranking.score v) ∈ ranking := by
  unfold Ranking.score
  cases hx : ranking.reverse.lookup v with
  | none =>
    rw [lookup_eq_none_iff, List.map_reverse, List.mem_reverse] at hx
    exact absurd hv hx
  | some x =>
    obtain ⟨before, after, hsplit, -⟩ := List.lookup_eq_some_iff.1 hx
    refine List.mem_reverse.1 ?_
    rw [hsplit]
    exact List.mem_append_right before List.mem_cons_self

/-- The score of a variable that is ranked once is its gain. -/
theorem Ranking.score_eq {ranking : Ranking Binary64} (hnodup : (ranking.map Prod.fst).Nodup)
    {e : Label × Binary64} (he : e ∈ ranking) : ranking.score e.1 = e.2 :=
  congrArg Prod.snd
    (List.inj_on_of_nodup_map hnodup (Ranking.mem_score (List.mem_map_of_mem he)) he rfl)

/-- One score exceeds another if it is greater, no score being minus infinity. -/
theorem Score.exceeds_eq (a b : Score Binary64) :
    a.exceeds b = (b.getD (.infinite true)).less (a.getD (.infinite true)) := by
  cases a with
  | none =>
    show false = (b.getD _).less (.infinite true)
    generalize b.getD _ = y
    cases y <;> simp [Floating.less]
  | some x =>
    cases b with
    | none =>
      show x.aboveLeast = Floating.less (.infinite true) x
      cases x <;> simp [Floating.less, Binary64.aboveLeast]
    | some y => rfl

theorem Score.exceeds_asymm {a b : Score Binary64} (h : a.exceeds b = true) :
    b.exceeds a = false := by
  rw [exceeds_eq] at h ⊢
  exact Floating.less_asymm h

theorem Score.not_exceeds_trans {a b c : Score Binary64} (hb : b.getD (.infinite true) ≠ .nan)
    (hab : b.exceeds a = false) (hbc : c.exceeds b = false) : c.exceeds a = false := by
  rw [exceeds_eq] at hab hbc ⊢
  exact Floating.not_less_trans hb hbc hab

theorem lookup_ne_nan {κ : Type} [BEq κ] [LawfulBEq κ] {entries : List (κ × Binary64)}
    (h : ∀ e ∈ entries, e.2 ≠ .nan) (k : κ) :
    (entries.reverse.lookup k).getD (.infinite true) ≠ .nan := by
  cases hx : entries.reverse.lookup k with
  | none => simp
  | some x =>
    obtain ⟨before, after, hsplit, -⟩ := List.lookup_eq_some_iff.1 hx
    refine h (k, x) (List.mem_reverse.1 ?_)
    rw [hsplit]
    exact List.mem_append_right before List.mem_cons_self

/-- By scores that are numbers, the greatest is picked, and of equal ones the one found first. -/
theorem Search.picksBest_score {score : Nat → Score Binary64}
    (hnumber : ∀ i, (score i).getD (.infinite true) ≠ .nan) (links : Nat → List Nat) :
    PicksBest links (bestFound fun i j => (score i).exceeds (score j)) fun selected v w =>
      ((score w).getD (.infinite true)).less ((score v).getD (.infinite true)) = true ∨
        ((score v).getD (.infinite true)).equal ((score w).getD (.infinite true)) = true ∧
          FoundBefore (linked links) id selected v w := by
  have hasymm : ∀ i j, (score i).exceeds (score j) = true → (score j).exceeds (score i) = false :=
    fun _ _ => Score.exceeds_asymm
  have htrans : ∀ i j k, (score j).exceeds (score i) = false → (score k).exceeds (score j) = false →
      (score k).exceeds (score i) = false := fun _ j _ => Score.not_exceeds_trans (hnumber j)
  intro selected frontier v hordered hpicked w hw hne
  obtain hmore | ⟨hnot, hfound⟩ :=
    picksBest_bestFound hasymm htrans links selected frontier v hordered hpicked w hw hne
  · exact .inl ((Score.exceeds_eq _ _).symm.trans hmore)
  · rw [Score.exceeds_eq] at hnot
    cases hless : ((score w).getD (.infinite true)).less ((score v).getD (.infinite true)) with
    | true => exact .inl rfl
    | false => exact .inr ⟨Floating.equal_of_not_less (hnumber v) (hnumber w) hnot hless, hfound⟩

namespace Model

open Search (FoundBefore Grows linked)

variable {m : Model Binary64} {ranking : Ranking Binary64} {visited : List Label}

/-- The entries of a ranking by index. -/
theorem zip_indexOf (m : Model Binary64) (ranking : Ranking Binary64) :
    ((ranking.map Prod.fst).map m.indexOf).zip (ranking.map Prod.snd) =
      ranking.map fun e => (m.indexOf e.1, e.2) := by
  rw [List.map_map, List.zip_map']
  rfl

theorem lookup_map_indexOf (hranked : ∀ v ∈ ranking.map Prod.fst, v ∈ m.labels) {v : Label}
    (hv : v ∈ m.labels) :
    (ranking.map fun e => (m.indexOf e.1, e.2)).lookup (m.indexOf v) = ranking.lookup v := by
  induction ranking with
  | nil => rfl
  | cons e rest ih =>
    obtain ⟨he, hrest⟩ := List.forall_mem_cons.1 hranked
    rw [List.map_cons, List.lookup_cons, List.lookup_cons, ih hrest]
    have hsame : (m.indexOf v == m.indexOf e.1) = (v == e.1) := by
      rw [Bool.eq_iff_iff, beq_iff_eq, beq_iff_eq]
      exact ⟨fun h => indexOf_injOn hv he h, fun h => by rw [h]⟩
    rw [hsame]

/-- The score of an index is that of its variable. -/
theorem scoreOf_indexOf (hranked : ∀ v ∈ ranking.map Prod.fst, v ∈ m.labels) {v : Label}
    (hv : v ∈ m.labels) :
    (scoreOf (((ranking.map Prod.fst).map m.indexOf).zip (ranking.map Prod.snd))
      (m.indexOf v)).getD (.infinite true) = ranking.score v := by
  unfold scoreOf Ranking.score
  rw [zip_indexOf, ← List.map_reverse]
  refine congrArg (Option.getD · _) (lookup_map_indexOf (fun u hu => hranked u ?_) hv)
  rwa [List.map_reverse, List.mem_reverse] at hu

/-- By gains that are numbers all scores are. -/
theorem scoreOf_ne_nan (hgains : ∀ e ∈ ranking, e.2 ≠ .nan) (i : Nat) :
    (scoreOf (((ranking.map Prod.fst).map m.indexOf).zip (ranking.map Prod.snd)) i).getD
      (.infinite true) ≠ .nan := by
  refine lookup_ne_nan (fun e he => ?_) i
  rw [zip_indexOf] at he
  obtain ⟨entry, hentry, rfl⟩ := List.mem_map.1 he
  exact hgains entry hentry

/-- Of greater score, or of equal score and found before. -/
def Outranks (m : Model Binary64) (ranking : Ranking Binary64) (selected : List Label)
    (v w : Label) : Prop :=
  (ranking.score w).less (ranking.score v) = true ∨
    (ranking.score v).equal (ranking.score w) = true ∧
      FoundBefore m.hasInteraction m.indexOf selected v w

theorem Outranks.asymm {selected : List Label} {v w : Label} (h : m.Outranks ranking selected v w) :
    ¬ m.Outranks ranking selected w v :=
  Floating.asymm_of_ties (fun hfound => hfound.asymm) h

/-- The search of a model by scores that are numbers grows by score. -/
theorem search_grows_score (hm : m.WellFormed)
    (hranked : ∀ v ∈ ranking.map Prod.fst, v ∈ m.labels) (hgains : ∀ e ∈ ranking, e.2 ≠ .nan)
    (visited : List Label) (size : Int) :
    let score := scoreOf (((ranking.map Prod.fst).map m.indexOf).zip (ranking.map Prod.snd))
    Grows m.hasInteraction (m.Outranks ranking) (ranking.map Prod.fst) visited size.toNat
      (m.search (Search.bestFound fun i j => (score i).exceeds (score j))
        ((ranking.map Prod.fst).map m.indexOf) visited size) := by
  refine search_grows hm (Search.picks_bestFound _)
    (Search.picksBest_score (scoreOf_ne_nan hgains) m.links) ?_ hranked visited size
  intro selected v w hselected hv hw h
  rwa [scoreOf_indexOf hranked hv, scoreOf_indexOf hranked hw,
    foundBefore_map_indexOf hselected hv hw] at h

/-- A priority-first traversal of ranked variables of the model, with numbers for gains, grows by
score: each variable is the one of greatest score on the fringe, of equal ones the one that was
found first, or the next ranked one where the selected variables have no fringe. It stops where it
has the size asked for or nothing is left. -/
theorem priorityFirst_grows (hm : m.Reachable)
    (hranked : ∀ v ∈ ranking.map Prod.fst, v ∈ m.labels) (hgains : ∀ e ∈ ranking, e.2 ≠ .nan)
    (visited : List Label) (size : Int) :
    ∃ out, m.traverse .priorityFirst ranking visited size = .ok out ∧
      Grows m.hasInteraction (m.Outranks ranking) (ranking.map Prod.fst) visited
        size.toNat out :=
  ⟨_, traverse_priorityFirst hranked visited size,
    search_grows_score hm.wellFormed hranked hgains visited size⟩

open Label (number) in
/-- The fork by score: the last gain of a variable counts, the fourth variable has none, and the
pair comes after it. -/
theorem priorityFirst_grows_forked :
    let visited := [number 0, number 9, number 0]
    let out := [number 1, number 2, number 3, number 4, number 6, number 5]
    forked.traverse .priorityFirst forkedRanking visited 9 = .ok out ∧
      Grows forked.hasInteraction (forked.Outranks forkedRanking) (forkedRanking.map Prod.fst)
        visited 9 out := by
  intro visited out
  obtain ⟨out', hok, hgrows⟩ := priorityFirst_grows forked_reachable forkedRanking_known
    (by decide +kernel) visited 9
  have hout : forked.traverse .priorityFirst forkedRanking visited 9 = .ok out := by decide +kernel
  obtain rfl : out' = out := Except.ok.inj (hok.symm.trans hout)
  exact ⟨hout, hgrows⟩

end Model

end QuboSplit
