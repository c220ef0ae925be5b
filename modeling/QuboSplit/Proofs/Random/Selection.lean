import Mathlib.Tactic
import QuboSplit.Random.Selection

/-!
# Random selections

A draw among `k` numbers is one of them (`uniform_lt`). Selection sampling passes over a list once,
so what it selects is a sublist, whatever numbers the engine draws (`sample_sublist`). It neither
runs out of elements nor takes too many: as a number is drawn among as many as there are elements
left, one that is not below the number still needed leaves enough of them (`length_sample`). Both
hold with one draw for each element and with one for every two. So a model has random variables in
any number up to its size (`exists_randomVariables`).
-/

namespace QuboSplit

namespace Engine

/-! ### Draws -/

theorem drawBelow_lt (draw : Engine → Nat × Engine) {limit : Nat} (h : 0 < limit) (tries : Nat)
    (g : Engine) : (drawBelow draw limit tries g).1 < limit := by
  induction tries generalizing g with
  | zero => exact h
  | succ tries ih =>
    unfold drawBelow
    dsimp only
    split
    · next hlt => exact hlt
    · exact ih (draw g).2

/-- One draw has no number above the states. -/
theorem drawOne_lt (g : Engine) : (drawOne g).1 < modulus - 1 := by
  have hstate : multiplier * g.state % modulus < modulus := Nat.mod_lt _ (by decide)
  show multiplier * g.state % modulus - 1 < modulus - 1
  unfold modulus at *
  omega

theorem uniform_lt {k : Nat} (h : 0 < k) (g : Engine) : (g.uniform k).1 < k := by
  unfold uniform
  by_cases hone : k < modulus - 1
  · rw [if_pos hone]
    dsimp only
    rcases Nat.eq_zero_or_pos ((modulus - 2) / k) with hzero | hpos
    · rwa [hzero, Nat.div_zero]
    · rw [Nat.div_lt_iff_lt_mul hpos]
      exact drawBelow_lt drawOne (Nat.mul_pos h hpos) _ _
  · rw [if_neg hone]
    by_cases hall : k = modulus - 1
    · rw [if_pos hall, hall]
      exact drawOne_lt g
    · rw [if_neg hall]
      exact drawBelow_lt _ h _ _

end Engine

/-! ### The order of what is selected -/

/-- A selection of the rest, with or without the first element. -/
theorem sublist_cons_or_not {β : Type} {more rest : List β} (h : more.Sublist rest) (y : β)
    (takes : Bool) : (if takes then y :: more else more).Sublist (y :: rest) := by
  cases takes with
  | true => exact h.cons_cons y
  | false => exact h.cons y

namespace Engine

variable {β : Type}

theorem sampleSingly_sublist (xs : List β) (need : Nat) (g : Engine) :
    (sampleSingly xs need g).1.Sublist xs := by
  induction xs, need, g using sampleSingly.induct with
  | case1 need g => exact .refl _
  | case2 xs g hne =>
    rw [sampleSingly]
    · exact List.nil_sublist xs
    · exact hne
  | case3 x rest need g choice g' hdraw htakes more g'' hmore ih =>
    rw [hmore] at ih
    rw [sampleSingly, hdraw]
    dsimp only
    rw [if_pos htakes, hmore]
    exact ih.cons_cons x
  | case4 x rest need g choice g' hdraw htakes ih =>
    rw [sampleSingly, hdraw]
    dsimp only
    rw [if_neg htakes]
    exact ih.cons x

theorem samplePairs_sublist (xs : List β) (need : Nat) (g : Engine) :
    (samplePairs xs need g).1.Sublist xs := by
  induction xs, need, g using samplePairs.induct with
  | case1 x y rest need g others choice g' hdraw hfirst takesSecond more g'' hmore ih =>
    rw [hmore] at ih
    rw [samplePairs, hdraw]
    dsimp only
    rw [if_pos hfirst, hmore]
    exact (sublist_cons_or_not ih y _).cons_cons x
  | case2 x y rest need g others choice g' hdraw hfirst takesSecond more g'' hmore ih =>
    rw [hmore] at ih
    rw [samplePairs, hdraw]
    dsimp only
    rw [if_neg hfirst, hmore]
    exact (sublist_cons_or_not ih y _).cons x
  | case3 xs need g hfew =>
    rw [samplePairs]
    · exact sampleSingly_sublist xs need g
    · exact hfew

/-- Whatever is drawn, the selected elements stand in the order of the list. -/
theorem sample_sublist (xs : List β) (need : Nat) (g : Engine) :
    (sample xs need g).1.Sublist xs := by
  unfold sample
  split
  · exact samplePairs_sublist xs need g
  · exact sampleSingly_sublist xs need g

end Engine

/-! ### The number of what is selected -/

/-- What is needed after an element, for which a number was drawn: one less if it is taken. -/
def needAfter (need draw : Nat) : Nat := if draw < need then need - 1 else need

theorem needAfter_eq (need draw : Nat) :
    needAfter need draw = if decide (draw < need) then need - 1 else need := by
  simp [needAfter]

/-- As long as no more is needed than is left, this is so after the next element too, if the number
drawn for it is one of as many as are left. -/
theorem needAfter_le {need left draw : Nat} (hneed : need ≤ left + 1) (hdraw : draw < left + 1) :
    needAfter need draw ≤ left := by
  unfold needAfter
  split <;> omega

/-- An element is taken exactly if that leaves one less to take. -/
theorem length_cons_or_not {β : Type} {more : List β} {need draw : Nat}
    (hmore : more.length = needAfter need draw) (y : β) :
    (if decide (draw < need) then y :: more else more).length = need := by
  unfold needAfter at hmore
  by_cases hdraw : draw < need
  · rw [if_pos hdraw] at hmore
    rw [if_pos (decide_eq_true hdraw), List.length_cons, hmore]
    omega
  · rw [if_neg hdraw] at hmore
    rwa [if_neg (by simpa using hdraw)]

namespace Engine

variable {β : Type}

theorem length_sampleSingly {xs : List β} {need : Nat} (h : need ≤ xs.length) (g : Engine) :
    (sampleSingly xs need g).1.length = need := by
  induction xs, need, g using sampleSingly.induct with
  | case1 need g => exact (Nat.le_zero.1 h).symm
  | case2 xs g hne =>
    rw [sampleSingly]
    · rfl
    · exact hne
  | case3 x rest need g choice g' hdraw htakes more g'' hmore ih =>
    rw [hmore] at ih
    rw [sampleSingly, hdraw]
    dsimp only
    rw [if_pos htakes, hmore, List.length_cons]
    exact congrArg (· + 1) (ih (Nat.le_of_succ_le_succ h))
  | case4 x rest need g choice g' hdraw htakes ih =>
    have hchoice := uniform_lt (Nat.succ_pos rest.length) g
    rw [hdraw] at hchoice
    have hleft : need + 1 ≤ rest.length := by
      have hpassed := needAfter_le h hchoice
      unfold needAfter at hpassed
      rwa [if_neg htakes] at hpassed
    rw [sampleSingly, hdraw]
    dsimp only
    rw [if_neg htakes]
    exact ih hleft

/-- One draw for two elements splits into a number below each of the two counts of what is left. -/
theorem digits_of_draw {others choice : Nat} {g g' : Engine} (hothers : 0 < others)
    (h : g.uniform ((others + 1) * others) = (choice, g')) :
    choice / others < others + 1 ∧ choice % others < others := by
  have hchoice := uniform_lt (Nat.mul_pos (Nat.succ_pos others) hothers) g
  rw [h] at hchoice
  exact ⟨(Nat.div_lt_iff_lt_mul hothers).2 hchoice, Nat.mod_lt _ hothers⟩

theorem length_samplePairs {xs : List β} {need : Nat} (h : need ≤ xs.length) (g : Engine) :
    (samplePairs xs need g).1.length = need := by
  induction xs, need, g using samplePairs.induct with
  | case1 x y rest need g others choice g' hdraw hfirst takesSecond more g'' hmore ih =>
    obtain ⟨-, hsecond⟩ := digits_of_draw (Nat.succ_pos rest.length) hdraw
    have hneed : needAfter need (choice % others) ≤ rest.length :=
      needAfter_le (Nat.le_of_succ_le_succ h) hsecond
    have hwant : (if takesSecond then need - 1 else need) = needAfter need (choice % others) :=
      (needAfter_eq need _).symm
    rw [hmore, hwant] at ih
    rw [samplePairs, hdraw]
    dsimp only
    rw [if_pos hfirst, hmore]
    rw [List.length_cons, length_cons_or_not (ih hneed) y]
  | case2 x y rest need g others choice g' hdraw hfirst takesSecond more g'' hmore ih =>
    obtain ⟨hbound, hsecond⟩ := digits_of_draw (Nat.succ_pos rest.length) hdraw
    have hleft : need + 1 ≤ rest.length + 1 := by
      have hpassed := needAfter_le h hbound
      unfold needAfter at hpassed
      rwa [if_neg hfirst] at hpassed
    have hneed : needAfter (need + 1) (choice % others) ≤ rest.length := needAfter_le hleft hsecond
    have hwant : (if takesSecond then need else need + 1) =
        needAfter (need + 1) (choice % others) := (needAfter_eq (need + 1) _).symm
    rw [hmore, hwant] at ih
    rw [samplePairs, hdraw]
    dsimp only
    rw [if_neg hfirst, hmore]
    exact length_cons_or_not (ih hneed) y
  | case3 xs need g hfew =>
    rw [samplePairs]
    · exact length_sampleSingly h g
    · exact hfew

/-- Whatever is drawn, as many elements are selected as are needed, if there are so many. -/
theorem length_sample {xs : List β} {need : Nat} (h : need ≤ xs.length) (g : Engine) :
    (sample xs need g).1.length = need := by
  unfold sample
  split
  · exact length_samplePairs h g
  · exact length_sampleSingly h g

end Engine

/-! ### Variables of a model -/

namespace Model

variable {α : Type} {m : Model α} {size : Int}

/-- A model has random variables in any number up to its size. -/
theorem exists_randomVariables (hzero : 0 ≤ size) (hsize : size ≤ m.size) (g : Engine) :
    ∃ labels g', m.randomVariables size g = .ok (labels, g') ∧ (labels.length : Int) = size ∧
      labels.Sublist m.labels := by
  have hneed : size.toNat ≤ m.labels.length := by
    unfold labels
    rw [List.length_map]
    exact Int.toNat_le.2 hsize
  have hlength := Engine.length_sample hneed g
  refine ⟨(Engine.sample m.labels size.toNat g).1, (Engine.sample m.labels size.toNat g).2, ?_, ?_,
    Engine.sample_sublist _ _ g⟩
  · unfold randomVariables
    rw [if_neg (not_lt.2 hzero), if_neg (not_lt.2 hsize)]
  · rw [hlength, Int.toNat_of_nonneg hzero]

theorem randomVariables_of_neg (h : size < 0) (g : Engine) :
    m.randomVariables size g = .error .negativeSize := if_pos h

theorem randomVariables_of_size_lt (h : m.size < size) (g : Engine) :
    m.randomVariables size g = .error .oversized := by
  have hzero : ¬ size < 0 := by omega
  unfold randomVariables
  rw [if_neg hzero, if_pos h]

/-- Only a size out of range is refused. -/
theorem randomVariables_eq_error {g : Engine} {fault : Fault}
    (h : m.randomVariables size g = .error fault) :
    (size < 0 ∨ m.size < size) ∧ fault.kind = .invalidArgument := by
  rcases lt_or_ge size 0 with hneg | hzero
  · cases (randomVariables_of_neg hneg g).symm.trans h
    exact ⟨.inl hneg, rfl⟩
  · rcases lt_or_ge (m.size : Int) size with hlarge | hsize
    · cases (randomVariables_of_size_lt hlarge g).symm.trans h
      exact ⟨.inr hlarge, rfl⟩
    · obtain ⟨labels, g', hlabels, -, -⟩ := exists_randomVariables hzero hsize g
      cases hlabels.symm.trans h

end Model

end QuboSplit
