import Mathlib.Tactic
import QuboSplit.Number.Scalar
import QuboSplit.Proofs.Number.Rounding

/-!
# Numerical equality

Numerical equality is symmetric and transitive (`LawfulEqual`), and finite maps are compared by it
key by key (`equals_iff_of_keys`). Equal floating-point numbers differ in the sign of a zero at most
(`Same`), and arithmetic keeps it so: sums, products and conversions of such numbers are the same up
to the sign of a zero again, and no comparison tells them apart. A zero adds nothing but such a sign
(`Same.add_zero`).
-/

namespace QuboSplit

/-- Numerical equality is symmetric and transitive. It need not be reflexive. -/
class Scalar.LawfulEqual (α : Type) [Scalar α] : Prop where
  symm : ∀ {x y : α}, equal x y = true → equal y x = true
  trans : ∀ {x y z : α}, equal x y = true → equal y z = true → equal x z = true

namespace Scalar

variable {α : Type} [Scalar α]

/-- Both numbers are missing, or both are there and numerically equal. -/
abbrev Equals : Option α → Option α → Prop := Option.Rel fun x y => equal x y = true

theorem Equals.symm [LawfulEqual α] {a b : Option α} (h : Equals a b) : Equals b a := by
  cases h with
  | none => exact .none
  | some h => exact .some (LawfulEqual.symm h)

theorem Equals.trans [LawfulEqual α] {a b c : Option α} (h : Equals a b) (h' : Equals b c) :
    Equals a c := by
  cases h with
  | none => exact h'
  | some h =>
    cases h' with
    | some h' => exact .some (LawfulEqual.trans h h')

theorem Equals.eq_none_iff {a b : Option α} (h : Equals a b) : a = none ↔ b = none := by
  cases h <;> simp

theorem Equals.exists_of_eq_some {a b : Option α} {x : α} (h : Equals a b) (ha : a = some x) :
    ∃ y, b = some y ∧ equal x y = true := by
  subst ha
  cases h with
  | some h => exact ⟨_, rfl, h⟩

/-- Finite maps have equal values exactly if they have equally many keys and the second has an equal
value at every key of the first. -/
theorem equals_iff_of_keys {κ : Type} {f g : κ → Option α} {keys keys' : List κ}
    (hnodup : keys.Nodup) (hnodup' : keys'.Nodup) (hkeys : ∀ k, k ∈ keys ↔ f k ≠ none)
    (hkeys' : ∀ k, k ∈ keys' ↔ g k ≠ none) :
    (keys.length = keys'.length ∧
        ∀ k x, f k = some x → ∃ y, g k = some y ∧ equal x y = true) ↔
      ∀ k, Equals (f k) (g k) := by
  constructor
  · rintro ⟨hlength, hequal⟩ k
    -- all keys of `f` are keys of `g`, and there are equally many
    have hsub : keys ⊆ keys' := by
      intro k hk
      obtain ⟨x, hx⟩ := Option.ne_none_iff_exists'.1 ((hkeys k).1 hk)
      obtain ⟨y, hy, -⟩ := hequal k x hx
      rw [hkeys', hy]
      exact Option.some_ne_none y
    have hperm := (List.subperm_of_subset hnodup hsub).perm_of_length_le hlength.ge
    cases hx : f k with
    | some x =>
      obtain ⟨y, hy, hxy⟩ := hequal k x hx
      rw [hy]
      exact .some hxy
    | none =>
      have hnot : k ∉ keys' := fun hk => (hkeys k).1 (hperm.mem_iff.2 hk) hx
      rw [hkeys', not_not] at hnot
      rw [hnot]
      exact .none
  · intro h
    refine ⟨List.Perm.length_eq ?_, fun k x hx => (h k).exists_of_eq_some hx⟩
    refine (List.perm_ext_iff_of_nodup hnodup hnodup').2 fun k => ?_
    rw [hkeys, hkeys', Ne, Ne, (h k).eq_none_iff]

end Scalar

theorem Scalar.equal_rat_iff {x y : Rat} : Scalar.equal x y = true ↔ x = y := decide_eq_true_iff

theorem Scalar.equals_rat_iff {a b : Option Rat} : Scalar.Equals a b ↔ a = b := by
  constructor
  · rintro (⟨h⟩ | _)
    · rw [Scalar.equal_rat_iff.1 h]
    · rfl
  · rintro rfl
    cases a with
    | none => exact .none
    | some x => exact .some (Scalar.equal_rat_iff.2 rfl)

instance : Scalar.LawfulEqual Rat where
  symm h := Scalar.equal_rat_iff.2 (Scalar.equal_rat_iff.1 h).symm
  trans h h' :=
    Scalar.equal_rat_iff.2 ((Scalar.equal_rat_iff.1 h).trans (Scalar.equal_rat_iff.1 h'))

namespace Floating

variable {f : Format}

theorem equal_symm {x y : Floating f} (h : x.equal y = true) : y.equal x = true := by
  cases x <;> cases y <;> simp_all [equal]

theorem equal_trans {x y z : Floating f} (h : x.equal y = true) (h' : y.equal z = true) :
    x.equal z = true := by
  cases x <;> cases y <;> cases z <;> simp_all [equal]

/-! ### Up to the sign of a zero -/

@[simp] theorem signed_zero (negative : Bool) : signed negative 0 = 0 := by cases negative <;> rfl

/-- Signed magnitudes are equal if they are zero, or have one sign and one magnitude. -/
theorem signed_eq_iff {a b : Bool} {m n : Nat} :
    signed a m = signed b n ↔ m = n ∧ (m ≠ 0 → a = b) := by
  unfold signed
  cases a <;> cases b <;> simp <;> omega

/-- The same number up to the sign of a zero. -/
inductive Same : Floating f → Floating f → Prop
  | nan : Same .nan .nan
  | infinite (negative : Bool) : Same (.infinite negative) (.infinite negative)
  | finite {a b : Bool} {m n : Nat} {fits : f.Fits m} {fits' : f.Fits n}
      (h : signed a m = signed b n) : Same (.finite a m fits) (.finite b n fits')

variable {x y u v : Floating f}

theorem Same.refl : (x : Floating f) → Same x x
  | .nan => .nan
  | .infinite negative => .infinite negative
  | .finite .. => .finite rfl

theorem Same.symm (h : Same x y) : Same y x := by
  cases h with
  | nan => exact .nan
  | infinite => exact .infinite _
  | finite h => exact .finite h.symm

theorem Same.trans {z : Floating f} (h : Same x y) (h' : Same y z) : Same x z := by
  cases h with
  | nan => exact h'
  | infinite => exact h'
  | finite h =>
    cases h' with
    | finite h' => exact .finite (h.trans h')

theorem Same.of_equal (h : x.equal y = true) : Same x y := by
  cases x <;> cases y <;> simp [equal] at h
  · subst h
    exact .infinite _
  · exact .finite h

/-- Only `nan` is not equal to itself. -/
theorem Same.equal (h : Same x y) (hy : y ≠ .nan) : x.equal y = true := by
  cases h with
  | nan => exact absurd rfl hy
  | infinite negative => simp [Floating.equal]
  | finite h => simpa [Floating.equal] using h

theorem equal_iff_same (hy : y ≠ .nan) : x.equal y = true ↔ Same x y :=
  ⟨.of_equal, fun h => h.equal hy⟩

/-! ### Comparisons -/

theorem Same.less_eq (h : Same x y) (h' : Same u v) : x.less u = y.less v := by
  cases h <;> cases h' <;> simp_all [less]

theorem Same.aboveLeast_eq {x y : Binary64} (h : Same x y) : x.aboveLeast = y.aboveLeast := by
  cases h <;> rfl

/-! ### Arithmetic -/

/-- The sign of a magnitude matters unless that is zero. -/
theorem Same.ofMagnitude {a b : Bool} {n : Nat} (h : n ≠ 0 → a = b) (parts : Nat) :
    Same (ofMagnitude a n parts : Floating f) (ofMagnitude b n parts) := by
  by_cases hn : n = 0
  · subst hn
    have hround : f.round 0 parts = 0 := by simp [Format.round, divideHalfEven]
    unfold Floating.ofMagnitude
    dsimp only
    split
    · refine .finite ?_
      rw [hround, signed_zero, signed_zero]
    · next hnot =>
      rw [hround] at hnot
      exact absurd ⟨Nat.two_pow_pos _, Nat.zero_mod _⟩ hnot
  · rw [h hn]
    exact .refl _

theorem Same.neg (h : Same x y) : Same (-x) (-y) := by
  cases h with
  | nan => exact .nan
  | infinite => exact .infinite _
  | finite h =>
    obtain ⟨rfl, hsign⟩ := signed_eq_iff.1 h
    exact .finite (signed_eq_iff.2 ⟨rfl, fun hm => congrArg _ (hsign hm)⟩)

/-- The signs of the summands matter only where the sum is zero. -/
theorem Same.add (h : Same x y) (h' : Same u v) : Same (x + u) (y + v) := by
  cases h with
  | nan => exact .nan
  | infinite a =>
    cases h' with
    | finite => exact .infinite a
    | _ => exact .refl _
  | finite h =>
    cases h' with
    | nan => exact .nan
    | infinite b => exact .infinite b
    | @finite c d k l _ _ h' =>
      show Same (Floating.ofMagnitude _ (signed _ _ + signed _ _).natAbs 0)
        (Floating.ofMagnitude _ (signed _ _ + signed _ _).natAbs 0)
      rw [h, h']
      refine .ofMagnitude (fun hne => ?_) 0
      rw [Int.natAbs_ne_zero] at hne
      rw [if_neg hne, if_neg hne]

theorem Same.sub (h : Same x y) (h' : Same u v) : Same (x - u) (y - v) := h.add h'.neg

theorem ofInt_zero : ∃ fits, (ofInt 0 : Floating f) = .finite false 0 fits := by
  have hround : f.round 0 0 = 0 := by simp [Format.round, divideHalfEven]
  have hfits : f.Fits 0 := ⟨Nat.two_pow_pos _, Nat.zero_mod _⟩
  have hlt : f.round 0 0 < f.bound := by
    rw [hround]
    exact hfits.lt_bound
  refine ⟨hfits, ?_⟩
  unfold ofInt
  rw [Int.natAbs_zero, Nat.zero_mul, Floating.ofMagnitude_of_lt hlt]
  simp only [hround]
  rfl

/-- A magnitude of the format is not rounded. -/
theorem ofMagnitude_of_fits {n : Nat} (h : f.Fits n) (negative : Bool) :
    (ofMagnitude negative n 0 : Floating f) = .finite negative n h := by
  have hround : f.round n 0 = n := by
    have := Format.round_exact (f.fits_iff.1 h).2 0
    rwa [pow_zero, Nat.mul_one] at this
  rw [Floating.ofMagnitude_of_lt (hround.symm ▸ h.lt_bound)]
  simp only [hround]

theorem Same.add_zero (x : Floating f) : Same (x + ofInt 0) x := by
  obtain ⟨fits₀, hzero⟩ := ofInt_zero (f := f)
  rw [hzero]
  cases x with
  | nan => exact .nan
  | infinite negative => exact .infinite negative
  | finite a m fits =>
    have habs : (signed a m + signed false 0).natAbs = m := by
      cases a <;> simp [signed]
    show Same (Floating.ofMagnitude _ (signed a m + signed false 0).natAbs 0) _
    rw [habs, ofMagnitude_of_fits fits]
    refine .finite (signed_eq_iff.2 ⟨rfl, fun hm => ?_⟩)
    cases a <;> simp [signed, hm]
    omega

theorem Same.foldl_zeros {terms : List (Floating f)} (h : ∀ t ∈ terms, t = ofInt 0)
    (x : Floating f) : Same (terms.foldl (· + ·) x) x := by
  induction terms generalizing x with
  | nil => exact .refl x
  | cons t terms ih =>
    obtain ⟨rfl, hterms⟩ := List.forall_mem_cons.1 h
    exact (ih hterms (x + ofInt 0)).trans (.add_zero x)

protected theorem add_comm (x y : Floating f) : x + y = y + x := by
  show x.add y = y.add x
  cases x with
  | nan => cases y <;> rfl
  | infinite a =>
    cases y with
    | infinite b => cases a <;> cases b <;> rfl
    | _ => rfl
  | finite a m _ =>
    cases y with
    | finite b n _ =>
      unfold add
      dsimp only
      rw [Int.add_comm, Bool.and_comm]
    | _ => rfl

theorem Same.zero_add (x : Floating f) : Same (ofInt 0 + x) x :=
  Floating.add_comm x (ofInt 0) ▸ .add_zero x

theorem Same.mul (h : Same x y) (h' : Same u v) : Same (x * u) (y * v) := by
  cases h with
  | nan => exact .nan
  | infinite a =>
    cases h' with
    | @finite c d k _ _ _ h' =>
      obtain ⟨rfl, hsign⟩ := signed_eq_iff.1 h'
      show Same (if k = 0 then .nan else .infinite (a != c))
        (if k = 0 then .nan else .infinite (a != d))
      by_cases hk : k = 0
      · rw [if_pos hk, if_pos hk]
        exact .nan
      · rw [hsign hk]
        exact .refl _
    | _ => exact .refl _
  | @finite a b m _ _ _ h =>
    obtain ⟨rfl, hsign⟩ := signed_eq_iff.1 h
    cases h' with
    | nan => exact .nan
    | infinite c =>
      show Same (if m = 0 then .nan else .infinite (a != c))
        (if m = 0 then .nan else .infinite (b != c))
      by_cases hm : m = 0
      · rw [if_pos hm, if_pos hm]
        exact .nan
      · rw [hsign hm]
        exact .refl _
    | finite h' =>
      obtain ⟨rfl, hsign'⟩ := signed_eq_iff.1 h'
      refine .ofMagnitude (fun hne => ?_) _
      rw [hsign (left_ne_zero_of_mul hne), hsign' (right_ne_zero_of_mul hne)]

theorem Same.half (h : Same x y) : Same x.half y.half := by
  cases h with
  | nan => exact .nan
  | infinite => exact .infinite _
  | finite h =>
    obtain ⟨rfl, hsign⟩ := signed_eq_iff.1 h
    exact .ofMagnitude hsign 1

theorem Same.convert (h : Same x y) (g : Format) : Same (x.convert g) (y.convert g) := by
  cases h with
  | nan => exact .nan
  | infinite => exact .infinite _
  | finite h =>
    obtain ⟨rfl, hsign⟩ := signed_eq_iff.1 h
    exact .ofMagnitude (fun hne => hsign (left_ne_zero_of_mul hne)) _

end Floating

instance : Scalar.LawfulEqual Binary64 where
  symm := Floating.equal_symm
  trans := Floating.equal_trans

end QuboSplit
