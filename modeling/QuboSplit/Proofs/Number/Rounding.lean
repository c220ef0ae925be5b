import Mathlib.Tactic
import QuboSplit.Number.Floating

/-!
# Rounding of magnitudes

A magnitude is exact in a format if it has no bits beyond the precision. Rounding yields exact
magnitudes (`exact_round`), keeps exact ones (`round_exact`), and does not pass an exact magnitude
that bounds its argument (`round_le`, `le_round`).
-/

namespace QuboSplit

theorem twoPow_eq (n : Nat) : twoPow n = 2 ^ n := rfl

theorem bitLength_le_iff {n b : Nat} : bitLength n ≤ b ↔ n < 2 ^ b := by
  unfold bitLength
  by_cases hn : n = 0
  · simp [hn]
  · rw [if_neg hn, Nat.succ_le_iff, Nat.log2_lt hn]

/-! ### Division to the nearest number -/

theorem divideHalfEven_le {n d k : Nat} (hd : 0 < d) (h : n ≤ k * d) : divideHalfEven n d ≤ k := by
  have hquotient : n / d ≤ k := Nat.div_le_of_le_mul (by rwa [Nat.mul_comm])
  have hsplit := Nat.div_add_mod n d
  unfold divideHalfEven
  split
  · next hup =>
    -- rounding up needs a remainder, which leaves room below `k`
    have hmod : 0 < n % d := by omega
    have hne : n / d ≠ k := by
      intro e
      rw [e, Nat.mul_comm] at hsplit
      omega
    omega
  · exact hquotient

theorem le_divideHalfEven {n d k : Nat} (hd : 0 < d) (h : k * d ≤ n) : k ≤ divideHalfEven n d := by
  have hquotient : k ≤ n / d := (Nat.le_div_iff_mul_le hd).2 h
  unfold divideHalfEven
  split <;> omega

theorem divideHalfEven_mul {d : Nat} (hd : 0 < d) (k : Nat) : divideHalfEven (k * d) d = k := by
  unfold divideHalfEven
  rw [Nat.mul_mod_left, Nat.mul_div_cancel k hd, if_neg (by omega)]

namespace Format

variable (f : Format)

/-! ### Exact magnitudes -/

/-- No bits beyond the precision. -/
def Exact (n : Nat) : Prop := n % twoPow (f.excess n) = 0

theorem fits_iff {n : Nat} : f.Fits n ↔ n < f.bound ∧ f.Exact n := Iff.rfl

theorem Fits.lt_bound {f : Format} {n : Nat} (h : f.Fits n) : n < f.bound := (f.fits_iff.1 h).1

theorem exact_mul_twoPow {q : Nat} (hq : q ≤ 2 ^ f.precision) (e : Nat) : f.Exact (q * 2 ^ e) := by
  have hp := f.precision_pos
  unfold Exact
  rw [twoPow_eq]
  apply Nat.mod_eq_zero_of_dvd
  rcases Nat.lt_or_eq_of_le hq with hlt | rfl
  · have hlength : bitLength (q * 2 ^ e) ≤ f.precision + e := by
      rw [bitLength_le_iff, pow_add]
      exact Nat.mul_lt_mul_of_pos_right hlt (Nat.two_pow_pos e)
    have hexcess : f.excess (q * 2 ^ e) ≤ e := by
      unfold excess
      omega
    exact (Nat.pow_dvd_pow 2 hexcess).trans (Nat.dvd_mul_left _ _)
  · rw [← pow_add]
    have hlength : bitLength (2 ^ (f.precision + e)) ≤ f.precision + e + 1 := by
      rw [bitLength_le_iff]
      exact Nat.pow_lt_pow_right (by omega) (by omega)
    apply Nat.pow_dvd_pow
    unfold excess
    omega

/-! ### Rounding -/

variable {f}

theorem lt_two_pow_excess (n : Nat) : n < 2 ^ (f.precision + f.excess n) := by
  rw [← bitLength_le_iff]
  unfold excess
  omega

/-- A rounded magnitude is exact. -/
theorem exact_round (n parts : Nat) : f.Exact (f.round n parts) := by
  unfold round
  dsimp only
  have hle : n ≤ 2 ^ f.precision * 2 ^ max (f.excess n) parts := by
    rw [← pow_add]
    have hmono : 2 ^ (f.precision + f.excess n) ≤ 2 ^ (f.precision + max (f.excess n) parts) :=
      Nat.pow_le_pow_right (by omega) (by omega)
    have := f.lt_two_pow_excess n
    omega
  exact f.exact_mul_twoPow (divideHalfEven_le (Nat.two_pow_pos _) hle) _

/-- A rounded magnitude fits unless it is too large. -/
theorem fits_round {n parts : Nat} (h : f.round n parts < f.bound) : f.Fits (f.round n parts) :=
  f.fits_iff.2 ⟨h, exact_round n parts⟩

theorem Exact.dvd {k t : Nat} (h : f.Exact k) (ht : t ≤ f.excess k) : 2 ^ t ∣ k :=
  (Nat.pow_dvd_pow 2 ht).trans (Nat.dvd_of_mod_eq_zero h)

theorem excess_mul_twoPow_le {k n parts : Nat} (h : n ≤ k * 2 ^ parts) :
    f.excess n ≤ f.excess k + parts := by
  have hlt : n < 2 ^ (bitLength k + parts) := by
    have hk : k < 2 ^ bitLength k := bitLength_le_iff.1 (Nat.le_refl _)
    rw [pow_add]
    exact Nat.lt_of_le_of_lt h (Nat.mul_lt_mul_of_pos_right hk (Nat.two_pow_pos parts))
  have := bitLength_le_iff.2 hlt
  unfold excess
  omega

theorem round_eq {n parts t : Nat} (ht : max (f.excess n) parts = parts + t) :
    f.round n parts = divideHalfEven n (2 ^ (parts + t)) * 2 ^ t := by
  unfold round
  dsimp only
  rw [ht, Nat.add_sub_cancel_left, twoPow_eq, twoPow_eq]

/-- Rounding stops at exact magnitudes. -/
theorem round_le {k n parts : Nat} (hk : f.Exact k) (h : n ≤ k * 2 ^ parts) :
    f.round n parts ≤ k := by
  obtain ⟨t, ht⟩ := Nat.exists_eq_add_of_le (Nat.le_max_right (f.excess n) parts)
  have hle : t ≤ f.excess k := by
    have := excess_mul_twoPow_le (f := f) h
    omega
  obtain ⟨j, hj⟩ := hk.dvd hle
  have hn : n ≤ j * 2 ^ (parts + t) := by
    calc n ≤ k * 2 ^ parts := h
      _ = j * 2 ^ (parts + t) := by rw [hj, pow_add]; ring
  have hquotient := divideHalfEven_le (Nat.two_pow_pos _) hn
  rw [round_eq ht]
  calc divideHalfEven n (2 ^ (parts + t)) * 2 ^ t ≤ j * 2 ^ t := Nat.mul_le_mul_right _ hquotient
    _ = k := by rw [hj, Nat.mul_comm]

theorem two_pow_le_of_excess {n e : Nat} (he : 0 < e) (h : f.excess n = e) :
    2 ^ (f.precision + e - 1) ≤ n := by
  by_contra hlt
  rw [Nat.not_le, ← bitLength_le_iff] at hlt
  unfold excess at h
  omega

/-- Rounding stops at exact magnitudes from above, too. -/
theorem le_round {k n parts : Nat} (hk : f.Exact k) (h : k * 2 ^ parts ≤ n) :
    k ≤ f.round n parts := by
  obtain ⟨t, ht⟩ := Nat.exists_eq_add_of_le (Nat.le_max_right (f.excess n) parts)
  have hd := Nat.two_pow_pos (parts + t)
  have hp := f.precision_pos
  rw [round_eq ht]
  by_cases hle : t ≤ f.excess k
  · obtain ⟨j, hj⟩ := hk.dvd hle
    have hn : j * 2 ^ (parts + t) ≤ n := by
      calc j * 2 ^ (parts + t) = k * 2 ^ parts := by rw [hj, pow_add]; ring
        _ ≤ n := h
    calc k = j * 2 ^ t := by rw [hj, Nat.mul_comm]
      _ ≤ _ := Nat.mul_le_mul_right _ (le_divideHalfEven hd hn)
  · -- fewer bits than `n` has: the quotient keeps all of the precision and is larger
    have hlow := two_pow_le_of_excess (f := f) (n := n) (e := parts + t) (by omega) (by omega)
    have hquotient : 2 ^ (f.precision - 1) * 2 ^ (parts + t) ≤ n := by
      rwa [← pow_add, show f.precision - 1 + (parts + t) = f.precision + (parts + t) - 1 by omega]
    have hsmall : k < 2 ^ (f.precision - 1 + t) := by
      have := f.lt_two_pow_excess k
      exact this.trans_le (Nat.pow_le_pow_right (by omega) (by omega))
    calc k ≤ 2 ^ (f.precision - 1) * 2 ^ t := by rw [← pow_add]; exact hsmall.le
      _ ≤ _ := Nat.mul_le_mul_right _ (le_divideHalfEven hd hquotient)

/-- Rounding keeps exact magnitudes. -/
theorem round_exact {k : Nat} (hk : f.Exact k) (parts : Nat) :
    f.round (k * 2 ^ parts) parts = k := by
  obtain ⟨t, ht⟩ := Nat.exists_eq_add_of_le (Nat.le_max_right (f.excess (k * 2 ^ parts)) parts)
  have hle : t ≤ f.excess k := by
    have := excess_mul_twoPow_le (f := f) (Nat.le_refl (k * 2 ^ parts))
    omega
  obtain ⟨j, hj⟩ := hk.dvd hle
  have hn : k * 2 ^ parts = j * 2 ^ (parts + t) := by rw [hj, pow_add]; ring
  rw [round_eq ht, hn, divideHalfEven_mul (Nat.two_pow_pos _), hj, Nat.mul_comm]

end Format

/-! ### Counts as numbers -/

namespace Floating

variable {f : Format}

theorem ofMagnitude_of_lt {negative : Bool} {n parts : Nat} (h : f.round n parts < f.bound) :
    (ofMagnitude negative n parts : Floating f) =
      .finite negative (f.round n parts) (Format.fits_round h) := by
  unfold ofMagnitude
  exact dif_pos (Format.fits_round h)

/-- The steps of the number nearest to `n`. -/
def stepsOf (f : Format) (n : Nat) : Nat := f.round (n * 2 ^ f.fraction) 0

theorem stepsOf_eq {n : Nat} (hn : n ≤ 2 ^ f.precision) : stepsOf f n = n * 2 ^ f.fraction := by
  have := Format.round_exact (f.exact_mul_twoPow hn f.fraction) 0
  rwa [pow_zero, mul_one] at this

theorem ofInt_natCast_eq (n : Nat) :
    (ofInt n : Floating f) = ofMagnitude false (n * 2 ^ f.fraction) 0 := by
  unfold ofInt
  rw [Int.natAbs_natCast, decide_eq_false (by omega)]
  rfl

/-- A count below half of the range is a finite number. -/
theorem ofInt_natCast {n b : Nat} (hn : n ≤ 2 ^ b) (hb : b < f.limit) :
    ∃ fits, (ofInt n : Floating f) = .finite false (stepsOf f n) fits := by
  have hexact : f.Exact (2 ^ (b + f.fraction)) := by
    have := f.exact_mul_twoPow Nat.one_le_two_pow (b + f.fraction)
    rwa [one_mul] at this
  have hle : stepsOf f n ≤ 2 ^ (b + f.fraction) := by
    refine Format.round_le hexact ?_
    rw [pow_zero, mul_one, pow_add]
    exact Nat.mul_le_mul_right _ hn
  have hlt : stepsOf f n < f.bound := by
    have : 2 ^ (b + f.fraction) < f.bound := Nat.pow_lt_pow_right (by omega) (by omega)
    omega
  exact ⟨Format.fits_round hlt, (ofInt_natCast_eq n).trans (ofMagnitude_of_lt hlt)⟩

/-! ### Comparisons -/

/-- Less or equal. -/
def atMost (x y : Floating f) : Bool := x.less y || x.equal y

theorem atMost_finite {a b : Bool} {m n : Nat} (hm : f.Fits m) (hn : f.Fits n) :
    atMost (.finite a m hm) (.finite b n hn) = true ↔ signed a m ≤ signed b n := by
  show (decide (signed a m < signed b n) || signed a m == signed b n) = true ↔ _
  rw [Bool.or_eq_true, decide_eq_true_eq, beq_iff_eq]
  omega

theorem signed_le (a : Bool) (m : Nat) : signed a m ≤ m := by
  cases a <;> simp [signed]

/-- Counts within the precision compare as they are. -/
theorem atMost_ofInt_iff {b m n : Nat} (hb : b < f.limit) (hm : m ≤ 2 ^ b) (hn : n ≤ 2 ^ b)
    (hm' : m ≤ 2 ^ f.precision) (hn' : n ≤ 2 ^ f.precision) :
    atMost (ofInt m : Floating f) (ofInt n) = true ↔ m ≤ n := by
  obtain ⟨fits, e⟩ := ofInt_natCast hm hb
  obtain ⟨fits', e'⟩ := ofInt_natCast hn hb
  rw [e, e', atMost_finite, stepsOf_eq hm', stepsOf_eq hn']
  show ((m * 2 ^ f.fraction : Nat) : Int) ≤ ((n * 2 ^ f.fraction : Nat) : Int) ↔ m ≤ n
  rw [Int.ofNat_le]
  exact Nat.mul_le_mul_right_iff (Nat.two_pow_pos _)

/-- A finite number compares with a count by steps, even with one that is rounded to infinity. -/
theorem finite_atMost_ofInt_iff {a : Bool} {m : Nat} (fits : f.Fits m) (k : Nat) :
    atMost (.finite a m fits : Floating f) (ofInt k) = true ↔ signed a m ≤ stepsOf f k := by
  by_cases hbound : stepsOf f k < f.bound
  · rw [ofInt_natCast_eq, ofMagnitude_of_lt hbound, atMost_finite]
    rfl
  · have hlarge : (ofInt k : Floating f) = .infinite false :=
      (ofInt_natCast_eq k).trans (dif_neg fun e => hbound e.lt_bound)
    have := signed_le a m
    have := fits.lt_bound
    rw [hlarge]
    exact iff_of_true rfl (by omega)

/-- The rational number that a finite number is. -/
def value? : Floating f → Option Rat
  | .finite a m _ => some (signed a m / 2 ^ f.fraction)
  | _ => none

/-- A count that is rounded to less than a number is less than it. -/
theorem lt_of_not_atMost {x : Floating f} {k : Nat} {b : Rat}
    (h : atMost x (ofInt k) = false) (hx : x.value? = some b) : k < b := by
  cases x with
  | nan => cases hx
  | infinite => cases hx
  | finite a m fits =>
    obtain rfl : (signed a m / 2 ^ f.fraction : Rat) = b := Option.some.inj hx
    rw [← Bool.not_eq_true, finite_atMost_ofInt_iff, Int.not_le] at h
    have hm := signed_le a m
    -- rounding a larger count would have stopped at `m`
    have hlt : k * 2 ^ f.fraction < m := by
      by_contra hle
      have hround : m ≤ stepsOf f k :=
        Format.le_round (f.fits_iff.1 fits).2 (by omega : m * 2 ^ 0 ≤ k * 2 ^ f.fraction)
      omega
    have hsigned : signed a m = m := by
      cases a with
      | false => rfl
      | true =>
        have : signed true m = -(m : Int) := rfl
        omega
    rw [hsigned, lt_div_iff₀ (by positivity)]
    exact_mod_cast hlt

/-! ### Shares of a count -/

/-- A number between zero and one is finite, of no more steps than one has. -/
theorem exists_of_unit {x : Floating f} (hlimit : 0 < f.limit)
    (hlow : atMost (ofInt 0) x = true) (hhigh : atMost x (ofInt 1) = true) :
    ∃ a m fits, x = .finite a m fits ∧ m ≤ 2 ^ f.fraction := by
  obtain ⟨fits₀, e₀⟩ := ofInt_natCast (f := f) (n := 0) (b := 0) (by simp) hlimit
  obtain ⟨fits₁, e₁⟩ := ofInt_natCast (f := f) (n := 1) (b := 0) (by simp) hlimit
  have hone : stepsOf f 1 = 2 ^ f.fraction := by
    rw [stepsOf_eq Nat.one_le_two_pow, one_mul]
  rw [show ((0 : Nat) : Int) = 0 from rfl] at e₀
  rw [show ((1 : Nat) : Int) = 1 from rfl] at e₁
  rw [e₀] at hlow
  rw [e₁] at hhigh
  cases x with
  | nan => cases hlow
  | infinite negative => cases negative <;> simp [atMost, less, equal] at hlow hhigh
  | finite a m fits =>
    refine ⟨a, m, fits, rfl, ?_⟩
    rw [atMost_finite] at hlow hhigh
    rw [hone] at hhigh
    cases a with
    | false =>
      have hhigh : (m : Int) ≤ ((2 ^ f.fraction : Nat) : Int) := hhigh
      exact Int.ofNat_le.1 hhigh
    | true =>
      have hlow : (0 : Int) ≤ -(m : Int) := le_trans (by simp [signed]) hlow
      omega

/-- A share of a count, rounded, is at most the count. -/
theorem atMost_mul_ofInt {x : Floating f} {n b : Nat} (hn : n ≤ 2 ^ b) (hb : b < f.limit)
    (hlow : atMost (ofInt 0) x = true) (hhigh : atMost x (ofInt 1) = true) :
    atMost (x * ofInt n) (ofInt n) = true := by
  obtain ⟨a, m, fits, rfl, hm⟩ := exists_of_unit (by omega) hlow hhigh
  obtain ⟨fits', e⟩ := ofInt_natCast hn hb
  have hround : f.round (m * stepsOf f n) f.fraction ≤ stepsOf f n := by
    refine Format.round_le (Format.exact_round _ _) ?_
    rw [Nat.mul_comm]
    exact Nat.mul_le_mul_left _ hm
  have hproduct : (Floating.finite a m fits * ofInt n : Floating f) =
      ofMagnitude (a != false) (m * stepsOf f n) f.fraction := by
    rw [e]
    rfl
  rw [hproduct, ofMagnitude_of_lt (Nat.lt_of_le_of_lt hround fits'.lt_bound), e, atMost_finite]
  have := signed_le (a != false) (f.round (m * stepsOf f n) f.fraction)
  show _ ≤ ((stepsOf f n : Nat) : Int)
  omega

/-- The whole of a count is the count. -/
theorem ofInt_one_mul {n b : Nat} (hn : n ≤ 2 ^ b) (hb : b < f.limit) :
    (ofInt 1 * ofInt n : Floating f) = ofInt n := by
  obtain ⟨fits₁, e₁⟩ := ofInt_natCast (f := f) (n := 1) (b := 0) (by simp) (by omega)
  obtain ⟨fits, e⟩ := ofInt_natCast hn hb
  have hround : f.round (stepsOf f 1 * stepsOf f n) f.fraction = stepsOf f n := by
    rw [stepsOf_eq Nat.one_le_two_pow, one_mul, Nat.mul_comm]
    exact Format.round_exact (Format.exact_round _ _) _
  have hlt : f.round (stepsOf f 1 * stepsOf f n) f.fraction < f.bound := by
    rw [hround]
    exact fits.lt_bound
  rw [show (1 : Int) = ((1 : Nat) : Int) from rfl, e₁, e]
  show ofMagnitude (false != false) (stepsOf f 1 * stepsOf f n) f.fraction = _
  rw [ofMagnitude_of_lt hlt]
  simp only [hround]
  rfl

end Floating

end QuboSplit
