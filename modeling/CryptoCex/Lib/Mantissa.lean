import Mathlib.Algebra.Order.Group.Int
import Mathlib.Data.Int.Order.Basic
import Mathlib.Data.Sign.Basic
import Mathlib.Tactic.Positivity
import Mathlib.Tactic.Ring

/-!
# Numbers with a bounded mantissa

A number of units is stored as a mantissa up to a limit and a power of ten. A result whose
mantissa would be too large loses its last places: it is rounded, half to even, at the first power
at which it fits. What can be stored is not changed (`fit_eq_self`), and nothing is rounded below a
number that can be stored (`le_fit`).
-/

namespace Mantissa

/-- `n / d` to the nearest whole number, and to the even one of two. -/
def divEven (n d : ℕ) : ℕ :=
  if 2 * (n % d) < d then n / d
  else if d < 2 * (n % d) then n / d + 1
  else n / d + n / d % 2

/-- How many of the last places a number loses. -/
def dropped (limit : ℕ) : ℕ → ℕ → ℕ
  | 0, _ => 0
  | places + 1, n => if n ≤ limit then 0 else dropped limit places (n / 10) + 1

/-- The number that is stored for `n`. A mantissa that is rounded up beyond the limit loses
another place. -/
def fit (limit places n : ℕ) : ℕ :=
  let d := 10 ^ dropped limit places n
  if divEven n d ≤ limit then divEven n d * d else divEven n (10 * d) * (10 * d)

/-- The number that is stored for `x`: sign and magnitude. -/
def fitInt (limit places : ℕ) (x : ℤ) : ℤ := x.sign * fit limit places x.natAbs

/-- A mantissa within the limit, and one of the powers there are. -/
def Storable (limit places n : ℕ) : Prop := ∃ m k, m ≤ limit ∧ k ≤ places ∧ n = m * 10 ^ k

variable {limit places n a d k : ℕ}

/-! ## Division -/

theorem div_le_divEven (n d : ℕ) : n / d ≤ divEven n d := by
  unfold divEven
  split_ifs
  · exact le_rfl
  · exact Nat.le_succ _
  · exact Nat.le_add_right _ _

/-- Dividing exactly needs no rounding. -/
theorem divEven_of_dvd (hd : 0 < d) (h : d ∣ n) : divEven n d = n / d := by
  rw [divEven, Nat.mod_eq_zero_of_dvd h, if_pos (by omega)]

/-- Rounding does not go below a multiple of the divisor. -/
theorem le_divEven_mul (hd : d ∣ a) (h : a ≤ n) : a ≤ divEven n d * d := by
  obtain ⟨q, rfl⟩ := hd
  rcases Nat.eq_zero_or_pos d with rfl | hpos
  · simp
  have hq : q ≤ n / d := (Nat.le_div_iff_mul_le hpos).mpr (by rwa [mul_comm])
  rw [mul_comm d q]
  exact Nat.mul_le_mul_right d (hq.trans (div_le_divEven n d))

/-- Beyond the middle the next number is nearer. -/
theorem lt_divEven {q : ℕ} (hd : 0 < d) (h : (2 * q + 1) * d < 2 * n) : q < divEven n d := by
  have hsplit := Nat.div_add_mod n d
  rcases lt_trichotomy (n / d) q with hlt | rfl | hgt
  · exfalso
    have hnext : n < d * q := by
      rw [mul_comm]
      exact (Nat.div_lt_iff_lt_mul hd).mp hlt
    have : (2 * q + 1) * d = 2 * (d * q) + d := by ring
    omega
  · have hmore : d < 2 * (n % d) := by
      have : (2 * (n / d) + 1) * d = 2 * (d * (n / d)) + d := by ring
      omega
    rw [divEven, if_neg (by omega), if_pos hmore]
    exact Nat.lt_succ_self _
  · exact hgt.trans_le (div_le_divEven n d)

/-- Nothing before the middle is rounded up. -/
theorem le_of_lt_divEven {q : ℕ} (h : q < divEven n d) : (2 * q + 1) * d ≤ 2 * n := by
  have hsplit := Nat.div_add_mod n d
  have hexpand : (2 * q + 1) * d = 2 * (d * q) + d := by ring
  -- the quotient was above already, or it was rounded up from the middle
  rcases Nat.lt_or_ge q (n / d) with hlt | hge
  · have hnext : d * (q + 1) ≤ d * (n / d) := Nat.mul_le_mul_left d hlt
    rw [Nat.mul_succ] at hnext
    omega
  · have hhalf : d ≤ 2 * (n % d) := by
      by_contra hless
      rw [divEven, if_pos (not_le.mp hless)] at h
      omega
    have hq : d * q ≤ d * (n / d) := by
      refine Nat.mul_le_mul_left d ?_
      unfold divEven at h
      split_ifs at h
      · omega
      · omega
      · have := Nat.mod_lt (n / d) (show 0 < 2 by omega)
        omega
    omega

/-- Beyond a limit that ends in five or more, rounding at the next place goes up. -/
theorem limit_mul_le (hlimit : 5 ≤ limit % 10) (h : (2 * limit + 1) * d ≤ 2 * n) :
    limit * d ≤ divEven n (10 * d) * (10 * d) := by
  rcases Nat.eq_zero_or_pos d with rfl | hpos
  · simp
  have hup : limit / 10 < divEven n (10 * d) := by
    refine lt_divEven (by omega) (lt_of_lt_of_le ?_ h)
    rw [← mul_assoc]
    exact Nat.mul_lt_mul_of_pos_right (by omega) hpos
  calc limit * d ≤ (limit / 10 + 1) * 10 * d := Nat.mul_le_mul_right d (by omega)
    _ = (limit / 10 + 1) * (10 * d) := mul_assoc _ _ _
    _ ≤ divEven n (10 * d) * (10 * d) := Nat.mul_le_mul_right _ hup

/-! ## The places that are lost -/

/-- No more places are dropped than there are. -/
theorem dropped_le (n : ℕ) : dropped limit places n ≤ places := by
  induction places generalizing n with
  | zero => exact le_rfl
  | succ places ih =>
    unfold dropped
    split_ifs
    · exact Nat.zero_le _
    · exact Nat.succ_le_succ (ih _)

/-- A place is lost only where the mantissa is too large. -/
theorem limit_lt_of_lt_dropped (h : k < dropped limit places n) : limit < n / 10 ^ k := by
  induction places generalizing n k with
  | zero => exact absurd h (Nat.not_lt_zero k)
  | succ places ih =>
    unfold dropped at h
    split_ifs at h with hfits
    · exact absurd h (Nat.not_lt_zero k)
    · cases k with
      | zero => simpa using hfits
      | succ k =>
        rw [pow_succ', ← Nat.div_div_eq_div_mul]
        exact ih (Nat.lt_of_succ_lt_succ h)

/-- The mantissa fits, unless there are no more places to lose. -/
theorem dropped_fits (h : dropped limit places n < places) :
    n / 10 ^ dropped limit places n ≤ limit := by
  induction places generalizing n with
  | zero => exact absurd h (Nat.not_lt_zero _)
  | succ places ih =>
    unfold dropped at h ⊢
    split_ifs at h ⊢ with hfits
    · simpa using hfits
    · rw [pow_succ', ← Nat.div_div_eq_div_mul]
      exact ih (Nat.lt_of_succ_lt_succ h)

/-! ## Storing -/

/-- What can be stored is stored as it is. -/
theorem fit_eq_self (h : Storable limit places n) : fit limit places n = n := by
  obtain ⟨m, k, hm, hk, hn⟩ := h
  have hquot : n / 10 ^ k = m := by
    rw [hn, Nat.mul_div_cancel _ (by positivity)]
  -- no more places are dropped than the stored form has zeros
  have hle : dropped limit places n ≤ k := by
    by_contra hlt
    have := limit_lt_of_lt_dropped (not_le.mp hlt)
    omega
  have hdvd : 10 ^ dropped limit places n ∣ n :=
    (pow_dvd_pow 10 hle).trans ⟨m, by rw [mul_comm]; exact hn⟩
  have hfits : n / 10 ^ dropped limit places n ≤ limit := by
    have hmost : dropped limit places n ≤ places := dropped_le n
    rcases Nat.lt_or_ge (dropped limit places n) places with hlt | hge
    · exact dropped_fits hlt
    · have hsame : dropped limit places n = k := by omega
      rw [hsame, hquot]
      exact hm
  have hexact := divEven_of_dvd (by positivity) hdvd
  rw [fit, hexact, if_pos hfits, Nat.div_mul_cancel hdvd]

/-- Rounding does not go below a number that can be stored. -/
theorem le_fit (hlimit : 5 ≤ limit % 10) (ha : Storable limit places a) (h : a ≤ n) :
    a ≤ fit limit places n := by
  obtain ⟨m, k, hm, _, rfl⟩ := ha
  -- what is stored is at least a full mantissa at every power that was passed
  have hpassed : ∀ i, (2 * limit + 1) * 10 ^ i ≤ 2 * n → k ≤ i →
      m * 10 ^ k ≤ divEven n (10 * 10 ^ i) * (10 * 10 ^ i) := by
    intro i hi hki
    have hpow : 10 ^ k ≤ 10 ^ i := Nat.pow_le_pow_right (by omega) hki
    exact (Nat.mul_le_mul hm hpow).trans (limit_mul_le hlimit hi)
  have hdvd : ∀ i ≤ k, 10 ^ i ∣ m * 10 ^ k := fun i hi =>
    Dvd.dvd.mul_left (pow_dvd_pow 10 hi) m
  unfold fit
  dsimp only
  split_ifs with hfits
  · rcases Nat.lt_or_ge k (dropped limit places n) with hlt | hge
    · obtain ⟨i, hi⟩ : ∃ i, dropped limit places n = i + 1 :=
        Nat.exists_eq_succ_of_ne_zero (by omega)
      have hlost : i < dropped limit places n := by omega
      have hbeyond : limit < n / 10 ^ i := limit_lt_of_lt_dropped hlost
      have hpos : 0 < 10 ^ i := by positivity
      have hlow : (limit + 1) * 10 ^ i ≤ n := (Nat.le_div_iff_mul_le hpos).mp hbeyond
      rw [hi, pow_succ']
      refine hpassed i ?_ (by omega)
      calc (2 * limit + 1) * 10 ^ i ≤ 2 * ((limit + 1) * 10 ^ i) := by
            rw [← mul_assoc]
            exact Nat.mul_le_mul_right _ (by omega)
        _ ≤ 2 * n := Nat.mul_le_mul_left 2 hlow
    · exact le_divEven_mul (hdvd _ hge) h
  · rcases Nat.lt_or_ge (dropped limit places n) k with hlt | hge
    · rw [← pow_succ']
      exact le_divEven_mul (hdvd _ hlt) h
    · exact hpassed _ (le_of_lt_divEven (not_le.mp hfits)) hge

/-! ## Signed numbers -/

theorem fitInt_eq_self {x : ℤ} (h : Storable limit places x.natAbs) :
    fitInt limit places x = x := by
  rw [fitInt, fit_eq_self h, Int.sign_mul_natAbs]

/-- The same for integers, at or above a storable one that is not negative. -/
theorem le_fitInt (hlimit : 5 ≤ limit % 10) {m x : ℤ} (hm : 0 ≤ m)
    (hstore : Storable limit places m.natAbs) (h : m ≤ x) : m ≤ fitInt limit places x := by
  have hle := le_fit hlimit hstore (show m.natAbs ≤ x.natAbs by omega)
  rcases lt_or_eq_of_le (hm.trans h) with hpos | hzero
  · rw [fitInt, Int.sign_eq_one_of_pos hpos]
    omega
  · rw [← hzero, fitInt, Int.sign_zero]
    omega

end Mantissa
