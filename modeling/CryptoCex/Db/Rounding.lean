import CryptoCex.Db.Tables
import Mathlib.Algebra.Order.Round
import Mathlib.Tactic.FieldSimp
import Mathlib.Tactic.Linarith
import Mathlib.Tactic.NormNum
import Mathlib.Tactic.Ring

/-!
# Rounded balances

A statement that adds `y` to a stored balance changes it by `y` rounded to 18 places
(`shift y`). To subtract `y` is to add `-y`, and the two roundings differ: on a tie the column
rounds away from zero, so it keeps more than it should each time. What is moved by `y` and back
again comes out as it was, except after a tie, when both amounts have grown by one unit in the
last place (`shift_add_shift_neg`).
-/

namespace CryptoCex.Db

open CryptoCex.Core (Uuid)

/-- A value of a `NUMERIC(38, 18)` column with the check `x >= 0`. -/
def Stored (x : ℚ) : Prop := 0 ≤ x ∧ numeric x = some x

instance (x : ℚ) : Decidable (Stored x) := inferInstanceAs (Decidable (_ ∧ _))

/-- One in the last place. -/
def lastPlace : ℚ := 1 / 10 ^ 18

/-- Half way between two values of a column. -/
def Tie (x : ℚ) : Prop := Int.fract (x * 10 ^ 18) = 1 / 2

instance (x : ℚ) : Decidable (Tie x) := inferInstanceAs (Decidable (_ = _))

/-- What a stored amount changes by when `x` is added to it. -/
def shift (x : ℚ) : ℚ := round (x * 10 ^ 18) * lastPlace

theorem lastPlace_pos : 0 < lastPlace := by norm_num [lastPlace]

/-! ## Rounding -/

/-- Away from zero and up are the same for what does not round to a negative number. -/
theorem roundPlaces_eq_round {x : ℚ} (h : -(1 / 2) < x * 10 ^ 18) :
    roundPlaces x = round (x * 10 ^ 18) := by
  unfold roundPlaces
  split_ifs with hx
  · rw [round_eq]
    rfl
  · have hzero : ⌊-x * 10 ^ 18 + 1 / 2⌋ = 0 := by
      refine Int.floor_eq_zero_iff.mpr ⟨?_, ?_⟩ <;> linarith
    have hround : round (x * 10 ^ 18) = 0 := by
      refine round_eq_zero_iff.mpr ⟨h.le, ?_⟩
      linarith
    rw [hround]
    exact neg_eq_zero.mpr hzero

/-- What is not rounded below zero is above minus half a place. -/
theorem neg_half_lt_of_roundPlaces {x : ℚ} (h : 0 ≤ roundPlaces x) : -(1 / 2) < x * 10 ^ 18 := by
  unfold roundPlaces at h
  split_ifs at h with hx
  · linarith
  · by_contra hlow
    have hone : (1 : ℤ) ≤ ⌊-x * 10 ^ 18 + 1 / 2⌋ := by
      refine Int.le_floor.mpr ?_
      push_cast
      linarith
    have hfloor : ⌊-x * 10 ^ 18 + 1 / 2⌋ ≤ 0 := by
      exact Int.neg_nonneg.mp h
    omega

/-- A stored amount is a whole number of places. -/
theorem stored_eq_units {x : ℚ} (h : Stored x) :
    ∃ n : ℤ, 0 ≤ n ∧ n < 10 ^ 38 ∧ x = n * lastPlace := by
  rcases h with ⟨hx, hstored⟩
  unfold numeric at hstored
  split_ifs at hstored with hrange
  have heq : (roundPlaces x : ℚ) * lastPlace = x := by
    rw [lastPlace, mul_one_div]
    exact Option.some.inj hstored
  have hnonneg : 0 ≤ roundPlaces x := by
    have : (0 : ℚ) ≤ roundPlaces x := by
      by_contra hneg
      have := mul_neg_of_neg_of_pos (not_le.mp hneg) lastPlace_pos
      linarith
    exact_mod_cast this
  exact ⟨roundPlaces x, hnonneg, by omega, heq.symm⟩

/-- It has at most twenty digits before the point. -/
theorem Stored.lt {x : ℚ} (h : Stored x) : x < 10 ^ 20 := by
  obtain ⟨n, -, hn, rfl⟩ := stored_eq_units h
  have hcast : (n : ℚ) < 10 ^ 38 := by exact_mod_cast hn
  rw [lastPlace, mul_one_div, div_lt_iff₀ (by norm_num)]
  linarith

theorem mul_lastPlace_mul (x : ℚ) : x * lastPlace * 10 ^ 18 = x := by
  unfold lastPlace
  field_simp

/-- What a column keeps is a value of the column. -/
theorem stored_of_numeric {x y : ℚ} (h : numeric x = some y) (hy : 0 ≤ y) : Stored y := by
  refine ⟨hy, ?_⟩
  unfold numeric at h
  split_ifs at h with hfits
  have heq : (roundPlaces x : ℚ) / 10 ^ 18 = y := Option.some.inj h
  have hunits : roundPlaces y = roundPlaces x := by
    have hplaces : y * 10 ^ 18 = roundPlaces x := by
      rw [← heq, div_mul_cancel₀ _ (by norm_num)]
    rw [roundPlaces_eq_round (by linarith [mul_nonneg hy (show (0 : ℚ) ≤ 10 ^ 18 by norm_num)]),
      hplaces, round_intCast]
  rw [numeric, hunits, if_pos hfits, heq]

/-- What a column keeps of a stored amount to which another is added. -/
theorem numeric_add {x y : ℚ} (hx : Stored x) (hlow : -(1 / 2) < (x + y) * 10 ^ 18) :
    numeric (x + y) = if x + shift y < 10 ^ 20 then some (x + shift y) else none := by
  obtain ⟨n, -, -, rfl⟩ := stored_eq_units hx
  have hround : roundPlaces (n * lastPlace + y) = n + round (y * 10 ^ 18) := by
    rw [roundPlaces_eq_round hlow, add_mul, mul_lastPlace_mul, round_intCast_add]
  have hnonneg : 0 ≤ n + round (y * 10 ^ 18) := by
    rw [← hround, roundPlaces_eq_round hlow, round_eq]
    refine Int.floor_nonneg.mpr ?_
    linarith
  -- on the grid of last places the addition is one of integers
  have hsum : n * lastPlace + shift y = ((n + round (y * 10 ^ 18) : ℤ) : ℚ) / 10 ^ 18 := by
    rw [shift, lastPlace]
    push_cast
    ring
  have hrange : ((n + round (y * 10 ^ 18) : ℤ) : ℚ) / 10 ^ 18 < 10 ^ 20 ↔
      (n + round (y * 10 ^ 18)).natAbs < 10 ^ 38 := by
    rw [div_lt_iff₀ (by norm_num), ← pow_add]
    constructor
    · intro h
      have : n + round (y * 10 ^ 18) < 10 ^ 38 := by exact_mod_cast h
      omega
    · intro h
      have : n + round (y * 10 ^ 18) < 10 ^ 38 := by omega
      exact_mod_cast this
  rw [numeric, hround, hsum]
  exact if_congr hrange.symm rfl rfl

/-- A sum that is stored is shifted. -/
theorem numeric_add_eq_some {x y z : ℚ} (hx : Stored x) (h : numeric (x + y) = some z)
    (hz : 0 ≤ z) : z = x + shift y := by
  have hlow : -(1 / 2) < (x + y) * 10 ^ 18 := by
    refine neg_half_lt_of_roundPlaces ?_
    unfold numeric at h
    split_ifs at h
    rw [← Option.some.inj h] at hz
    have := mul_nonneg hz (show (0 : ℚ) ≤ 10 ^ 18 by norm_num)
    rw [div_mul_cancel₀ _ (by norm_num)] at this
    exact_mod_cast this
  rw [numeric_add hx hlow] at h
  split_ifs at h
  exact (Option.some.inj h).symm

/-! ## Moving an amount and moving it back -/

/-- Rounding an amount and its negation differs only at a tie, which goes away from zero. -/
theorem round_add_round_neg (x : ℚ) :
    round x + round (-x) = if Int.fract x = 1 / 2 then 1 else 0 := by
  have hx := Int.floor_add_fract x
  have h0 := Int.fract_nonneg x
  have h1 := Int.fract_lt_one x
  -- below, at and above the middle
  rcases lt_trichotomy (Int.fract x) (1 / 2) with hlt | htie | hgt
  · have hup : round x = ⌊x⌋ := round_eq_iff.mpr ⟨by linarith, by linarith⟩
    have hdown : round (-x) = -⌊x⌋ := by
      refine round_eq_iff.mpr ⟨?_, ?_⟩ <;> push_cast <;> linarith
    rw [hup, hdown, if_neg hlt.ne]
    omega
  · have hup : round x = ⌊x⌋ + 1 := by
      refine round_eq_iff.mpr ⟨?_, ?_⟩ <;> push_cast <;> linarith
    have hdown : round (-x) = -⌊x⌋ := by
      refine round_eq_iff.mpr ⟨?_, ?_⟩ <;> push_cast <;> linarith
    rw [hup, hdown, if_pos htie]
    omega
  · have hup : round x = ⌊x⌋ + 1 := by
      refine round_eq_iff.mpr ⟨?_, ?_⟩ <;> push_cast <;> linarith
    have hdown : round (-x) = -(⌊x⌋ + 1) := by
      refine round_eq_iff.mpr ⟨?_, ?_⟩ <;> push_cast <;> linarith
    rw [hup, hdown, if_neg hgt.ne']
    omega

/-- So that taking it and giving it back shifts a balance by a place at a tie. -/
theorem shift_add_shift_neg (x : ℚ) : shift x + shift (-x) = if Tie x then lastPlace else 0 := by
  have hround := round_add_round_neg (x * 10 ^ 18)
  have hsum : shift x + shift (-x) =
      ((round (x * 10 ^ 18) + round (-(x * 10 ^ 18)) : ℤ) : ℚ) * lastPlace := by
    rw [shift, shift, neg_mul]
    push_cast
    ring
  rw [hsum, hround]
  by_cases htie : Tie x
  · rw [if_pos htie, if_pos (show Int.fract _ = _ from htie), Int.cast_one, one_mul]
  · rw [if_neg htie, if_neg (show ¬Int.fract _ = _ from htie), Int.cast_zero, zero_mul]

/-- What a stored amount is after `x` was moved away from it and back, or to it and away
again. -/
def back (x y : ℚ) : ℚ := if Tie x then y + lastPlace else y

theorem add_shift_neg_add_shift (x y : ℚ) : y + shift (-x) + shift x = back x y := by
  have hback := shift_add_shift_neg x
  unfold back
  split_ifs at hback ⊢ <;> linarith

theorem back_nonneg (x : ℚ) {y : ℚ} (hy : 0 ≤ y) : 0 ≤ back x y := by
  have := lastPlace_pos
  unfold back
  split_ifs <;> linarith

/-- Back at a stored amount, nothing is below the range. -/
theorem neg_half_lt_back {x y : ℚ} (hx : 0 ≤ x) : -(1 / 2) < (x + shift y + -y) * 10 ^ 18 := by
  have hy : y * 10 ^ 18 - 1 / 2 < round (y * 10 ^ 18) := by
    rw [round_eq]
    have := Int.lt_floor_add_one (y * 10 ^ 18 + 1 / 2)
    linarith
  have hshift : shift y * 10 ^ 18 = round (y * 10 ^ 18) := mul_lastPlace_mul _
  have hx' := mul_nonneg hx (show (0 : ℚ) ≤ 10 ^ 18 by norm_num)
  rw [add_mul, add_mul, hshift]
  linarith

/-! ## The sign of a shift -/

/-- An amount rounds to no less than zero from minus half a place on. -/
theorem shift_nonneg {x : ℚ} : 0 ≤ shift x ↔ -(1 / 2) ≤ x * 10 ^ 18 := by
  rw [shift, mul_nonneg_iff_of_pos_right lastPlace_pos, Int.cast_nonneg_iff, round_eq,
    Int.floor_nonneg]
  constructor <;> intro h <;> linarith

theorem shift_nonpos {x : ℚ} : shift x ≤ 0 ↔ x * 10 ^ 18 < 1 / 2 := by
  have hround : shift x ≤ 0 ↔ round (x * 10 ^ 18) ≤ 0 := by
    constructor
    · intro h
      by_contra hpos
      have hcast : (0 : ℚ) < round (x * 10 ^ 18) := by exact_mod_cast not_le.mp hpos
      exact absurd h (not_le.mpr (mul_pos hcast lastPlace_pos))
    · intro h
      exact mul_nonpos_of_nonpos_of_nonneg (by exact_mod_cast h) lastPlace_pos.le
  rw [hround, ← Int.lt_add_one_iff, zero_add, round_eq, Int.floor_lt]
  push_cast
  constructor <;> intro h <;> linarith

/-- An amount is too small to be seen in a balance if it neither adds nor takes anything. -/
theorem shift_eq_zero {x : ℚ} : shift x = 0 ∧ shift (-x) = 0 ↔ |x| * 10 ^ 18 < 1 / 2 := by
  have habs : |x| * 10 ^ 18 = |x * 10 ^ 18| := by
    rw [abs_mul, abs_of_pos (show (0 : ℚ) < 10 ^ 18 by norm_num)]
  rw [habs, abs_lt, le_antisymm_iff, le_antisymm_iff, shift_nonneg, shift_nonneg, shift_nonpos,
    shift_nonpos, neg_mul]
  constructor
  · rintro ⟨⟨hlt, -⟩, hgt, -⟩
    constructor <;> linarith
  · rintro ⟨hgt, hlt⟩
    refine ⟨⟨hlt, hgt.le⟩, ?_, ?_⟩ <;> linarith

/-! ## Locks -/

/-- The rows of `balances` hold values of their columns. -/
def StoredBalances (db : Tables) : Prop :=
  ∀ key row, db.balances key = some row → Stored row.available ∧ Stored row.locked

theorem storedBalances_opening {rows : List ((Uuid × Uuid) × Balance)}
    (h : ∀ e ∈ rows, Stored e.2.available ∧ Stored e.2.locked) :
    StoredBalances (openingTables rows) := by
  intro key row hrow
  rcases List.lookup_eq_some_iff.mp hrow with ⟨before, rest, rfl, -⟩
  exact h (key, row) (by simp)

namespace Tables

variable {db db' : Tables} {userId assetId : Uuid} {amount : ℚ}

/-- What a lock that is taken does to the balance. -/
theorem tryLockBalance_shifts (hstored : StoredBalances db)
    (h : tryLockBalance numeric userId assetId amount db = .ok (true, db')) :
    ∃ row, db.balances (userId, assetId) = some row ∧
      Stored (row.available + shift (-amount)) ∧ Stored (row.locked + shift amount) ∧
      db' = { db with
        balances := Function.update db.balances (userId, assetId)
          (some ⟨row.available + shift (-amount), row.locked + shift amount⟩) } := by
  rcases tryLockBalance_eq_ok h with ⟨hfalse, -⟩ | ⟨-, row, hrow, -, hput⟩
  · cases hfalse
  rcases putBalance_eq_ok.mp hput with ⟨available, locked, havailable, hlocked, h0, h1, rfl⟩
  rcases hstored _ row hrow with ⟨hav, hlo⟩
  have hav' := stored_of_numeric havailable h0
  have hlo' := stored_of_numeric hlocked h1
  rw [sub_eq_add_neg] at havailable
  cases numeric_add_eq_some hav havailable h0
  cases numeric_add_eq_some hlo hlocked h1
  exact ⟨row, hrow, hav', hlo', rfl⟩

/-- What the release of a lock does to a balance that is as the lock left it. -/
theorem unlockBalance_back {row : Balance} (hav : Stored row.available) (hlo : Stored row.locked)
    (hav' : Stored (row.available + shift (-amount))) (hlo' : Stored (row.locked + shift amount))
    (hrow : db.balances (userId, assetId) =
      some ⟨row.available + shift (-amount), row.locked + shift amount⟩) :
    unlockBalance numeric userId assetId amount db =
      if back amount row.available < 10 ^ 20 ∧ back amount row.locked < 10 ^ 20 then
        .ok ((), { db with
          balances := Function.update db.balances (userId, assetId)
            (some ⟨back amount row.available, back amount row.locked⟩) })
      else .error .numericOverflow := by
  have havailable : numeric (row.available + shift (-amount) + amount) =
      if back amount row.available < 10 ^ 20 then some (back amount row.available) else none := by
    have hlow := neg_half_lt_back (y := -amount) hav.1
    rw [neg_neg] at hlow
    rw [numeric_add hav' hlow, add_shift_neg_add_shift]
  have hlocked : numeric (row.locked + shift amount - amount) =
      if back amount row.locked < 10 ^ 20 then some (back amount row.locked) else none := by
    rw [sub_eq_add_neg, numeric_add hlo' (neg_half_lt_back hlo.1), add_right_comm,
      add_shift_neg_add_shift]
  have h0 := back_nonneg amount hav.1
  have h1 := back_nonneg amount hlo.1
  unfold unlockBalance putBalance
  simp only [hrow, havailable, hlocked]
  -- both columns must hold their new value
  by_cases hfits : back amount row.available < 10 ^ 20
  · by_cases hfits' : back amount row.locked < 10 ^ 20
    · simp only [if_pos hfits, if_pos hfits', if_pos (And.intro hfits hfits'),
        if_pos (And.intro h0 h1)]
      rfl
    · rw [if_pos hfits, if_neg hfits', if_neg (mt And.right hfits')]
      rfl
  · rw [if_neg hfits, if_neg (mt And.left hfits)]
    rfl

end Tables

end CryptoCex.Db
