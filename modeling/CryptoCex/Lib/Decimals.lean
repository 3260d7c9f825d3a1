import CryptoCex.Lib.Digits
import Mathlib.Algebra.Order.Field.Rat
import Mathlib.Data.Rat.Cast.Order
import Mathlib.Data.Sign.Basic
import Mathlib.Tactic.FieldSimp
import Mathlib.Tactic.Positivity

/-!
# Numerals with a point

A numeral with a point has digits before and behind it. Zeros in front and at the end do not
count, and with the fractions filled up to one length it is the numeral without the point that
matters (`number_eq`). Without zeros in front two of them can be compared digit by digit
(`compareNumerals_eq`).
-/

namespace Digits

section Point

variable {b : ℕ} [NeZero b] {integer integer' fraction fraction' : List (Fin b)} {n : ℕ}

/-- The number of a numeral with a point. -/
def number (integer fraction : List (Fin b)) : ℚ :=
  value integer + value fraction / b ^ fraction.length

theorem base_pow_pos (n : ℕ) : (0 : ℚ) < b ^ n :=
  pow_pos (Nat.cast_pos.mpr (Nat.pos_of_ne_zero (NeZero.ne b))) n

/-- The point can be moved behind any fraction. -/
theorem number_eq (integer : List (Fin b)) (h : fraction.length ≤ n) :
    number integer fraction = (value (integer ++ padEnd n fraction) : ℚ) / b ^ n := by
  have hsplit : (b : ℚ) ^ n = b ^ (n - fraction.length) * b ^ fraction.length := by
    rw [← pow_add, Nat.sub_add_cancel h]
  have hfraction := base_pow_pos (b := b) fraction.length
  have hrest := base_pow_pos (b := b) (n - fraction.length)
  rw [number, value_append, length_padEnd h, value_padEnd, hsplit]
  push_cast
  rw [hsplit]
  field_simp

/-- The numbers are in the order of the numerals without the point. -/
theorem number_lt_iff (h : fraction.length ≤ n) (h' : fraction'.length ≤ n) :
    number integer fraction < number integer' fraction' ↔
      value (integer ++ padEnd n fraction) < value (integer' ++ padEnd n fraction') := by
  rw [number_eq integer h, number_eq integer' h', div_lt_div_iff_of_pos_right (base_pow_pos n),
    Nat.cast_lt]

/-- The integers decide if they differ. -/
theorem number_lt_of_integer (h : value integer < value integer') :
    number integer fraction < number integer' fraction' := by
  rw [number_lt_iff (le_max_left _ _) (le_max_right fraction.length _), value_append,
    value_append, length_padEnd (le_max_left _ _), length_padEnd (le_max_right _ _)]
  have hlow := value_lt (padEnd (max fraction.length fraction'.length) fraction)
  rw [length_padEnd (le_max_left _ _)] at hlow
  calc value integer * b ^ max fraction.length fraction'.length + _
    _ < value integer * b ^ max fraction.length fraction'.length +
          b ^ max fraction.length fraction'.length := Nat.add_lt_add_left hlow _
    _ = (value integer + 1) * b ^ max fraction.length fraction'.length := (Nat.succ_mul _ _).symm
    _ ≤ value integer' * b ^ max fraction.length fraction'.length := Nat.mul_le_mul_right _ h
    _ ≤ _ := Nat.le_add_right _ _

/-- With one integer the fractions decide, filled up to any length they fit in. -/
theorem number_lt_iff_of_integer (hinteger : value integer = value integer')
    (h : fraction.length ≤ n) (h' : fraction'.length ≤ n) :
    number integer fraction < number integer' fraction' ↔
      padEnd n fraction < padEnd n fraction' := by
  have hlength : (padEnd n fraction).length = (padEnd n fraction').length := by
    rw [length_padEnd h, length_padEnd h']
  rw [number_lt_iff h h', value_append, value_append, hinteger, hlength, Nat.add_lt_add_iff_left,
    value_lt_iff hlength]

/-! ## Zeros that do not count -/

/-- Without zeros in front and at the end; one digit is kept before the point. -/
def normalize (integer fraction : List (Fin b)) : List (Fin b) × List (Fin b) :=
  let integer := integer.dropWhile (· = 0)
  (if integer = [] then [0] else integer, fraction.rdropWhile (· = 0))

/-- No zero stands in front of another digit. -/
def NoLeadingZero (integer : List (Fin b)) : Prop :=
  0 < integer.length ∧ (1 < integer.length → ∀ d ∈ integer.head?, d ≠ 0)

/-- Dropping leading zeros keeps the integer part. -/
theorem value_normalize (integer fraction : List (Fin b)) :
    value (normalize integer fraction).1 = value integer := by
  unfold normalize
  rw [← value_dropWhile integer]
  dsimp only
  split_ifs with h
  · rw [h, value_cons, Fin.val_zero, Nat.zero_mul, Nat.zero_add]
  · rfl

theorem noLeadingZero_normalize (integer fraction : List (Fin b)) :
    NoLeadingZero (normalize integer fraction).1 := by
  unfold normalize
  dsimp only
  split_ifs with hnil
  · exact ⟨Nat.one_pos, fun hlong => absurd hlong (lt_irrefl 1)⟩
  · refine ⟨List.length_pos_iff.mpr hnil, ?_⟩
    intro _ d hd
    have hdigit := List.head?_dropWhile_not (fun d : Fin b => decide (d = 0)) integer
    rw [hd] at hdigit
    exact of_decide_eq_false hdigit

/-- A normalized numeral stands for the same number. -/
theorem number_normalize (integer fraction : List (Fin b)) :
    number (normalize integer fraction).1 (normalize integer fraction).2 =
      number integer fraction := by
  have hlength : (normalize integer fraction).2.length ≤ fraction.length :=
    (List.rdropWhile_prefix _ _).length_le
  have hpad : padEnd fraction.length (normalize integer fraction).2 =
      padEnd fraction.length fraction := padEnd_rdropWhile le_rfl
  rw [number_eq _ hlength, number_eq integer le_rfl, value_append, value_append, hpad,
    value_normalize]

/-! ## Setting the point -/

theorem padEnd_of_length {l : List (Fin b)} (h : l.length = n) : padEnd n l = l := by
  rw [padEnd, h, Nat.sub_self, List.replicate_zero, List.append_nil]

/-- A numeral with a point set before its last digits is divided by a power of the base. -/
theorem number_split {l : List (Fin b)} {scale : ℕ} (h : scale ≤ l.length) :
    number (l.take (l.length - scale)) ((l.drop (l.length - scale)).rdropWhile (· = 0)) =
      (value l : ℚ) / b ^ scale := by
  have hlength : (l.drop (l.length - scale)).length = scale := by
    rw [List.length_drop]
    omega
  have hshort : ((l.drop (l.length - scale)).rdropWhile (· = 0)).length ≤ scale :=
    (List.rdropWhile_prefix _ _).length_le.trans hlength.le
  rw [number_eq _ hshort, padEnd_rdropWhile hlength.le, padEnd_of_length hlength,
    List.take_append_drop]

/-! ## Comparing -/

/-- Compares the integers by length and then digit by digit, and the fractions digit by digit once
they are of one length. -/
def compareNumerals (left right : List (Fin b) × List (Fin b)) : ℤ :=
  if left.1.length ≠ right.1.length then
    if left.1.length > right.1.length then 1 else -1
  else if left.1 ≠ right.1 then
    if left.1 > right.1 then 1 else -1
  else
    let maxFractionLength := max left.2.length right.2.length
    let leftFraction := padEnd maxFractionLength left.2
    let rightFraction := padEnd maxFractionLength right.2
    if leftFraction = rightFraction then 0
    else if leftFraction > rightFraction then 1 else -1

/-- Of integers without zeros in front the longer one is greater. -/
theorem NoLeadingZero.value_lt (h : NoLeadingZero integer) (h' : NoLeadingZero integer')
    (hlength : integer.length < integer'.length) : value integer < value integer' := by
  have hpos := h.1
  exact value_lt_of_length hlength (h'.2 (by omega))

/-- Comparing the texts part by part compares the numbers, if neither has leading zeros. -/
theorem compareNumerals_eq {left right : List (Fin b) × List (Fin b)}
    (hleft : NoLeadingZero left.1) (hright : NoLeadingZero right.1) :
    compareNumerals left right =
      SignType.sign (number left.1 left.2 - number right.1 right.2) := by
  have hless : number left.1 left.2 < number right.1 right.2 →
      (-1 : ℤ) = SignType.sign (number left.1 left.2 - number right.1 right.2) := by
    intro h
    rw [sign_neg (sub_neg.mpr h)]
    rfl
  have hmore : number right.1 right.2 < number left.1 left.2 →
      (1 : ℤ) = SignType.sign (number left.1 left.2 - number right.1 right.2) := by
    intro h
    rw [sign_pos (sub_pos.mpr h)]
    rfl
  unfold compareNumerals
  dsimp only
  split_ifs with hlength hlonger hinteger hgreater hfraction hbehind
  · -- without leading zeros the longer integer part is the larger one
    exact hmore (number_lt_of_integer (hright.value_lt hleft hlonger))
  · refine hless (number_lt_of_integer (hleft.value_lt hright ?_))
    omega
  · exact hmore (number_lt_of_integer ((value_lt_iff (not_not.mp hlength).symm).mpr hgreater))
  · refine hless (number_lt_of_integer ((value_lt_iff (not_not.mp hlength)).mpr ?_))
    exact lt_of_le_of_ne (not_lt.mp hgreater) hinteger
  -- from here on the integer parts are the same, and the fractions decide
  all_goals
    have hsame : value left.1 = value right.1 := congrArg value (not_not.mp hinteger)
    have hlt := number_lt_iff_of_integer hsame (le_max_left left.2.length right.2.length)
      (le_max_right left.2.length right.2.length)
    have hgt := number_lt_iff_of_integer hsame.symm (le_max_right left.2.length right.2.length)
      (le_max_left left.2.length right.2.length)
  · -- neither is less
    have heq : number left.1 left.2 = number right.1 right.2 := by
      rw [hfraction] at hlt hgt
      refine le_antisymm (not_lt.mp ?_) (not_lt.mp ?_)
      · exact fun h => lt_irrefl _ (hgt.mp h)
      · exact fun h => lt_irrefl _ (hlt.mp h)
    rw [heq, sub_self, sign_zero]
    rfl
  · exact hmore (hgt.mpr hbehind)
  · exact hless (hlt.mpr (lt_of_le_of_ne (not_lt.mp hbehind) hfraction))

/-- The comparison finds the left one not to be greater. -/
theorem compareNumerals_le_zero {left right : List (Fin b) × List (Fin b)}
    (hleft : NoLeadingZero left.1) (hright : NoLeadingZero right.1) :
    compareNumerals left right ≤ 0 ↔ number left.1 left.2 ≤ number right.1 right.2 := by
  rw [compareNumerals_eq hleft hright]
  rcases lt_trichotomy (number left.1 left.2) (number right.1 right.2) with h | h | h
  · rw [sign_neg (sub_neg.mpr h)]
    exact iff_of_true (by decide) h.le
  · rw [sub_eq_zero.mpr h, sign_zero]
    exact iff_of_true (by decide) h.le
  · rw [sign_pos (sub_pos.mpr h)]
    exact iff_of_false (by decide) (not_le.mpr h)

end Point

end Digits
