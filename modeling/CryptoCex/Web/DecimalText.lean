import CryptoCex.Lib.Decimals

/-!
# Decimals as texts

The web client gets prices and quantities as texts, compares them digit by digit, and never turns
them into numbers. The order it arrives at is that of the numbers (`compare_le_zero`), and it
finds the zeros (`isZeroDecimal_iff`). One number has several texts: `1.5` and `1.50`.
-/

namespace CryptoCex.Web

open Digits (padEnd value)

/-- The text of a decimal that is not negative: digits, and more digits behind a point if there
are any. -/
structure DecimalText where
  integer : List (Fin 10)
  fraction : List (Fin 10)
  integer_ne : integer ≠ []
  scale_le : fraction.length ≤ 28
deriving DecidableEq

namespace DecimalText

variable {left right : DecimalText}

/-- The number of the text, in units of `10⁻²⁸`. -/
def units (text : DecimalText) : ℕ :=
  value text.integer * 10 ^ 28 + value (padEnd 28 text.fraction)

/-- The digits before and behind the point, without the zeros that do not count. -/
def normalizeDecimal (text : DecimalText) : List (Fin 10) × List (Fin 10) :=
  let integer := text.integer.dropWhile (· = 0)
  (if integer = [] then [0] else integer, text.fraction.rdropWhile (· = 0))

def compareDecimalStrings (left right : DecimalText) : ℤ :=
  let leftParts := left.normalizeDecimal
  let rightParts := right.normalizeDecimal
  if leftParts.1.length ≠ rightParts.1.length then
    if leftParts.1.length > rightParts.1.length then 1 else -1
  else if leftParts.1 ≠ rightParts.1 then
    if leftParts.1 > rightParts.1 then 1 else -1
  else
    let maxFractionLength := max leftParts.2.length rightParts.2.length
    let leftFraction := padEnd maxFractionLength leftParts.2
    let rightFraction := padEnd maxFractionLength rightParts.2
    if leftFraction = rightFraction then 0
    else if leftFraction > rightFraction then 1 else -1

/-- `ZERO_DECIMAL_RE` matches. -/
def isZeroDecimal (text : DecimalText) : Bool :=
  text.integer.all (· = 0) && text.fraction.all (· = 0)

/-! ## Order -/

theorem units_eq (text : DecimalText) :
    text.units = value (text.integer ++ padEnd 28 text.fraction) := by
  rw [Digits.value_append, Digits.length_padEnd text.scale_le]
  rfl

/-- The client compares by number. -/
theorem compare_le_zero : compareDecimalStrings left right ≤ 0 ↔ left.units ≤ right.units := by
  have hcompare : compareDecimalStrings left right ≤ 0 ↔
      Digits.number left.integer left.fraction ≤ Digits.number right.integer right.fraction := by
    rw [← Digits.number_normalize, ← Digits.number_normalize right.integer]
    exact Digits.compareNumerals_le_zero (Digits.noLeadingZero_normalize _ _)
      (Digits.noLeadingZero_normalize _ _)
  rw [hcompare, ← not_lt, Digits.number_lt_iff right.scale_le left.scale_le, ← units_eq, ← units_eq,
    not_lt]

/-! ## Zero -/

/-- A text is zero if its number is. -/
theorem isZeroDecimal_iff (text : DecimalText) : text.isZeroDecimal = true ↔ text.units = 0 := by
  have hzero : ∀ l : List (Fin 10), l.all (· = 0) = true ↔ value l = 0 := by
    intro l
    induction l with
    | nil => simp
    | cons d l ih =>
      rw [List.all_cons, Bool.and_eq_true, ih, Digits.value_cons]
      simp
  unfold isZeroDecimal units
  rw [Bool.and_eq_true, hzero, hzero, Digits.value_padEnd]
  simp

end DecimalText

/-- The text of 100. -/
def hundred : DecimalText := ⟨[1, 0, 0], [], by decide, by decide⟩

/-- The text of a digit. -/
def single (digit : Fin 10) : DecimalText := ⟨[digit], [], List.cons_ne_nil _ _, by decide⟩

end CryptoCex.Web
