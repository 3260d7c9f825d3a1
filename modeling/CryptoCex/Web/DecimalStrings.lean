import CryptoCex.Lib.Decimals
import CryptoCex.Lib.Numerals
import CryptoCex.Web.OrderBook

/-!
# The strings behind the book

Prices and quantities reach the web client as strings, and `order-book-model.ts` compares them and
adds them up as strings. On decimals of any length that is exact: the comparison is that of the
numbers, a sum is the sum of the numbers and written without zeros that do not count, and so the
running totals of the rows are the sums of the quantities (`decimalStrings_exact`).

`DecimalString` stands for the strings of digits, and of digits with a point and digits behind it
(`exists_text`). They are ASCII, so characters are compared as the code units of the client are.
-/

namespace CryptoCex.Web.Strings

open Digits (number)

/-! ## The functions of the source -/

structure DecimalParts where
  integer : List Char
  fraction : List Char
deriving DecidableEq

def normalizeDecimal (value : String) : DecimalParts :=
  let parts := value.toList.splitOn '.'
  let rawInteger := parts[0]?.getD ['0']
  let rawFraction := parts[1]?.getD []
  let integer := rawInteger.dropWhile (· = '0')
  ⟨if integer = [] then ['0'] else integer, rawFraction.rdropWhile (· = '0')⟩

/-- `padEnd(length, "0")` -/
def padEnd (length : ℕ) (s : List Char) : List Char := s ++ List.replicate (length - s.length) '0'

def compareDecimalStrings (left right : String) : ℤ :=
  let leftParts := normalizeDecimal left
  let rightParts := normalizeDecimal right
  if leftParts.integer.length ≠ rightParts.integer.length then
    if leftParts.integer.length > rightParts.integer.length then 1 else -1
  else if leftParts.integer ≠ rightParts.integer then
    if leftParts.integer > rightParts.integer then 1 else -1
  else
    let maxFractionLength := max leftParts.fraction.length rightParts.fraction.length
    let leftFraction := padEnd maxFractionLength leftParts.fraction
    let rightFraction := padEnd maxFractionLength rightParts.fraction
    if leftFraction = rightFraction then 0
    else if leftFraction > rightFraction then 1 else -1

/-- What `addDecimalStrings` makes of the digits of the sum. -/
def sumText (scale : ℕ) (sum : List Char) : String :=
  if scale = 0 then String.ofList sum
  else
    -- `slice(0, -scale)` and `slice(-scale)`
    let integer := sum.take (sum.length - scale)
    let integer := if integer = [] then ['0'] else integer
    let fraction := (sum.drop (sum.length - scale)).rdropWhile (· = '0')
    String.ofList (if fraction = [] then integer else integer ++ '.' :: fraction)

/-- `none` stands for the strings that `BigInt` does not take or reads otherwise than as decimal
digits. -/
def addDecimalStrings (left right : String) : Option String :=
  let leftParts := normalizeDecimal left
  let rightParts := normalizeDecimal right
  let scale := max leftParts.fraction.length rightParts.fraction.length
  (Digits.readNat (leftParts.integer ++ padEnd scale leftParts.fraction)).bind fun leftScaled =>
    (Digits.readNat (rightParts.integer ++ padEnd scale rightParts.fraction)).map fun rightScaled =>
      sumText scale (Digits.padded (scale + 1) (leftScaled + rightScaled))

/-- A row less its `depthPct`. -/
structure BookSideRow where
  price : String
  quantity : String
  total : String
deriving DecidableEq

/-- The running totals from `total` on. -/
def totalsFrom (total : String) : List (String × String) → Option (List String)
  | [] => some []
  | (_, quantity) :: levels =>
    (addDecimalStrings total quantity).bind fun total => (totalsFrom total levels).map (total :: ·)

def levelsToRows (levels : List (String × String)) : Option (List BookSideRow) :=
  (totalsFrom "0" levels).map fun totals => levels.mapIdx fun index level =>
    { price := level.1, quantity := level.2, total := totals[index]?.getD level.2 }

/-! ## Strings of decimals -/

/-- Digits, or digits with a point and digits behind it. -/
structure DecimalString where
  integer : List (Fin 10)
  fraction : List (Fin 10)
  integer_ne : integer ≠ []

namespace DecimalString

/-- The string itself. -/
def text (d : DecimalString) : String :=
  String.ofList (if d.fraction = [] then Digits.text d.integer
    else Digits.text d.integer ++ '.' :: Digits.text d.fraction)

def number (d : DecimalString) : ℚ := Digits.number d.integer d.fraction

/-- No zero could be left out. -/
structure Shortest (d : DecimalString) : Prop where
  integer : Digits.NoLeadingZero d.integer
  fraction : ∀ x ∈ d.fraction.getLast?, x ≠ 0

end DecimalString

/-- Every string of digits, or of digits, a point and digits, is that of a decimal. -/
theorem exists_text {s : String} {integer fraction : List Char} (hne : integer ≠ [])
    (hinteger : ∀ c ∈ integer, c.isDigit = true) (hfraction : ∀ c ∈ fraction, c.isDigit = true)
    (hs : s.toList = integer ∨ fraction ≠ [] ∧ s.toList = integer ++ '.' :: fraction) :
    ∃ d : DecimalString, d.text = s := by
  obtain ⟨i, rfl⟩ := Digits.exists_text hinteger
  obtain ⟨f, rfl⟩ := Digits.exists_text hfraction
  have hi : i ≠ [] := fun h => hne (Digits.text_eq_nil.mpr h)
  rcases hs with hs | ⟨hf, hs⟩
  · refine ⟨⟨i, [], hi⟩, ?_⟩
    apply String.toList_inj.mp
    simp [DecimalString.text, hs]
  · refine ⟨⟨i, f, hi⟩, ?_⟩
    apply String.toList_inj.mp
    have hf' : f ≠ [] := fun h => hf (Digits.text_eq_nil.mpr h)
    simp [DecimalString.text, hs, hf']

variable {left right : DecimalString}

theorem point_notMem (l : List (Fin 10)) : '.' ∉ Digits.text l := by
  intro h
  exact absurd (Digits.isDigit_of_mem_text h) (by decide)

/-- The parts of a decimal, without zeros that do not count. -/
theorem normalizeDecimal_text (d : DecimalString) :
    normalizeDecimal d.text = ⟨Digits.text (Digits.normalize d.integer d.fraction).1,
      Digits.text (Digits.normalize d.integer d.fraction).2⟩ := by
  have hparts : ∃ rest, d.text.toList.splitOn '.' = Digits.text d.integer :: rest ∧
      rest[0]?.getD [] = Digits.text d.fraction := by
    unfold DecimalString.text
    rw [String.toList_ofList]
    split_ifs with hnil
    · -- without a point the default stands for what is behind it
      exact ⟨[], List.splitOn_eq_singleton (point_notMem _), by rw [hnil]; rfl⟩
    · refine ⟨[Digits.text d.fraction], ?_, rfl⟩
      rw [List.splitOn_append_cons_self_of_not_mem (point_notMem _),
        List.splitOn_eq_singleton (point_notMem _)]
  obtain ⟨rest, hsplit, hfraction⟩ := hparts
  unfold normalizeDecimal Digits.normalize
  simp only [hsplit, List.getElem?_cons_zero, List.getElem?_cons_succ, Option.getD_some, hfraction,
    Digits.text_dropWhile, Digits.text_rdropWhile, Digits.text_eq_nil]
  split_ifs with hnil
  · rfl
  · rfl

theorem padEnd_text (n : ℕ) (l : List (Fin 10)) :
    padEnd n (Digits.text l) = Digits.text (Digits.padEnd n l) := Digits.text_padEnd n l

/-- Strings are compared as numerals. -/
theorem compareDecimalStrings_text (left right : DecimalString) :
    compareDecimalStrings left.text right.text =
      Digits.compareNumerals (Digits.normalize left.integer left.fraction)
        (Digits.normalize right.integer right.fraction) := by
  unfold compareDecimalStrings Digits.compareNumerals
  simp only [normalizeDecimal_text, Digits.length_text, padEnd_text, ne_eq, Digits.text_inj,
    gt_iff_lt, Digits.text_lt_iff]

/-- The comparison of two strings is that of their numbers. -/
theorem compareDecimalStrings_eq (left right : DecimalString) :
    compareDecimalStrings left.text right.text = SignType.sign (left.number - right.number) := by
  rw [compareDecimalStrings_text, Digits.compareNumerals_eq (Digits.noLeadingZero_normalize _ _)
    (Digits.noLeadingZero_normalize _ _), Digits.number_normalize, Digits.number_normalize]
  rfl

/-- A string is at most another if its number is. -/
theorem compareDecimalStrings_le_zero : compareDecimalStrings left.text right.text ≤ 0 ↔
    left.number ≤ right.number := by
  rw [compareDecimalStrings_text, Digits.compareNumerals_le_zero (Digits.noLeadingZero_normalize _ _)
    (Digits.noLeadingZero_normalize _ _), Digits.number_normalize, Digits.number_normalize]
  rfl

/-- Equal numbers compare as equal, however they are written. -/
theorem compareDecimalStrings_eq_zero : compareDecimalStrings left.text right.text = 0 ↔
    left.number = right.number := by
  rw [compareDecimalStrings_eq]
  rcases lt_trichotomy left.number right.number with h | h | h
  · rw [sign_neg (sub_neg.mpr h)]
    exact iff_of_false (by decide) h.ne
  · rw [sub_eq_zero.mpr h, sign_zero]
    exact iff_of_true rfl h
  · rw [sign_pos (sub_pos.mpr h)]
    exact iff_of_false (by decide) h.ne'

/-! ## The decimals of the book -/

/-- A decimal of the book, of any scale. -/
def ofText (text : DecimalText) : DecimalString := ⟨text.integer, text.fraction, text.integer_ne⟩

/-- The book compares its decimals as their strings are compared. -/
theorem compareDecimalStrings_ofText (left right : DecimalText) :
    compareDecimalStrings (ofText left).text (ofText right).text =
      DecimalText.compareDecimalStrings left right := compareDecimalStrings_text _ _

/-- The units of the book are those of the number. -/
theorem number_ofText (text : DecimalText) : (ofText text).number = (text.units : ℚ) / 10 ^ 28 := by
  rw [text.units_eq]
  exact_mod_cast Digits.number_eq text.integer text.scale_le

/-! ## Sums -/

/-- The digits that `BigInt` reads. -/
theorem readNat_text {i : List (Fin 10)} (hi : Digits.NoLeadingZero i) (scale : ℕ)
    (f : List (Fin 10)) :
    Digits.readNat (Digits.text i ++ padEnd scale (Digits.text f)) =
      some (Digits.value (i ++ Digits.padEnd scale f)) := by
  have hne : i ++ Digits.padEnd scale f ≠ [] :=
    List.append_ne_nil_of_left_ne_nil (List.length_pos_iff.mp hi.1) _
  rw [padEnd_text, ← Digits.text_append, Digits.readNat_text hne]

/-- The point is set so that `scale` digits stand behind it. -/
theorem sumText_padded (scale n : ℕ) : ∃ sum : DecimalString,
    sumText scale (Digits.padded (scale + 1) n) = sum.text ∧
      sum.number = (n : ℚ) / 10 ^ scale ∧ sum.Shortest := by
  obtain ⟨l, hl, hvalue, hlength, hhead⟩ := Digits.padded_eq (scale + 1) n
  have hlong : scale + 1 ≤ l.length := by omega
  have hne : l.take (l.length - scale) ≠ [] := by
    apply List.ne_nil_of_length_pos
    rw [List.length_take]
    omega
  refine ⟨⟨l.take (l.length - scale), (l.drop (l.length - scale)).rdropWhile (· = 0), hne⟩,
    ?_, ?_, ?_⟩
  · have htake : (Digits.text l).take (l.length - scale) = Digits.text (l.take (l.length - scale)) :=
      List.map_take.symm
    have hdrop : (Digits.text l).drop (l.length - scale) = Digits.text (l.drop (l.length - scale)) :=
      List.map_drop.symm
    unfold sumText DecimalString.text
    rw [hl, Digits.length_text]
    by_cases hscale : scale = 0
    · -- `slice(0, -0)` would be empty; the source returns before
      subst hscale
      simp
    · rw [if_neg hscale]
      dsimp only
      rw [htake, hdrop, Digits.text_rdropWhile, if_neg (mt Digits.text_eq_nil.mp hne)]
      simp only [Digits.text_eq_nil]
  · have hsplit := Digits.number_split (by omega : scale ≤ l.length)
    rw [hvalue] at hsplit
    exact_mod_cast hsplit
  · constructor
    · refine ⟨List.length_pos_iff.mpr hne, ?_⟩
      intro hmore d hd
      dsimp only at hmore hd
      rw [List.length_take] at hmore
      rw [List.head?_take, if_neg (by omega)] at hd
      exact hhead (by omega) d hd
    · intro x hx
      dsimp only at hx
      have hnil : (l.drop (l.length - scale)).rdropWhile (· = 0) ≠ [] := by
        intro h
        rw [h] at hx
        cases hx
      rw [List.getLast?_eq_some_getLast hnil] at hx
      cases hx
      simpa using List.rdropWhile_last_not _ _ hnil

/-- A sum is exact, and written without zeros that do not count. -/
theorem addDecimalStrings_text (left right : DecimalString) : ∃ sum : DecimalString,
    addDecimalStrings left.text right.text = some sum.text ∧
      sum.number = left.number + right.number ∧ sum.Shortest := by
  have hleft := Digits.noLeadingZero_normalize left.integer left.fraction
  have hright := Digits.noLeadingZero_normalize right.integer right.fraction
  have hnumber := Digits.number_normalize left.integer left.fraction
  have hnumber' := Digits.number_normalize right.integer right.fraction
  unfold addDecimalStrings
  simp only [normalizeDecimal_text, Digits.length_text]
  -- from here on only the numbers of the parts and their missing zeros matter
  generalize Digits.normalize left.integer left.fraction = leftParts at *
  generalize Digits.normalize right.integer right.fraction = rightParts at *
  rw [readNat_text hleft, readNat_text hright, Option.bind_some, Option.map_some]
  obtain ⟨sum, htext, hsum, hshort⟩ := sumText_padded (max leftParts.2.length rightParts.2.length)
    (Digits.value (leftParts.1 ++
        Digits.padEnd (max leftParts.2.length rightParts.2.length) leftParts.2) +
      Digits.value (rightParts.1 ++
        Digits.padEnd (max leftParts.2.length rightParts.2.length) rightParts.2))
  refine ⟨sum, congrArg some htext, ?_, hshort⟩
  rw [hsum, DecimalString.number, DecimalString.number, ← hnumber, ← hnumber',
    Digits.number_eq _ (le_max_left leftParts.2.length rightParts.2.length),
    Digits.number_eq _ (le_max_right leftParts.2.length rightParts.2.length), Nat.cast_add, add_div]
  norm_num

/-! ## Running totals -/

/-- The sums of the first quantity, of the first two and so on, on top of `start`. -/
def runningTotals (start : ℚ) (levels : List (String × DecimalString)) : List ℚ :=
  (List.range levels.length).map fun i =>
    start + ((levels.take (i + 1)).map fun level => level.2.number).sum

/-- The levels as they are received. -/
def levelTexts (levels : List (String × DecimalString)) : List (String × String) :=
  levels.map fun level => (level.1, level.2.text)

/-- The first total, and the others from there on. -/
theorem runningTotals_cons (start : ℚ) (level : String × DecimalString)
    (levels : List (String × DecimalString)) :
    runningTotals start (level :: levels) =
      (start + level.2.number) :: runningTotals (start + level.2.number) levels := by
  unfold runningTotals
  rw [List.length_cons, List.range_succ_eq_map, List.map_cons, List.map_map]
  congr 1
  · simp
  · apply List.map_congr_left
    intro i _
    simp [add_assoc]

/-- The totals of the strings are strings of the totals. -/
theorem totalsFrom_text (total : DecimalString) (levels : List (String × DecimalString)) :
    ∃ totals : List DecimalString,
      totalsFrom total.text (levelTexts levels) = some (totals.map DecimalString.text) ∧
        totals.map DecimalString.number = runningTotals total.number levels ∧
        ∀ t ∈ totals, t.Shortest := by
  induction levels generalizing total with
  | nil => exact ⟨[], rfl, rfl, by simp⟩
  | cons level levels ih =>
    obtain ⟨sum, hadd, hnumber, hshort⟩ := addDecimalStrings_text total level.2
    obtain ⟨totals, htotals, hnumbers, hall⟩ := ih sum
    refine ⟨sum :: totals, ?_, ?_, ?_⟩
    · rw [levelTexts] at htotals
      simp only [levelTexts, List.map_cons, totalsFrom, hadd, Option.bind_some, htotals,
        Option.map_some]
    · rw [List.map_cons, hnumbers, runningTotals_cons, hnumber]
    · rw [List.forall_mem_cons]
      exact ⟨hshort, hall⟩

/-- The rows of levels and totals. -/
def rowsOf (levels : List (String × DecimalString)) (totals : List DecimalString) :
    List BookSideRow :=
  List.zipWith (fun level total => ⟨level.1, level.2.text, total.text⟩) levels totals

/-- Each level is shown with its own total. -/
theorem mapIdx_totals (levels : List (String × DecimalString)) (totals : List DecimalString)
    (h : totals.length = levels.length) :
    ((levelTexts levels).mapIdx fun index level => ({
      price := level.1
      quantity := level.2
      total := (totals.map DecimalString.text)[index]?.getD level.2 } : BookSideRow)) =
        rowsOf levels totals := by
  induction levels generalizing totals with
  | nil => rfl
  | cons level levels ih =>
    cases totals with
    | nil => cases h
    | cons total totals =>
      rw [levelTexts] at ih
      simp only [levelTexts, List.map_cons, List.mapIdx_cons, List.getElem?_cons_zero,
        List.getElem?_cons_succ, Option.getD_some, rowsOf, List.zipWith_cons_cons]
      rw [ih totals (Nat.succ.inj h)]
      rfl

/-- The totals of the rows are the sums of the quantities so far. -/
theorem levelsToRows_text (levels : List (String × DecimalString)) :
    ∃ totals : List DecimalString,
      levelsToRows (levelTexts levels) = some (rowsOf levels totals) ∧
        totals.map DecimalString.number = runningTotals 0 levels ∧
        ∀ t ∈ totals, t.Shortest := by
  have hzero : (⟨[0], [], List.cons_ne_nil _ _⟩ : DecimalString).number = 0 := by
    norm_num [DecimalString.number, Digits.number, Digits.value]
  obtain ⟨totals, htotals, hnumbers, hshort⟩ :=
    totalsFrom_text ⟨[0], [], List.cons_ne_nil _ _⟩ levels
  have hlength : totals.length = levels.length := by
    have hlengths := congrArg List.length hnumbers
    simpa [runningTotals] using hlengths
  refine ⟨totals, ?_, ?_, hshort⟩
  · unfold levelsToRows
    have hstart : (⟨[0], [], List.cons_ne_nil _ _⟩ : DecimalString).text = "0" := by
      decide
    rw [← hstart, htotals, Option.map_some, mapIdx_totals levels totals hlength]
  · rw [hnumbers, hzero]

/-- On the decimals of the book: its rows, with their totals. -/
theorem levelsToRows_ofText (levels : List PriceLevelTuple) :
    ∃ totals : List DecimalString,
      levelsToRows (levels.map fun level => ((ofText level.1).text, (ofText level.2).text)) =
        some (List.zipWith (fun row total =>
          ⟨(ofText row.price).text, (ofText row.quantity).text, total.text⟩)
            (Web.levelsToRows levels) totals) ∧
      totals.map DecimalString.number = (List.range levels.length).map fun i =>
        ((levels.take (i + 1)).map fun level => (level.2.units : ℚ) / 10 ^ 28).sum := by
  obtain ⟨totals, hrows, hnumbers, _⟩ :=
    levelsToRows_text (levels.map fun level => ((ofText level.1).text, ofText level.2))
  refine ⟨totals, ?_, ?_⟩
  · rw [levelTexts, List.map_map, rowsOf, List.zipWith_map_left] at hrows
    rw [Web.levelsToRows, List.zipWith_map_left]
    exact hrows
  · rw [hnumbers, runningTotals, List.length_map]
    apply List.map_congr_left
    intro i _
    rw [← List.map_take, List.map_map, zero_add]
    congr 1
    apply List.map_congr_left
    intro level _
    exact number_ofText level.2

/-- On strings of decimals of any length: the comparison has the sign of the difference, so it is
a total preorder in which numbers alone count; a sum is exact and as short as it can be; and the
totals of the rows are the exact sums of the quantities so far. -/
theorem decimalStrings_exact :
    (∀ left right : DecimalString,
      compareDecimalStrings left.text right.text = SignType.sign (left.number - right.number)) ∧
    (Std.Total fun left right : DecimalString =>
      compareDecimalStrings left.text right.text ≤ 0) ∧
    (IsTrans DecimalString fun left right =>
      compareDecimalStrings left.text right.text ≤ 0) ∧
    (∀ left right : DecimalString,
      compareDecimalStrings left.text right.text = 0 ↔ left.number = right.number) ∧
    (∀ left right : DecimalString, ∃ sum : DecimalString,
      addDecimalStrings left.text right.text = some sum.text ∧
        sum.number = left.number + right.number ∧ sum.Shortest) ∧
    ∀ levels : List (String × DecimalString), ∃ totals : List DecimalString,
      levelsToRows (levelTexts levels) = some (rowsOf levels totals) ∧
        totals.map DecimalString.number = runningTotals 0 levels := by
  refine ⟨compareDecimalStrings_eq, ⟨?_⟩, ⟨?_⟩, ?_, addDecimalStrings_text, ?_⟩
  · intro left right
    rw [compareDecimalStrings_le_zero, compareDecimalStrings_le_zero]
    exact le_total _ _
  · intro a b c hab hbc
    rw [compareDecimalStrings_le_zero] at hab hbc ⊢
    exact hab.trans hbc
  · intro left right
    exact compareDecimalStrings_eq_zero
  · intro levels
    obtain ⟨totals, hrows, hnumbers, _⟩ := levelsToRows_text levels
    exact ⟨totals, hrows, hnumbers⟩

end CryptoCex.Web.Strings
