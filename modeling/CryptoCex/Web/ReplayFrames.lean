import CryptoCex.Web.DecimalStrings

/-!
# Replaying trades

`replay-model.ts` shows past trades one after the other, and beside each a book that is made up
from the trades so far: it has a level for each text of a price, with all that was bought or sold
at it. Quantities are added up as strings, levels are sorted by comparing strings, and the rows
are cut to a depth.

On trades with decimals of any length nothing is lost on the way (`replayFrames_exact`): the rows
of every frame are the best levels of the exact sums.
-/

namespace CryptoCex.Web.Replay

open Strings (DecimalString addDecimalStrings compareDecimalStrings levelTexts rowsOf runningTotals)
open InsertionMap (Keyed)

/-! ## The functions of the source -/

inductive OrderSide where
  | buy
  | sell
deriving DecidableEq, Repr

structure Trade where
  id : String
  price : String
  qty : String
  side : OrderSide
  ts : String
deriving DecidableEq, Repr

structure ReplayFrame where
  index : ℕ
  trade : Trade
  bids : List Strings.BookSideRow
  asks : List Strings.BookSideRow
deriving DecidableEq

/-- `/^0+(?:\.0+)?$/` -/
def isZeroDecimal (value : String) : Bool :=
  !(value.toList.takeWhile (· = '0')).isEmpty &&
  match value.toList.dropWhile (· = '0') with
  | [] => true
  | c :: rest => c = '.' && !rest.isEmpty && rest.all (· = '0')

/-- The comparison of `sortLevels` finds the left one not to come later. -/
def InOrder (side : BookSide) (left right : String × String) : Prop :=
  match side with
  | .bids => compareDecimalStrings right.1 left.1 ≤ 0
  | .asks => compareDecimalStrings left.1 right.1 ≤ 0

instance (side : BookSide) : DecidableRel (InOrder side) := fun _ _ =>
  match side with
  | .bids => inferInstanceAs (Decidable (_ ≤ _))
  | .asks => inferInstanceAs (Decidable (_ ≤ _))

/-- The levels that are not zero, sorted; the sort is stable. -/
def sortLevels (levels : List (String × String)) (side : BookSide) : List (String × String) :=
  (levels.filter fun level => !isZeroDecimal level.2).insertionSort (InOrder side)

/-- The levels of both sides, by the text of their price and in the order in which they came. -/
structure Books where
  bids : List (String × String)
  asks : List (String × String)

def addTo (levels : List (String × String)) (trade : Trade) : Option (List (String × String)) :=
  let current := (levels.lookup trade.price).getD "0"
  (addDecimalStrings current trade.qty).map fun sum => InsertionMap.set levels trade.price sum

def Books.add (books : Books) (trade : Trade) : Option Books :=
  match trade.side with
  | .buy => (addTo books.bids trade).map fun bids => { books with bids := bids }
  | .sell => (addTo books.asks trade).map fun asks => { books with asks := asks }

/-- The callback of `trades.map`, for one trade after the other. -/
def framesFrom (depth index : ℕ) (books : Books) : List Trade → Option (List ReplayFrame)
  | [] => some []
  | trade :: trades => do
    let books ← books.add trade
    let bids ← Strings.levelsToRows ((sortLevels books.bids .bids).take depth)
    let asks ← Strings.levelsToRows ((sortLevels books.asks .asks).take depth)
    let frames ← framesFrom depth (index + 1) books trades
    return { index := index, trade := trade, bids := bids, asks := asks } :: frames

/-- `none` stands for strings that `BigInt` does not take. -/
def buildReplayFrames (trades : List Trade) (depth : ℕ := 10) : Option (List ReplayFrame) :=
  framesFrom depth 0 ⟨[], []⟩ trades

/-! ## Zero -/

/-- A decimal string has no sign. -/
theorem number_nonneg (d : DecimalString) : 0 ≤ d.number := by
  unfold DecimalString.number Digits.number
  positivity

/-- A number is zero if all of its digits are. -/
theorem number_eq_zero {d : DecimalString} :
    d.number = 0 ↔ d.integer.all (· = 0) = true ∧ d.fraction.all (· = 0) = true := by
  have hzero : ∀ l : List (Fin 10), l.all (· = 0) = true ↔ Digits.value l = 0 := by
    intro l
    induction l with
    | nil => simp
    | cons d l ih =>
      rw [List.all_cons, Bool.and_eq_true, ih, Digits.value_cons]
      simp
  have hpow : (0 : ℚ) < 10 ^ d.fraction.length := by positivity
  rw [hzero, hzero]
  unfold DecimalString.number Digits.number
  constructor
  · -- both parts are at least zero, so neither is more
    intro h
    have hinteger : (0 : ℚ) ≤ Digits.value d.integer := Nat.cast_nonneg _
    have hfraction : (0 : ℚ) ≤ Digits.value d.fraction / 10 ^ d.fraction.length :=
      div_nonneg (Nat.cast_nonneg _) hpow.le
    constructor
    · have : (Digits.value d.integer : ℚ) = 0 := by push_cast at h; linarith
      exact_mod_cast this
    · have : (Digits.value d.fraction : ℚ) / 10 ^ d.fraction.length = 0 := by
        push_cast at h; linarith
      rcases div_eq_zero_iff.mp this with hvalue | hten
      · exact_mod_cast hvalue
      · exact absurd hten hpow.ne'
  · rintro ⟨hinteger, hfraction⟩
    rw [hinteger, hfraction]
    simp

/-- The pattern finds the texts of zero. -/
theorem isZeroDecimal_text (d : DecimalString) : isZeroDecimal d.text = true ↔ d.number = 0 := by
  have htext : ∃ tail, d.text.toList = Digits.text d.integer ++ tail ∧
      (tail = [] ∧ d.fraction = [] ∨ tail = '.' :: Digits.text d.fraction ∧ d.fraction ≠ []) := by
    unfold DecimalString.text
    rw [String.toList_ofList]
    split_ifs with hnil
    · exact ⟨[], (List.append_nil _).symm, .inl ⟨rfl, hnil⟩⟩
    · exact ⟨_, rfl, .inr ⟨rfl, hnil⟩⟩
  have hall : ∀ l : List (Fin 10), (Digits.text l).all (· = '0') = l.all (· = 0) := by
    intro l
    unfold Digits.text
    rw [List.all_map]
    congr 1
    funext x
    simp [Digits.digitChar_eq_zero]
  rcases htext with ⟨tail, htext, htail⟩
  rw [number_eq_zero]
  unfold isZeroDecimal
  rw [htext]
  by_cases hzero : d.integer.all (· = 0) = true
  · -- the digits before the point are skipped, and what is behind them is looked at
    have hdigits : ∀ c ∈ Digits.text d.integer, decide (c = '0') = true := by
      have hchars := (hall d.integer).trans hzero
      exact List.all_eq_true.mp hchars
    have hstop : tail.takeWhile (· = '0') = [] ∧ tail.dropWhile (· = '0') = tail := by
      rcases htail with ⟨rfl, _⟩ | ⟨rfl, _⟩
      · exact ⟨rfl, rfl⟩
      · exact ⟨rfl, rfl⟩
    rw [List.takeWhile_append_of_pos hdigits, List.dropWhile_append_of_pos hdigits, hstop.1,
      hstop.2, List.append_nil]
    have hne : (Digits.text d.integer).isEmpty = false := by
      rw [List.isEmpty_eq_false_iff]
      exact mt Digits.text_eq_nil.mp d.integer_ne
    rw [hne]
    rcases htail with ⟨rfl, hnil⟩ | ⟨rfl, hsome⟩
    · simp [hnil, hzero]
    · have hsome' : (Digits.text d.fraction).isEmpty = false := by
        rw [List.isEmpty_eq_false_iff]
        exact mt Digits.text_eq_nil.mp hsome
      simp only [hall, hsome', hzero]
      simp
  · refine iff_of_false ?_ fun h => hzero h.1
    -- a digit that is not zero comes before the point
    have hdrop : (Digits.text d.integer).dropWhile (· = '0') ≠ [] := by
      intro hnil
      rw [Digits.text_dropWhile, Digits.text_eq_nil, List.dropWhile_eq_nil_iff] at hnil
      exact hzero (List.all_eq_true.mpr hnil)
    rw [List.dropWhile_append, if_neg (by simpa [List.isEmpty_iff] using hdrop)]
    cases hrest : (Digits.text d.integer).dropWhile (· = '0') with
    | nil => exact (hdrop hrest).elim
    | cons c rest =>
      have hsub := List.dropWhile_sublist (l := Digits.text d.integer) fun c => decide (c = '0')
      have hc : c ∈ Digits.text d.integer := by
        apply hsub.subset
        rw [hrest]
        exact List.mem_cons_self
      have hpoint : c ≠ '.' := by
        rintro rfl
        exact Strings.point_notMem _ hc
      simp [hpoint]

/-! ## The levels -/

/-- The side of the book that a trade counts on. -/
def OrderSide.bookSide : OrderSide → BookSide
  | .buy => .bids
  | .sell => .asks

/-- A trade whose price and quantity are decimals. -/
structure DecimalTrade where
  id : String
  price : DecimalString
  qty : DecimalString
  side : OrderSide
  ts : String

def DecimalTrade.toTrade (trade : DecimalTrade) : Trade :=
  ⟨trade.id, trade.price.text, trade.qty.text, trade.side, trade.ts⟩

/-- What was traded on a side at the price of this text. -/
def traded (side : BookSide) (trades : List DecimalTrade) (price : String) : ℚ :=
  ((trades.filter fun trade => trade.side.bookSide = side ∧ trade.price.text = price).map
    fun trade => trade.qty.number).sum

/-- The amounts at a price add up, -/
theorem traded_append (side : BookSide) (trades trades' : List DecimalTrade) (price : String) :
    traded side (trades ++ trades') price =
      traded side trades price + traded side trades' price := by
  unfold traded
  rw [List.filter_append, List.map_append, List.sum_append]

/-- and one trade adds its quantity at its own price and side. -/
theorem traded_singleton (side : BookSide) (trade : DecimalTrade) (price : String) :
    traded side [trade] price =
      if trade.side.bookSide = side ∧ trade.price.text = price then trade.qty.number else 0 := by
  unfold traded
  rw [List.filter_singleton]
  by_cases h : trade.side.bookSide = side ∧ trade.price.text = price
  · simp [h]
  · simp [h]

/-- The levels of a side after these trades. -/
structure Holds (side : BookSide) (trades : List DecimalTrade) (levels : List (String × String)) :
    Prop where
  keyed : Keyed levels
  exact : ∀ level ∈ levels, ∃ price qty : DecimalString, level = (price.text, qty.text) ∧
    qty.number = traded side trades price.text
  listed : ∀ trade ∈ trades, trade.side.bookSide = side →
    trade.price.text ∈ levels.map Prod.fst
  /-- Nothing is traded at other prices. -/
  others : ∀ price, price ∉ levels.map Prod.fst → traded side trades price = 0

/-- No trades, no levels. -/
theorem holds_nil (side : BookSide) : Holds side [] [] where
  keyed := List.nodup_nil
  exact := by rintro level ⟨⟩
  listed := by rintro trade ⟨⟩
  others := fun _ _ => rfl

variable {side : BookSide} {trades : List DecimalTrade} {levels : List (String × String)}
  {trade : DecimalTrade}

/-- A trade of this side. -/
theorem Holds.addTo (h : Holds side trades levels) (hside : trade.side.bookSide = side) :
    ∃ levels', addTo levels trade.toTrade = some levels' ∧
      Holds side (trades ++ [trade]) levels' := by
  have hcurrent : ∃ current : DecimalString,
      (levels.lookup trade.price.text).getD "0" = current.text ∧
      current.number = traded side trades trade.price.text := by
    cases hlookup : levels.lookup trade.price.text with
    | none =>
      refine ⟨⟨[0], [], List.cons_ne_nil _ _⟩, by decide, ?_⟩
      rw [h.others _ (InsertionMap.lookup_eq_none.mp hlookup)]
      norm_num [DecimalString.number, Digits.number, Digits.value]
    | some current =>
      rcases h.exact _ (InsertionMap.mem_of_lookup hlookup) with ⟨price, qty, heq, hnumber⟩
      rcases Prod.mk.inj heq with ⟨hprice, hqty⟩
      refine ⟨qty, hqty, ?_⟩
      rw [hnumber, hprice]
  rcases hcurrent with ⟨current, hcurrent, hnumber⟩
  rcases Strings.addDecimalStrings_text current trade.qty with ⟨sum, hadd, hsum, _⟩
  have hlevels : Replay.addTo levels trade.toTrade =
      some (InsertionMap.set levels trade.price.text sum.text) := by
    unfold Replay.addTo DecimalTrade.toTrade
    dsimp only
    rw [hcurrent, hadd]
    rfl
  -- only what is traded at the price of the trade changes
  have hself : traded side (trades ++ [trade]) trade.price.text = sum.number := by
    rw [traded_append, traded_singleton, if_pos ⟨hside, rfl⟩, hsum, hnumber]
  have hother : ∀ price, price ≠ trade.price.text →
      traded side (trades ++ [trade]) price = traded side trades price := by
    intro price hprice
    rw [traded_append, traded_singleton, if_neg fun hboth => hprice hboth.2.symm, add_zero]
  have hkeys : ∀ price, price ∈ (InsertionMap.set levels trade.price.text sum.text).map Prod.fst ↔
      price = trade.price.text ∨ price ∈ levels.map Prod.fst := by
    intro price
    rw [InsertionMap.keys_set]
    split_ifs with hold
    · exact ⟨.inr, fun hor => hor.elim (fun heq => heq ▸ hold) id⟩
    · rw [List.mem_append, List.mem_singleton, or_comm]
  refine ⟨_, hlevels, h.keyed.set, ?_, ?_, ?_⟩
  · intro level hlevel
    rcases InsertionMap.mem_set.mp hlevel with rfl | ⟨hne, hold⟩
    · exact ⟨trade.price, sum, rfl, hself.symm⟩
    · rcases h.exact level hold with ⟨price, qty, rfl, hnumber'⟩
      exact ⟨price, qty, rfl, hnumber'.trans (hother _ hne).symm⟩
  · intro trade' htrade' hside'
    rw [hkeys]
    rcases List.mem_append.mp htrade' with hold | hnew
    · exact .inr (h.listed trade' hold hside')
    · rw [List.mem_singleton.mp hnew]
      exact .inl rfl
  · intro price hprice
    rw [hkeys, not_or] at hprice
    rw [hother price hprice.1]
    exact h.others price hprice.2

/-- A trade of the other side. -/
theorem Holds.other (h : Holds side trades levels) (hside : trade.side.bookSide ≠ side) :
    Holds side (trades ++ [trade]) levels := by
  have hsame : ∀ price, traded side (trades ++ [trade]) price = traded side trades price := by
    intro price
    rw [traded_append, traded_singleton, if_neg fun hboth => hside hboth.1, add_zero]
  constructor
  · exact h.keyed
  · intro level hlevel
    rcases h.exact level hlevel with ⟨price, qty, heq, hnumber⟩
    exact ⟨price, qty, heq, hnumber.trans (hsame _).symm⟩
  · intro trade' htrade' hside'
    rcases List.mem_append.mp htrade' with hold | hnew
    · exact h.listed trade' hold hside'
    · rw [List.mem_singleton.mp hnew] at hside'
      exact (hside hside').elim
  · intro price hprice
    rw [hsame]
    exact h.others price hprice

/-! ## The rows -/

/-- The price on the left is better. -/
def Beats (side : BookSide) (left right : ℚ) : Prop :=
  match side with
  | .bids => right < left
  | .asks => left < right

instance (side : BookSide) (left right : ℚ) : Decidable (Beats side left right) :=
  match side with
  | .bids => inferInstanceAs (Decidable (right < left))
  | .asks => inferInstanceAs (Decidable (left < right))

/-- The price on the left comes no later. -/
def Ahead (side : BookSide) (left right : DecimalString × DecimalString) : Prop :=
  ¬ Beats side right.1.number left.1.number

instance (side : BookSide) : DecidableRel (Ahead side) := fun _ _ =>
  inferInstanceAs (Decidable (¬ _))

instance (side : BookSide) : Std.Total (Ahead side) where
  total := by
    intro left right
    unfold Ahead
    cases side with
    | bids => exact (le_total _ _).imp not_lt.mpr not_lt.mpr
    | asks => exact (le_total _ _).imp not_lt.mpr not_lt.mpr

instance (side : BookSide) : IsTrans (DecimalString × DecimalString) (Ahead side) where
  trans := by
    intro a b c hab hbc
    unfold Ahead at hab hbc ⊢
    cases side with
    | bids => exact not_lt.mpr ((not_lt.mp hbc).trans (not_lt.mp hab))
    | asks => exact not_lt.mpr ((not_lt.mp hab).trans (not_lt.mp hbc))

/-- A level as it is listed. -/
def texts (level : DecimalString × DecimalString) : String × String :=
  (level.1.text, level.2.text)

/-- The order of two levels is that of their texts. -/
theorem inOrder_texts (left right : DecimalString × DecimalString) :
    Ahead side left right ↔ InOrder side (texts left) (texts right) := by
  unfold Ahead
  cases side with
  | bids =>
    change ¬ left.1.number < right.1.number ↔ compareDecimalStrings right.1.text left.1.text ≤ 0
    rw [Strings.compareDecimalStrings_le_zero, not_lt]
  | asks =>
    change ¬ right.1.number < left.1.number ↔ compareDecimalStrings left.1.text right.1.text ≤ 0
    rw [Strings.compareDecimalStrings_le_zero, not_lt]

/-- One text, one number. -/
theorem number_eq_of_text {d e : DecimalString} (h : d.text = e.text) : d.number = e.number := by
  rw [← Strings.compareDecimalStrings_eq_zero, h]
  exact Strings.compareDecimalStrings_eq_zero.mpr rfl

theorem exists_map_eq {α β : Type} (f : α → β) {l : List β} (h : ∀ b ∈ l, ∃ a, f a = b) :
    ∃ l' : List α, l'.map f = l := by
  induction l with
  | nil => exact ⟨[], rfl⟩
  | cons b l ih =>
    rcases h b List.mem_cons_self with ⟨a, rfl⟩
    rcases ih fun b hb => h b (List.mem_cons_of_mem _ hb) with ⟨l', rfl⟩
    exact ⟨a :: l', rfl⟩

/-- The sorted levels are those at which something was traded, the better ones first. -/
theorem Holds.sortLevels (h : Holds side trades levels) :
    ∃ sorted : List (DecimalString × DecimalString), sortLevels levels side = sorted.map texts ∧
      sorted.Pairwise (Ahead side) ∧ (sorted.map fun level => level.1.text).Nodup ∧
      (∀ level ∈ sorted, level.2.number = traded side trades level.1.text ∧ 0 < level.2.number) ∧
      ∀ trade ∈ trades, trade.side.bookSide = side → 0 < traded side trades trade.price.text →
        ∃ level ∈ sorted, level.1.text = trade.price.text := by
  have hdecimal : ∀ level ∈ levels.filter fun level => !isZeroDecimal level.2,
      ∃ d, texts d = level := by
    intro level hlevel
    rcases h.exact level (List.mem_of_mem_filter hlevel) with ⟨price, qty, rfl, _⟩
    exact ⟨(price, qty), rfl⟩
  rcases exists_map_eq texts hdecimal with ⟨ds, hds⟩
  have hperm := List.perm_insertionSort (Ahead side) ds
  have hexact : ∀ d ∈ ds, d.2.number = traded side trades d.1.text ∧ 0 < d.2.number := by
    intro d hd
    have hlevel : texts d ∈ levels.filter fun level => !isZeroDecimal level.2 :=
      hds ▸ List.mem_map_of_mem hd
    rcases List.mem_filter.mp hlevel with ⟨hmem, hnonzero⟩
    rcases h.exact _ hmem with ⟨price, qty, heq, hnumber⟩
    rcases Prod.mk.inj heq with ⟨hprice, hqty⟩
    refine ⟨?_, ?_⟩
    · rw [number_eq_of_text hqty, hnumber, hprice]
    · refine lt_of_le_of_ne (number_nonneg d.2) fun hzero => ?_
      have hiszero : isZeroDecimal d.2.text = true := (isZeroDecimal_text d.2).mpr hzero.symm
      change (!isZeroDecimal d.2.text) = true at hnonzero
      rw [hiszero] at hnonzero
      cases hnonzero
  refine ⟨ds.insertionSort (Ahead side), ?_, List.pairwise_insertionSort _ _, ?_, ?_, ?_⟩
  · unfold Replay.sortLevels
    rw [← hds]
    exact (List.map_insertionSort _ _ texts ds fun a _ b _ => inOrder_texts a b).symm
  · -- a price is listed once
    have hkeys : (ds.map fun level => level.1.text) =
        (levels.filter fun level => !isZeroDecimal level.2).map Prod.fst := by
      rw [← hds, List.map_map]
      rfl
    rw [(hperm.map _).nodup_iff, hkeys]
    exact h.keyed.sublist (List.filter_sublist.map _)
  · intro level hlevel
    exact hexact level (hperm.mem_iff.mp hlevel)
  · intro trade htrade hside hpos
    rcases List.mem_map.mp (h.listed trade htrade hside) with ⟨level, hlevel, hprice⟩
    rcases h.exact level hlevel with ⟨price, qty, rfl, hnumber⟩
    have hnonzero : isZeroDecimal qty.text = false := by
      rw [← Bool.not_eq_true, isZeroDecimal_text, hnumber]
      dsimp only at hprice
      rw [hprice]
      exact hpos.ne'
    have hlisted : texts (price, qty) ∈ ds.map texts := by
      rw [hds]
      exact List.mem_filter.mpr ⟨hlevel, by simp [texts, hnonzero]⟩
    rcases List.mem_map.mp hlisted with ⟨d, hd, heq⟩
    exact ⟨d, hperm.mem_iff.mpr hd, (congrArg Prod.fst heq).trans hprice⟩

/-- The rows are the best levels of what was traded, and their totals the sums so far. -/
structure Shows (side : BookSide) (trades : List DecimalTrade) (depth : ℕ)
    (rows : List Strings.BookSideRow) : Prop where
  exact : ∀ row ∈ rows, ∃ qty : DecimalString, row.quantity = qty.text ∧
    qty.number = traded side trades row.price ∧ 0 < qty.number
  totals : ∀ i row, rows[i]? = some row → ∃ total : DecimalString, row.total = total.text ∧
    total.number = ((rows.take (i + 1)).map fun row => traded side trades row.price).sum
  distinct : (rows.map (·.price)).Nodup
  sorted : rows.Pairwise fun row row' => ∀ price price' : DecimalString,
    price.text = row.price → price'.text = row'.price → ¬ Beats side price'.number price.number
  /-- A level is missing only behind `depth` rows that are no worse. -/
  best : ∀ trade ∈ trades, trade.side.bookSide = side →
    0 < traded side trades trade.price.text → trade.price.text ∈ rows.map (·.price) ∨
      rows.length = depth ∧ ∀ row ∈ rows, ∀ price : DecimalString, price.text = row.price →
        ¬ Beats side trade.price.number price.number
  depth : rows.length ≤ depth

theorem rowsOf_getElem? {shown : List (DecimalString × DecimalString)}
    {totals : List DecimalString} {i : ℕ} {row : Strings.BookSideRow}
    (h : (rowsOf (shown.map fun level => (level.1.text, level.2)) totals)[i]? = some row) :
    ∃ level total, shown[i]? = some level ∧ totals[i]? = some total ∧
      row = ⟨level.1.text, level.2.text, total.text⟩ := by
  rw [rowsOf, List.getElem?_zipWith_eq_some] at h
  rcases h with ⟨level, total, hlevel, htotal, rfl⟩
  rw [List.getElem?_map, Option.map_eq_some_iff] at hlevel
  rcases hlevel with ⟨level, hlevel, rfl⟩
  exact ⟨level, total, hlevel, htotal, rfl⟩

/-- Rows show the prices of their levels. -/
theorem prices_rowsOf {shown : List (DecimalString × DecimalString)}
    {totals : List DecimalString} (h : totals.length = shown.length) :
    (rowsOf (shown.map fun level => (level.1.text, level.2)) totals).map (·.price) =
      shown.map fun level => level.1.text := by
  induction shown generalizing totals with
  | nil => rfl
  | cons level shown ih =>
    cases totals with
    | nil => cases h
    | cons total totals => exact congrArg _ (ih (Nat.succ.inj h))

/-- The rows that a side shows. -/
theorem Holds.rows (h : Holds side trades levels) (depth : ℕ) : ∃ rows,
    Strings.levelsToRows ((Replay.sortLevels levels side).take depth) = some rows ∧
      Shows side trades depth rows := by
  rcases h.sortLevels with ⟨sorted, hsort, hpairwise, hnodup, hexact, hlisted⟩
  let shown := sorted.take depth
  have hshown : (Replay.sortLevels levels side).take depth =
      levelTexts (shown.map fun level => (level.1.text, level.2)) := by
    rw [hsort, ← List.map_take, levelTexts, List.map_map]
    rfl
  rcases Strings.levelsToRows_text (shown.map fun level => (level.1.text, level.2)) with
    ⟨totals, hrows, hnumbers, _⟩
  have hlength : totals.length = shown.length := by
    have hlengths := congrArg List.length hnumbers
    simpa [runningTotals] using hlengths
  have hmem : ∀ level ∈ shown, level ∈ sorted := fun level hlevel => List.mem_of_mem_take hlevel
  have hrow : ∀ row ∈ rowsOf (shown.map fun level => (level.1.text, level.2)) totals,
      ∃ level ∈ shown, row.price = level.1.text ∧ row.quantity = level.2.text := by
    intro row hrow
    rcases List.mem_iff_getElem?.mp hrow with ⟨i, hi⟩
    rcases rowsOf_getElem? hi with ⟨level, total, hlevel, _, rfl⟩
    exact ⟨level, List.mem_of_getElem? hlevel, rfl, rfl⟩
  have hprices : (rowsOf (shown.map fun level => (level.1.text, level.2)) totals).map (·.price) =
      shown.map fun level => level.1.text := prices_rowsOf hlength
  have hquantities : (rowsOf (shown.map fun level => (level.1.text, level.2)) totals).map
      (fun row => traded side trades row.price) = shown.map fun level => level.2.number := by
    have hcomp := congrArg (List.map (traded side trades)) hprices
    rw [List.map_map, List.map_map] at hcomp
    refine hcomp.trans (List.map_congr_left ?_)
    intro level hlevel
    exact (hexact level (hmem level hlevel)).1.symm
  have hrowsLength : (rowsOf (shown.map fun level => (level.1.text, level.2)) totals).length =
      shown.length := by
    have hlengths := congrArg List.length hprices
    simpa using hlengths
  refine ⟨_, hshown ▸ hrows, ?_, ?_, ?_, ?_, ?_, ?_⟩
  · intro row hmemRow
    rcases hrow row hmemRow with ⟨level, hlevel, hprice, hquantity⟩
    rcases hexact level (hmem level hlevel) with ⟨hnumber, hpos⟩
    exact ⟨level.2, hquantity, hprice ▸ hnumber, hpos⟩
  · intro i row hi
    rcases rowsOf_getElem? hi with ⟨level, total, _, htotal, rfl⟩
    refine ⟨total, rfl, ?_⟩
    have hnumber : (totals.map DecimalString.number)[i]? = some total.number := by
      rw [List.getElem?_map, htotal]
      rfl
    rw [hnumbers, runningTotals, List.getElem?_map, Option.map_eq_some_iff] at hnumber
    rcases hnumber with ⟨j, hj, hsum⟩
    rcases List.getElem?_eq_some_iff.mp hj with ⟨hlt, hget⟩
    rw [List.getElem_range] at hget
    subst hget
    have htake := congrArg (List.take (i + 1)) hquantities
    rw [← List.map_take, ← List.map_take] at htake
    rw [htake, ← hsum, zero_add, ← List.map_take, List.map_map]
    rfl
  · rw [hprices]
    exact hnodup.sublist ((List.take_sublist _ _).map _)
  · -- in the order of the levels
    have hpairs : shown.Pairwise (Ahead side) := hpairwise.sublist (List.take_sublist _ _)
    rw [List.pairwise_iff_getElem] at hpairs ⊢
    intro i j hi hj hij price price' hprice hprice'
    have hrowi := List.getElem?_eq_getElem hi
    have hrowj := List.getElem?_eq_getElem hj
    rcases rowsOf_getElem? hrowi with ⟨level, total, hlevel, _, heq⟩
    rcases rowsOf_getElem? hrowj with ⟨level', total', hlevel', _, heq'⟩
    rcases List.getElem?_eq_some_iff.mp hlevel with ⟨hi', rfl⟩
    rcases List.getElem?_eq_some_iff.mp hlevel' with ⟨hj', rfl⟩
    rw [heq] at hprice
    rw [heq'] at hprice'
    rw [number_eq_of_text hprice, number_eq_of_text hprice']
    exact hpairs i j hi' hj' hij
  · intro trade htrade hside hpos
    rcases hlisted trade htrade hside hpos with ⟨level, hlevel, hprice⟩
    rw [hprices]
    rw [← List.take_append_drop depth sorted] at hlevel hpairwise
    rcases List.mem_append.mp hlevel with htake | hdrop
    · exact .inl (hprice ▸ List.mem_map_of_mem htake)
    · refine .inr ⟨?_, ?_⟩
      · have hlong : depth < sorted.length := by
          by_contra hshort
          rw [List.drop_eq_nil_of_le (not_lt.mp hshort)] at hdrop
          cases hdrop
        rw [hrowsLength, List.length_take]
        omega
      · intro row hmemRow price hrowPrice
        rcases hrow row hmemRow with ⟨front, hfront, hfrontPrice, _⟩
        have hahead := (List.pairwise_append.mp hpairwise).2.2 front hfront level hdrop
        rw [number_eq_of_text (hrowPrice.trans hfrontPrice), ← number_eq_of_text hprice]
        exact hahead
  · rw [hrowsLength]
    exact List.length_take_le _ _

/-! ## Every frame -/

/-- Both sides after these trades. -/
structure Books.Holds (trades : List DecimalTrade) (books : Books) : Prop where
  bids : Replay.Holds .bids trades books.bids
  asks : Replay.Holds .asks trades books.asks

/-- A trade is added to the books it belongs to. -/
theorem Books.Holds.add {books : Books} (h : books.Holds trades) (trade : DecimalTrade) :
    ∃ books', books.add trade.toTrade = some books' ∧ books'.Holds (trades ++ [trade]) := by
  unfold Books.add DecimalTrade.toTrade
  dsimp only
  cases hside : trade.side with
  | buy =>
    have hbids : trade.side.bookSide = .bids := by rw [hside]; rfl
    have hasks : trade.side.bookSide ≠ .asks := by rw [hbids]; decide
    rcases h.bids.addTo hbids with ⟨bids, hadd, hholds⟩
    unfold DecimalTrade.toTrade at hadd
    rw [hside] at hadd
    exact ⟨⟨bids, books.asks⟩, by rw [hadd]; rfl, hholds, h.asks.other hasks⟩
  | sell =>
    have hasks : trade.side.bookSide = .asks := by rw [hside]; rfl
    have hbids : trade.side.bookSide ≠ .bids := by rw [hasks]; decide
    rcases h.asks.addTo hasks with ⟨asks, hadd, hholds⟩
    unfold DecimalTrade.toTrade at hadd
    rw [hside] at hadd
    exact ⟨⟨books.bids, asks⟩, by rw [hadd]; rfl, h.bids.other hbids, hholds⟩

/-- The frame shows both sides as they are after these trades. -/
structure FrameShows (trades : List DecimalTrade) (depth index : ℕ) (trade : DecimalTrade)
    (frame : ReplayFrame) : Prop where
  index : frame.index = index
  trade : frame.trade = trade.toTrade
  bids : Shows .bids trades depth frame.bids
  asks : Shows .asks trades depth frame.asks

/-- Every frame shows what was traded so far. -/
theorem framesFrom_exact (depth : ℕ) (past : List DecimalTrade) {books : Books}
    (h : books.Holds past) (trades : List DecimalTrade) : ∃ frames,
      framesFrom depth past.length books (trades.map DecimalTrade.toTrade) = some frames ∧
      frames.length = trades.length ∧
      ∀ i trade frame, trades[i]? = some trade → frames[i]? = some frame →
        FrameShows (past ++ trades.take (i + 1)) depth (past.length + i) trade frame := by
  induction trades generalizing past books with
  | nil => exact ⟨[], rfl, rfl, by rintro i trade frame ⟨⟩⟩
  | cons trade trades ih =>
    rcases h.add trade with ⟨books', hadd, hholds⟩
    rcases hholds.bids.rows depth with ⟨bids, hbids, hshowsBids⟩
    rcases hholds.asks.rows depth with ⟨asks, hasks, hshowsAsks⟩
    rcases ih (past ++ [trade]) hholds with ⟨frames, hframes, hlength, hall⟩
    rw [List.length_append, List.length_singleton] at hframes
    refine ⟨⟨past.length, trade.toTrade, bids, asks⟩ :: frames, ?_, ?_, ?_⟩
    · rw [List.map_cons]
      unfold framesFrom
      rw [hadd, Option.bind_eq_bind, Option.bind_some, hbids, Option.bind_eq_bind,
        Option.bind_some, hasks, Option.bind_eq_bind, Option.bind_some, hframes]
      rfl
    · rw [List.length_cons, hlength, List.length_cons]
    · intro i trade' frame htrade hframe
      cases i with
      -- the frame of this trade; the others are those of the rest, after one trade more
      | zero =>
        cases htrade
        cases hframe
        rw [List.take_succ_cons, List.take_zero]
        exact ⟨rfl, rfl, hshowsBids, hshowsAsks⟩
      | succ i =>
        have hnext := hall i trade' frame htrade hframe
        rw [List.length_append, List.length_singleton, List.append_assoc, List.singleton_append,
          Nat.add_assoc, Nat.add_comm 1 i] at hnext
        exact hnext

/-- On trades with decimals, whatever their lengths: there is a frame for each trade, and its rows
are the best levels of what was traded so far, with exact quantities and totals. -/
theorem replayFrames_exact (trades : List DecimalTrade) (depth : ℕ) : ∃ frames,
    buildReplayFrames (trades.map DecimalTrade.toTrade) depth = some frames ∧
    frames.length = trades.length ∧
    ∀ i trade frame, trades[i]? = some trade → frames[i]? = some frame →
      frame.index = i ∧ frame.trade = trade.toTrade ∧
      Shows .bids (trades.take (i + 1)) depth frame.bids ∧
      Shows .asks (trades.take (i + 1)) depth frame.asks := by
  have hstart : Books.Holds [] ⟨[], []⟩ := ⟨holds_nil .bids, holds_nil .asks⟩
  rcases framesFrom_exact depth [] hstart trades with ⟨frames, hframes, hlength, hall⟩
  refine ⟨frames, hframes, hlength, ?_⟩
  intro i trade frame htrade hframe
  have hshows := hall i trade frame htrade hframe
  rw [List.nil_append, List.length_nil, Nat.zero_add] at hshows
  exact ⟨hshows.index, hshows.trade, hshows.bids, hshows.asks⟩

/-- Two texts of one price make two levels. -/
example : (buildReplayFrames [⟨"1", "100.10", "0.2", .buy, ""⟩, ⟨"2", "100.1", "0.3", .buy, ""⟩,
    ⟨"3", "100.10", "0.8", .buy, ""⟩]).map (fun frames => frames.map (·.bids)) =
    some [[⟨"100.10", "0.2", "0.2"⟩], [⟨"100.10", "0.2", "0.2"⟩, ⟨"100.1", "0.3", "0.5"⟩],
      [⟨"100.10", "1", "1"⟩, ⟨"100.1", "0.3", "1.3"⟩]] := by
  decide +kernel

end CryptoCex.Web.Replay
