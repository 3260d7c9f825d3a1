import CryptoCex.Lib.OrdMap
import Mathlib.Algebra.Order.Field.Rat
import Mathlib.Data.List.Induction
import Mathlib.Data.String.Basic
import Mathlib.Tactic.FieldSimp
import Mathlib.Tactic.Linarith
import Mathlib.Tactic.Ring

/-!
# Profit and loss of an account

`compute_pnl` reads the trades of an account in order and keeps, for each asset, a queue of lots:
what was bought, at what cost. A buy adds a lot, a sale takes from the oldest lots, and whatever
no lot covers is sold at a cost of nothing. The quantity of a row comes from the balances; the
lots give it only for an asset the account no longer holds.

Whatever the trades were, the lots are the newest of what was bought (`LeftOf`), the money adds
up (`Accounts`), and an asset is seen through its own trades only (`find?_pnlStates`). The row is
told of the balance and the market price that the asset has among the rows read (`Fifo`).
The amounts are exact.
-/

namespace CryptoCex.Api

/-! ## The rows read -/

structure PnlTradeRow where
  assetSymbol : String
  side : String
  price : ℚ
  quantity : ℚ
deriving DecidableEq

structure PnlBalanceRow where
  assetSymbol : String
  quantity : ℚ

structure PnlMarketPriceRow where
  assetSymbol : String
  marketPrice : Option ℚ

structure PnlRow where
  assetSymbol : String
  quantity : ℚ
  avgCost : ℚ
  marketPrice : Option ℚ
  unrealisedPnl : Option ℚ
  realisedPnl : ℚ
deriving DecidableEq

/-! ## The queue of lots -/

structure CostLot where
  quantity : ℚ
  unitCost : ℚ
deriving DecidableEq

/-- `lots.head?` is the front of the queue. -/
structure PnlState where
  lots : List CostLot
  realisedPnl : ℚ

instance : Inhabited PnlState := ⟨⟨[], 0⟩⟩

namespace PnlState

def buy (state : PnlState) (quantity unitCost : ℚ) : PnlState :=
  { state with lots := state.lots ++ [⟨quantity, unitCost⟩] }

/-- The `while` loop of `sell`. -/
def sellLots (price : ℚ) : List CostLot → ℚ → ℚ → PnlState
  | [], quantity, realisedPnl =>
    if 0 < quantity then ⟨[], realisedPnl + price * quantity⟩ else ⟨[], realisedPnl⟩
  | front :: lots, quantity, realisedPnl =>
    if 0 < quantity then
      let consumed := if front.quantity ≤ quantity then front.quantity else quantity
      let realisedPnl := realisedPnl + (price - front.unitCost) * consumed
      let front := { front with quantity := front.quantity - consumed }
      if front.quantity ≤ 0 then
        sellLots price lots (quantity - consumed) realisedPnl
      else
        -- `consumed` was all of `quantity`, so the loop does not go round again
        ⟨front :: lots, realisedPnl⟩
    else
      ⟨front :: lots, realisedPnl⟩

section

variable {price : ℚ} {front : CostLot} {lots : List CostLot} {quantity realisedPnl : ℚ}

theorem sellLots_done (h : quantity ≤ 0) :
    sellLots price lots quantity realisedPnl = ⟨lots, realisedPnl⟩ := by
  cases lots <;> simp [sellLots, not_lt.mpr h]

theorem sellLots_whole (hq : 0 < quantity) (h : front.quantity ≤ quantity) :
    sellLots price (front :: lots) quantity realisedPnl =
      sellLots price lots (quantity - front.quantity)
        (realisedPnl + (price - front.unitCost) * front.quantity) := by
  simp [sellLots, hq, h]

theorem sellLots_part (hq : 0 < quantity) (h : quantity < front.quantity) :
    sellLots price (front :: lots) quantity realisedPnl =
      ⟨{ front with quantity := front.quantity - quantity } :: lots,
        realisedPnl + (price - front.unitCost) * quantity⟩ := by
  simp [sellLots, hq, not_le.mpr h]

end

def sell (state : PnlState) (quantity price : ℚ) : PnlState :=
  sellLots price state.lots quantity state.realisedPnl

def remainingQuantity (state : PnlState) : ℚ :=
  state.lots.foldl (fun total lot => total + lot.quantity) 0

def remainingCost (state : PnlState) : ℚ :=
  state.lots.foldl (fun total lot => total + lot.quantity * lot.unitCost) 0

/-- What the loop over the trades does to the state of the trade's asset. -/
def trade (state : PnlState) (trade : PnlTradeRow) : PnlState :=
  if trade.side = "buy" then state.buy trade.quantity trade.price
  else state.sell trade.quantity trade.price

end PnlState

/-! ## `compute_pnl` -/

/-- `states.entry(key).or_default()`, followed by an update of the value. -/
def entryOrDefault (states : OrdMap String PnlState) (asset : String)
    (f : PnlState → PnlState) : OrdMap String PnlState :=
  states.insert asset (f ((states.find? asset).getD default))

def quantitiesOf (balances : List PnlBalanceRow) : OrdMap String ℚ :=
  OrdMap.empty.insertAll (balances.map fun balance => (balance.assetSymbol, balance.quantity))

def marketPricesOf (prices : List PnlMarketPriceRow) : OrdMap String (Option ℚ) :=
  OrdMap.empty.insertAll (prices.map fun price => (price.assetSymbol, price.marketPrice))

/-- The states after the loop over the trades. -/
def tradeStates (trades : List PnlTradeRow) : OrdMap String PnlState :=
  trades.foldl (fun states trade => entryOrDefault states trade.assetSymbol (·.trade trade))
    OrdMap.empty

/-- The states after the loop over the assets held. -/
def pnlStates (trades : List PnlTradeRow) (balances : List PnlBalanceRow) :
    OrdMap String PnlState :=
  (quantitiesOf balances).keys.foldl (fun states asset => entryOrDefault states asset id)
    (tradeStates trades)

/-- The row of an asset. -/
def pnlRow (quantities : OrdMap String ℚ) (marketPrices : OrdMap String (Option ℚ))
    (assetSymbol : String) (state : PnlState) : PnlRow :=
  let quantity := (quantities.find? assetSymbol).getD state.remainingQuantity
  let remainingCost := state.remainingCost
  let avgCost := if 0 < quantity then remainingCost / quantity else 0
  let marketPrice := (marketPrices.find? assetSymbol).join
  { assetSymbol
    quantity
    avgCost
    marketPrice
    unrealisedPnl := marketPrice.map fun price => (price - avgCost) * quantity
    realisedPnl := state.realisedPnl }

def computePnl (trades : List PnlTradeRow) (balances : List PnlBalanceRow)
    (prices : List PnlMarketPriceRow) : List PnlRow :=
  (pnlStates trades balances).entries.map fun entry =>
    pnlRow (quantitiesOf balances) (marketPricesOf prices) entry.1 entry.2

/-! ## The lots left -/

/-- The lots are what is left of the purchases: some were sold whole, and at most the first of
those left was sold in part. -/
inductive LeftOf : List CostLot → List CostLot → Prop
  | nil : LeftOf [] []
  | left (first : CostLot) (rest : List CostLot) (quantity : ℚ) (hpos : 0 < quantity)
      (hle : quantity ≤ first.quantity) :
      LeftOf ({ first with quantity } :: rest) (first :: rest)
  | sold (first : CostLot) {lots purchases : List CostLot} (h : LeftOf lots purchases) :
      LeftOf lots (first :: purchases)

/-- Every lot holds something. -/
def Filled (lots : List CostLot) : Prop := ∀ lot ∈ lots, 0 < lot.quantity

namespace LeftOf

variable {lots lots' purchases : List CostLot}

theorem refl (h : Filled lots) : LeftOf lots lots := by
  cases lots with
  | nil => exact .nil
  | cons first rest =>
    exact .left first rest first.quantity (h first List.mem_cons_self) le_rfl

theorem trans (h' : LeftOf lots' lots) (h : LeftOf lots purchases) : LeftOf lots' purchases := by
  induction h with
  | nil => exact h'
  | left first rest quantity hpos hle =>
    cases h' with
    | left _ _ quantity' hpos' hle' => exact .left first rest quantity' hpos' (hle'.trans hle)
    | sold _ hrest => exact .sold first hrest
  | sold first _ ih => exact .sold first (ih h')

/-- What is bought joins both ends. -/
theorem snoc (h : LeftOf lots purchases) (lot : CostLot) (hlot : 0 < lot.quantity) :
    LeftOf (lots ++ [lot]) (purchases ++ [lot]) := by
  induction h with
  | nil => exact .left lot [] lot.quantity hlot le_rfl
  | left first rest quantity hpos hle => exact .left first (rest ++ [lot]) quantity hpos hle
  | sold first _ ih => exact .sold first ih

theorem filled (h : LeftOf lots purchases) (hp : Filled purchases) : Filled lots := by
  induction h with
  | nil => exact hp
  | left first rest quantity hpos _ =>
    intro lot hlot
    rcases List.mem_cons.mp hlot with rfl | hrest
    · exact hpos
    · exact hp lot (List.mem_cons_of_mem _ hrest)
  | sold first _ ih => exact ih fun lot hlot => hp lot (List.mem_cons_of_mem _ hlot)

end LeftOf

/-- A sale uses up lots from the front. -/
theorem sellLots_leftOf {price : ℚ} {lots : List CostLot} {quantity realisedPnl : ℚ}
    (h : Filled lots) : LeftOf (PnlState.sellLots price lots quantity realisedPnl).lots lots := by
  induction lots generalizing quantity realisedPnl with
  | nil =>
    unfold PnlState.sellLots
    split_ifs <;> exact .nil
  | cons front lots ih =>
    rcases le_or_gt quantity 0 with hdone | hq
    · rw [PnlState.sellLots_done hdone]
      exact .refl h
    -- a front lot that is not used up ends the loop
    rcases le_or_gt front.quantity quantity with hwhole | hpart
    · rw [PnlState.sellLots_whole hq hwhole]
      exact .sold front (ih fun lot hlot => h lot (List.mem_cons_of_mem _ hlot))
    · rw [PnlState.sellLots_part hq hpart]
      exact .left front lots (front.quantity - quantity) (by linarith) (by linarith)

/-! ## The money -/

/-- The cost of a queue. -/
def costOf (lots : List CostLot) : ℚ := (lots.map fun lot => lot.quantity * lot.unitCost).sum

theorem remainingCost_eq (state : PnlState) : state.remainingCost = costOf state.lots := by
  unfold PnlState.remainingCost costOf
  rw [List.sum_eq_foldl, List.foldl_map]

theorem remainingQuantity_eq (state : PnlState) :
    state.remainingQuantity = (state.lots.map CostLot.quantity).sum := by
  unfold PnlState.remainingQuantity
  rw [List.sum_eq_foldl, List.foldl_map]

/-- A sale turns what it takes from the lots, and what no lot covers, into money at its price. -/
theorem sellLots_money {price : ℚ} {lots : List CostLot} {quantity realisedPnl : ℚ}
    (h : 0 ≤ quantity) :
    (PnlState.sellLots price lots quantity realisedPnl).realisedPnl -
        costOf (PnlState.sellLots price lots quantity realisedPnl).lots =
      realisedPnl - costOf lots + price * quantity := by
  induction lots generalizing quantity realisedPnl with
  -- what is sold without a lot is all profit
  | nil =>
    unfold PnlState.sellLots
    split_ifs with hq
    · ring
    · have hzero : quantity = 0 := le_antisymm (not_lt.mp hq) h
      rw [hzero]
      ring
  | cons front lots ih =>
    rcases h.eq_or_lt with rfl | hq
    · rw [PnlState.sellLots_done le_rfl]
      ring
    -- the first lot is used up, or a part of it
    rcases le_or_gt front.quantity quantity with hwhole | hpart
    · rw [PnlState.sellLots_whole hq hwhole, ih (sub_nonneg.mpr hwhole)]
      simp only [costOf, List.map_cons, List.sum_cons]
      ring
    · rw [PnlState.sellLots_part hq hpart]
      simp only [costOf, List.map_cons, List.sum_cons]
      ring

/-! ## An asset through its own trades -/

/-- The trades of an asset, in order. -/
def tradesOf (asset : String) (trades : List PnlTradeRow) : List PnlTradeRow :=
  trades.filter fun trade => trade.assetSymbol = asset

/-- An asset has no trades if none names it. -/
theorem tradesOf_eq_nil {asset : String} {trades : List PnlTradeRow} :
    tradesOf asset trades = [] ↔ asset ∉ trades.map PnlTradeRow.assetSymbol := by
  simp [tradesOf, List.filter_eq_nil_iff]

/-- What was bought, in order and in full. -/
def purchases (trades : List PnlTradeRow) : List CostLot :=
  (trades.filter fun trade => trade.side = "buy").map fun trade => ⟨trade.quantity, trade.price⟩

/-- What the purchases cost. -/
def spent (trades : List PnlTradeRow) : ℚ :=
  ((trades.filter fun trade => trade.side = "buy").map fun trade =>
    trade.price * trade.quantity).sum

/-- What the sales brought. -/
def proceeds (trades : List PnlTradeRow) : ℚ :=
  ((trades.filter fun trade => trade.side ≠ "buy").map fun trade =>
    trade.price * trade.quantity).sum

/-- The state accounts for the trades: its lots are the newest of what was bought, and its
profit and what its lots cost are what the sales brought more than the purchases cost. -/
structure Accounts (trades : List PnlTradeRow) (state : PnlState) : Prop where
  lots : LeftOf state.lots (purchases trades)
  money : state.realisedPnl - costOf state.lots = proceeds trades - spent trades

theorem filled_purchases {trades : List PnlTradeRow} (h : ∀ trade ∈ trades, 0 < trade.quantity) :
    Filled (purchases trades) := by
  intro lot hlot
  rcases List.mem_map.mp hlot with ⟨trade, htrade, rfl⟩
  exact h trade (List.mem_of_mem_filter htrade)

section

variable {trade : PnlTradeRow} (trades : List PnlTradeRow)

theorem purchases_buy (h : trade.side = "buy") :
    purchases (trades ++ [trade]) = purchases trades ++ [⟨trade.quantity, trade.price⟩] := by
  simp [purchases, h]

theorem spent_buy (h : trade.side = "buy") :
    spent (trades ++ [trade]) = spent trades + trade.price * trade.quantity := by
  simp [spent, h]

theorem proceeds_buy (h : trade.side = "buy") :
    proceeds (trades ++ [trade]) = proceeds trades := by
  simp [proceeds, h]

theorem purchases_sell (h : trade.side ≠ "buy") :
    purchases (trades ++ [trade]) = purchases trades := by
  simp [purchases, h]

theorem spent_sell (h : trade.side ≠ "buy") : spent (trades ++ [trade]) = spent trades := by
  simp [spent, h]

theorem proceeds_sell (h : trade.side ≠ "buy") :
    proceeds (trades ++ [trade]) = proceeds trades + trade.price * trade.quantity := by
  simp [proceeds, h]

end

/-- One trade more. -/
theorem Accounts.trade {trades : List PnlTradeRow} {state : PnlState} {trade : PnlTradeRow}
    (h : Accounts trades state) (htrades : ∀ trade ∈ trades, 0 < trade.quantity)
    (hquantity : 0 < trade.quantity) : Accounts (trades ++ [trade]) (state.trade trade) := by
  have hmoney := h.money
  unfold PnlState.trade
  split_ifs with hside
  · -- a purchase is a lot more and costs what it is worth
    constructor
    · rw [purchases_buy trades hside]
      exact h.lots.snoc _ hquantity
    · rw [proceeds_buy trades hside, spent_buy trades hside]
      simp only [PnlState.buy, costOf, List.map_append, List.sum_append, List.map_singleton,
        List.sum_singleton] at hmoney ⊢
      linarith
  · -- a sale takes lots from the front
    constructor
    · rw [purchases_sell trades hside]
      exact (sellLots_leftOf (h.lots.filled (filled_purchases htrades))).trans h.lots
    · rw [proceeds_sell trades hside, spent_sell trades hside]
      have hsale : (state.sell trade.quantity trade.price).realisedPnl -
          costOf (state.sell trade.quantity trade.price).lots =
            state.realisedPnl - costOf state.lots + trade.price * trade.quantity :=
        sellLots_money hquantity.le
      linarith

/-- The state that trades lead to. -/
def stateOf (trades : List PnlTradeRow) : PnlState := trades.foldl PnlState.trade default

/-- The state of an asset accounts for its trades. -/
theorem accounts_stateOf {trades : List PnlTradeRow}
    (htrades : ∀ trade ∈ trades, 0 < trade.quantity) : Accounts trades (stateOf trades) := by
  induction trades using List.reverseRecOn with
  | nil => exact ⟨.nil, rfl⟩
  | append_singleton trades trade ih =>
    have hbefore : ∀ trade ∈ trades, 0 < trade.quantity :=
      fun trade htrade => htrades trade (List.mem_append_left _ htrade)
    have hstate : stateOf (trades ++ [trade]) = (stateOf trades).trade trade := by
      simp [stateOf]
    rw [hstate]
    exact (ih hbefore).trade hbefore (htrades trade (by simp))

/-- Only the entry of the asset changes. -/
theorem find?_entryOrDefault (states : OrdMap String PnlState) (asset asset' : String)
    (f : PnlState → PnlState) :
    (entryOrDefault states asset f).find? asset' =
      if asset' = asset then some (f ((states.find? asset).getD default))
      else states.find? asset' :=
  OrdMap.find?_insert states asset asset' _

/-- After the loop over the trades an asset is in the state its own trades lead to. -/
theorem find?_tradeStates (trades : List PnlTradeRow) (asset : String) :
    (tradeStates trades).find? asset =
      if asset ∈ trades.map PnlTradeRow.assetSymbol then some (stateOf (tradesOf asset trades))
      else none := by
  induction trades using List.reverseRecOn with
  | nil => rfl
  | append_singleton trades trade ih =>
    have hstates : tradeStates (trades ++ [trade]) =
        entryOrDefault (tradeStates trades) trade.assetSymbol (·.trade trade) := by
      simp [tradeStates]
    rw [hstates, find?_entryOrDefault]
    split_ifs with hasset hmem hmem
    · -- the trade is one of the asset's
      subst hasset
      have hbefore : ((tradeStates trades).find? trade.assetSymbol).getD default =
          stateOf (tradesOf trade.assetSymbol trades) := by
        rw [ih]
        split_ifs with hold
        · rfl
        · rw [tradesOf_eq_nil.mpr hold]
          rfl
      rw [hbefore]
      simp [tradesOf, stateOf]
    · subst hasset
      simp at hmem
    -- the trade is of another asset
    · have hother : tradesOf asset (trades ++ [trade]) = tradesOf asset trades := by
        simp [tradesOf, Ne.symm hasset]
      rw [ih, hother, if_pos (by simpa [hasset] using hmem)]
    · rw [ih, if_neg (by simpa [hasset] using hmem)]

theorem find?_foldl_entryOrDefault (assets : List String) (states : OrdMap String PnlState)
    (asset : String) :
    (assets.foldl (fun states asset => entryOrDefault states asset id) states).find? asset =
      if asset ∈ assets then some ((states.find? asset).getD default)
      else states.find? asset := by
  induction assets generalizing states with
  | nil => simp
  | cons first assets ih =>
    rw [List.foldl_cons, ih, find?_entryOrDefault]
    by_cases hfirst : asset = first
    · subst hfirst
      simp
    · simp [hfirst]

theorem mem_keys_quantitiesOf {balances : List PnlBalanceRow} {asset : String} :
    asset ∈ (quantitiesOf balances).keys ↔
      asset ∈ balances.map PnlBalanceRow.assetSymbol := by
  rw [OrdMap.mem_keys, ← Option.isSome_iff_exists, quantitiesOf, OrdMap.find?_insertAll_isSome]
  simp

/-- An asset traded or held is in the state its own trades lead to; no other has a state. -/
theorem find?_pnlStates (trades : List PnlTradeRow) (balances : List PnlBalanceRow)
    (asset : String) :
    (pnlStates trades balances).find? asset =
      if asset ∈ trades.map PnlTradeRow.assetSymbol ∨
          asset ∈ balances.map PnlBalanceRow.assetSymbol then
        some (stateOf (tradesOf asset trades))
      else none := by
  rw [pnlStates, find?_foldl_entryOrDefault, find?_tradeStates]
  simp only [mem_keys_quantitiesOf]
  by_cases htraded : asset ∈ trades.map PnlTradeRow.assetSymbol
  · simp [htraded]
  · simp only [htraded, if_false, false_or, tradesOf_eq_nil.mpr htraded, Option.getD_none]
    rfl

/-! ## The row of an asset -/

/-- The rows of an asset. -/
def rowsOf (asset : String) (rows : List PnlRow) : List PnlRow :=
  rows.filter fun row => row.assetSymbol = asset

theorem rowsOf_computePnl (trades : List PnlTradeRow) (balances : List PnlBalanceRow)
    (prices : List PnlMarketPriceRow) (asset : String) :
    rowsOf asset (computePnl trades balances prices) =
      (((pnlStates trades balances).find? asset).map
        (pnlRow (quantitiesOf balances) (marketPricesOf prices) asset)).toList := by
  have hfilter := (pnlStates trades balances).filter_entries_key asset
  rw [rowsOf, computePnl, List.filter_map]
  have hkey : ((fun row : PnlRow => decide (row.assetSymbol = asset)) ∘ fun entry =>
      pnlRow (quantitiesOf balances) (marketPricesOf prices) entry.1 entry.2) =
        fun entry : String × PnlState => decide (entry.1 = asset) := rfl
  rw [hkey, hfilter]
  cases (pnlStates trades balances).find? asset <;> rfl

/-- The quantity of an asset among the balances. There is at most one, and the last would count. -/
def heldOf (asset : String) (balances : List PnlBalanceRow) : Option ℚ :=
  (balances.filter fun balance => balance.assetSymbol = asset).getLast?.map (·.quantity)

/-- The market price of an asset among the prices, if it has one. -/
def marketOf (asset : String) (prices : List PnlMarketPriceRow) : Option ℚ :=
  ((prices.filter fun price => price.assetSymbol = asset).getLast?.map (·.marketPrice)).join

/-- The row and the state of an asset agree with what was traded, what is held and what the market
pays: the profit taken, the lots left, and, at a market price, what the account is worth. -/
structure Fifo (trades : List PnlTradeRow) (held market : Option ℚ) (state : PnlState)
    (row : PnlRow) : Prop where
  realised : row.realisedPnl = proceeds trades - spent trades + state.remainingCost
  lots : LeftOf state.lots (purchases trades)
  filled : Filled state.lots
  /-- The balance says how much there is; of an asset that is not held the lots do. -/
  quantity : row.quantity = held.getD (state.lots.map CostLot.quantity).sum
  priced : row.marketPrice = market
  unpriced : market = none → row.unrealisedPnl = none
  marked : ∀ price, market = some price → ∃ unrealised,
    row.unrealisedPnl = some unrealised ∧
      row.realisedPnl + unrealised = proceeds trades - spent trades + price * row.quantity

/-- The quantity of a row is the last balance given for its asset. -/
theorem find?_quantitiesOf (balances : List PnlBalanceRow) (asset : String) :
    (quantitiesOf balances).find? asset = heldOf asset balances := by
  unfold quantitiesOf heldOf
  rw [OrdMap.find?_insertAll_last, List.filter_map, List.getLast?_map, Option.map_map]
  exact Option.or_none

/-- The price of a row is the last one given for its asset, if that has one. -/
theorem find?_marketPricesOf (prices : List PnlMarketPriceRow) (asset : String) :
    ((marketPricesOf prices).find? asset).join = marketOf asset prices := by
  unfold marketPricesOf marketOf
  rw [OrdMap.find?_insertAll_last, List.filter_map, List.getLast?_map, Option.map_map,
    show OrdMap.empty.find? asset = (none : Option (Option ℚ)) from rfl, Option.or_none]
  rfl

/-- The average cost of a row is that of its quantity. -/
theorem avgCost_mul_quantity {balances : List PnlBalanceRow} {prices : List PnlMarketPriceRow}
    {asset : String} {state : PnlState} (hbalances : ∀ balance ∈ balances, 0 < balance.quantity)
    (hfilled : Filled state.lots) :
    (pnlRow (quantitiesOf balances) (marketPricesOf prices) asset state).avgCost *
        (pnlRow (quantitiesOf balances) (marketPricesOf prices) asset state).quantity =
      state.remainingCost := by
  simp only [pnlRow]
  split_ifs with hpos
  · exact div_mul_cancel₀ _ hpos.ne'
  · -- only lots can sum up to nothing, and then there are none
    have hlots : state.lots = [] := by
      cases hfind : (quantitiesOf balances).find? asset with
      | some quantity =>
        rw [hfind, Option.getD_some] at hpos
        rcases OrdMap.mem_of_find?_insertAll hfind with hmem | hempty
        · rcases List.mem_map.mp hmem with ⟨balance, hbalance, heq⟩
          have hquantity : balance.quantity = quantity := (Prod.ext_iff.mp heq).2
          exact absurd (hquantity ▸ hbalances balance hbalance) hpos
        · simp at hempty
      | none =>
        rw [hfind, Option.getD_none, remainingQuantity_eq] at hpos
        by_contra hsome
        refine hpos (List.sum_pos _ ?_ (by simpa using hsome))
        intro quantity hquantity
        rcases List.mem_map.mp hquantity with ⟨lot, hlot, rfl⟩
        exact hfilled lot hlot
    simp [remainingCost_eq, costOf, hlots]

/-- The row of an asset whose state accounts for its trades. -/
theorem fifo_pnlRow {trades : List PnlTradeRow} {balances : List PnlBalanceRow}
    {prices : List PnlMarketPriceRow} {asset : String} {state : PnlState}
    (h : Accounts trades state) (htrades : ∀ trade ∈ trades, 0 < trade.quantity)
    (hbalances : ∀ balance ∈ balances, 0 < balance.quantity) :
    Fifo trades (heldOf asset balances) (marketOf asset prices) state
      (pnlRow (quantitiesOf balances) (marketPricesOf prices) asset state) := by
  have hfilled : Filled state.lots := h.lots.filled (filled_purchases htrades)
  have hmoney : state.realisedPnl =
      proceeds trades - spent trades + state.remainingCost := by
    rw [remainingCost_eq]
    linarith [h.money]
  set row := pnlRow (quantitiesOf balances) (marketPricesOf prices) asset state
  have hmarket : row.marketPrice = marketOf asset prices := find?_marketPricesOf prices asset
  have hunrealised : row.unrealisedPnl =
      row.marketPrice.map fun price => (price - row.avgCost) * row.quantity := rfl
  constructor
  · -- what was realised, the lots, and the quantity that is held
    exact hmoney
  · exact h.lots
  · exact hfilled
  · rw [← remainingQuantity_eq, ← find?_quantitiesOf]
    rfl
  · exact hmarket
  · -- without a price nothing is marked
    intro hnone
    rw [hunrealised, hmarket, hnone]
    rfl
  · -- with one, the two results add up to proceeds and value less what was spent
    intro price hprice
    have hcost : row.avgCost * row.quantity = state.remainingCost :=
      avgCost_mul_quantity hbalances hfilled
    rw [hmarket, hprice, Option.map_some] at hunrealised
    refine ⟨_, hunrealised, ?_⟩
    have hrealised : row.realisedPnl = state.realisedPnl := rfl
    rw [hrealised, hmoney, ← hcost]
    ring

/-- The row of an asset is made from its own trades. -/
theorem rowsOf_congr {trades trades' : List PnlTradeRow} {balances : List PnlBalanceRow}
    {prices : List PnlMarketPriceRow} {asset : String}
    (h : tradesOf asset trades' = tradesOf asset trades) :
    rowsOf asset (computePnl trades' balances prices) =
      rowsOf asset (computePnl trades balances prices) := by
  have htraded : asset ∈ trades'.map PnlTradeRow.assetSymbol ↔
      asset ∈ trades.map PnlTradeRow.assetSymbol := by
    rw [← not_iff_not, ← tradesOf_eq_nil, ← tradesOf_eq_nil, h]
  rw [rowsOf_computePnl, rowsOf_computePnl, find?_pnlStates, find?_pnlStates, h]
  simp only [htraded]

/-- An asset traded or held has one row. It tells the profit of the asset's own trades, first in
first out, whatever other assets were traded and however the trades are interleaved. -/
theorem computePnl_fifo {trades : List PnlTradeRow} {balances : List PnlBalanceRow}
    (prices : List PnlMarketPriceRow) {asset : String}
    (htrades : ∀ trade ∈ trades, 0 < trade.quantity)
    (hbalances : ∀ balance ∈ balances, 0 < balance.quantity)
    (hasset : asset ∈ trades.map PnlTradeRow.assetSymbol ∨
      asset ∈ balances.map PnlBalanceRow.assetSymbol) :
    ∃ state row, (pnlStates trades balances).find? asset = some state ∧
      rowsOf asset (computePnl trades balances prices) = [row] ∧
      Fifo (tradesOf asset trades) (heldOf asset balances) (marketOf asset prices) state row ∧
      ∀ trades', tradesOf asset trades' = tradesOf asset trades →
        rowsOf asset (computePnl trades' balances prices) = [row] := by
  have hstate : (pnlStates trades balances).find? asset =
      some (stateOf (tradesOf asset trades)) := by
    rw [find?_pnlStates, if_pos hasset]
  have hrows : rowsOf asset (computePnl trades balances prices) =
      [pnlRow (quantitiesOf balances) (marketPricesOf prices) asset
        (stateOf (tradesOf asset trades))] := by
    rw [rowsOf_computePnl, hstate]
    rfl
  have hown : ∀ trade ∈ tradesOf asset trades, 0 < trade.quantity :=
    fun trade htrade => htrades trade (List.mem_of_mem_filter htrade)
  refine ⟨_, _, hstate, hrows, ?_, fun trades' h => (rowsOf_congr h).trans hrows⟩
  exact fifo_pnlRow (accounts_stateOf hown) hown hbalances

example : computePnl [⟨"BTC", "buy", 100, 1⟩, ⟨"BTC", "buy", 120, 1⟩, ⟨"BTC", "sell", 150, 3 / 2⟩]
    [⟨"BTC", 1 / 2⟩] [⟨"BTC", some 200⟩] = [⟨"BTC", 1 / 2, 120, some 200, some 40, 65⟩] := by
  decide +kernel

/-- Two bitcoins are bought, between them an ether, and one and a half sold. -/
def bitcoinTrades : List PnlTradeRow :=
  [⟨"BTC", "buy", 100, 1⟩, ⟨"ETH", "buy", 3000, 2⟩, ⟨"BTC", "buy", 120, 1⟩,
    ⟨"BTC", "sell", 150, 3 / 2⟩]

theorem computePnl_fifo_bitcoin :
    ∃ state row, (pnlStates bitcoinTrades [⟨"BTC", 1 / 2⟩]).find? "BTC" = some state ∧
      rowsOf "BTC" (computePnl bitcoinTrades [⟨"BTC", 1 / 2⟩] [⟨"BTC", some 200⟩]) = [row] ∧
      Fifo (tradesOf "BTC" bitcoinTrades) (heldOf "BTC" [⟨"BTC", 1 / 2⟩])
        (marketOf "BTC" [⟨"BTC", some 200⟩]) state row ∧
      ∀ trades', tradesOf "BTC" trades' = tradesOf "BTC" bitcoinTrades →
        rowsOf "BTC" (computePnl trades' [⟨"BTC", 1 / 2⟩] [⟨"BTC", some 200⟩]) = [row] := by
  refine computePnl_fifo _ ?_ ?_ ?_
  · intro trade htrade
    simp only [bitcoinTrades, List.mem_cons, List.not_mem_nil, or_false] at htrade
    rcases htrade with rfl | rfl | rfl | rfl <;> norm_num
  · intro balance hbalance
    rw [List.mem_singleton.mp hbalance]
    norm_num
  · left
    decide

end CryptoCex.Api
