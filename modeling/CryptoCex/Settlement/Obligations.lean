import CryptoCex.Lib.Machine
import CryptoCex.Server.Exchange
import CryptoCex.Settlement.Effects
import Mathlib.Tactic.Linarith
import Mathlib.Tactic.Ring

/-!
# Locks and obligations

An open order obliges its owner to keep locked what is left of it: the quantity for a sell
order, the quantity at the limit price for a buy order. In exact arithmetic settlement locks
this amount when the order is accepted and releases it when the order is canceled. A fill
takes the notional of the trade from what the buyer has locked, while the obligation sinks
by the quantity at the limit price; what is saved by a better price stays locked
(`Slack.fill`). So locks and obligations agree if every fill is at the buyer's price
(`locked_eq_outstanding`), and come apart otherwise (`price_improvement_stays_locked`).
-/

namespace CryptoCex.Settlement

open CryptoCex.Core (Uuid)
open Db (Balance MarketRow OrderRow OrderStatus Tables value)
open Machine (run Along)
open Proto (EngineEvent EngineOrder OrderSide SequencedEngineEvent TradeFill)

/-! ## Obligations -/

/-- What this many units of an order oblige its owner to deliver. -/
def owedFor (market : MarketRow) (row : OrderRow) (units : ℚ) : Uuid × ℚ :=
  match row.side with
  | .buy => (market.quoteAssetId, row.price.elim 0 fun price => price * units)
  | .sell => (market.baseAssetId, units)

/-- An amount of an asset, seen from an account of a user. -/
def inAccount (key : Uuid × Uuid) (userId : Uuid) (p : Uuid × ℚ) : ℚ :=
  if key = (userId, p.1) then p.2 else 0

/-- What is left of an order obliges its owner to this in an account, whatever the status
says. -/
def owes (markets : String → Option MarketRow) (key : Uuid × Uuid) (row : OrderRow) : ℚ :=
  match markets row.market with
  | none => 0
  | some market => inAccount key row.userId (owedFor market row (remaining row))

/-- What an open order obliges its owner to keep locked in an account. -/
def due (markets : String → Option MarketRow) (key : Uuid × Uuid) (row : OrderRow) : ℚ :=
  match markets row.market with
  | none => 0
  | some market =>
    let owed := owedFor market row (remaining row)
    if terminal row.status = false ∧ key = (row.userId, owed.1) then owed.2 else 0

/-- The obligations of all orders in an account. -/
def outstanding (db : Tables) (key : Uuid × Uuid) : ℚ := db.orders.total (due db.markets key)

/-- What is locked in an account. -/
def locked (db : Tables) (key : Uuid × Uuid) : ℚ :=
  match db.balances key with
  | none => 0
  | some row => row.locked

/-- Open orders are not overfilled, and have positive prices. -/
def Sane (db : Tables) : Prop :=
  ∀ orderId row, db.orders.find? orderId = some row → terminal row.status = false →
    0 ≤ remaining row ∧ ∀ price, row.price = some price → 0 < price

variable {db db' : Tables} {seq : ℕ}

theorem owedFor_asset (market : MarketRow) (row : OrderRow) (units units' : ℚ) :
    (owedFor market row units).1 = (owedFor market row units').1 := by
  unfold owedFor
  cases row.side <;> rfl

/-- No order owes a negative amount. -/
theorem owedFor_nonneg {market : MarketRow} {row : OrderRow} {units : ℚ} (hunits : 0 ≤ units)
    (hprice : ∀ price, row.price = some price → 0 < price) : 0 ≤ (owedFor market row units).2 := by
  unfold owedFor
  cases row.side with
  | sell => exact hunits
  | buy =>
    cases hp : row.price with
    | none => exact le_rfl
    | some price => exact mul_nonneg (hprice price hp).le hunits

/-- A cancellation unlocks what the rest of the order owes. -/
theorem cancelObligation_exact (order : FetchedOrder) :
    cancelObligation .exact order = .ok (owedFor order.market order.row (remaining order.row)) := by
  unfold cancelObligation owedFor
  cases order.row.side with
  | sell => rfl
  | buy =>
    cases order.row.price with
    | none => rfl
    | some price => rfl

/-- An order that is done owes nothing. -/
theorem due_of_terminal {markets : String → Option MarketRow} {row : OrderRow}
    (h : terminal row.status = true) (key : Uuid × Uuid) : due markets key row = 0 := by
  unfold due
  cases markets row.market with
  | none => rfl
  | some market => simp [h]

/-- An open order owes for what remains. -/
theorem due_of_open {markets : String → Option MarketRow} {row : OrderRow}
    (h : terminal row.status = false) (key : Uuid × Uuid) :
    due markets key row = owes markets key row := by
  unfold due owes inAccount
  cases markets row.market with
  | none => rfl
  | some market => simp [h]

/-- What an order owes in an account. -/
theorem owes_eq {markets : String → Option MarketRow} {row : OrderRow} {market : MarketRow}
    (hmarket : markets row.market = some market) (key : Uuid × Uuid) :
    owes markets key row = inAccount key row.userId (owedFor market row (remaining row)) := by
  rw [owes, hmarket]

theorem inAccount_nonneg {key : Uuid × Uuid} {userId : Uuid} {p : Uuid × ℚ} (h : 0 ≤ p.2) :
    0 ≤ inAccount key userId p := by
  unfold inAccount
  split_ifs
  · exact h
  · exact le_rfl

/-! ## Locks -/

/-- What a change of a balance adds to what is locked in an account. -/
def LedgerMutation.lockedIn (key : Uuid × Uuid) (m : LedgerMutation) : ℚ :=
  if key = (m.userId, m.assetId) then m.lockedDelta else 0

theorem locked_congr (h : db'.balances = db.balances) (key : Uuid × Uuid) :
    locked db' key = locked db key := by
  unfold locked
  rw [h]

/-- Mutations change the locked amounts as they say. -/
theorem locked_applyLedgers {ms : List LedgerMutation}
    (h : applyLedgers Arithmetic.exact.store ms db = .ok db') (key : Uuid × Uuid) :
    locked db' key = locked db key + (ms.map (·.lockedIn key)).sum := by
  induction ms generalizing db with
  | nil =>
    cases h
    simp
  | cons m ms ih =>
    rcases applyLedgers_cons_eq_ok.mp h with ⟨mid, hmid, hrest⟩
    rcases applyLedger_eq_ok.mp hmid with
      ⟨row, available, lockedAfter, _, hrow, _, hlocked, _, _, _, _, hafter⟩
    cases hlocked
    have hfirst : locked mid key = locked db key + m.lockedIn key := by
      rw [hafter]
      unfold locked LedgerMutation.lockedIn
      by_cases heq : key = (m.userId, m.assetId)
      · simp [heq, hrow]
      · simp [heq]
    rw [ih hrest, hfirst, List.map_cons, List.sum_cons]
    ring

/-- What is locked in an account beyond the obligations. -/
def slack (db : Tables) (key : Uuid × Uuid) : ℚ := locked db key - outstanding db key

/-! ## Accepted orders -/

theorem storePositive_exact {x y : Option ℚ} (h : Tables.storePositive some x = .ok y) :
    y = x ∧ ∀ v, x = some v → 0 < v := by
  unfold Tables.storePositive at h
  split at h
  · cases h
    exact ⟨rfl, by simp⟩
  · next v =>
    simp only at h
    split_ifs at h with hpos
    cases h
    exact ⟨rfl, fun v' hv => Option.some.inj hv ▸ hpos⟩

/-- In exact arithmetic a row is stored as it was given. -/
theorem checkedRow_exact {input : Tables.InsertOrder} {status : OrderStatus} {row : OrderRow}
    (h : Tables.checkedRow some input status = .ok row) :
    row = { userId := input.userId
            market := input.market
            clientOrderId := input.clientOrderId
            side := input.side
            status := status
            price := input.price
            quantity := input.quantity
            filledQuantity := 0
            avgFillPrice := none } ∧
      (∀ v, input.price = some v → 0 < v) ∧ (∀ v, input.quantity = some v → 0 < v) ∧
      ∀ v, input.quoteQuantity = some v → 0 < v := by
  unfold Tables.checkedRow at h
  rcases Except.bind_eq_ok.mp h with ⟨price, hprice, h⟩
  rcases Except.bind_eq_ok.mp h with ⟨_, _, h⟩
  rcases Except.bind_eq_ok.mp h with ⟨quantity, hquantity, h⟩
  rcases Except.bind_eq_ok.mp h with ⟨_, hquote, h⟩
  rcases Except.bind_eq_ok.mp h with ⟨_, _, h⟩
  rcases storePositive_exact hprice with ⟨rfl, hpricePos⟩
  rcases storePositive_exact hquantity with ⟨rfl, hquantityPos⟩
  split_ifs at h
  · cases h
  · cases h
    exact ⟨rfl, hpricePos, hquantityPos, (storePositive_exact hquote).2⟩

/-- The row of an accepted order. -/
theorem acceptedRow_exact {order : EngineOrder} {row : OrderRow}
    (h : Tables.checkedRow some (acceptedRow order) .new = .ok row) :
    row.userId = order.userId ∧ row.market = order.symbol ∧ terminal row.status = false ∧
      remaining row = value order.quantity ∧ 0 < value order.quantity ∧
      (∀ v, row.price = some v → 0 < v) ∧
      ∀ market, lockObligation .exact order market =
        .ok (owedFor market row (value order.quantity)) := by
  rcases checkedRow_exact h with ⟨rfl, hprice, hquantity, _⟩
  refine ⟨rfl, rfl, rfl, sub_zero _, hquantity _ rfl, hprice, ?_⟩
  intro market
  unfold lockObligation owedFor acceptedRow
  cases order.side with
  | sell => rfl
  | buy => cases order.price <;> rfl

/-- Moving an obligation moves as much as it says, if it is not negative. -/
theorem lockedIn_obligation {mutation : Uuid → ℚ → LedgerMutation} (userId : Uuid) (sign : ℚ)
    (huser : ∀ assetId amount, (mutation assetId amount).userId = userId ∧
      (mutation assetId amount).assetId = assetId ∧
      (mutation assetId amount).lockedDelta = sign * amount)
    {obligation : Uuid × ℚ} (h : 0 ≤ obligation.2) (key : Uuid × Uuid) :
    ((obligationMutations mutation obligation).map (·.lockedIn key)).sum =
      sign * inAccount key userId obligation := by
  rcases huser obligation.1 obligation.2 with ⟨hu, ha, hd⟩
  unfold obligationMutations inAccount
  split_ifs with hpos hkey hkey
  · simp [LedgerMutation.lockedIn, hu, ha, hd, hkey]
  · simp [LedgerMutation.lockedIn, hu, ha, hkey]
  · have hzero : obligation.2 = 0 := le_antisymm (not_lt.mp hpos) h
    simp [hzero]
  · simp

/-- An acceptance changes no slack. -/
theorem slack_accepted {order : EngineOrder}
    (h : Settles .exact seq db (.orderAccepted order) db') (key : Uuid × Uuid) :
    slack db' key = slack db key := by
  cases h with
  | known => rfl
  | @accepted _ market row obligation _ hmarket hchecks hnew hobligation hledger =>
    rcases acceptedRow_exact hchecks with ⟨huser, hsymbol, hopen, hleft, hpos, hprice, hlock⟩
    rw [hlock market] at hobligation
    cases hobligation
    have hkeeps := keepsRest_of_applyLedgers hledger
    have hlocked := locked_applyLedgers hledger key
    rw [lockedIn_obligation order.userId 1 (by simp [lockMutation])
      (owedFor_nonneg hpos.le hprice)] at hlocked
    have hdue : due db.markets key row =
        inAccount key order.userId (owedFor market row (value order.quantity)) := by
      rw [due_of_open hopen, owes_eq (hsymbol ▸ hmarket), huser, hleft]
    unfold slack outstanding
    rw [hlocked, hkeeps.orders, hkeeps.markets, OrdMap.total_insert_new hnew, hdue]
    change locked db key + _ - _ = _
    ring

/-! ## Cancels -/

/-- A cancellation unlocks just what is not owed any more. -/
theorem slack_canceled {orderId : Uuid} {reason : Proto.CancelReason} (hsane : Sane db)
    (h : Settles .exact seq db (.orderCanceled orderId reason) db') (key : Uuid × Uuid) :
    slack db' key = slack db key := by
  cases h with
  | closed => rfl
  | @canceled _ _ order obligation after hid hfetch hopen hobligation hledger =>
    rw [cancelObligation_exact] at hobligation
    cases hobligation
    have hrow : db.orders.find? orderId = some order.row := hid ▸ hfetch.row
    rcases hsane orderId order.row hrow hopen with ⟨hleft, hprice⟩
    have hlocked := locked_applyLedgers hledger key
    rw [lockedIn_obligation order.row.userId (-1) (by simp [unlockMutation])
      (owedFor_nonneg hleft hprice)] at hlocked
    -- the unlocked amount is what the row was counted with
    have hdue : due db.markets key order.row = inAccount key order.row.userId
        (owedFor order.market order.row (remaining order.row)) := by
      rw [due_of_open hopen, owes_eq hfetch.market]
    have htotal := OrdMap.total_insert_known (f := due db.markets key) hrow
      { order.row with status := .canceled }
    -- from now on it is counted with nothing
    have hover : due db.markets key { order.row with status := .canceled } = 0 :=
      due_of_terminal rfl key
    rw [hover, hdue] at htotal
    unfold slack outstanding
    simp only [(keepsRest_of_applyLedgers hledger).markets]
    change locked after key - _ = _
    rw [hlocked]
    linarith

/-! ## Fills -/

/-- What the engine promises of a fill: it is between two orders on opposite sides, both open
and with at least the quantity of the fill left. -/
structure Matches (db : Tables) (f : TradeFill) : Prop where
  distinct : f.takerOrderId ≠ f.makerOrderId
  taker : ∀ row, db.orders.find? f.takerOrderId = some row →
    row.side = f.takerSide ∧ terminal row.status = false ∧ value f.quantity ≤ remaining row
  maker : ∀ row, db.orders.find? f.makerOrderId = some row →
    row.side ≠ f.takerSide ∧ terminal row.status = false ∧ value f.quantity ≤ remaining row

/-- In exact arithmetic a fill adds its quantity to the filled one. -/
theorem fillColumns_exact {row : OrderRow} {price quantity : ℚ} {columns : FillColumns}
    (h : fillColumns .exact row price quantity = .ok columns) :
    columns.filledQuantity = row.filledQuantity + quantity ∧
      columns.status = statusAfterFill row.quantity (row.filledQuantity + quantity) := by
  unfold fillColumns at h
  rcases Except.bind_eq_ok.mp h with ⟨_, _, h⟩
  rcases Except.bind_eq_ok.mp h with ⟨_, _, h⟩
  rcases Except.bind_eq_ok.mp h with ⟨avg, _, h⟩
  simp only [Arithmetic.exact] at h
  split_ifs at h
  cases h
  exact ⟨rfl, rfl⟩

/-- What a fill leaves of an order. -/
theorem remaining_setFill {row : OrderRow} {price quantity : ℚ} {columns : FillColumns}
    (h : fillColumns .exact row price quantity = .ok columns) (hpos : 0 < quantity)
    (hle : quantity ≤ remaining row) :
    remaining (setFill row columns) = remaining row - quantity ∧
      (terminal columns.status = true → remaining row = quantity) ∧
      0 ≤ remaining (setFill row columns) := by
  rcases fillColumns_exact h with ⟨hfilled, hstatus⟩
  unfold remaining at hle ⊢
  simp only [setFill, hfilled, hstatus, statusAfterFill]
  cases hq : row.quantity with
  | none =>
    simp only [hq] at hle
    exact absurd hle (not_le.mpr hpos)
  | some total =>
    simp only [hq] at hle ⊢
    refine ⟨by ring, ?_, by linarith⟩
    intro hterminal
    split_ifs at hterminal with hall
    · linarith
    · cases hterminal

/-- What is owed falls with the quantity. -/
theorem owedFor_sub (market : MarketRow) (row : OrderRow) (x y : ℚ) :
    (owedFor market row (x - y)).2 = (owedFor market row x).2 - (owedFor market row y).2 := by
  unfold owedFor
  cases row.side with
  | sell => rfl
  | buy =>
    cases row.price with
    | none => simp
    | some price => simp [mul_sub]

/-- A fill lowers what an order owes by what the quantity stands for. -/
theorem owes_setFill {markets : String → Option MarketRow} {row : OrderRow} {market : MarketRow}
    {price quantity : ℚ} {columns : FillColumns} (hmarket : markets row.market = some market)
    (h : fillColumns .exact row price quantity = .ok columns) (hpos : 0 < quantity)
    (hle : quantity ≤ remaining row) (key : Uuid × Uuid) :
    owes markets key row = owes markets key (setFill row columns) +
      inAccount key row.userId (owedFor market row quantity) := by
  have hleft := (remaining_setFill h hpos hle).1
  have hafter : owes markets key (setFill row columns) =
      inAccount key row.userId (owedFor market row (remaining row - quantity)) := by
    rw [← hleft]
    exact @owes_eq markets (setFill row columns) market hmarket key
  rw [owes_eq hmarket, hafter]
  unfold inAccount
  rw [owedFor_asset market row (remaining row) quantity,
    owedFor_asset market row (remaining row - quantity) quantity, owedFor_sub]
  split_ifs <;> ring

/-- If the fill is all that was left, the order owes nothing. -/
theorem due_setFill {markets : String → Option MarketRow} {row : OrderRow} {price quantity : ℚ}
    {columns : FillColumns} (h : fillColumns .exact row price quantity = .ok columns)
    (hpos : 0 < quantity) (hle : quantity ≤ remaining row) (key : Uuid × Uuid) :
    due markets key (setFill row columns) = owes markets key (setFill row columns) := by
  cases hstatus : terminal columns.status with
  | false => exact @due_of_open markets (setFill row columns) hstatus key
  | true =>
    rcases remaining_setFill h hpos hle with ⟨hleft, hall, _⟩
    rw [due_of_terminal hstatus]
    have hnone : remaining (setFill row columns) = 0 := by
      rw [hleft, hall hstatus, sub_self]
    unfold owes
    cases markets (setFill row columns).market with
    | none => rfl
    | some market =>
      simp only [hnone]
      unfold inAccount owedFor
      cases (setFill row columns).side with
      | sell => simp
      | buy => cases (setFill row columns).price <;> simp

/-- The sum over the orders after a fill. -/
theorem FillAmounts.total_orders {a : FillAmounts} {orders : OrdMap Uuid OrderRow}
    (htaker : orders.find? a.taker.id = some a.taker.row)
    (hmaker : orders.find? a.maker.id = some a.maker.row) (hne : a.maker.id ≠ a.taker.id)
    (f : OrderRow → ℚ) :
    (a.orders orders).total f + f a.taker.row + f a.maker.row =
      orders.total f + f (setFill a.taker.row a.takerColumns) +
        f (setFill a.maker.row a.makerColumns) := by
  have hfirst := OrdMap.total_insert_known (f := f) htaker (setFill a.taker.row a.takerColumns)
  have hfind : (orders.insert a.taker.id (setFill a.taker.row a.takerColumns)).find?
      a.maker.id = some a.maker.row := by
    rw [OrdMap.find?_insert, if_neg hne, hmaker]
  have hsecond := OrdMap.total_insert_known (f := f) hfind (setFill a.maker.row a.makerColumns)
  unfold FillAmounts.orders
  linarith

/-- What the two orders of a fill owe for its quantity. -/
theorem FillAmounts.total_filled {a : FillAmounts} (fill : TradeFill)
    {orders : OrdMap Uuid OrderRow} {f : OrderRow → ℚ} (part : FetchedOrder → ℚ)
    (htaker : orders.find? a.taker.id = some a.taker.row)
    (hmaker : orders.find? a.maker.id = some a.maker.row) (hne : a.maker.id ≠ a.taker.id)
    (hftaker : f a.taker.row = f (setFill a.taker.row a.takerColumns) + part a.taker)
    (hfmaker : f a.maker.row = f (setFill a.maker.row a.makerColumns) + part a.maker) :
    (a.orders orders).total f =
      orders.total f - (part (a.buyer fill) + part (a.seller fill)) := by
  have hparts : part (a.buyer fill) + part (a.seller fill) = part a.taker + part a.maker := by
    unfold FillAmounts.buyer FillAmounts.seller
    rcases parties_cases fill.takerSide a.taker a.maker with h | h
    · rw [h]
    · rw [h]
      exact add_comm _ _
  have htotal := a.total_orders htaker hmaker hne f
  linarith

/-- What is locked after a fill. -/
theorem locked_filled {a : FillAmounts} {fill : TradeFill} {before after : Tables}
    (h : applyLedgers Arithmetic.exact.store (a.mutations seq fill) before = .ok after)
    (key : Uuid × Uuid) :
    locked after key = locked before key -
      inAccount key (a.buyer fill).row.userId ((a.buyer fill).market.quoteAssetId, a.notional) -
      inAccount key (a.seller fill).row.userId
        ((a.seller fill).market.baseAssetId, value fill.quantity) := by
  have hlocked := locked_applyLedgers h key
  simp only [FillAmounts.mutations, fillMutations, tradeMutation, LedgerMutation.lockedIn,
    List.map_cons, List.map_nil, List.sum_cons, List.sum_nil, ite_self, zero_add,
    add_zero] at hlocked
  rw [hlocked]
  unfold inAccount
  simp only
  split_ifs <;> ring

theorem owedFor_buy {row : OrderRow} (h : row.side = .buy) (market : MarketRow) (units : ℚ) :
    (owedFor market row units).1 = market.quoteAssetId := by
  rw [owedFor, h]

theorem owedFor_sell {row : OrderRow} (h : row.side = .sell) (market : MarketRow) (units : ℚ) :
    owedFor market row units = (market.baseAssetId, units) := by
  rw [owedFor, h]

/-- The buyer's order is a buy order, and the seller's a sell order. -/
theorem Matches.sides {fill : TradeFill} {a : FillAmounts} (h : Matches db fill)
    (ha : a.Of .exact db fill) :
    (a.buyer fill).row.side = .buy ∧ (a.seller fill).row.side = .sell := by
  have htaker := (h.taker a.taker.row (ha.taker_id ▸ ha.taker.row)).1
  have hmaker := (h.maker a.maker.row (ha.maker_id ▸ ha.maker.row)).1
  unfold FillAmounts.buyer FillAmounts.seller parties
  cases hside : fill.takerSide with
  | buy =>
    rw [hside] at htaker hmaker
    refine ⟨htaker, ?_⟩
    cases hsell : a.maker.row.side with
    | buy => exact absurd hsell hmaker
    | sell => rfl
  | sell =>
    rw [hside] at htaker hmaker
    refine ⟨?_, htaker⟩
    cases hbuy : a.maker.row.side with
    | buy => rfl
    | sell => exact absurd hbuy hmaker

/-- The fill is settled with the quantity at a price, and the buyer had locked the quantity at
the limit price: the difference is what the buyer's account gains over its obligations. -/
theorem slack_filled {fill : TradeFill} (hmatches : Matches db fill)
    (h : Settles .exact seq db (.fill fill) db') : db' = db ∨ ∃ a : FillAmounts,
      a.Of .exact db fill ∧ 0 < value fill.quantity ∧ ∀ key, slack db' key = slack db key +
        inAccount key (a.buyer fill).row.userId ((a.buyer fill).market.quoteAssetId,
          (owedFor (a.buyer fill).market (a.buyer fill).row (value fill.quantity)).2 -
            a.notional) := by
  cases h with
  | traded => exact .inl rfl
  | @filled _ a price quantity after _ ha _ hquantity hpos _ hledger =>
    cases hquantity
    have hqty := hpos.2.1
    refine .inr ⟨a, ha, hqty, ?_⟩
    intro key
    rcases hmatches.taker a.taker.row (ha.taker_id ▸ ha.taker.row) with ⟨_, htopen, htle⟩
    rcases hmatches.maker a.maker.row (ha.maker_id ▸ ha.maker.row) with ⟨_, hmopen, hmle⟩
    have hne : a.maker.id ≠ a.taker.id := by
      rw [ha.taker_id, ha.maker_id]
      exact Ne.symm hmatches.distinct
    -- the obligations
    have htaker := owes_setFill ha.taker.market ha.takerColumns hqty htle key
    have hmaker := owes_setFill ha.maker.market ha.makerColumns hqty hmle key
    rw [← due_of_open htopen, ← due_setFill ha.takerColumns hqty htle] at htaker
    rw [← due_of_open hmopen, ← due_setFill ha.makerColumns hqty hmle] at hmaker
    have htotal := FillAmounts.total_filled fill
      (fun order => inAccount key order.row.userId
        (owedFor order.market order.row (value fill.quantity)))
      ha.taker.row ha.maker.row hne htaker hmaker
    have hmarkets : after.markets = db.markets := (keepsRest_of_applyLedgers hledger).markets
    -- the locks
    have hlocked := locked_filled hledger key
    change locked after key = locked db key - _ - _ at hlocked
    rcases hmatches.sides ha with ⟨hbuy, hsell⟩
    unfold slack outstanding
    simp only [hmarkets]
    change locked after key - _ = _
    rw [htotal, hlocked]
    unfold inAccount
    simp only [owedFor_buy hbuy, owedFor_sell hsell]
    split_ifs <;> ring

/-! ## Runs -/

/-- Every event keeps the rows sane. -/
theorem Sane.step {event : EngineEvent} (h : Sane db)
    (hmatches : ∀ f, event = .fill f → Matches db f)
    (hsettles : Settles .exact seq db event db') : Sane db' := by
  intro orderId row hrow hopen
  cases hsettles with
  | @accepted order _ new _ _ _ hchecks _ _ hledger =>
    rw [(keepsRest_of_applyLedgers hledger).orders, OrdMap.find?_insert] at hrow
    split_ifs at hrow with heq
    · cases hrow
      rcases acceptedRow_exact hchecks with ⟨_, _, _, hleft, hpos, hprice, _⟩
      exact ⟨hleft ▸ hpos.le, hprice⟩
    · exact h orderId row hrow hopen
  -- the rows of the fill have at least as much left as it takes
  | @filled fill a _ quantity _ _ ha _ hquantity hpos =>
    cases hquantity
    have hm := hmatches fill rfl
    have htaker := hm.taker a.taker.row (ha.taker_id ▸ ha.taker.row)
    have hmaker := hm.maker a.maker.row (ha.maker_id ▸ ha.maker.row)
    rw [FillAmounts.orders, OrdMap.find?_insert, OrdMap.find?_insert] at hrow
    split_ifs at hrow
    · cases hrow
      exact ⟨(remaining_setFill ha.makerColumns hpos.2.1 hmaker.2.2).2.2,
        (h _ _ ha.maker.row hmaker.2.1).2⟩
    · cases hrow
      exact ⟨(remaining_setFill ha.takerColumns hpos.2.1 htaker.2.2).2.2,
        (h _ _ ha.taker.row htaker.2.1).2⟩
    · exact h orderId row hrow hopen
  -- a cancelled order is not open
  | canceled =>
    rw [OrdMap.find?_insert] at hrow
    split_ifs at hrow
    · cases hrow
      cases hopen
    · exact h orderId row hrow hopen
  | _ => exact h orderId row hrow hopen

/-- The buyer's order. -/
def buyerId (f : TradeFill) : Uuid :=
  match f.takerSide with
  | .buy => f.takerOrderId
  | .sell => f.makerOrderId

/-- The trade is at the limit price of the buyer. -/
def AtBuyersPrice (db : Tables) (f : TradeFill) : Prop :=
  ∀ row, db.orders.find? (buyerId f) = some row → row.price = some (value f.price)

theorem FillAmounts.Of.buyer_row {fill : TradeFill} {a : FillAmounts} (ha : a.Of .exact db fill) :
    db.orders.find? (buyerId fill) = some (a.buyer fill).row := by
  unfold buyerId FillAmounts.buyer parties
  cases fill.takerSide with
  | buy => exact ha.taker_id ▸ ha.taker.row
  | sell => exact ha.maker_id ▸ ha.maker.row

/-- Fills of the run are as the engine promises and at the price of the buyer. -/
def FillsAtLimit (db : Tables) (e : SequencedEngineEvent) : Prop :=
  ∀ f, e.event = .fill f → Matches db f ∧ AtBuyersPrice db f

/-- Locks and obligations agree. -/
structure Agrees (db : Tables) : Prop where
  sane : Sane db
  slack : ∀ key, slack db key = 0

/-- An event whose fill is at the buyer's limit keeps locks and debts in agreement. -/
theorem Agrees.step {e : SequencedEngineEvent} (h : Agrees db) (hok : FillsAtLimit db e)
    (hsettles : Settles .exact e.seq db e.event db') : Agrees db' := by
  refine ⟨h.sane.step (fun f hf => (hok f hf).1) hsettles, ?_⟩
  intro key
  rw [← h.slack key]
  rcases e with ⟨seq, event⟩
  cases event with
  | orderAccepted order => exact slack_accepted hsettles key
  | orderCanceled orderId reason => exact slack_canceled h.sane hsettles key
  | fill f =>
    rcases hok f rfl with ⟨hmatches, hprice⟩
    rcases slack_filled hmatches hsettles with rfl | ⟨a, ha, _, hslack⟩
    · rfl
    · -- the notional is the quantity at the limit price
      have howed : (owedFor (a.buyer f).market (a.buyer f).row (value f.quantity)).2 =
          a.notional := by
        rw [owedFor, (hmatches.sides ha).1, hprice _ ha.buyer_row]
        exact Option.some.inj ha.notional
      rw [hslack key, howed, sub_self, inAccount, ite_self, add_zero]
  | orderRested => cases hsettles; rfl
  | bookDelta => cases hsettles; rfl
  | marketStatus => cases hsettles; rfl

/-- In every run that starts without locks and orders and whose fills are at the buyer's
price, what is locked in an account is the sum of the obligations of the open orders. -/
theorem locked_eq_outstanding {db : Tables} (hlocked : ∀ key, locked db key = 0)
    (horders : db.orders = OrdMap.empty) {es : List SequencedEngineEvent}
    (hfills : Along (step .exact) FillsAtLimit db es) {db' : Tables}
    (hrun : run (step .exact) db es = some db') (key : Uuid × Uuid) :
    locked db' key = outstanding db' key ∧
      ((∀ orderId row, db'.orders.find? orderId = some row → terminal row.status = true) →
        locked db' key = 0) := by
  -- nothing is locked and nothing is owed
  have hstart : Agrees db := by
    refine ⟨?_, ?_⟩
    · intro orderId row hrow
      rw [horders] at hrow
      cases hrow
    · intro key
      rw [slack, hlocked, outstanding, horders]
      exact sub_self 0
  -- every event keeps what is locked and what is owed together
  have hend : Agrees db' := by
    refine Machine.run_invariant Agrees FillsAtLimit ?_ hstart hfills hrun
    intro mid e mid' hmid hok hstep
    exact hmid.step hok (step_eq_some.mp hstep)
  have heq : locked db' key = outstanding db' key := sub_eq_zero.mp (hend.slack key)
  refine ⟨heq, ?_⟩
  intro hover
  rw [heq, outstanding, OrdMap.total]
  refine List.sum_eq_zero ?_
  intro x hx
  rcases List.mem_map.mp hx with ⟨row, hrow, rfl⟩
  rcases List.mem_map.mp hrow with ⟨entry, hentry, rfl⟩
  exact due_of_terminal (hover entry.1 entry.2 (OrdMap.find?_eq_some.mpr hentry)) key

/-- User 10 owns 5 units of asset 1, and user 20 owns 500 of asset 2. -/
def tradingTables : Tables := Db.openingTables
  [((10, 1), ⟨5, 0⟩), ((10, 2), ⟨0, 0⟩), ((20, 1), ⟨0, 0⟩), ((20, 2), ⟨500, 0⟩)]

/-- The events of the engine for a sell order of one unit at 100 and a buy order that meets
it. -/
def crossingEvents (limit : ℕ) : Option (List SequencedEngineEvent) :=
  (Server.emptyEngine.runRequests 10 [.place 1 (limitOrder 1 10 .sell 100 1),
    .place 2 (limitOrder 2 20 .buy limit 1)]).map (·.eventLog.entries)

/-- The buyer would pay 101 and pays 100. Both orders are filled, but of what was locked for
the buyer's order one unit stays locked. -/
theorem price_improvement_stays_locked : ∃ es db, crossingEvents 101 = some es ∧
    run (step .exact) tradingTables es = some db ∧
    (∀ orderId row, db.orders.find? orderId = some row → terminal row.status = true) ∧
    outstanding db (20, 2) = 0 ∧ locked db (20, 2) = 1 := by
  have hview : ((crossingEvents 101).bind fun es => run (step .exact) tradingTables es).map
      (fun db => (db.orders.entries.all fun e => terminal e.2.status, outstanding db (20, 2),
        locked db (20, 2))) = some (true, 0, 1) := by decide +kernel
  rcases Option.map_eq_some_iff.mp hview with ⟨db, hbind, hdb⟩
  rcases Option.bind_eq_some_iff.mp hbind with ⟨es, hes, hrun⟩
  simp only [Prod.mk.injEq, List.all_eq_true] at hdb
  refine ⟨es, db, hes, hrun, ?_, hdb.2.1, hdb.2.2⟩
  intro orderId row hrow
  exact hdb.1 (orderId, row) (OrdMap.find?_eq_some.mp hrow)

/-- A test of `FillsAtLimit`. -/
def checkAtLimit (db : Tables) (e : SequencedEngineEvent) : Bool :=
  match e.event with
  | .fill f =>
    match db.orders.find? f.takerOrderId, db.orders.find? f.makerOrderId,
        db.orders.find? (buyerId f) with
    | some taker, some maker, some buyer =>
      f.takerOrderId ≠ f.makerOrderId ∧
        taker.side = f.takerSide ∧ terminal taker.status = false ∧
        value f.quantity ≤ remaining taker ∧
        maker.side ≠ f.takerSide ∧ terminal maker.status = false ∧
        value f.quantity ≤ remaining maker ∧ buyer.price = some (value f.price)
    | _, _, _ => false
  | _ => true

theorem fillsAtLimit_of_check {e : SequencedEngineEvent} (h : checkAtLimit db e = true) :
    FillsAtLimit db e := by
  intro f hf
  simp only [checkAtLimit, hf] at h
  split at h
  · next taker maker buyer htaker hmaker hbuyer =>
    simp only [decide_eq_true_eq] at h
    refine ⟨⟨h.1, ?_, ?_⟩, ?_⟩
    · intro row hrow
      rw [htaker] at hrow
      cases hrow
      exact ⟨h.2.1, h.2.2.1, h.2.2.2.1⟩
    · intro row hrow
      rw [hmaker] at hrow
      cases hrow
      exact ⟨h.2.2.2.2.1, h.2.2.2.2.2.1, h.2.2.2.2.2.2.1⟩
    · intro row hrow
      rw [hbuyer] at hrow
      cases hrow
      exact h.2.2.2.2.2.2.2
  · cases h

/-- The buyer pays the limit price, and nothing stays locked. -/
theorem trade_at_limit_unlocks : ∃ es db, crossingEvents 100 = some es ∧
    run (step .exact) tradingTables es = some db ∧
    locked db (20, 2) = outstanding db (20, 2) ∧ outstanding db (20, 2) = 0 := by
  have hview : ((crossingEvents 100).bind fun es => run (step .exact) tradingTables es).map
      (fun db => outstanding db (20, 2)) = some 0 := by decide +kernel
  have hcheck : (crossingEvents 100).all
      (Machine.checkAlong (step .exact) checkAtLimit tradingTables) = true := by decide +kernel
  rcases Option.map_eq_some_iff.mp hview with ⟨db, hbind, hdb⟩
  rcases Option.bind_eq_some_iff.mp hbind with ⟨es, hes, hrun⟩
  rw [hes] at hcheck
  have hfills := Machine.along_of_check (fun _ _ h => fillsAtLimit_of_check h) hcheck
  have hlocked : ∀ key, locked tradingTables key = 0 := by
    intro key
    simp only [locked, tradingTables, Db.openingTables, List.lookup_cons, List.lookup_nil]
    grind
  exact ⟨es, db, hes, hrun, (locked_eq_outstanding hlocked rfl hfills hrun (20, 2)).1, hdb⟩

end CryptoCex.Settlement
