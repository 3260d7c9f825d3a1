import CryptoCex.Lib.Except
import CryptoCex.Settlement.Settle
import Mathlib.Data.List.Basic

/-!
# What a transaction of settlement did

`Settles` says in one place what a committed transaction can have done, with everything it
checked on the way; `settle_eq_ok` says that it says all. The later modules work with its
cases and do not look into the functions of `CryptoCex.Settlement.Settle`.

Three cases leave the tables as they are: an accepted order that has a row already, a fill
whose number has a trade already, and a cancel of an order that is over.
-/

namespace CryptoCex.Settlement

open CryptoCex.Core (Uuid)
open Db (DbError LedgerEntry MarketRow OrderRow OrderStatus Tables value)
open Proto (CancelReason EngineEvent EngineOrder SequencedEngineEvent TradeFill)

variable {arith : Arithmetic} {store : ℚ → Option ℚ} {db db' : Tables} {seq : ℕ}

/-! ## Changes of balances -/

/-- A mutation that is applied writes the balance and one entry, in the stored amounts. -/
theorem applyLedger_eq_ok {m : LedgerMutation} :
    applyLedger store m db = .ok db' ↔ ∃ row available locked amount,
      db.balances (m.userId, m.assetId) = some row ∧
      store (row.available + m.availableDelta) = some available ∧
      store (row.locked + m.lockedDelta) = some locked ∧ store m.amount = some amount ∧
      0 ≤ available ∧ 0 ≤ locked ∧ m.engineSeq ≠ some 0 ∧
      db' = { db with
        balances := Function.update db.balances (m.userId, m.assetId) (some ⟨available, locked⟩)
        ledgerEntries := db.ledgerEntries ++ [m.entry amount available locked] } := by
  unfold applyLedger
  constructor
  · intro h
    split at h
    · cases h
    next row hrow =>
    split at h
    next available locked amount havailable hlocked hamount =>
      split_ifs at h with hchecks
      cases h
      exact ⟨row, available, locked, amount, hrow, havailable, hlocked, hamount, hchecks.1,
        hchecks.2.1, hchecks.2.2, rfl⟩
    · cases h
  · rintro ⟨row, available, locked, amount, hrow, havailable, hlocked, hamount, h0, h1, hseq, rfl⟩
    simp only [hrow, havailable, hlocked, hamount]
    rw [if_pos ⟨h0, h1, hseq⟩]

theorem applyLedgers_cons_eq_ok {m : LedgerMutation} {ms : List LedgerMutation} :
    applyLedgers store (m :: ms) db = .ok db' ↔
      ∃ mid, applyLedger store m db = .ok mid ∧ applyLedgers store ms mid = .ok db' :=
  Except.bind_eq_ok

theorem applyLedgers_singleton (m : LedgerMutation) :
    applyLedgers store [m] db = applyLedger store m db := by
  change (applyLedger store m db >>= fun db => .ok db) = _
  cases applyLedger store m db <;> rfl

/-- The ledger leaves the other tables alone. -/
structure KeepsRest (db db' : Tables) : Prop where
  orders : db'.orders = db.orders
  trades : db'.trades = db.trades
  deposits : db'.deposits = db.deposits
  markets : db'.markets = db.markets

theorem KeepsRest.refl (db : Tables) : KeepsRest db db := ⟨rfl, rfl, rfl, rfl⟩

theorem KeepsRest.trans {mid : Tables} (h : KeepsRest db mid) (h' : KeepsRest mid db') :
    KeepsRest db db' where
  orders := h'.orders.trans h.orders
  trades := h'.trades.trans h.trades
  deposits := h'.deposits.trans h.deposits
  markets := h'.markets.trans h.markets

theorem keepsRest_of_applyLedger {m : LedgerMutation} (h : applyLedger store m db = .ok db') :
    KeepsRest db db' := by
  rcases applyLedger_eq_ok.mp h with ⟨_, _, _, _, _, _, _, _, _, _, _, rfl⟩
  exact ⟨rfl, rfl, rfl, rfl⟩

/-- Mutations keep all tables but balances and entries. -/
theorem keepsRest_of_applyLedgers {ms : List LedgerMutation}
    (h : applyLedgers store ms db = .ok db') : KeepsRest db db' := by
  induction ms generalizing db with
  | nil =>
    cases h
    exact .refl _
  | cons m ms ih =>
    rcases applyLedgers_cons_eq_ok.mp h with ⟨mid, hmid, hrest⟩
    exact (keepsRest_of_applyLedger hmid).trans (ih hrest)

/-! ## Orders -/

theorem orPanic_eq_ok {x : Option ℚ} {y : ℚ} : orPanic x = .ok y ↔ x = some y := by
  cases x <;> simp [orPanic]

theorem feeAmount_exact (gross bps : ℚ) :
    feeAmount .exact gross bps = .ok (gross * bps / 10000) := by
  simp [feeAmount, orPanic, Arithmetic.exact, bpsDenominator, bind, Except.bind]

theorem fetchMarket_eq_ok {symbol : String} {market : MarketRow} :
    fetchMarket db symbol = .ok market ↔ db.markets symbol = some market := by
  unfold fetchMarket
  cases db.markets symbol <;> simp

/-- The order and its market are in the tables. -/
structure Fetches (db : Tables) (order : FetchedOrder) : Prop where
  row : db.orders.find? order.id = some order.row
  market : db.markets order.row.market = some order.market

/-- An order that is fetched has its row and its market. -/
theorem fetchOrder_eq_ok {orderId : Uuid} {order : FetchedOrder} :
    fetchOrder db orderId = .ok order ↔ order.id = orderId ∧ Fetches db order := by
  unfold fetchOrder
  constructor
  · intro h
    split at h
    · cases h
    next row hrow =>
    split at h
    · cases h
    next market hmarket =>
    cases h
    exact ⟨rfl, hrow, hmarket⟩
  · rintro ⟨rfl, hrow, hmarket⟩
    simp only [hrow, hmarket]

/-! ## Committed transactions -/

/-- The parties of a fill are the owners of its two orders. -/
theorem parties_cases (takerSide : Proto.OrderSide) (taker maker : FetchedOrder) :
    parties takerSide taker maker = (taker, maker) ∨
      parties takerSide taker maker = (maker, taker) := by
  cases takerSide with
  | buy => exact .inl rfl
  | sell => exact .inr rfl

/-- The changes of balances that move an obligation, if there is one. -/
def obligationMutations (mutation : Uuid → ℚ → LedgerMutation) (p : Uuid × ℚ) :
    List LedgerMutation :=
  if 0 < p.2 then [mutation p.1 p.2] else []

theorem applyLedgers_obligation (mutation : Uuid → ℚ → LedgerMutation) (p : Uuid × ℚ) :
    applyLedgers store (obligationMutations mutation p) db =
      applyObligation store mutation p db := by
  unfold obligationMutations applyObligation
  split_ifs
  · exact applyLedgers_singleton _
  · rfl

/-- What a fill computes before it writes. -/
structure FillAmounts where
  taker : FetchedOrder
  maker : FetchedOrder
  notional : ℚ
  takerFee : ℚ
  makerFee : ℚ
  takerColumns : FillColumns
  makerColumns : FillColumns

namespace FillAmounts

/-- The buyer's order. -/
def buyer (a : FillAmounts) (fill : TradeFill) : FetchedOrder :=
  (parties fill.takerSide a.taker a.maker).1

/-- The seller's order. -/
def seller (a : FillAmounts) (fill : TradeFill) : FetchedOrder :=
  (parties fill.takerSide a.taker a.maker).2

/-- The changes of balances. -/
def mutations (a : FillAmounts) (seq : ℕ) (fill : TradeFill) : List LedgerMutation :=
  fillMutations seq fill (a.buyer fill) (a.seller fill) a.notional a.takerFee a.makerFee

/-- The orders afterwards. -/
def orders (a : FillAmounts) (orders : OrdMap Uuid OrderRow) : OrdMap Uuid OrderRow :=
  (orders.insert a.taker.id (setFill a.taker.row a.takerColumns)).insert a.maker.id
    (setFill a.maker.row a.makerColumns)

/-- The amounts of a fill. -/
structure Of (arith : Arithmetic) (db : Tables) (fill : TradeFill) (a : FillAmounts) : Prop where
  taker_id : a.taker.id = fill.takerOrderId
  maker_id : a.maker.id = fill.makerOrderId
  taker : Fetches db a.taker
  maker : Fetches db a.maker
  notional : arith.mul (value fill.price) (value fill.quantity) = some a.notional
  takerFee : feeAmount arith (value fill.quantity) a.taker.market.takerFeeBps = .ok a.takerFee
  makerFee : feeAmount arith a.notional a.maker.market.makerFeeBps = .ok a.makerFee
  takerColumns : fillColumns arith a.taker.row (value fill.price) (value fill.quantity) =
    .ok a.takerColumns
  makerColumns : fillColumns arith a.maker.row (value fill.price) (value fill.quantity) =
    .ok a.makerColumns

end FillAmounts

/-- What a committed transaction did. -/
inductive Settles (arith : Arithmetic) (seq : ℕ) (db : Tables) : EngineEvent → Tables → Prop
  /-- The order has a row already. -/
  | known {order : EngineOrder} {market : MarketRow} {row new : OrderRow}
      (hmarket : db.markets order.symbol = some market)
      (hchecks : Tables.checkedRow arith.store (acceptedRow order) .new = .ok new)
      (hrow : db.orders.find? order.id = some row) :
      Settles arith seq db (.orderAccepted order) db
  | accepted {order : EngineOrder} {market : MarketRow} {row : OrderRow}
      {obligation : Uuid × ℚ} {after : Tables}
      (hmarket : db.markets order.symbol = some market)
      (hchecks : Tables.checkedRow arith.store (acceptedRow order) .new = .ok row)
      (hnew : db.orders.find? order.id = none)
      (hobligation : lockObligation arith order market = .ok obligation)
      (hledger : applyLedgers arith.store
        (obligationMutations (lockMutation seq order.id order.userId) obligation)
          { db with orders := db.orders.insert order.id row } = .ok after) :
      Settles arith seq db (.orderAccepted order) after
  /-- The number has a trade already. -/
  | traded {fill : TradeFill} (htraded : ∃ trade ∈ db.trades, trade.engineSeq = seq) :
      Settles arith seq db (.fill fill) db
  | filled {fill : TradeFill} {a : FillAmounts} {price quantity : ℚ} {after : Tables}
      (hfresh : ∀ trade ∈ db.trades, trade.engineSeq ≠ seq)
      (hamounts : a.Of arith db fill)
      (hprice : arith.store (value fill.price) = some price)
      (hquantity : arith.store (value fill.quantity) = some quantity)
      (hpos : 0 < price ∧ 0 < quantity ∧ 0 < seq)
      (hid : ∀ trade ∈ db.trades, trade.id ≠ fill.tradeId)
      (hledger : applyLedgers arith.store (a.mutations seq fill)
        { db with trades :=
            db.trades ++ [tradeRow seq fill a.taker.row.market price quantity] } = .ok after) :
      Settles arith seq db (.fill fill) { after with orders := a.orders db.orders }
  /-- The order is over. -/
  | closed {orderId : Uuid} {reason : CancelReason} {order : FetchedOrder}
      (hid : order.id = orderId) (hfetch : Fetches db order)
      (hterminal : terminal order.row.status = true) :
      Settles arith seq db (.orderCanceled orderId reason) db
  | canceled {orderId : Uuid} {reason : CancelReason} {order : FetchedOrder}
      {obligation : Uuid × ℚ} {after : Tables}
      (hid : order.id = orderId) (hfetch : Fetches db order)
      (hterminal : terminal order.row.status = false)
      (hobligation : cancelObligation arith order = .ok obligation)
      (hledger : applyLedgers arith.store
        (obligationMutations (unlockMutation seq orderId order.row.userId) obligation) db =
          .ok after) :
      Settles arith seq db (.orderCanceled orderId reason)
        { after with
          orders := db.orders.insert orderId { order.row with status := .canceled } }
  | rested {orderId : Uuid} {remaining : Core.Decimal} :
      Settles arith seq db (.orderRested orderId remaining) db
  | delta {symbol : String} {bids asks : List Proto.PriceLevel} :
      Settles arith seq db (.bookDelta symbol bids asks) db
  | status {symbol : String} {status : Proto.MarketStatus} :
      Settles arith seq db (.marketStatus symbol status) db

/-- Settling an acceptance, as a relation. -/
theorem settleOrderAccepted_eq_ok {order : EngineOrder} :
    settleOrderAccepted arith seq order db = .ok db' ↔
      Settles arith seq db (.orderAccepted order) db' := by
  unfold settleOrderAccepted insertOrder
  constructor
  · intro h
    rcases Except.bind_eq_ok.mp h with ⟨market, hmarket, h⟩
    rw [fetchMarket_eq_ok] at hmarket
    rcases Except.bind_eq_ok.mp h with ⟨⟨inserted, mid⟩, hinsert, h⟩
    rcases Except.bind_eq_ok.mp hinsert with ⟨row, hchecks, hinsert⟩
    -- a row that is there already is left as it is
    split at hinsert
    · next found hfound =>
      cases hinsert
      cases h
      exact .known hmarket hchecks hfound
    · next hnew =>
      cases hinsert
      rcases Except.bind_eq_ok.mp h with ⟨obligation, hobligation, h⟩
      refine .accepted hmarket hchecks hnew hobligation ?_
      rw [applyLedgers_obligation]
      exact h
  · intro h
    cases h with
    | known hmarket hchecks hrow =>
      simp only [fetchMarket_eq_ok.mpr hmarket, hchecks, hrow, bind, Except.bind, pure,
        Except.pure]
      rfl
    | accepted hmarket hchecks hnew hobligation hledger =>
      rw [applyLedgers_obligation] at hledger
      simp only [fetchMarket_eq_ok.mpr hmarket, hchecks, hnew, hobligation, bind, Except.bind,
        pure, Except.pure]
      exact hledger

/-- A trade is inserted with its amounts as stored, once for its number. -/
theorem insertTrade_eq_ok {fill : TradeFill} {market : String} :
    insertTrade store seq fill market db = .ok db' ↔ ∃ price quantity,
      store (value fill.price) = some price ∧ store (value fill.quantity) = some quantity ∧
      (0 < price ∧ 0 < quantity ∧ 0 < seq) ∧ (∀ trade ∈ db.trades, trade.id ≠ fill.tradeId) ∧
      db' = { db with trades := db.trades ++ [tradeRow seq fill market price quantity] } := by
  unfold insertTrade
  constructor
  · intro h
    split at h
    next price quantity hprice hquantity =>
      split_ifs at h with hpos hid
      cases h
      simp only [List.any_eq_true, decide_eq_true_eq, not_exists, not_and] at hid
      exact ⟨price, quantity, hprice, hquantity, hpos, hid, rfl⟩
    · cases h
  · rintro ⟨price, quantity, hprice, hquantity, hpos, hid, rfl⟩
    simp only [hprice, hquantity]
    rw [if_pos hpos, if_neg]
    simpa using hid

/-- The mutations of a fill: what it pays, and the fees. -/
theorem applyFillLedger_eq_ok {fill : TradeFill} {taker maker : FetchedOrder} :
    applyFillLedger arith seq fill taker maker db = .ok db' ↔ ∃ notional takerFee makerFee,
      arith.mul (value fill.price) (value fill.quantity) = some notional ∧
      feeAmount arith (value fill.quantity) taker.market.takerFeeBps = .ok takerFee ∧
      feeAmount arith notional maker.market.makerFeeBps = .ok makerFee ∧
      applyLedgers arith.store (fillMutations seq fill (parties fill.takerSide taker maker).1
        (parties fill.takerSide taker maker).2 notional takerFee makerFee) db = .ok db' := by
  unfold applyFillLedger
  constructor
  · intro h
    rcases Except.bind_eq_ok.mp h with ⟨notional, hnotional, h⟩
    rcases Except.bind_eq_ok.mp h with ⟨takerFee, htakerFee, h⟩
    rcases Except.bind_eq_ok.mp h with ⟨makerFee, hmakerFee, h⟩
    exact ⟨notional, takerFee, makerFee, orPanic_eq_ok.mp hnotional, htakerFee, hmakerFee, h⟩
  · rintro ⟨notional, takerFee, makerFee, hnotional, htakerFee, hmakerFee, h⟩
    simp only [orPanic_eq_ok.mpr hnotional, htakerFee, hmakerFee, bind, Except.bind]
    exact h

/-- The fill columns of a row, if they can be stored. -/
theorem updateOrderFill_eq_ok {order : FetchedOrder} {price quantity : ℚ} {row : OrderRow}
    (hrow : db.orders.find? order.id = some row) :
    updateOrderFill arith order price quantity db = .ok db' ↔ ∃ columns,
      fillColumns arith order.row price quantity = .ok columns ∧
      db' = { db with orders := db.orders.insert order.id (setFill row columns) } := by
  unfold updateOrderFill
  rw [Except.bind_eq_ok]
  simp only [hrow, pure, Except.pure, Except.ok.injEq, eq_comm]

/-- The second update of a fill meets the first one if taker and maker are the same order; it
then writes the columns of the order as it was fetched again. -/
theorem find?_maker {taker maker : FetchedOrder} (htaker : Fetches db taker)
    (hmaker : Fetches db maker) (columns : FillColumns) :
    ∃ row, (db.orders.insert taker.id (setFill taker.row columns)).find? maker.id = some row ∧
      ∀ columns', setFill row columns' = setFill maker.row columns' := by
  rw [OrdMap.find?_insert]
  split_ifs with heq
  · refine ⟨_, rfl, ?_⟩
    have hrow := hmaker.row
    rw [heq, htaker.row] at hrow
    intro columns'
    rw [← Option.some.inj hrow]
    rfl
  · exact ⟨maker.row, hmaker.row, fun _ => rfl⟩

/-- Settling a fill, as a relation. -/
theorem settleFill_eq_ok {fill : TradeFill} :
    settleFill arith seq fill db = .ok db' ↔ Settles arith seq db (.fill fill) db' := by
  unfold settleFill
  constructor
  · intro h
    split_ifs at h with htraded
    · cases h
      refine .traded ?_
      simpa using htraded
    have hfresh : ∀ trade ∈ db.trades, trade.engineSeq ≠ seq := by simpa using htraded
    rcases Except.bind_eq_ok.mp h with ⟨taker, htaker, h⟩
    rcases Except.bind_eq_ok.mp h with ⟨maker, hmaker, h⟩
    rcases Except.bind_eq_ok.mp h with ⟨traded, htrade, h⟩
    rcases Except.bind_eq_ok.mp h with ⟨after, hledger, h⟩
    rcases Except.bind_eq_ok.mp h with ⟨once, honce, htwice⟩
    rcases fetchOrder_eq_ok.mp htaker with ⟨htakerId, htaker⟩
    rcases fetchOrder_eq_ok.mp hmaker with ⟨hmakerId, hmaker⟩
    rcases insertTrade_eq_ok.mp htrade with ⟨price, quantity, hprice, hquantity, hpos, hid, rfl⟩
    rcases applyFillLedger_eq_ok.mp hledger with
      ⟨notional, takerFee, makerFee, hnotional, htakerFee, hmakerFee, hledger⟩
    -- the ledger has not touched the orders
    have horders : after.orders = db.orders := (keepsRest_of_applyLedgers hledger).orders
    rcases (updateOrderFill_eq_ok (horders ▸ htaker.row)).mp honce with
      ⟨takerColumns, htakerColumns, rfl⟩
    rw [horders] at htwice
    rcases find?_maker htaker hmaker takerColumns with ⟨row, hrow, hset⟩
    rcases (updateOrderFill_eq_ok hrow).mp htwice with ⟨makerColumns, hmakerColumns, rfl⟩
    rw [hset]
    let a : FillAmounts :=
      ⟨taker, maker, notional, takerFee, makerFee, takerColumns, makerColumns⟩
    have ha : a.Of arith db fill := ⟨htakerId, hmakerId, htaker, hmaker, hnotional, htakerFee,
      hmakerFee, htakerColumns, hmakerColumns⟩
    have hsettles : Settles arith seq db (.fill fill) { after with orders := a.orders db.orders } :=
      .filled hfresh ha hprice hquantity hpos hid hledger
    exact hsettles
  · intro h
    cases h with
    | traded htraded =>
      rw [if_pos (by simpa using htraded)]
      rfl
    | @filled fill a price quantity after hfresh ha hprice hquantity hpos hid hledger =>
      rw [if_neg (by simpa using hfresh)]
      have horders : after.orders = db.orders := (keepsRest_of_applyLedgers hledger).orders
      rcases find?_maker ha.taker ha.maker a.takerColumns with ⟨row, hrow, hset⟩
      refine Except.bind_eq_ok.mpr ⟨a.taker, fetchOrder_eq_ok.mpr ⟨ha.taker_id, ha.taker⟩, ?_⟩
      refine Except.bind_eq_ok.mpr ⟨a.maker, fetchOrder_eq_ok.mpr ⟨ha.maker_id, ha.maker⟩, ?_⟩
      refine Except.bind_eq_ok.mpr ⟨_,
        insertTrade_eq_ok.mpr ⟨price, quantity, hprice, hquantity, hpos, hid, rfl⟩, ?_⟩
      refine Except.bind_eq_ok.mpr ⟨after, applyFillLedger_eq_ok.mpr ⟨a.notional, a.takerFee,
        a.makerFee, ha.notional, ha.takerFee, ha.makerFee, hledger⟩, ?_⟩
      refine Except.bind_eq_ok.mpr ⟨_, (updateOrderFill_eq_ok (horders ▸ ha.taker.row)).mpr
        ⟨a.takerColumns, ha.takerColumns, rfl⟩, ?_⟩
      rw [horders]
      refine (updateOrderFill_eq_ok hrow).mpr ⟨a.makerColumns, ha.makerColumns, ?_⟩
      rw [hset]
      rfl

/-- Settling a cancellation, as a relation. -/
theorem settleCancel_eq_ok {orderId : Uuid} {reason : CancelReason} :
    settleCancel arith seq orderId db = .ok db' ↔
      Settles arith seq db (.orderCanceled orderId reason) db' := by
  unfold settleCancel
  constructor
  · intro h
    rcases Except.bind_eq_ok.mp h with ⟨order, hfetch, h⟩
    rcases fetchOrder_eq_ok.mp hfetch with ⟨hid, hfetch⟩
    -- an order that is closed is passed over
    split_ifs at h with hterminal
    · cases h
      exact .closed hid hfetch hterminal
    rcases Except.bind_eq_ok.mp h with ⟨obligation, hobligation, h⟩
    rcases Except.bind_eq_ok.mp h with ⟨after, hledger, h⟩
    have hledger' : applyLedgers arith.store (obligationMutations
        (unlockMutation seq orderId order.row.userId) obligation) db = .ok after := by
      rw [applyLedgers_obligation]
      exact hledger
    have hrow : db.orders.find? orderId = some order.row := hid ▸ hfetch.row
    simp only [Tables.updateStatus, hrow, (keepsRest_of_applyLedgers hledger').orders] at h
    cases h
    exact .canceled hid hfetch (by simpa using hterminal) hobligation hledger'
  · intro h
    cases h with
    | closed hid hfetch hterminal =>
      refine Except.bind_eq_ok.mpr ⟨_, fetchOrder_eq_ok.mpr ⟨hid, hfetch⟩, ?_⟩
      rw [if_pos hterminal]
      rfl
    | @canceled _ _ order obligation after hid hfetch hterminal hobligation hledger =>
      have hrow : db.orders.find? orderId = some order.row := hid ▸ hfetch.row
      refine Except.bind_eq_ok.mpr ⟨_, fetchOrder_eq_ok.mpr ⟨hid, hfetch⟩, ?_⟩
      rw [if_neg (by simp [hterminal])]
      refine Except.bind_eq_ok.mpr ⟨obligation, hobligation, ?_⟩
      have horders := (keepsRest_of_applyLedgers hledger).orders
      rw [applyLedgers_obligation] at hledger
      refine Except.bind_eq_ok.mpr ⟨after, hledger, ?_⟩
      simp only [Tables.updateStatus, hrow, horders]
      rfl

/-- `Settles` says all that a transaction does. -/
theorem settle_eq_ok {event : EngineEvent} :
    settle arith seq event db = .ok db' ↔ Settles arith seq db event db' := by
  cases event with
  | orderAccepted order => exact settleOrderAccepted_eq_ok
  | fill f => exact settleFill_eq_ok
  | orderCanceled orderId reason => exact settleCancel_eq_ok
  | orderRested orderId remaining =>
    exact ⟨fun h => by cases h; exact .rested, fun h => by cases h; rfl⟩
  | bookDelta symbol bids asks =>
    exact ⟨fun h => by cases h; exact .delta, fun h => by cases h; rfl⟩
  | marketStatus symbol status =>
    exact ⟨fun h => by cases h; exact .status, fun h => by cases h; rfl⟩

/-! ## What every transaction keeps -/

theorem Settles.markets {event : EngineEvent} (h : Settles arith seq db event db') :
    db'.markets = db.markets := by
  cases h with
  | accepted _ _ _ _ hledger => exact (keepsRest_of_applyLedgers hledger).markets
  | filled _ _ _ _ _ _ hledger => exact (keepsRest_of_applyLedgers hledger).markets
  | canceled _ _ _ _ hledger => exact (keepsRest_of_applyLedgers hledger).markets
  | _ => rfl

/-- An event only adds trades. -/
theorem Settles.trades {event : EngineEvent} (h : Settles arith seq db event db') :
    ∃ new, db'.trades = db.trades ++ new := by
  cases h with
  | accepted _ _ _ _ hledger =>
    exact ⟨[], by simp [(keepsRest_of_applyLedgers hledger).trades]⟩
  | filled _ _ _ _ _ _ hledger => exact ⟨_, (keepsRest_of_applyLedgers hledger).trades⟩
  | canceled _ _ _ _ hledger =>
    exact ⟨[], by simp [(keepsRest_of_applyLedgers hledger).trades]⟩
  | _ => exact ⟨[], by simp⟩

/-- A new trade has the number of the event. -/
theorem Settles.new_trades {event : EngineEvent} (h : Settles arith seq db event db')
    {trade : Db.TradeRow} (htrade : trade ∈ db'.trades) :
    trade ∈ db.trades ∨ trade.engineSeq = seq := by
  cases h with
  | accepted _ _ _ _ hledger =>
    rw [(keepsRest_of_applyLedgers hledger).trades] at htrade
    exact .inl htrade
  | filled _ _ _ _ _ _ hledger =>
    rw [(keepsRest_of_applyLedgers hledger).trades] at htrade
    rcases List.mem_append.mp htrade with htrade | htrade
    · exact .inl htrade
    · cases List.mem_singleton.mp htrade
      exact .inr rfl
  | canceled _ _ _ _ hledger =>
    rw [(keepsRest_of_applyLedgers hledger).trades] at htrade
    exact .inl htrade
  | _ => exact .inl htrade

/-- The event is a fill of the order. -/
def FillOf (orderId : Uuid) (event : EngineEvent) : Prop :=
  ∃ f, event = .fill f ∧ (f.takerOrderId = orderId ∨ f.makerOrderId = orderId)

/-- An order stays, in its market, and only a fill of it or its cancel changes its status. -/
theorem Settles.row {event : EngineEvent} {orderId : Uuid} {row : OrderRow}
    (h : Settles arith seq db event db') (hrow : db.orders.find? orderId = some row) :
    ∃ row', db'.orders.find? orderId = some row' ∧ row'.market = row.market ∧
      (row'.status = row.status ∨ row'.status = .canceled ∨ FillOf orderId event) := by
  cases h with
  -- a new row is another one
  | @accepted order _ new _ _ _ _ hnew _ hledger =>
    have hne : orderId ≠ order.id := by
      rintro rfl
      rw [hrow] at hnew
      cases hnew
    rw [(keepsRest_of_applyLedgers hledger).orders, OrdMap.find?_insert, if_neg hne]
    exact ⟨row, hrow, rfl, .inl rfl⟩
  -- the rows of the taker and the maker
  | @filled fill a _ _ _ _ ha =>
    rw [FillAmounts.orders, OrdMap.find?_insert, OrdMap.find?_insert]
    split_ifs with hmaker htaker
    · have hfound := ha.maker.row
      rw [← hmaker, hrow] at hfound
      cases hfound
      exact ⟨_, rfl, rfl, .inr (.inr ⟨fill, rfl, .inr (ha.maker_id.symm.trans hmaker.symm)⟩)⟩
    · have hfound := ha.taker.row
      rw [← htaker, hrow] at hfound
      cases hfound
      exact ⟨_, rfl, rfl, .inr (.inr ⟨fill, rfl, .inl (ha.taker_id.symm.trans htaker.symm)⟩)⟩
    · exact ⟨row, hrow, rfl, .inl rfl⟩
  -- the row of the order
  | @canceled id _ order _ _ hid hfetch =>
    rw [OrdMap.find?_insert]
    split_ifs with heq
    · have hfound := hfetch.row
      rw [hid, ← heq, hrow] at hfound
      cases hfound
      exact ⟨_, rfl, rfl, .inr (.inl rfl)⟩
    · exact ⟨row, hrow, rfl, .inl rfl⟩
  | _ => exact ⟨row, hrow, rfl, .inl rfl⟩

theorem step_eq_some {e : SequencedEngineEvent} :
    step arith db e = some db' ↔ Settles arith e.seq db e.event db' := by
  rw [step, Except.toOption_eq_some, settle_eq_ok]

end CryptoCex.Settlement
