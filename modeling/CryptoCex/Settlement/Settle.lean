import CryptoCex.Db.Tables

/-!
# Settling an engine event

What a transaction of the worker (`settlement.rs`) does to orders, trades, balances and the
ledger. Every change of a balance goes through `applyLedger`, which writes its ledger entry
in the same transaction; a fill makes six of them. A transaction that fails is rolled back.

The worker multiplies and divides with `Arithmetic`: `none` is a panic. In exact arithmetic
nothing overflows or is rounded.
-/

namespace CryptoCex.Settlement

open CryptoCex.Core (Decimal Uuid)
open Db (DbError LedgerEntry LedgerEntryKind MarketRow OrderRow OrderStatus ReferenceType Tables
  TradeRow value)
open Proto (EngineEvent EngineOrder OrderSide SequencedEngineEvent TradeFill)

/-- How amounts are computed in the worker and kept in the columns. -/
structure Arithmetic where
  mul : ℚ → ℚ → Option ℚ
  div : ℚ → ℚ → Option ℚ
  store : ℚ → Option ℚ

namespace Arithmetic

/-- Nothing is rounded or out of range. -/
def exact : Arithmetic where
  mul := fun x y => some (x * y)
  div := fun x y => if y = 0 then none else some (x / y)
  store := some

end Arithmetic

/-- An overflow or a division by zero panics, and the transaction is rolled back. -/
def orPanic : Option ℚ → Except DbError ℚ
  | some x => .ok x
  | none => .error .panicked

variable (arith : Arithmetic)

/-! ## The ledger -/

/-- A change of a balance. -/
structure LedgerMutation where
  userId : Uuid
  assetId : Uuid
  kind : LedgerEntryKind
  amount : ℚ
  availableDelta : ℚ
  lockedDelta : ℚ
  referenceType : ReferenceType
  referenceId : Option Uuid
  engineSeq : Option ℕ
deriving DecidableEq, Repr

/-- The ledger entry of a change. -/
def LedgerMutation.entry (m : LedgerMutation) (amount available locked : ℚ) :
    LedgerEntry where
  userId := m.userId
  assetId := m.assetId
  kind := m.kind
  amount := amount
  availableAfter := available
  lockedAfter := locked
  referenceType := m.referenceType
  referenceId := m.referenceId
  engineSeq := m.engineSeq

/-- Changes a balance and records the change. -/
def applyLedger (store : ℚ → Option ℚ) (m : LedgerMutation) (db : Tables) :
    Except DbError Tables :=
  match db.balances (m.userId, m.assetId) with
  | none => .error .rowNotFound
  | some row =>
    match store (row.available + m.availableDelta), store (row.locked + m.lockedDelta),
        store m.amount with
    | some available, some locked, some amount =>
      if 0 ≤ available ∧ 0 ≤ locked ∧ m.engineSeq ≠ some 0 then
        .ok { db with
          balances := Function.update db.balances (m.userId, m.assetId) (some ⟨available, locked⟩)
          ledgerEntries := db.ledgerEntries ++ [m.entry amount available locked] }
      else .error .checkViolation
    | _, _, _ => .error .numericOverflow

/-- Changes one after the other. -/
def applyLedgers (store : ℚ → Option ℚ) : List LedgerMutation → Tables → Except DbError Tables
  | [], db => .ok db
  | m :: ms, db => do
    let db ← applyLedger store m db
    applyLedgers store ms db

/-- Moves an obligation between the two amounts of a balance, if there is one. -/
def applyObligation (store : ℚ → Option ℚ) (mutation : Uuid → ℚ → LedgerMutation)
    (obligation : Uuid × ℚ) (db : Tables) : Except DbError Tables :=
  if 0 < obligation.2 then applyLedger store (mutation obligation.1 obligation.2) db else .ok db

/-! ## Accepted orders -/

def fetchMarket (db : Tables) (symbol : String) : Except DbError MarketRow :=
  match db.markets symbol with
  | some market => .ok market
  | none => .error .rowNotFound

/-- What settlement inserts for an accepted order. -/
def acceptedRow (order : EngineOrder) : Tables.InsertOrder where
  id := order.id
  userId := order.userId
  market := order.symbol
  clientOrderId := none
  side := order.side
  price := order.price.map value
  stopPrice := order.stopPrice.map value
  quantity := some (value order.quantity)
  quoteQuantity := none
  displayQuantity := order.displayQty.map value

/-- The insert with `ON CONFLICT (id) DO NOTHING`; false if the order is there already. The
checks of the columns come before the conflict. -/
def insertOrder (store : ℚ → Option ℚ) (order : EngineOrder) (db : Tables) :
    Except DbError (Bool × Tables) := do
  let row ← Tables.checkedRow store (acceptedRow order) .new
  match db.orders.find? order.id with
  | some _ => return (false, db)
  | none => return (true, { db with orders := db.orders.insert order.id row })

/-- The asset an order obliges its owner to deliver, and how much of it. -/
def lockObligation (order : EngineOrder) (market : MarketRow) : Except DbError (Uuid × ℚ) :=
  match order.side with
  | .buy =>
    match order.price with
    | none => .ok (market.quoteAssetId, 0)
    | some price => do
      let obligation ← orPanic (arith.mul (value price) (value order.quantity))
      return (market.quoteAssetId, obligation)
  | .sell => .ok (market.baseAssetId, value order.quantity)

/-- The lock of an accepted order. -/
def lockMutation (seq : ℕ) (orderId userId assetId : Uuid) (obligation : ℚ) :
    LedgerMutation where
  userId := userId
  assetId := assetId
  kind := .lock
  amount := 0
  availableDelta := -obligation
  lockedDelta := obligation
  referenceType := .order
  referenceId := some orderId
  engineSeq := some seq

def settleOrderAccepted (seq : ℕ) (order : EngineOrder) (db : Tables) :
    Except DbError Tables := do
  let market ← fetchMarket db order.symbol
  let (inserted, db) ← insertOrder arith.store order db
  if !inserted then
    return db
  let obligation ← lockObligation arith order market
  applyObligation arith.store (lockMutation seq order.id order.userId) obligation db

/-! ## Fills -/

/-- An order with its market, as `fetch_order` joins them. -/
structure FetchedOrder where
  id : Uuid
  row : OrderRow
  market : MarketRow

def fetchOrder (db : Tables) (orderId : Uuid) : Except DbError FetchedOrder :=
  match db.orders.find? orderId with
  | none => .error .rowNotFound
  | some row =>
    match db.markets row.market with
    | none => .error .rowNotFound
    | some market => .ok ⟨orderId, row, market⟩

/-- The denominator of a basis point. -/
def bpsDenominator : ℚ := 10000

def feeAmount (gross feeBps : ℚ) : Except DbError ℚ := do
  let product ← orPanic (arith.mul gross feeBps)
  orPanic (arith.div product bpsDenominator)

/-- The row of a trade. -/
def tradeRow (seq : ℕ) (fill : TradeFill) (market : String) (price quantity : ℚ) :
    TradeRow where
  id := fill.tradeId
  market := market
  takerOrderId := fill.takerOrderId
  makerOrderId := fill.makerOrderId
  price := price
  quantity := quantity
  takerSide := fill.takerSide
  engineSeq := seq

/-- Records the trade. No row has its number yet, so the conflict clause does not apply. -/
def insertTrade (store : ℚ → Option ℚ) (seq : ℕ) (fill : TradeFill) (market : String)
    (db : Tables) : Except DbError Tables :=
  match store (value fill.price), store (value fill.quantity) with
  | some price, some quantity =>
    if 0 < price ∧ 0 < quantity ∧ 0 < seq then
      if db.trades.any fun trade => trade.id = fill.tradeId then
        .error .uniqueViolation
      else
        .ok { db with trades := db.trades ++ [tradeRow seq fill market price quantity] }
    else .error .checkViolation
  | _, _ => .error .numericOverflow

/-- A change of a balance by a trade. -/
def tradeMutation (seq : ℕ) (tradeId : Uuid) (userId assetId : Uuid) (kind : LedgerEntryKind)
    (amount availableDelta lockedDelta : ℚ) : LedgerMutation where
  userId := userId
  assetId := assetId
  kind := kind
  amount := amount
  availableDelta := availableDelta
  lockedDelta := lockedDelta
  referenceType := .trade
  referenceId := some tradeId
  engineSeq := some seq

/-- The six changes of a fill. The buyer receives the quantity less the taker fee and pays
from what is locked; the seller receives the notional less the maker fee and delivers from
what is locked. -/
def fillMutations (seq : ℕ) (fill : TradeFill) (buyer seller : FetchedOrder)
    (notional takerFee makerFee : ℚ) : List LedgerMutation :=
  let quantity := value fill.quantity
  let mutation := tradeMutation seq fill.tradeId
  [ mutation buyer.row.userId buyer.market.baseAssetId .trade quantity quantity 0,
    mutation buyer.row.userId buyer.market.baseAssetId .fee (-takerFee) (-takerFee) 0,
    mutation buyer.row.userId buyer.market.quoteAssetId .trade (-notional) 0 (-notional),
    mutation seller.row.userId seller.market.quoteAssetId .trade notional notional 0,
    mutation seller.row.userId seller.market.quoteAssetId .fee (-makerFee) (-makerFee) 0,
    mutation seller.row.userId seller.market.baseAssetId .trade (-quantity) 0 (-quantity) ]

/-- The buyer and the seller of a fill. -/
def parties (takerSide : OrderSide) (taker maker : FetchedOrder) : FetchedOrder × FetchedOrder :=
  match takerSide with
  | .buy => (taker, maker)
  | .sell => (maker, taker)

def applyFillLedger (seq : ℕ) (fill : TradeFill) (taker maker : FetchedOrder) (db : Tables) :
    Except DbError Tables := do
  let notional ← orPanic (arith.mul (value fill.price) (value fill.quantity))
  let takerFee ← feeAmount arith (value fill.quantity) taker.market.takerFeeBps
  let makerFee ← feeAmount arith notional maker.market.makerFeeBps
  let (buyer, seller) := parties fill.takerSide taker maker
  applyLedgers arith.store (fillMutations seq fill buyer seller notional takerFee makerFee) db

/-- The status of an order of which this much is filled. -/
def statusAfterFill (quantity : Option ℚ) (newFilled : ℚ) : OrderStatus :=
  match quantity with
  | some total => if total ≤ newFilled then .filled else .partiallyFilled
  | none => .partiallyFilled

/-- The columns of an order that a fill writes. -/
structure FillColumns where
  filledQuantity : ℚ
  avgFillPrice : ℚ
  status : OrderStatus

/-- The new columns, computed from the row as it was fetched. -/
def fillColumns (row : OrderRow) (price quantity : ℚ) : Except DbError FillColumns := do
  let newFilled := row.filledQuantity + quantity
  let oldNotional ← orPanic (arith.mul (row.avgFillPrice.getD 0) row.filledQuantity)
  let notional ← orPanic (arith.mul price quantity)
  let avgFillPrice ← orPanic (arith.div (oldNotional + notional) newFilled)
  match arith.store newFilled, arith.store avgFillPrice with
  | some filled, some avg =>
    if 0 ≤ filled ∧ 0 ≤ avg then
      return ⟨filled, avg, statusAfterFill row.quantity newFilled⟩
    else throw .checkViolation
  | _, _ => throw .numericOverflow

/-- The row with the columns of a fill. -/
def setFill (row : OrderRow) (columns : FillColumns) : OrderRow :=
  { row with
    filledQuantity := columns.filledQuantity
    avgFillPrice := some columns.avgFillPrice
    status := columns.status }

def updateOrderFill (order : FetchedOrder) (price quantity : ℚ) (db : Tables) :
    Except DbError Tables := do
  let columns ← fillColumns arith order.row price quantity
  match db.orders.find? order.id with
  | none => return db
  | some row => return { db with orders := db.orders.insert order.id (setFill row columns) }

def settleFill (seq : ℕ) (fill : TradeFill) (db : Tables) : Except DbError Tables := do
  if db.trades.any fun trade => trade.engineSeq = seq then
    return db
  let taker ← fetchOrder db fill.takerOrderId
  let maker ← fetchOrder db fill.makerOrderId
  let db ← insertTrade arith.store seq fill taker.row.market db
  let db ← applyFillLedger arith seq fill taker maker db
  let db ← updateOrderFill arith taker (value fill.price) (value fill.quantity) db
  updateOrderFill arith maker (value fill.price) (value fill.quantity) db

/-! ## Cancels -/

/-- The statuses of orders that a cancel leaves alone. -/
def terminal : OrderStatus → Bool
  | .canceled | .filled => true
  | _ => false

/-- What is left of an order. -/
def remaining (row : OrderRow) : ℚ :=
  match row.quantity with
  | none => 0
  | some quantity => quantity - row.filledQuantity

/-- What a cancel releases. -/
def cancelObligation (order : FetchedOrder) : Except DbError (Uuid × ℚ) :=
  match order.row.side with
  | .buy =>
    match order.row.price with
    | none => .ok (order.market.quoteAssetId, 0)
    | some price => do
      let obligation ← orPanic (arith.mul price (remaining order.row))
      return (order.market.quoteAssetId, obligation)
  | .sell => .ok (order.market.baseAssetId, remaining order.row)

/-- The release of a canceled order. -/
def unlockMutation (seq : ℕ) (orderId userId assetId : Uuid) (obligation : ℚ) :
    LedgerMutation where
  userId := userId
  assetId := assetId
  kind := .unlock
  amount := 0
  availableDelta := obligation
  lockedDelta := -obligation
  referenceType := .order
  referenceId := some orderId
  engineSeq := some seq

def settleCancel (seq : ℕ) (orderId : Uuid) (db : Tables) : Except DbError Tables := do
  let order ← fetchOrder db orderId
  if terminal order.row.status then
    return db
  let obligation ← cancelObligation arith order
  let db ← applyObligation arith.store (unlockMutation seq orderId order.row.userId) obligation db
  return db.updateStatus orderId .canceled

/-! ## Events -/

/-- The transaction of `process_next` for an event, less its bookkeeping. -/
def settle (seq : ℕ) (event : EngineEvent) (db : Tables) : Except DbError Tables :=
  match event with
  | .orderAccepted order => settleOrderAccepted arith seq order db
  | .fill f => settleFill arith seq f db
  | .orderCanceled orderId _ => settleCancel arith seq orderId db
  | .orderRested _ _ | .bookDelta _ _ _ | .marketStatus _ _ => .ok db

/-- Settles the event, if its transaction commits. -/
def step (db : Tables) (e : SequencedEngineEvent) : Option Tables :=
  (settle arith e.seq e.event db).toOption

/-- A limit order of the market `BTCUSDT`, in whole units. -/
def limitOrder (id userId : Uuid) (side : OrderSide) (price quantity : ℕ) : EngineOrder where
  id := id
  userId := userId
  symbol := "BTCUSDT"
  side := side
  orderType := .limit
  price := some (price * 10 ^ 28)
  quantity := quantity * 10 ^ 28
  stpMode := .decrement
  stopPrice := none
  ocoLinkedId := none
  displayQty := none

/-- A fill in the market `BTCUSDT`, in whole units. -/
def tradeFill (tradeId takerOrderId makerOrderId : Uuid) (takerSide : OrderSide)
    (price quantity : ℕ) : TradeFill where
  tradeId := tradeId
  symbol := "BTCUSDT"
  takerOrderId := takerOrderId
  makerOrderId := makerOrderId
  price := price * 10 ^ 28
  quantity := quantity * 10 ^ 28
  takerSide := takerSide
  ts := ""

end CryptoCex.Settlement
