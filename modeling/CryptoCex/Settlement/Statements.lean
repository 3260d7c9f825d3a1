import CryptoCex.Lib.TwoPhase
import CryptoCex.Settlement.Transactions

/-!
# The transactions, statement by statement

Many transactions are open at once, and their statements interleave: those of the API, each on a
connection of its own, and those of settlement. PostgreSQL runs them at READ COMMITTED. A
statement that writes a row, or selects it `FOR UPDATE`, locks it until the transaction ends, and
one that meets a locked row waits and then works on what was committed; an insert waits in the same
way for another one of the same key. So a cell of `TwoPhase` is a row, or the key of a unique index:

* a balance is one cell with the ledger entries of its user and asset, as an entry is only
  inserted by a transaction that has updated the balance before;
* the row of an engine event is one cell with the trades of its number, as they are only read and
  inserted by the transaction that has the event `FOR UPDATE`.

The ids of ledger entries come from a sequence. Markets do not change. A statement that finds
no row to write does not wait; it leaves no trace, like a rollback. `mark_orders_canceled` is left
out: its one statement chooses rows by their status before it locks them, and so passes over a row
that another transaction makes open again and commits first. The order of the commits is then not
one in which the transactions could have run as wholes.
-/

namespace CryptoCex.Settlement

open CryptoCex.Core (Uuid)
open Db (Balance Deposit LedgerEntry MarketRow OrderRow OrderStatus Tables TradeRow value)
open Proto (EngineEvent EngineOrder SequencedEngineEvent TradeFill)
open TwoPhase (Script)
open TwoPhase.Script (statement)

inductive Cell where
  | account (userId assetId : Uuid)
  | order (orderId : Uuid)
  /-- A key of `uq_orders_user_client_order`. -/
  | clientOrder (userId : Uuid) (clientOrderId : String)
  | event (seq : ℕ)
  /-- A key of `trades`. -/
  | trade (tradeId : Uuid)
  | deposit (depositId : Uuid)
deriving DecidableEq

/-- A balance with its ledger entries and their ids, in the order they were inserted. -/
structure Account where
  balance : Option Balance
  entries : List (ℕ × LedgerEntry)

/-- What is in a cell. -/
abbrev Content : Cell → Type
  | .account _ _ => Account
  | .order _ => Option OrderRow
  | .clientOrder _ _ => Bool
  | .event _ => List TradeRow
  | .trade _ => Bool
  | .deposit _ => List Deposit

namespace Statements

variable (arith : Arithmetic) (markets : String → Option MarketRow)

/-! ## Balances -/

/-- Stores both amounts of a balance, under the checks of the columns. -/
def checkedBalance (store : ℚ → Option ℚ) (available locked : ℚ) : Option Balance := do
  let available ← store available
  let locked ← store locked
  if 0 ≤ available ∧ 0 ≤ locked then some ⟨available, locked⟩ else none

/-- `UPDATE balances` with two differences, `RETURNING` the new amounts. -/
def updateBalance (userId assetId : Uuid) (availableDelta lockedDelta : ℚ) :
    Script Content Balance :=
  statement (.account userId assetId) fun account _ => do
    let row ← account.balance
    let after ← checkedBalance arith.store (row.available + availableDelta)
      (row.locked + lockedDelta)
    return ({ account with balance := some after }, after)

def tryLockBalance (userId assetId : Uuid) (amount : ℚ) : Script Content Bool :=
  statement (.account userId assetId) fun account _ =>
    match account.balance with
    | none => some (account, false)
    | some row =>
      if amount ≤ row.available then do
        let after ← checkedBalance arith.store (row.available - amount) (row.locked + amount)
        return ({ account with balance := some after }, true)
      else some (account, false)

def unlockBalance (userId assetId : Uuid) (amount : ℚ) : Script Content Unit :=
  statement (.account userId assetId) fun account _ =>
    match account.balance with
    | none => some (account, ())
    | some row => do
      let after ← checkedBalance arith.store (row.available + amount) (row.locked - amount)
      return ({ account with balance := some after }, ())

/-- `INSERT INTO ledger_entries`; the id is the next number of the sequence. -/
def insertEntry (m : LedgerMutation) (after : Balance) : Script Content Unit :=
  statement (.account m.userId m.assetId) fun account id => do
    let amount ← arith.store m.amount
    if m.engineSeq = some 0 then none
    else some ({ account with
      entries := account.entries ++ [(id, m.entry amount after.available after.locked)] }, ())

/-- Changes a balance and records the change. -/
def applyLedger (m : LedgerMutation) : Script Content Unit := do
  let after ← updateBalance arith m.userId m.assetId m.availableDelta m.lockedDelta
  insertEntry arith m after

def applyLedgers : List LedgerMutation → Script Content Unit
  | [] => return ()
  | m :: ms => do
    applyLedger arith m
    applyLedgers ms

def insertDeposit (deposit : Deposit) : Script Content Unit :=
  statement (.deposit deposit.id) fun deposits _ => do
    let amount ← arith.store deposit.amount
    if 0 < amount ∧ deposits = [] then some ([{ deposit with amount := amount }], ()) else none

/-- `INSERT INTO ledger_entries ... SELECT ... FROM balances`. -/
def insertFaucetEntry (userId assetId : Uuid) (amount : ℚ) (depositId : Uuid) :
    Script Content Unit :=
  statement (.account userId assetId) fun account id => do
    let stored ← arith.store amount
    match account.balance with
    | none => some (account, ())
    | some after => some ({ account with
        entries := account.entries ++
          [(id, Tables.faucetEntry userId assetId stored depositId after)] }, ())

def applyFaucet (userId assetId : Uuid) (amount : ℚ) (depositId : Uuid) :
    Script Content Unit := do
  let _ ← updateBalance arith userId assetId amount 0
  insertDeposit arith ⟨depositId, userId, assetId, amount⟩
  insertFaucetEntry arith userId assetId amount depositId

/-! ## Orders -/

/-- The entry of a new order in `uq_orders_user_client_order`; rows without a client order id do
not clash. -/
def insertClientOrder (userId : Uuid) : Option String → Script Content Unit
  | none => return ()
  | some clientOrderId => statement (.clientOrder userId clientOrderId) fun taken _ =>
      if taken then none else some (true, ())

/-- The API's insert of a pending order. -/
def insertPending (input : Tables.InsertOrder) : Script Content Unit := do
  let row ← statement (.order input.id) fun order _ =>
    match order, Tables.checkedRow arith.store input .pending with
    | none, .ok row => some (some row, row)
    | _, _ => none
  insertClientOrder row.userId row.clientOrderId

def updateStatus (orderId : Uuid) (status : OrderStatus) : Script Content Unit :=
  statement (.order orderId) fun order _ =>
    some (order.map fun row => { row with status := status }, ())

/-- The insert with `ON CONFLICT (id) DO NOTHING`. -/
def insertOrder (order : EngineOrder) : Script Content Bool :=
  statement (.order order.id) fun found _ =>
    match Tables.checkedRow arith.store (acceptedRow order) .new, found with
    | .ok _, some row => some (some row, false)
    | .ok row, none => some (some row, true)
    | .error _, _ => none

/-- `SELECT ... FOR UPDATE`, joined with the market. -/
def fetchOrder (orderId : Uuid) : Script Content FetchedOrder :=
  statement (.order orderId) fun order _ => do
    let row ← order
    let market ← markets row.market
    return (order, ⟨orderId, row, market⟩)

/-! ## Settlement -/

/-- A computation of the worker. -/
def compute {α : Type} : Except Db.DbError α → Script Content α
  | .ok a => return a
  | .error _ => .fail

def applyObligation (mutation : Uuid → ℚ → LedgerMutation) (obligation : Uuid × ℚ) :
    Script Content Unit :=
  if 0 < obligation.2 then applyLedger arith (mutation obligation.1 obligation.2) else return ()

def settleOrderAccepted (seq : ℕ) (order : EngineOrder) : Script Content Unit := do
  match markets order.symbol with
  | none => .fail
  | some market =>
    let inserted ← insertOrder arith order
    if !inserted then
      return ()
    let obligation ← compute (lockObligation arith order market)
    applyObligation arith (lockMutation seq order.id order.userId) obligation

/-- The trades with the number of an event. -/
def selectTrades (seq : ℕ) : Script Content (List TradeRow) :=
  statement (.event seq) fun trades _ => some (trades, trades)

/-- The key of a new trade. -/
def insertTradeId (tradeId : Uuid) : Script Content Unit :=
  statement (.trade tradeId) fun taken _ => if taken then none else some (true, ())

def insertTrade (seq : ℕ) (fill : TradeFill) (market : String) : Script Content Unit := do
  insertTradeId fill.tradeId
  statement (.event seq) fun trades _ => do
    let price ← arith.store (value fill.price)
    let quantity ← arith.store (value fill.quantity)
    if 0 < price ∧ 0 < quantity ∧ 0 < seq then
      some (trades ++ [tradeRow seq fill market price quantity], ())
    else none

def applyFillLedger (seq : ℕ) (fill : TradeFill) (taker maker : FetchedOrder) :
    Script Content Unit := do
  let notional ← compute (orPanic (arith.mul (value fill.price) (value fill.quantity)))
  let takerFee ← compute (feeAmount arith (value fill.quantity) taker.market.takerFeeBps)
  let makerFee ← compute (feeAmount arith notional maker.market.makerFeeBps)
  let (buyer, seller) := parties fill.takerSide taker maker
  applyLedgers arith (fillMutations seq fill buyer seller notional takerFee makerFee)

def updateOrderFill (order : FetchedOrder) (price quantity : ℚ) : Script Content Unit :=
  statement (.order order.id) fun found _ =>
    match fillColumns arith order.row price quantity with
    | .error _ => none
    | .ok columns => some (found.map fun row => setFill row columns, ())

def settleFill (seq : ℕ) (fill : TradeFill) : Script Content Unit := do
  let existing ← selectTrades seq
  if existing ≠ [] then
    return ()
  let taker ← fetchOrder markets fill.takerOrderId
  let maker ← fetchOrder markets fill.makerOrderId
  insertTrade arith seq fill taker.row.market
  applyFillLedger arith seq fill taker maker
  updateOrderFill arith taker (value fill.price) (value fill.quantity)
  updateOrderFill arith maker (value fill.price) (value fill.quantity)

def settleCancel (seq : ℕ) (orderId : Uuid) : Script Content Unit := do
  let order ← fetchOrder markets orderId
  if terminal order.row.status then
    return ()
  let obligation ← compute (cancelObligation arith order)
  applyObligation arith (unlockMutation seq orderId order.row.userId) obligation
  updateStatus orderId .canceled

/-- `FOR UPDATE` of the event. -/
def lockEvent (seq : ℕ) : Script Content Unit :=
  statement (.event seq) fun trades _ => some (trades, ())

def settle (seq : ℕ) (event : EngineEvent) : Script Content Unit := do
  lockEvent seq
  match event with
  | .orderAccepted order => settleOrderAccepted arith markets seq order
  | .fill f => settleFill arith markets seq f
  | .orderCanceled orderId _ => settleCancel arith markets seq orderId
  | .orderRested _ _ | .bookDelta _ _ _ | .marketStatus _ _ => return ()

end Statements

/-! ## What the sessions run -/

/-- A transaction that runs statement by statement. -/
inductive Work where
  | faucet (userId assetId : Uuid) (amount : ℚ) (depositId : Uuid)
  | tryLock (userId assetId : Uuid) (amount : ℚ)
  | unlock (userId assetId : Uuid) (amount : ℚ)
  | insert (input : Tables.InsertOrder)
  | updateStatus (orderId : Uuid) (status : OrderStatus)
  | settle (e : SequencedEngineEvent)

/-- As a whole. -/
def Work.transaction : Work → Transaction
  | .faucet userId assetId amount depositId => .faucet userId assetId amount depositId
  | .tryLock userId assetId amount => .tryLock userId assetId amount
  | .unlock userId assetId amount => .unlock userId assetId amount
  | .insert input => .insert input
  | .updateStatus orderId status => .updateStatus orderId status
  | .settle e => .settle e

/-- Its statements; the result is that of `try_lock_balance`. -/
def Work.script (arith : Arithmetic) (markets : String → Option MarketRow) :
    Work → Script Content Bool
  | .faucet userId assetId amount depositId => do
    Statements.applyFaucet arith userId assetId amount depositId
    return true
  | .tryLock userId assetId amount => Statements.tryLockBalance arith userId assetId amount
  | .unlock userId assetId amount => do
    Statements.unlockBalance arith userId assetId amount
    return true
  | .insert input => do
    Statements.insertPending arith input
    return true
  | .updateStatus orderId status => do
    Statements.updateStatus orderId status
    return true
  | .settle e => do
    Statements.settle arith markets e.seq e.event
    return true

end CryptoCex.Settlement
