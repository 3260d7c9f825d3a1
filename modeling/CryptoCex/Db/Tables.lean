import CryptoCex.Lib.Except
import CryptoCex.Lib.OrdMap
import CryptoCex.Proto.Types
import Mathlib.Algebra.Order.Ring.Rat
import Mathlib.Data.Rat.Floor
import Mathlib.Logic.Function.Basic

/-!
# The tables

The rows of the schema (`migrations/0001_init.sql`) that the API and settlement share, and
the statements of the API's repositories on them. A statement fails as a whole when a
constraint of the schema is broken. A market stands for its row: symbols are unique, so a
row of `orders` names its market by the symbol.

Amounts are rational numbers. Statements compute and compare them exactly; what a column
keeps of a result is up to `store`, which is `numeric` for the real columns: rounded to 18
places, and refused when out of range.
-/

namespace CryptoCex.Db

open CryptoCex.Core (Decimal Uuid)
open Proto (OrderSide)

/-- Why a statement or a transaction failed. -/
inductive DbError where
  | unavailable
  | numericOverflow
  | checkViolation
  | uniqueViolation
  | rowNotFound
  /-- The service panicked in the middle of a transaction. -/
  | panicked
deriving DecidableEq, Repr

/-! ## Amounts -/

/-- The number a decimal of the services stands for. -/
def value (x : Decimal) : ℚ := x / 10 ^ 28

/-- The nearest multiple of the last place of a `NUMERIC(38, 18)` column, with ties away
from zero. -/
def roundPlaces (x : ℚ) : ℤ :=
  if 0 ≤ x then (x * 10 ^ 18 + 1 / 2).floor else -(-x * 10 ^ 18 + 1 / 2).floor

/-- The value a `NUMERIC(38, 18)` column stores: below `10 ^ 20` in absolute value. -/
def numeric (x : ℚ) : Option ℚ :=
  if (roundPlaces x).natAbs < 10 ^ 38 then some (roundPlaces x / 10 ^ 18) else none

/-! ## Rows -/

/-- A row of `balances`. -/
structure Balance where
  available : ℚ
  locked : ℚ
deriving DecidableEq, Repr

inductive OrderStatus where
  | pending
  | new
  | partiallyFilled
  | filled
  | canceled
  | rejected
deriving DecidableEq, Repr

/-- The statuses that `mark_orders_canceled` overwrites. -/
def OrderStatus.markable : OrderStatus → Bool
  | .pending | .new | .partiallyFilled => true
  | _ => false

/-- A row of `orders`; its id is the key. -/
structure OrderRow where
  userId : Uuid
  /-- The symbol of its market. -/
  market : String
  clientOrderId : Option String
  side : OrderSide
  status : OrderStatus
  price : Option ℚ
  quantity : Option ℚ
  filledQuantity : ℚ
  avgFillPrice : Option ℚ
deriving DecidableEq, Repr

/-- A row of `trades`. -/
structure TradeRow where
  id : Uuid
  market : String
  takerOrderId : Uuid
  makerOrderId : Uuid
  price : ℚ
  quantity : ℚ
  takerSide : OrderSide
  engineSeq : ℕ
deriving DecidableEq, Repr

inductive LedgerEntryKind where
  | deposit
  | lock
  | unlock
  | trade
  | fee
deriving DecidableEq, Repr

inductive ReferenceType where
  | deposit
  | order
  | trade
deriving DecidableEq, Repr

/-- A row of `ledger_entries`. -/
structure LedgerEntry where
  userId : Uuid
  assetId : Uuid
  kind : LedgerEntryKind
  amount : ℚ
  availableAfter : ℚ
  lockedAfter : ℚ
  referenceType : ReferenceType
  referenceId : Option Uuid
  engineSeq : Option ℕ
deriving DecidableEq, Repr

/-- A completed row of `deposits`. -/
structure Deposit where
  id : Uuid
  userId : Uuid
  assetId : Uuid
  amount : ℚ
deriving DecidableEq, Repr

inductive MarketRowStatus where
  | trading
  | halted
  | delisted
deriving DecidableEq, Repr

/-- A row of `markets`, with the checks of its columns. -/
structure MarketRow where
  baseAssetId : Uuid
  quoteAssetId : Uuid
  status : MarketRowStatus
  makerFeeBps : ℚ
  takerFeeBps : ℚ
  distinct : baseAssetId ≠ quoteAssetId
  makerFeeBps_nonneg : 0 ≤ makerFeeBps
  takerFeeBps_nonneg : 0 ≤ takerFeeBps

structure Tables where
  /-- Rows by user and asset. -/
  balances : Uuid × Uuid → Option Balance
  orders : OrdMap Uuid OrderRow
  trades : List TradeRow
  /-- In the order of their ids. -/
  ledgerEntries : List LedgerEntry
  deposits : List Deposit
  markets : String → Option MarketRow

namespace Tables

/-! ## Balances -/

/-- Stores both amounts of a balance, under the checks `available >= 0` and `locked >= 0`. -/
def putBalance (store : ℚ → Option ℚ) (db : Tables) (userId assetId : Uuid)
    (available locked : ℚ) : Except DbError Tables :=
  match store available, store locked with
  | some available, some locked =>
    if 0 ≤ available ∧ 0 ≤ locked then
      .ok { db with
        balances := Function.update db.balances (userId, assetId) (some ⟨available, locked⟩) }
    else .error .checkViolation
  | _, _ => .error .numericOverflow

/-- Moves `amount` from `available` to `locked`; false when the balance is insufficient. -/
def tryLockBalance (store : ℚ → Option ℚ) (userId assetId : Uuid) (amount : ℚ) (db : Tables) :
    Except DbError (Bool × Tables) :=
  match db.balances (userId, assetId) with
  | some row =>
    if amount ≤ row.available then
      (db.putBalance store userId assetId (row.available - amount) (row.locked + amount)).map
        (true, ·)
    else .ok (false, db)
  | none => .ok (false, db)

/-- Releases `amount` of locked balance back to available. -/
def unlockBalance (store : ℚ → Option ℚ) (userId assetId : Uuid) (amount : ℚ) (db : Tables) :
    Except DbError (Unit × Tables) :=
  match db.balances (userId, assetId) with
  | some row =>
    (db.putBalance store userId assetId (row.available + amount) (row.locked - amount)).map
      ((), ·)
  | none => .ok ((), db)

/-- The ledger entry of a faucet deposit. -/
def faucetEntry (userId assetId : Uuid) (amount : ℚ) (depositId : Uuid) (after : Balance) :
    LedgerEntry where
  userId := userId
  assetId := assetId
  kind := .deposit
  amount := amount
  availableAfter := after.available
  lockedAfter := after.locked
  referenceType := .deposit
  referenceId := some depositId
  engineSeq := none

/-- Inserts a completed deposit, under the check `amount > 0`. -/
def insertDeposit (store : ℚ → Option ℚ) (deposit : Deposit) (db : Tables) :
    Except DbError Tables :=
  match store deposit.amount with
  | none => .error .numericOverflow
  | some amount =>
    if 0 < amount then
      if db.deposits.any fun other => other.id = deposit.id then .error .uniqueViolation
      else .ok { db with deposits := db.deposits ++ [{ deposit with amount := amount }] }
    else .error .checkViolation

/-- A faucet deposit: the balance, its row of `deposits` and its ledger entry, which is
selected from the balance. -/
def applyFaucet (store : ℚ → Option ℚ) (userId assetId : Uuid) (amount : ℚ) (depositId : Uuid)
    (db : Tables) : Except DbError Tables :=
  match db.balances (userId, assetId) with
  | none => .error .rowNotFound
  | some row => do
    let db ← db.putBalance store userId assetId (row.available + amount) row.locked
    let db ← db.insertDeposit store ⟨depositId, userId, assetId, amount⟩
    match store amount, db.balances (userId, assetId) with
    | none, _ => throw .numericOverflow
    | some _, none => return db
    | some stored, some after =>
      return { db with
        ledgerEntries := db.ledgerEntries ++
          [faucetEntry userId assetId stored depositId after] }

/-! ## Orders -/

def findByClientOrderId (userId : Uuid) (clientOrderId : String) (db : Tables) :
    Except DbError (Option (Uuid × OrderRow) × Tables) :=
  .ok (db.orders.entries.find? fun e =>
    e.2.userId = userId ∧ e.2.clientOrderId = some clientOrderId, db)

/-- The values bound by `insert` that a constraint or a later statement looks at. -/
structure InsertOrder where
  id : Uuid
  userId : Uuid
  market : String
  clientOrderId : Option String
  side : OrderSide
  price : Option ℚ
  stopPrice : Option ℚ
  quantity : Option ℚ
  quoteQuantity : Option ℚ
  displayQuantity : Option ℚ
deriving DecidableEq, Repr

/-- What is stored in a column with the check `x IS NULL OR x > 0`. -/
def storePositive (store : ℚ → Option ℚ) : Option ℚ → Except DbError (Option ℚ)
  | none => .ok none
  | some x =>
    match store x with
    | none => .error .numericOverflow
    | some stored => if 0 < stored then .ok (some stored) else .error .checkViolation

/-- The row of a new order, with the checks of its columns. -/
def checkedRow (store : ℚ → Option ℚ) (input : InsertOrder) (status : OrderStatus) :
    Except DbError OrderRow := do
  let price ← storePositive store input.price
  let _ ← storePositive store input.stopPrice
  let quantity ← storePositive store input.quantity
  let _ ← storePositive store input.quoteQuantity
  let _ ← storePositive store input.displayQuantity
  if input.quantity = none ∧ input.quoteQuantity = none then
    throw .checkViolation
  return {
    userId := input.userId
    market := input.market
    clientOrderId := input.clientOrderId
    side := input.side
    status := status
    price := price
    quantity := quantity
    filledQuantity := 0
    avgFillPrice := none }

/-- A row with the primary key of the new order, or with its user and client order id: by
`uq_orders_user_client_order` a client order id is there once for each user. Rows without one
do not clash. -/
def clashes (db : Tables) (input : InsertOrder) : Bool :=
  (db.orders.find? input.id).isSome || db.orders.entries.any fun e =>
    e.2.userId = input.userId ∧ e.2.clientOrderId.isSome ∧
      e.2.clientOrderId = input.clientOrderId

/-- Inserts a pending order. -/
def insertOrder (store : ℚ → Option ℚ) (input : InsertOrder) (db : Tables) :
    Except DbError (Unit × Tables) := do
  let row ← checkedRow store input .pending
  if db.clashes input then throw .uniqueViolation
  else return ((), { db with orders := db.orders.insert input.id row })

/-- Sets the status of an order, whatever it was. -/
def updateStatus (orderId : Uuid) (status : OrderStatus) (db : Tables) : Tables :=
  match db.orders.find? orderId with
  | none => db
  | some row => { db with orders := db.orders.insert orderId { row with status := status } }

def markOrderCanceled (orderId : Uuid) (db : Tables) : Tables :=
  match db.orders.find? orderId with
  | none => db
  | some row => if row.status.markable then db.updateStatus orderId .canceled else db

/-- Marks orders the engine returned as canceled. -/
def markOrdersCanceled (orderIds : List Uuid) (db : Tables) : Tables :=
  orderIds.foldl (fun db orderId => db.markOrderCanceled orderId) db

/-! ## Statements that may fail to reach the database or to return -/

/-- What becomes of a statement on its way. -/
inductive Delivery where
  /-- It runs, and its result is returned. -/
  | answered
  /-- It does not run. -/
  | refused
  /-- It runs, but its result is lost. -/
  | lost
deriving DecidableEq, Repr

/-- What the caller of a statement sees, and the tables afterwards. -/
def execute {α : Type} (db : Tables) (delivery : Delivery)
    (statement : Tables → Except DbError (α × Tables)) : Except DbError α × Tables :=
  match delivery with
  | .refused => (.error .unavailable, db)
  | .answered =>
    match statement db with
    | .ok (result, db) => (.ok result, db)
    | .error e => (.error e, db)
  | .lost =>
    match statement db with
    | .ok (_, db) => (.error .unavailable, db)
    | .error _ => (.error .unavailable, db)

/-! ## What the statements did -/

variable {store : ℚ → Option ℚ} {db db' : Tables} {userId assetId : Uuid}

/-- A balance is written if both amounts can be stored and neither is negative. -/
theorem putBalance_eq_ok {x y : ℚ} :
    db.putBalance store userId assetId x y = .ok db' ↔ ∃ available locked,
      store x = some available ∧ store y = some locked ∧ 0 ≤ available ∧ 0 ≤ locked ∧
      db' = { db with
        balances := Function.update db.balances (userId, assetId) (some ⟨available, locked⟩) } := by
  unfold putBalance
  constructor
  · intro h
    split at h
    next available locked havailable hlocked =>
      split_ifs at h with hchecks
      cases h
      exact ⟨available, locked, havailable, hlocked, hchecks.1, hchecks.2, rfl⟩
    · cases h
  · rintro ⟨available, locked, havailable, hlocked, h0, h1, rfl⟩
    simp only [havailable, hlocked]
    rw [if_pos ⟨h0, h1⟩]

/-- A deposit is inserted with its amount as stored, which is positive. -/
theorem insertDeposit_eq_ok {deposit : Deposit} (h : db.insertDeposit store deposit = .ok db') :
    ∃ amount, store deposit.amount = some amount ∧ 0 < amount ∧
      db' = { db with deposits := db.deposits ++ [{ deposit with amount := amount }] } := by
  unfold insertDeposit at h
  split at h
  · cases h
  next amount hamount =>
  split_ifs at h with hpos hid
  cases h
  exact ⟨amount, hamount, hpos, rfl⟩

/-- What a deposit that commits has written. -/
theorem applyFaucet_eq_ok {amount : ℚ} {depositId : Uuid}
    (h : db.applyFaucet store userId assetId amount depositId = .ok db') :
    ∃ row available locked stored, db.balances (userId, assetId) = some row ∧
      store (row.available + amount) = some available ∧ store row.locked = some locked ∧
      store amount = some stored ∧ 0 ≤ available ∧ 0 ≤ locked ∧ 0 < stored ∧
      db' = { db with
        balances := Function.update db.balances (userId, assetId) (some ⟨available, locked⟩)
        deposits := db.deposits ++ [⟨depositId, userId, assetId, stored⟩]
        ledgerEntries := db.ledgerEntries ++
          [faucetEntry userId assetId stored depositId ⟨available, locked⟩] } := by
  unfold applyFaucet at h
  split at h
  · cases h
  next row hrow =>
  rcases Except.bind_eq_ok.mp h with ⟨mid, hput, h⟩
  rcases putBalance_eq_ok.mp hput with ⟨available, locked, havailable, hlocked, h0, h1, rfl⟩
  rcases Except.bind_eq_ok.mp h with ⟨mid, hdeposit, h⟩
  rcases insertDeposit_eq_ok hdeposit with ⟨stored, hstored, hpos, rfl⟩
  simp only [hstored, Function.update_self] at h
  cases h
  exact ⟨row, available, locked, stored, hrow, havailable, hlocked, hstored, h0, h1, hpos, rfl⟩

/-- What a committed lock did: nothing, or the move. -/
theorem tryLockBalance_eq_ok {amount : ℚ} {locked : Bool}
    (h : tryLockBalance store userId assetId amount db = .ok (locked, db')) :
    locked = false ∧ db' = db ∨ locked = true ∧ ∃ row, db.balances (userId, assetId) = some row ∧
      amount ≤ row.available ∧
      db.putBalance store userId assetId (row.available - amount) (row.locked + amount) =
        .ok db' := by
  unfold tryLockBalance at h
  split at h
  · next row hrow =>
    split_ifs at h with hle
    · cases hput : db.putBalance store userId assetId (row.available - amount)
        (row.locked + amount) with
      | error e =>
        rw [hput] at h
        cases h
      | ok after =>
        rw [hput] at h
        cases h
        exact .inr ⟨rfl, row, hrow, hle, hput⟩
    · cases h
      exact .inl ⟨rfl, rfl⟩
  · cases h
    exact .inl ⟨rfl, rfl⟩

/-- Unlocking commits with the balance changed, or with nothing changed if there is none. -/
theorem unlockBalance_eq_ok {amount : ℚ}
    (h : unlockBalance store userId assetId amount db = .ok ((), db')) :
    db' = db ∨ ∃ row, db.balances (userId, assetId) = some row ∧
      db.putBalance store userId assetId (row.available + amount) (row.locked - amount) =
        .ok db' := by
  unfold unlockBalance at h
  split at h
  · next row hrow =>
    cases hput : db.putBalance store userId assetId (row.available + amount)
      (row.locked - amount) with
    | error e =>
      rw [hput] at h
      cases h
    | ok after =>
      rw [hput] at h
      cases h
      exact .inr ⟨row, hrow, hput⟩
  · cases h
    exact .inl rfl

/-- The keys of a new row are those of the input. -/
theorem checkedRow_keys {input : InsertOrder} {status : OrderStatus} {row : OrderRow}
    (h : checkedRow store input status = .ok row) :
    row.userId = input.userId ∧ row.clientOrderId = input.clientOrderId := by
  unfold checkedRow at h
  rcases Except.bind_eq_ok.mp h with ⟨_, _, h⟩
  rcases Except.bind_eq_ok.mp h with ⟨_, _, h⟩
  rcases Except.bind_eq_ok.mp h with ⟨_, _, h⟩
  rcases Except.bind_eq_ok.mp h with ⟨_, _, h⟩
  rcases Except.bind_eq_ok.mp h with ⟨_, _, h⟩
  split_ifs at h
  · cases h
  · cases h
    exact ⟨rfl, rfl⟩

/-- An order is inserted if its columns pass and its client id is new. -/
theorem insertOrder_eq_ok {input : InsertOrder} :
    db.insertOrder store input = .ok ((), db') ↔ ∃ row,
      checkedRow store input .pending = .ok row ∧ db.clashes input = false ∧
      db' = { db with orders := db.orders.insert input.id row } := by
  unfold insertOrder
  rw [Except.bind_eq_ok]
  refine exists_congr fun row => and_congr_right fun _ => ?_
  cases db.clashes input <;> simp [throw, throwThe, MonadExceptOf.throw, pure, Except.pure, eq_comm]

end Tables

/-! ## Opening tables -/

/-- A market of asset 1 against asset 2, with fees of 10 basis points. -/
def btcMarket : MarketRow where
  baseAssetId := 1
  quoteAssetId := 2
  status := .trading
  makerFeeBps := 10
  takerFeeBps := 10
  distinct := by decide
  makerFeeBps_nonneg := by decide
  takerFeeBps_nonneg := by decide

/-- These balances and the market, and nothing else. -/
def openingTables (rows : List ((Uuid × Uuid) × Balance)) : Tables where
  balances := fun key => rows.lookup key
  orders := OrdMap.empty
  trades := []
  ledgerEntries := []
  deposits := []
  markets := fun symbol => if symbol = "BTCUSDT" then some btcMarket else none

end CryptoCex.Db
