import CryptoCex.Api.PlaceOrder
import CryptoCex.Settlement.Moves

/-!
# The desk

The API locks funds for an order before it forwards it; settlement later takes what a fill
costs, or releases what a canceled order has left, from what is locked. `Desk.step` runs both
sides in one machine: orders are forwarded, refused ones refunded, statuses written, and events
settled, in any order.

`Permitted` is what is assumed of a step: the engine fills an order only up to its quantity and
never after its cancel (`Promised`), and what the API does not lock for stop orders and for buy
orders without a price is locked anyway. Amounts are exact.
-/

namespace CryptoCex.Settlement

open Api (PlaceOrderInput balanceLockParams pendingRow validateInput validateMarket)
open CryptoCex.Core (Decimal Uuid)
open Db (MarketRow OrderRow OrderStatus Tables value)
open Proto (EngineEvent EngineOrderType OrderSide SequencedEngineEvent TradeFill)

/-! ## Forwarding an order -/

/-- What `place_order` locks for an input. -/
def lockFor (mul : Decimal → Decimal → Option Decimal) (input : PlaceOrderInput)
    (quantity : Decimal) (market : MarketRow) : Option (Option (Uuid × Decimal)) :=
  balanceLockParams mul input.side input.orderType input.price quantity input.quoteQuantity
    market.baseAssetId market.quoteAssetId

/-- Takes the lock of an order, if it has one. -/
def takeLock (userId : Uuid) (lock : Option (Uuid × Decimal)) (db : Tables) : Option Tables :=
  match lock with
  | none => some db
  | some (assetId, amount) =>
    match db.tryLockBalance some userId assetId (value amount) with
    | .ok (true, db) => some db
    | _ => none

/-- What `place_order` does to the tables up to the point where it forwards the order. -/
def forward (mul : Decimal → Decimal → Option Decimal) (orderId userId : Uuid)
    (input : PlaceOrderInput) (db : Tables) : Option Tables :=
  match validateInput input, validateMarket (db.markets input.symbol) with
  | .ok quantity, .ok market =>
    (lockFor mul input quantity market).bind fun lock =>
      (takeLock userId lock db).bind fun db =>
        ((db.insertOrder some (pendingRow orderId userId input quantity)).map Prod.snd).toOption
  | _, _ => none

/-- Releases the lock of an order that the engine refused; a failed statement changes
nothing. -/
def refund (mul : Decimal → Decimal → Option Decimal) (userId : Uuid) (input : PlaceOrderInput)
    (db : Tables) : Tables :=
  match validateInput input, db.markets input.symbol with
  | .ok quantity, some market =>
    match lockFor mul input quantity market with
    | some (some (assetId, amount)) =>
      match db.unlockBalance some userId assetId (value amount) with
      | .ok (_, db) => db
      | .error _ => db
    | _ => db
  | _, _ => db

/-! ## The machine -/

/-- The tables, and the orders that the engine is done with. -/
structure Desk where
  db : Tables
  /-- History: orders that were refused or whose cancel was settled. -/
  closed : List Uuid

inductive DeskOp where
  /-- The API locks the funds of an order, inserts it and forwards it. -/
  | forward (orderId userId : Uuid) (input : PlaceOrderInput)
  /-- The engine refused the order, and the API refunds it. -/
  | refund (orderId userId : Uuid) (input : PlaceOrderInput)
  /-- The API writes a status the engine told it. -/
  | updateStatus (orderId : Uuid) (status : OrderStatus)
  | markCanceled (orderIds : List Uuid)
  | settle (e : SequencedEngineEvent)

/-- The orders that are over after an event. -/
def closedAfter (closed : List Uuid) : EngineEvent → List Uuid
  | .orderCanceled orderId _ => orderId :: closed
  | _ => closed

namespace Desk

/-- One step; a transaction of settlement that fails blocks. -/
def step (mul : Decimal → Decimal → Option Decimal) (s : Desk) : DeskOp → Option Desk
  | .forward orderId userId input =>
    (forward mul orderId userId input s.db).map fun db => { s with db := db }
  | .refund orderId userId input =>
    some ⟨Settlement.refund mul userId input s.db, orderId :: s.closed⟩
  | .updateStatus orderId status => some { s with db := s.db.updateStatus orderId status }
  | .markCanceled orderIds => some { s with db := s.db.markOrdersCanceled orderIds }
  | .settle e =>
    (Settlement.step .exact s.db e).map fun db => ⟨db, closedAfter s.closed e.event⟩

/-- The orders the engine may still fill or cancel. -/
def openOrders (s : Desk) : OrdMap Uuid OrderRow :=
  s.db.orders.filterKeys fun orderId => orderId ∉ s.closed

/-- What the orders still owe in an account. -/
def owed (s : Desk) (key : Uuid × Uuid) : ℚ := s.openOrders.total (owes s.db.markets key)

/-- What is locked in an account beyond what the orders owe. -/
def spare (s : Desk) (key : Uuid × Uuid) : ℚ := locked s.db key - s.owed key

end Desk

/-! ## What the engine promises, and what the API has to provide -/

/-- A fill is between two orders on opposite sides, neither refused nor canceled and both with
its quantity left, and makes a new trade. -/
structure Fillable (s : Desk) (seq : ℕ) (f : TradeFill) : Prop where
  distinct : f.takerOrderId ≠ f.makerOrderId
  taker : ∃ row, s.openOrders.find? f.takerOrderId = some row ∧ row.side = f.takerSide ∧
    value f.quantity ≤ remaining row
  maker : ∃ row, s.openOrders.find? f.makerOrderId = some row ∧ row.side ≠ f.takerSide ∧
    value f.quantity ≤ remaining row
  price : 0 < value f.price
  quantity : 0 < value f.quantity
  seq : 0 < seq
  fresh : ∀ trade ∈ s.db.trades, trade.id ≠ f.tradeId

/-- What the engine promises of its events: it fills as it should, it cancels an order once
and only if it has it, and it accepts orders that were forwarded. -/
def Promised (s : Desk) (e : SequencedEngineEvent) : Prop :=
  match e.event with
  | .orderAccepted order => (s.db.orders.find? order.id).isSome
  | .fill f => Fillable s e.seq f
  | .orderCanceled orderId _ => (s.openOrders.find? orderId).isSome ∧ 0 < e.seq
  | _ => True

/-- The buyer's order has a price and the fill is not above it, or what is locked beyond what
the orders owe pays for it. -/
def PaidFor (s : Desk) (f : TradeFill) : Prop :=
  ∀ row market, s.db.orders.find? (buyerId f) = some row → s.db.markets row.market = some market →
    (∃ price, row.price = some price ∧ value f.price ≤ price) ∨
      value f.price * value f.quantity ≤ s.spare (row.userId, market.quoteAssetId)

/-- The product of price and quantity is not rounded. -/
def Unrounded (mul : Decimal → Decimal → Option Decimal) (input : PlaceOrderInput) : Prop :=
  ∀ price quantity amount, input.price = some price → validateInput input = .ok quantity →
    mul price quantity = some amount → value amount = value price * value quantity

/-- The API locks nothing for the order. -/
def isStop : EngineOrderType → Bool
  | .stopLimit | .stopMarket => true
  | _ => false

/-- What an order owes when it is forwarded. -/
def owedAtFirst (input : PlaceOrderInput) (quantity : Decimal) (market : MarketRow) : Uuid × ℚ :=
  match input.side with
  | .buy => (market.quoteAssetId,
      input.price.elim 0 fun price => value price * value quantity)
  | .sell => (market.baseAssetId, value quantity)

/-- The order as it was forwarded, without any fill. -/
structure Untouched (row : OrderRow) (userId : Uuid) (input : PlaceOrderInput)
    (quantity : Decimal) : Prop where
  userId : row.userId = userId
  market : row.market = input.symbol
  side : row.side = input.side
  price : row.price = input.price.map value
  quantity : row.quantity = some (value quantity)
  filledQuantity : row.filledQuantity = 0

/-- What is assumed of a step. The engine keeps its promises, users have balances in the assets
they trade, and products are not rounded. What the API does not lock for stop orders and for
buy orders without a price is locked anyway. -/
def Permitted (mul : Decimal → Decimal → Option Decimal) (s : Desk) : DeskOp → Prop
  | .forward _ userId input => Unrounded mul input ∧
      ∀ quantity market, validateInput input = .ok quantity →
        s.db.markets input.symbol = some market →
        (s.db.balances (userId, market.baseAssetId)).isSome ∧
        (s.db.balances (userId, market.quoteAssetId)).isSome ∧
        (isStop input.orderType = true → (owedAtFirst input quantity market).2 ≤
          s.spare (userId, (owedAtFirst input quantity market).1))
  | .refund orderId userId input => Unrounded mul input ∧
      ∀ quantity market, validateInput input = .ok quantity →
        s.db.markets input.symbol = some market →
        (∃ row, s.openOrders.find? orderId = some row ∧ Untouched row userId input quantity) ∧
        (input.side = .buy → input.price = none → ∀ amount, input.quoteQuantity = some amount →
          value amount ≤ s.spare (userId, market.quoteAssetId))
  | .updateStatus _ _ | .markCanceled _ => True
  | .settle e => Promised s e ∧ ∀ f, e.event = .fill f → PaidFor s f

/-! ## What the operations did -/

variable {mul : Decimal → Decimal → Option Decimal} {db db' : Tables} {s : Desk}

/-- The open orders are the rows that are not closed. -/
theorem Desk.find?_openOrders {orderId : Uuid} {row : OrderRow} :
    s.openOrders.find? orderId = some row ↔
      orderId ∉ s.closed ∧ s.db.orders.find? orderId = some row := by
  unfold Desk.openOrders
  rw [OrdMap.find?_filterKeys]
  by_cases h : orderId ∈ s.closed <;> simp [h]

/-- What a lock adds to an account. -/
def lockedBy (userId : Uuid) (lock : Option (Uuid × Decimal)) (key : Uuid × Uuid) : ℚ :=
  lock.elim 0 fun p => inAccount key userId (p.1, value p.2)

/-- Taking a lock moves its amount from available to locked. -/
theorem takeLock_moves {userId : Uuid} {lock : Option (Uuid × Decimal)}
    (h : takeLock userId lock db = some db') : Moves db db' (lockedBy userId lock) := by
  cases lock with
  | none =>
    cases h
    exact .refl _
  | some p =>
    rcases p with ⟨assetId, amount⟩
    simp only [takeLock] at h
    split at h
    · next mid hlock =>
      cases h
      rcases Tables.tryLockBalance_eq_ok hlock with ⟨hfalse, _⟩ | ⟨_, row, hrow, _, hput⟩
      · cases hfalse
      have hmoves := moves_putBalance hrow hput
      simp only [add_sub_cancel_left] at hmoves
      exact hmoves
    · cases h

/-- What it took to forward an order. -/
theorem forward_eq_some {orderId userId : Uuid} {input : PlaceOrderInput}
    (h : forward mul orderId userId input db = some db') :
    ∃ quantity market lock mid row, validateInput input = .ok quantity ∧
      db.markets input.symbol = some market ∧ lockFor mul input quantity market = some lock ∧
      takeLock userId lock db = some mid ∧
      Tables.checkedRow some (pendingRow orderId userId input quantity) .pending = .ok row ∧
      mid.orders.find? orderId = none ∧
      db' = { mid with orders := mid.orders.insert orderId row } := by
  unfold forward at h
  split at h
  next quantity market hquantity hmarket =>
    rcases Option.bind_eq_some_iff.mp h with ⟨lock, hlock, h⟩
    rcases Option.bind_eq_some_iff.mp h with ⟨mid, hmid, h⟩
    rw [Except.toOption_eq_some] at h
    cases hinsert : mid.insertOrder some (pendingRow orderId userId input quantity) with
    | error e =>
      rw [hinsert] at h
      cases h
    | ok p =>
      rw [hinsert] at h
      cases h
      -- the row passes the checks of the table and its id is new
      rcases Tables.insertOrder_eq_ok.mp hinsert with ⟨row, hchecks, hclash, hafter⟩
      have hnew : mid.orders.find? orderId = none := by
        simp only [Tables.clashes, Bool.or_eq_false_iff] at hclash
        simpa [pendingRow] using hclash.1
      have hfound : db.markets input.symbol = some market := by
        unfold validateMarket at hmarket
        split at hmarket
        · cases hmarket
        next found hfound =>
          split_ifs at hmarket
          cases hmarket
          exact hfound
      exact ⟨quantity, market, lock, mid, row, hquantity, hfound, hlock, hmid, hchecks, hnew, hafter⟩
  · cases h

/-- A stop order locks nothing, a buy order without a price the quote quantity, and every other
order what it owes. -/
theorem lockFor_cases {input : PlaceOrderInput} {quantity : Decimal} {market : MarketRow}
    {lock : Option (Uuid × Decimal)} (hmul : Unrounded mul input)
    (hquantity : validateInput input = .ok quantity)
    (h : lockFor mul input quantity market = some lock) :
    isStop input.orderType = true ∧ lock = none ∨
    input.side = .buy ∧ input.price = none ∧
      lock = input.quoteQuantity.map (fun amount => (market.quoteAssetId, amount)) ∨
    ∃ amount, lock = some ((owedAtFirst input quantity market).1, amount) ∧
      value amount = (owedAtFirst input quantity market).2 := by
  unfold lockFor balanceLockParams at h
  unfold owedAtFirst
  split at h
  · next htype =>
    cases h
    exact .inl ⟨by rw [htype]; rfl, rfl⟩
  · next htype =>
    cases h
    exact .inl ⟨by rw [htype]; rfl, rfl⟩
  · -- a buy order
    next hside _ _ =>
    split at h
    · next hprice =>
      cases h
      exact .inr (.inl ⟨hside, hprice, rfl⟩)
    · next price hprice =>
      rcases Option.map_eq_some_iff.mp h with ⟨amount, hamount, rfl⟩
      refine .inr (.inr ⟨amount, ?_⟩)
      rw [hside, hprice]
      exact ⟨rfl, hmul price quantity amount hprice hquantity hamount⟩
  · -- a sell order
    next hside _ _ =>
    cases h
    refine .inr (.inr ⟨quantity, ?_⟩)
    rw [hside]
    exact ⟨rfl, rfl⟩

/-- A row no event has touched owes what the order owed at first. -/
theorem Untouched.owes {row : OrderRow} {userId : Uuid} {input : PlaceOrderInput}
    {quantity : Decimal} (h : Untouched row userId input quantity)
    {markets : String → Option MarketRow} {market : MarketRow}
    (hmarket : markets input.symbol = some market) (key : Uuid × Uuid) :
    owes markets key row = inAccount key userId (owedAtFirst input quantity market) := by
  have hleft : remaining row = value quantity := by
    rw [remaining, h.quantity, h.filledQuantity]
    exact sub_zero _
  rw [owes_eq (h.market ▸ hmarket), h.userId, hleft]
  congr 1
  unfold owedFor owedAtFirst
  rw [h.side, h.price]
  cases input.side with
  | sell => rfl
  | buy => cases input.price <;> rfl

/-- A refund releases the lock of the order, or does nothing. -/
theorem refund_cases (mul : Decimal → Decimal → Option Decimal) (userId : Uuid)
    (input : PlaceOrderInput) (db : Tables) : refund mul userId input db = db ∨
      ∃ quantity market p, validateInput input = .ok quantity ∧
        db.markets input.symbol = some market ∧ lockFor mul input quantity market = some (some p) ∧
        Moves db (refund mul userId input db) fun key =>
          -lockedBy userId (some p) key := by
  unfold refund
  split
  next quantity market hquantity hmarket =>
    split
    next assetId amount hlock =>
      split
      · next mid hunlock =>
        rcases Tables.unlockBalance_eq_ok hunlock with rfl | ⟨row, hrow, hput⟩
        · exact .inl rfl
        · refine .inr ⟨quantity, market, (assetId, amount), hquantity, hmarket, hlock, ?_⟩
          have hmoves := moves_putBalance hrow hput
          convert hmoves using 2
          simp only [lockedBy, inAccount, Option.elim_some]
          split_ifs <;> ring
      · exact .inl rfl
    · exact .inl rfl
  · exact .inl rfl

end CryptoCex.Settlement
