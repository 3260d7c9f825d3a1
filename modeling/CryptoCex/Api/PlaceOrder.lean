import CryptoCex.Db.Tables

/-!
# The parts of `place_order`

The checks of `handlers/orders.rs` before an order is forwarded to the engine, the lock it
takes on the caller's balance, and the translation of what the engine answers. The handler
itself, which interleaves with other calls at every statement and at every wait for the
engine, is a part of `CryptoCex.Api.System`.

The fields of the input are given as parsed; a field that does not parse ends the handler
before it has done anything.
-/

namespace CryptoCex.Api

open CryptoCex.Core (Decimal Uuid)
open Db (MarketRow Tables value)
open Proto (EngineOrder EngineOrderType OrderSide)

/-- The error codes that placing an order can return. -/
inductive ErrorCode where
  | insufficientBalance
  | marketHalted
  | marketUnknown
  | postOnlyRejected
  | fokNotFilled
  | selfTradePrevented
  | stopPriceInvalid
  | engineTimeout
  | internal
deriving DecidableEq, Repr

structure ApiError where
  /-- HTTP status. -/
  status : ℕ
  code : ErrorCode
  message : String
deriving DecidableEq, Repr

def ApiError.internal : ApiError := ⟨500, .internal, "Something went wrong"⟩

/-- The body of a request to place an order, and who sent it. -/
structure PlaceOrderInput where
  clientOrderId : Option String
  /-- The market, in upper case. -/
  symbol : String
  side : OrderSide
  orderType : EngineOrderType
  price : Option Decimal
  stopPrice : Option Decimal
  quantity : Option Decimal
  quoteQuantity : Option Decimal
  displayQuantity : Option Decimal
deriving DecidableEq, Repr

/-! ## Checks -/

/-- `quoteQuantity` for market buys, `quantity` for everything else. -/
def effectiveQty (input : PlaceOrderInput) : Except ApiError Decimal :=
  match input.orderType with
  | .market =>
    match input.side with
    | .buy => input.quoteQuantity.elim
        (.error ⟨400, .internal, "Market buy requires quoteQuantity"⟩) .ok
    | .sell => input.quantity.elim (.error ⟨400, .internal, "Market sell requires quantity"⟩) .ok
  | _ => input.quantity.elim
      (.error ⟨400, .internal, "quantity is required for this order type"⟩) .ok

/-- The order types whose price is checked to be there. -/
def requiresLimitPrice : EngineOrderType → Bool
  | .limit | .postOnly | .ioc | .fok => true
  | _ => false

/-- The validation of the input; the result is the effective quantity. -/
def validateInput (input : PlaceOrderInput) : Except ApiError Decimal := do
  let quantity ← effectiveQty input
  if quantity ≤ 0 then
    throw ⟨400, .internal, "quantity must be positive"⟩
  if requiresLimitPrice input.orderType ∧ input.price = none then
    throw ⟨400, .internal, "price is required for this order type"⟩
  return quantity

def validateMarket (market : Option MarketRow) : Except ApiError MarketRow :=
  match market with
  | none => .error ⟨404, .marketUnknown, "Market not found"⟩
  | some market =>
    if market.status = .halted ∨ market.status = .delisted then
      .error ⟨409, .marketHalted, "Market is halted"⟩
    else .ok market

/-! ## The balance lock -/

/-- A lock on the balance of a user. -/
structure Lock where
  userId : Uuid
  assetId : Uuid
  amount : Decimal
deriving DecidableEq, Repr

/-- Which asset to lock and by how much; stop orders lock nothing. The price of a buy order
is multiplied by `mul`, which is `none` where the product overflows and the handler panics. -/
def balanceLockParams (mul : Decimal → Decimal → Option Decimal) (side : OrderSide)
    (orderType : EngineOrderType) (price : Option Decimal) (quantity : Decimal)
    (quoteQuantity : Option Decimal) (baseAssetId quoteAssetId : Uuid) :
    Option (Option (Uuid × Decimal)) :=
  match side, orderType with
  | _, .stopLimit | _, .stopMarket => some none
  | .buy, _ =>
    match price with
    | none => some (quoteQuantity.map fun amount => (quoteAssetId, amount))
    | some p => (mul p quantity).map fun amount => some (quoteAssetId, amount)
  | .sell, _ => some (some (baseAssetId, quantity))

/-- A validated order: its effective quantity and the lock taken for it. -/
structure Placement where
  quantity : Decimal
  lock : Option Lock
deriving DecidableEq, Repr

/-- The order forwarded to the engine. -/
def engineOrder (orderId userId : Uuid) (input : PlaceOrderInput) (quantity : Decimal) :
    EngineOrder where
  id := orderId
  userId := userId
  symbol := input.symbol
  side := input.side
  orderType := input.orderType
  price := input.price
  quantity := quantity
  stpMode := .decrement
  stopPrice := input.stopPrice
  ocoLinkedId := none
  displayQty := input.displayQuantity

/-- The row of a pending order. -/
def pendingRow (orderId userId : Uuid) (input : PlaceOrderInput) (quantity : Decimal) :
    Tables.InsertOrder where
  id := orderId
  userId := userId
  market := input.symbol
  clientOrderId := input.clientOrderId
  side := input.side
  price := input.price.map value
  stopPrice := input.stopPrice.map value
  quantity := some (value quantity)
  quoteQuantity := input.quoteQuantity.map value
  displayQuantity := input.displayQuantity.map value

/-! ## The engine's refusals -/

/-- Errors of the engine client. -/
inductive EngineClientError where
  | io
  | timeout
  | unexpected
  | rejected (code message : String)
deriving DecidableEq, Repr

def mapEngineReject (code : String) : ApiError :=
  match code with
  | "POST_ONLY_REJECTED" => ⟨409, .postOnlyRejected, "Post-only order would cross the book"⟩
  | "FOK_NOT_FILLED" => ⟨409, .fokNotFilled, "FOK order could not be fully filled"⟩
  | "SELF_TRADE_PREVENTED" => ⟨409, .selfTradePrevented, "Self-trade prevented"⟩
  | "STOP_PRICE_INVALID" =>
    ⟨400, .stopPriceInvalid, "Stop price is on the wrong side of last price"⟩
  | "MARKET_HALTED" => ⟨409, .marketHalted, "Market is halted"⟩
  | _ => ⟨400, .internal, "Order rejected by engine"⟩

/-- The response to a caller whose order the engine did not acknowledge. -/
def engineFailure : EngineClientError → ApiError
  | .timeout => ⟨503, .engineTimeout, "Engine did not respond in time"⟩
  | .rejected code _ => mapEngineReject code
  | .io | .unexpected => .internal

end CryptoCex.Api
