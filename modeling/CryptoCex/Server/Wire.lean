import CryptoCex.Core.Book
import CryptoCex.Proto.Types

/-!
# Admission checks and translations of the server

An embedding of `wire.rs`: the checks an order passes before it reaches a book,
the reading of a book's events as a rejection or a status, and the translations
between the enumerations of the wire and those of the core.
-/

namespace CryptoCex.Server

open CryptoCex.Core
open Proto (EngineOrder EngineOrderType EngineResponse OrderSide OrderStatus RejectResponse
  SequencedEngineEvent TradeFill)

def fokNotFilled : String := "FOK_NOT_FILLED"
def marketHaltedCode : String := "MARKET_HALTED"
def marketUnknown : String := "MARKET_UNKNOWN"
def minNotional : String := "MIN_NOTIONAL"
def orderNotFoundCode : String := "ORDER_NOT_FOUND"
def postOnlyRejected : String := "POST_ONLY_REJECTED"
def stopPriceInvalid : String := "STOP_PRICE_INVALID"
def tickSize : String := "TICK_SIZE"

/-- What handling a request returns: a response and the events it logged. -/
structure ResponseBundle where
  response : EngineResponse
  events : List SequencedEngineEvent
deriving DecidableEq, Repr

def rejectResponse (requestId : Uuid) (code message : String) : RejectResponse where
  requestId := requestId
  code := code
  message := message

def reject (requestId : Uuid) (code message : String) : ResponseBundle where
  response := .reject (rejectResponse requestId code message)
  events := []

def marketHalted (requestId : Uuid) : ResponseBundle :=
  reject requestId marketHaltedCode "market is halted and cannot accept new orders"

def orderNotFound (requestId : Uuid) (message : String) : ResponseBundle :=
  reject requestId orderNotFoundCode message

/-! ## Admission -/

/-- The Unicode property `White_Space`, by which `str::trim` trims. -/
def isWhiteSpace (c : Char) : Bool :=
  (0x09 ≤ c.toNat && c.toNat ≤ 0x0D) || c.toNat == 0x20 || c.toNat == 0x85 || c.toNat == 0xA0 ||
    c.toNat == 0x1680 || (0x2000 ≤ c.toNat && c.toNat ≤ 0x200A) || c.toNat == 0x2028 ||
    c.toNat == 0x2029 || c.toNat == 0x202F || c.toNat == 0x205F || c.toNat == 0x3000

/-- `s.trim().is_empty()`. -/
def isBlank (s : String) : Bool := s.toList.all isWhiteSpace

def requiresPrice : EngineOrderType → Bool
  | .limit | .ioc | .fok | .postOnly | .stopLimit | .oco | .iceberg => true
  | _ => false

def requiresStopPrice : EngineOrderType → Bool
  | .stopLimit | .stopMarket => true
  | _ => false

/-- `value.is_none_or(|v| v <= 0)`. -/
def missingOrNotPositive (value : Option Decimal) : Bool := value.all fun v => v ≤ 0

/-- The admission checks; the first that fails rejects the order. -/
def validateWireOrder (requestId : Uuid) (order : EngineOrder) : Option RejectResponse :=
  if isBlank order.symbol then
    some (rejectResponse requestId marketUnknown "market symbol is required")
  else if order.quantity ≤ 0 then
    some (rejectResponse requestId minNotional "quantity must be positive")
  else if requiresPrice order.orderType && missingOrNotPositive order.price then
    some (rejectResponse requestId tickSize "positive price is required")
  else if requiresStopPrice order.orderType && missingOrNotPositive order.stopPrice then
    some (rejectResponse requestId stopPriceInvalid "positive stop price is required")
  else if order.orderType == .iceberg &&
      order.displayQty.all fun quantity => quantity ≤ 0 || quantity ≥ order.quantity then
    some (rejectResponse requestId minNotional
      "iceberg display quantity must be positive and smaller than quantity")
  else none

/-! ## Reading the events of a call -/

/-- The rejection an event stands for. -/
def preRejectOf (requestId orderId : Uuid) : EngineEvent → Option RejectResponse
  | .cancelled id reason =>
    if id = orderId then
      match reason with
      | .fokUnfilled => some (rejectResponse requestId fokNotFilled
          "fill-or-kill order could not be fully filled")
      | .postOnlyCrossed => some (rejectResponse requestId postOnlyRejected
          "post-only order would cross the book")
      | _ => none
    else none
  | _ => none

/-- The rejection of a placed order, found among the events of its match. -/
def immediatePreReject (requestId orderId : Uuid) (events : List EngineEvent) :
    Option RejectResponse :=
  events.findSome? (preRejectOf requestId orderId)

/-- The status of a placed order, read off the events of its match. -/
def orderStatusForPlace [Rounding] (orderId : Uuid) (quantity : Decimal)
    (events : List EngineEvent) : OrderStatus :=
  let filled := Decimal.sum (events.filterMap fun e => match e with
    | .fill f => if f.takerOrderId = orderId then some f.quantity else none
    | _ => none)
  let hasRested := events.any fun e => match e with
    | .rested restedId _ => restedId == orderId
    | _ => false
  if hasRested then
    if filled > 0 then .partiallyFilled else .new
  else if filled ≥ quantity then .filled
  else if events.any fun e => match e with
      | .cancelled canceledId _ => canceledId == orderId
      | _ => false then .canceled
  else .filled

/-- The ids of the cancelled orders. -/
def cancelledOrderIds (events : List EngineEvent) : List Uuid :=
  events.filterMap fun e => match e with
    | .cancelled orderId _ => some orderId
    | _ => none

def lastSeqOrCurrent (events : List SequencedEngineEvent) (current : ℕ) : ℕ :=
  match events.getLast? with
  | none => current
  | some event => event.seq

/-! ## Translations -/

def toCoreSide : OrderSide → Side
  | .buy => .buy
  | .sell => .sell

def toCoreOrderType : EngineOrderType → Core.OrderType
  | .limit => .limit
  | .market => .market
  | .ioc => .ioc
  | .fok => .fok
  | .postOnly => .postOnly
  | .stopLimit => .stopLimit
  | .stopMarket => .stopMarket
  | .oco => .oco
  | .iceberg => .iceberg

def toCoreStpMode : Proto.StpMode → StpMode
  | .decrement => .decrement
  | .cancelMaker => .cancelMaker
  | .cancelTaker => .cancelTaker

def toWireSide : Side → OrderSide
  | .buy => .buy
  | .sell => .sell

def toWireCancelReason : CancelReason → Proto.CancelReason
  | .noLiquidity => .noLiquidity
  | .fokUnfilled => .fokUnfilled
  | .postOnlyCrossed => .postOnlyCrossed
  | .selfTradePrevented => .selfTradePrevented
  | .oco => .oco
  | .adminCancel => .adminCancel

/-- The core order of a wire order: nothing of it is matched yet. -/
def toCoreOrder (order : EngineOrder) : Order where
  id := order.id
  userId := order.userId
  symbol := order.symbol
  side := toCoreSide order.side
  orderType := toCoreOrderType order.orderType
  price := order.price
  quantity := order.quantity
  remaining := order.quantity
  stpMode := toCoreStpMode order.stpMode
  stopPrice := order.stopPrice
  ocoLinkedId := order.ocoLinkedId
  displayQty := order.displayQty

end CryptoCex.Server
