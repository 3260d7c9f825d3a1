import CryptoCex.Core.Types

/-!
# Wire types of the engine

The requests, responses and events of `cex-proto`. The wire has its own
enumerations of sides, order types, self-trade prevention modes and cancel
reasons; `CryptoCex.Server.Wire` translates them from and to those of the core.
-/

namespace CryptoCex.Proto

open CryptoCex.Core (Decimal Uuid)

/-- Side of an order or fill. -/
inductive OrderSide where
  | buy
  | sell
deriving DecidableEq, Repr

/-- Wire order type. -/
inductive EngineOrderType where
  | limit
  | market
  | ioc
  | fok
  | postOnly
  | stopLimit
  | stopMarket
  | oco
  | iceberg
deriving DecidableEq, Repr

/-- Self-trade-prevention mode; `decrement` is the default of the wire format. -/
inductive StpMode where
  | decrement
  | cancelMaker
  | cancelTaker
deriving DecidableEq, Repr

/-- Stable cancel reasons of the wire. -/
inductive CancelReason where
  | noLiquidity
  | fokUnfilled
  | postOnlyCrossed
  | selfTradePrevented
  | oco
  | adminCancel
deriving DecidableEq, Repr

/-- Stable order status values returned in ack responses. -/
inductive OrderStatus where
  /-- Order is resting with no fills. -/
  | new
  /-- Order is resting with partial fills. -/
  | partiallyFilled
  /-- Order filled completely. -/
  | filled
  /-- Order was canceled. -/
  | canceled
  /-- Order was rejected before entering the book. -/
  | rejected
deriving DecidableEq, Repr

/-- Whether a market accepts orders. -/
inductive MarketStatus where
  | trading
  | halted
deriving DecidableEq, Repr

/-- Order payload accepted by the matching engine. -/
structure EngineOrder where
  id : Uuid
  userId : Uuid
  /-- Market symbol, for example `BTCUSDT`. -/
  symbol : String
  side : OrderSide
  orderType : EngineOrderType
  /-- Limit price, required by limit-like order types. -/
  price : Option Decimal
  quantity : Decimal
  stpMode : StpMode
  stopPrice : Option Decimal
  ocoLinkedId : Option Uuid
  /-- Visible peak of iceberg orders. -/
  displayQty : Option Decimal
deriving DecidableEq, Repr

/-- A price level: price and quantity. -/
abbrev PriceLevel := Decimal × Decimal

/-! ## Requests -/

/-- API-to-engine request envelope. Every request carries a correlation id
supplied by the API process. -/
inductive EngineRequest where
  /-- Submit an order to the matching engine. -/
  | place (requestId : Uuid) (order : EngineOrder)
  /-- Cancel a single resting order. -/
  | cancel (requestId : Uuid) (symbol : String) (orderId : Uuid)
  /-- Cancel all resting orders of a user, optionally of one symbol. -/
  | cancelAll (requestId : Uuid) (userId : Uuid) (symbol : Option String)
  /-- Halt a market so new orders are rejected. -/
  | haltMarket (requestId : Uuid) (symbol : String)
  /-- Resume a halted market. -/
  | resumeMarket (requestId : Uuid) (symbol : String)
  /-- Return an order-book snapshot of at most `depth` levels a side. -/
  | snapshot (requestId : Uuid) (symbol : String) (depth : ℕ)
  /-- Health-check the session. -/
  | ping (requestId : Uuid)
deriving DecidableEq, Repr

/-! ## Events -/

/-- Trade fill payload. -/
structure TradeFill where
  tradeId : Uuid
  symbol : String
  takerOrderId : Uuid
  makerOrderId : Uuid
  price : Decimal
  quantity : Decimal
  takerSide : OrderSide
  /-- UTC timestamp in RFC3339 format. -/
  ts : String
deriving DecidableEq, Repr

/-- Broadcast event payload. -/
inductive EngineEvent where
  | orderAccepted (order : EngineOrder)
  | orderRested (orderId : Uuid) (remaining : Decimal)
  | fill (f : TradeFill)
  | orderCanceled (orderId : Uuid) (reason : CancelReason)
  | bookDelta (symbol : String) (bids asks : List PriceLevel)
  | marketStatus (symbol : String) (status : MarketStatus)
deriving DecidableEq, Repr

/-- Engine event with its global sequence number. -/
structure SequencedEngineEvent where
  seq : ℕ
  event : EngineEvent
deriving DecidableEq, Repr

/-! ## Responses -/

/-- Order-book snapshot, best levels first. -/
structure BookSnapshot where
  symbol : String
  bids : List PriceLevel
  asks : List PriceLevel
  /-- Current engine event sequence. -/
  seq : ℕ
deriving DecidableEq, Repr

/-- Successful result variants; `seq` is the last event sequence of the request. -/
inductive AckResult where
  | order (orderId : Uuid) (status : OrderStatus) (fills : List TradeFill) (seq : ℕ)
  | cancel (orderId : Uuid) (status : OrderStatus) (seq : ℕ)
  | cancelAll (orderIds : List Uuid) (seq : ℕ)
  | snapshot (snapshot : BookSnapshot)
  | marketStatus (symbol : String) (status : MarketStatus) (seq : ℕ)
deriving DecidableEq, Repr

/-- Rejected request response. -/
structure RejectResponse where
  requestId : Uuid
  /-- Stable error code. -/
  code : String
  /-- Safe human-readable message. -/
  message : String
deriving DecidableEq, Repr

/-- Engine-to-API response envelope. -/
inductive EngineResponse where
  | ack (requestId : Uuid) (result : AckResult)
  | reject (rejected : RejectResponse)
  | event (event : SequencedEngineEvent)
  | pong (requestId : Uuid)
deriving DecidableEq, Repr

end CryptoCex.Proto
