import CryptoCex.Core.Stop
import CryptoCex.Lib.Loop

/-!
# The order book

An embedding of `book.rs`: the two price-level maps, the cancellation index,
the stop registry and the OCO links of one symbol, with every operation on
them. A level is a queue of orders in time priority; a mutation of a level in
place is a new queue written under the same price. What subtracts or adds
decimals takes their rounding as a parameter.

Two loops of the source have no bound visible in their text: the matching loop
of one taker (`runMatchingLoop`, one `matchTurn` a turn) and the work queue of
the stop cascade (`matchOrder`, one `cascadeTurn` a turn). Both run under a fuel
argument and return `none` when it is used up.
-/

namespace CryptoCex.Core

open Loop

/-- Maximum stop-trigger chain depth to prevent runaway cascades. -/
def maxStopChainDepth : ℕ := 16

/-- Output event from the matching process. -/
inductive EngineEvent where
  /-- A trade occurred between a taker and a maker. -/
  | fill (f : Fill)
  /-- An order rested on the book after partial or zero matching. -/
  | rested (orderId : Uuid) (remaining : Decimal)
  /-- An order was cancelled. -/
  | cancelled (orderId : Uuid) (reason : CancelReason)
  /-- A stop order was triggered and converted to an active order. -/
  | stopTriggered (orderId : Uuid)
deriving DecidableEq, Repr

/-- Price levels of one side of the book. -/
abbrev Levels := OrdMap Decimal (List Order)

/-- Aggregated depth, best price first on both sides. -/
structure BookDepth where
  bids : List (Decimal × Decimal)
  asks : List (Decimal × Decimal)
deriving DecidableEq, Repr

/-- What the matching loop reads off the front maker of a level. -/
structure PeekedMaker where
  id : Uuid
  userId : Uuid
  /-- `min(display_qty, remaining)` for icebergs, else `remaining`. -/
  effectiveQty : Decimal
  remaining : Decimal
  hasDisplayQty : Bool
deriving DecidableEq, Repr

/-- Outcome of a self-trade prevention handler. -/
inductive StpOutcome where
  /-- Taker was cancelled or exhausted; exit the matching loop. -/
  | takerConsumed
  /-- Taker survives; continue matching. -/
  | continue
deriving DecidableEq, Repr

/-- The order book for a single symbol. -/
structure OrderBook where
  bids : Levels
  asks : Levels
  /-- Lookup for cancellation: order id to side and price. -/
  orderIndex : OrdMap Uuid (Side × Decimal)
  stops : StopRegistry
  /-- OCO pair registry: order id to linked order id. -/
  ocoLinks : OrdMap Uuid Uuid
deriving DecidableEq

namespace OrderBook

/-- A new empty order book. -/
def new : OrderBook where
  bids := OrdMap.empty
  asks := OrdMap.empty
  orderIndex := OrdMap.empty
  stops := StopRegistry.new
  ocoLinks := OrdMap.empty

/-- The levels of one side. -/
def levels (b : OrderBook) : Side → Levels
  | .buy => b.bids
  | .sell => b.asks

/-- Replaces the levels of one side. -/
def setLevels (b : OrderBook) (side : Side) (levels : Levels) : OrderBook :=
  match side with
  | .buy => { b with bids := levels }
  | .sell => { b with asks := levels }

/-- Writes the queue of one price level. -/
def setLevel (b : OrderBook) (side : Side) (price : Decimal) (level : List Order) : OrderBook :=
  b.setLevels side ((b.levels side).insert price level)

/-! ## Queries -/

/-- The current best bid price. -/
def bestBid (b : OrderBook) : Option Decimal := b.bids.maxKey?

/-- The current best ask price. -/
def bestAsk (b : OrderBook) : Option Decimal := b.asks.minKey?

/-- The sum of the remaining quantities of a queue. -/
def queueQty [Rounding] (queue : List Order) : Decimal := Decimal.sum (queue.map (·.remaining))

/-- Aggregated depth, capped to `depth` price levels per side. -/
def depthLevels [Rounding] (b : OrderBook) (depth : ℕ) : BookDepth where
  bids := ((b.bids.entries.reverse.take depth).map fun e => (e.1, queueQty e.2)).filter
    fun level => 0 < level.2
  asks := ((b.asks.entries.take depth).map fun e => (e.1, queueQty e.2)).filter
    fun level => 0 < level.2

/-! ## Book maintenance -/

/-- Inserts a maker order at the back of its price level. -/
def insertMaker (b : OrderBook) (order : Order) : OrderBook :=
  match order.price with
  | none => b
  | some price =>
    let b := { b with orderIndex := b.orderIndex.insert order.id (order.side, price) }
    b.setLevel order.side price ((b.levels order.side).queueAt price ++ [order])

/-- The best price on the side opposing `takerSide`. -/
def bestOppositePrice (b : OrderBook) : Side → Option Decimal
  | .buy => b.asks.minKey?
  | .sell => b.bids.maxKey?

/-- Removes a price level from the book. -/
def removeLevel (b : OrderBook) (side : Side) (price : Decimal) : OrderBook :=
  b.setLevels side ((b.levels side).erase price)

/-! ## Pre-matching helpers -/

/-- Sums the levels in the given order until the taker is covered or a level
lies beyond its limit. -/
def coversTaker [Rounding] (taker : Order) (beyond : Decimal → Bool) :
    Decimal → List (Decimal × List Order) → Bool
  | _, [] => false
  | available, (price, queue) :: rest =>
    if beyond price then false
    else
      let available := Decimal.add available (queueQty queue)
      if taker.remaining ≤ available then true else coversTaker taker beyond available rest

/-- Whether the taker's quantity is available at acceptable prices. -/
def canFullyFill [Rounding] (b : OrderBook) (taker : Order) : Bool :=
  match taker.side with
  | .buy => coversTaker taker
      (fun price => taker.price.any fun limit => price > limit) 0 b.asks.entries
  | .sell => coversTaker taker
      (fun price => taker.price.any fun limit => price < limit) 0 b.bids.entries.reverse

/-- Whether a post-only taker would cross the book on entry. -/
def wouldCrossPostOnly (b : OrderBook) (taker : Order) : Bool :=
  match taker.price with
  | none => false
  | some takerPrice =>
    match taker.side with
    | .buy => b.bestAsk.any fun best => best ≤ takerPrice
    | .sell => b.bestBid.any fun best => best ≥ takerPrice

/-- Pre-checks for FOK and post-only orders: the cancel event of an order that
must be rejected without state change. -/
def preCheck [Rounding] (b : OrderBook) (taker : Order) : Option EngineEvent :=
  match taker.orderType with
  | .fok => if b.canFullyFill taker then none else some (.cancelled taker.id .fokUnfilled)
  | .postOnly =>
    if b.wouldCrossPostOnly taker then some (.cancelled taker.id .postOnlyCrossed) else none
  | _ => none

/-- Whether `price` satisfies the taker's limit. -/
def takerPriceSatisfied (taker : Order) (price : Decimal) : Bool :=
  match taker.price with
  | none => true
  | some limit =>
    match taker.side with
    | .buy => price ≤ limit
    | .sell => price ≥ limit

/-! ## Stop helpers -/

/-- Registers a stop order in the stop registry. -/
def registerStopOrder (b : OrderBook) (order : Order) : OrderBook × List EngineEvent :=
  match b.stops.insert order with
  | .ok stops => ({ b with stops }, [.rested order.id order.remaining])
  | .error _ => (b, [.cancelled order.id .adminCancel])

/-- Drains stop orders triggered by the last trade price. -/
def checkStopTriggers (b : OrderBook) (lastPrice : Decimal) : OrderBook × List Order :=
  let (stops, triggered) := b.stops.drainTriggered lastPrice
  ({ b with stops }, triggered)

/-! ## Fills and self-trade prevention -/

/-- Snapshot of the front maker at a price level. -/
def peekFrontMaker (b : OrderBook) (makerSide : Side) (price : Decimal) : Option PeekedMaker :=
  match (b.levels makerSide).find? price with
  | none => none
  | some [] => none
  | some (maker :: _) => some {
      id := maker.id
      userId := maker.userId
      effectiveQty := maker.effectiveQty
      remaining := maker.remaining
      hasDisplayQty := maker.displayQty.isSome }

/-- Applies a fill to the front maker; the flag says whether it was fully
consumed. -/
def applyFillToMaker [Rounding] (b : OrderBook) (makerSide : Side) (price fillQty : Decimal)
    (peeked : PeekedMaker) : OrderBook × Bool :=
  let peakConsumed := peeked.hasDisplayQty && fillQty == peeked.effectiveQty
  match (b.levels makerSide).find? price with
  | none => (b, false)
  | some [] => (b, false)
  | some (front :: rest) =>
    let maker := front.withRemaining (Decimal.sub front.remaining fillQty)
    let done := maker.remaining == 0
    -- an iceberg whose visible slice is used up goes to the back of its level
    let level :=
      if done then rest
      else if peakConsumed then rest ++ [maker]
      else maker :: rest
    let b := b.setLevel makerSide price level
    let b := if done then { b with orderIndex := b.orderIndex.erase maker.id } else b
    let b := if level.isEmpty then b.removeLevel makerSide price else b
    (b, done)

/-- Pops the front maker off a price level. -/
def popFrontMaker (b : OrderBook) (makerSide : Side) (price : Decimal) (makerId : Uuid) :
    OrderBook :=
  match (b.levels makerSide).find? price with
  | none => b
  | some level =>
    let b := b.setLevel makerSide price level.tail
    let b := { b with orderIndex := b.orderIndex.erase makerId }
    if level.tail.isEmpty then b.removeLevel makerSide price else b

/-- Decrements the front maker, which is popped when nothing remains. -/
def decrementFrontMaker [Rounding] (b : OrderBook) (makerSide : Side) (price amount : Decimal) :
    OrderBook :=
  match (b.levels makerSide).find? price with
  | none => b
  | some [] => b
  | some (front :: rest) =>
    let maker := front.withRemaining (Decimal.sub front.remaining amount)
    let b := b.setLevel makerSide price (maker :: rest)
    if maker.remaining == 0 then b.popFrontMaker makerSide price maker.id else b

/-- What a self-trade prevention handler leaves: the book, the taker, the
events it pushed and its outcome. -/
structure StpResult where
  book : OrderBook
  taker : Order
  events : List EngineEvent
  outcome : StpOutcome

/-- STP Decrement: cancel the smaller side; if equal, cancel both. -/
def applyStpDecrement [Rounding] (b : OrderBook) (taker : Order) (price : Decimal)
    (peeked : PeekedMaker) : StpResult :=
  let makerSide := taker.side.opposite
  match compare taker.remaining peeked.remaining with
  | .lt => {
      book := b.decrementFrontMaker makerSide price taker.remaining
      taker := taker.withRemaining 0
      events := [.cancelled taker.id .selfTradePrevented]
      outcome := .takerConsumed }
  | .gt => {
      book := b.popFrontMaker makerSide price peeked.id
      taker := taker.withRemaining (Decimal.sub taker.remaining peeked.remaining)
      events := [.cancelled peeked.id .selfTradePrevented]
      outcome := .continue }
  | .eq => {
      book := b.popFrontMaker makerSide price peeked.id
      taker := taker.withRemaining 0
      events := [.cancelled peeked.id .selfTradePrevented,
        .cancelled taker.id .selfTradePrevented]
      outcome := .takerConsumed }

/-- Dispatches on the taker's self-trade prevention mode. -/
def applyStp [Rounding] (b : OrderBook) (taker : Order) (price : Decimal)
    (peeked : PeekedMaker) : StpResult :=
  match taker.stpMode with
  | .cancelTaker => {
      book := b
      taker := taker
      events := [.cancelled taker.id .selfTradePrevented]
      outcome := .takerConsumed }
  | .cancelMaker => {
      book := b.popFrontMaker taker.side.opposite price peeked.id
      taker := taker
      events := [.cancelled peeked.id .selfTradePrevented]
      outcome := .continue }
  | .decrement => b.applyStpDecrement taker price peeked

/-! ## Cancels and OCO links -/

/-- Cancels an order without propagating to OCO links. -/
def cancelOrderInternal (b : OrderBook) (orderId : Uuid) (reason : CancelReason) :
    OrderBook × List EngineEvent :=
  match b.stops.cancel orderId with
  | (stops, true) => ({ b with stops }, [.cancelled orderId reason])
  | (_, false) =>
    match b.orderIndex.find? orderId with
    | none => (b, [])
    | some (side, price) =>
      let b := { b with orderIndex := b.orderIndex.erase orderId }
      match (b.levels side).find? price with
      | none => (b, [])
      | some level =>
        let level := level.eraseP fun o => o.id = orderId
        let b := b.setLevel side price level
        let b := if level.isEmpty then b.removeLevel side price else b
        (b, [.cancelled orderId reason])

/-- If `orderId` has an OCO link, cancels the linked leg. -/
def maybeCancelOco (b : OrderBook) (orderId : Uuid) : OrderBook × List EngineEvent :=
  match b.ocoLinks.find? orderId with
  | none => (b, [])
  | some linkedId =>
    let b := { b with ocoLinks := (b.ocoLinks.erase orderId).erase linkedId }
    b.cancelOrderInternal linkedId .oco

/-- Cancels a resting or stop order by id, and its OCO-linked leg. -/
def cancelOrder (b : OrderBook) (orderId : Uuid) : OrderBook × List EngineEvent :=
  match b.ocoLinks.find? orderId with
  | none => b.cancelOrderInternal orderId .adminCancel
  | some linkedId =>
    let b := { b with ocoLinks := (b.ocoLinks.erase orderId).erase linkedId }
    let (b, events) := b.cancelOrderInternal orderId .adminCancel
    let (b, linkedEvents) := b.cancelOrderInternal linkedId .oco
    (b, events ++ linkedEvents)

/-- Registers an OCO pair so that when one leg becomes terminal the other is
cancelled. -/
def registerOco (b : OrderBook) (legA legB : Uuid) : OrderBook :=
  { b with ocoLinks := (b.ocoLinks.insert legA legB).insert legB legA }

/-- What to emit for a taker whose matching loop has ended. -/
def finalizeTaker (b : OrderBook) (taker : Order) (hadFills : Bool) :
    OrderBook × List EngineEvent :=
  if taker.remaining == 0 then (b, [])
  else
    match taker.orderType with
    | .market | .ioc => (b, [.cancelled taker.id .noLiquidity])
    | .fok => (b, [.cancelled taker.id .fokUnfilled])
    | .postOnly =>
      if hadFills then (b, [.cancelled taker.id .postOnlyCrossed])
      else (b.insertMaker taker, [.rested taker.id taker.remaining])
    | .limit | .iceberg | .oco => (b.insertMaker taker, [.rested taker.id taker.remaining])
    | .stopLimit | .stopMarket => (b, [.cancelled taker.id .adminCancel])

end OrderBook

/-! ## The matching loop -/

/-- The local variables of the matching loop. -/
structure MatchState where
  book : OrderBook
  taker : Order
  events : List EngineEvent
  lastTradePrice : Option Decimal
  hadFills : Bool
deriving DecidableEq

/-- How the matching loop is left. -/
inductive MatchExit where
  /-- The `while` condition failed or a `break` was taken. -/
  | exhausted
  /-- Self-trade prevention consumed the taker: an early return. -/
  | takerConsumed
deriving DecidableEq, Repr

namespace MatchState

/-- A fill of the taker with the peeked maker. -/
def applyFill [Rounding] (s : MatchState) (price : Decimal) (peeked : PeekedMaker) : MatchState :=
  let fillQty := min s.taker.remaining peeked.effectiveQty
  let events := s.events ++ [.fill {
    takerOrderId := s.taker.id
    makerOrderId := peeked.id
    price := price
    quantity := fillQty
    takerSide := s.taker.side }]
  let taker := s.taker.withRemaining (Decimal.sub s.taker.remaining fillQty)
  let (book, makerFullyFilled) :=
    s.book.applyFillToMaker s.taker.side.opposite price fillQty peeked
  let (book, ocoEvents) :=
    if makerFullyFilled then book.maybeCancelOco peeked.id else (book, [])
  { book := book
    taker := taker
    events := events ++ ocoEvents
    lastTradePrice := some price
    hadFills := true }

end MatchState

/-- One turn of the matching loop. -/
def matchTurn [Rounding] (s : MatchState) : Option (Turn MatchState (MatchState × MatchExit)) :=
  if 0 < s.taker.remaining then
    match s.book.bestOppositePrice s.taker.side with
    | none => some (.done (s, .exhausted))
    | some price =>
      if OrderBook.takerPriceSatisfied s.taker price then
        let makerSide := s.taker.side.opposite
        match s.book.peekFrontMaker makerSide price with
        | none => some (.next { s with book := s.book.removeLevel makerSide price })
        | some peeked =>
          if s.taker.userId = peeked.userId then
            let stp := s.book.applyStp s.taker price peeked
            let s' := { s with
              book := stp.book
              taker := stp.taker
              events := s.events ++ stp.events }
            match stp.outcome with
            | .takerConsumed => some (.done (s', .takerConsumed))
            | .continue => some (.next s')
          else some (.next (s.applyFill price peeked))
      else some (.done (s, .exhausted))
  else some (.done (s, .exhausted))

namespace OrderBook

/-- The state in which the matching loop is entered. -/
def enterLoop (b : OrderBook) (taker : Order) : MatchState where
  book := b
  taker := taker
  events := []
  lastTradePrice := none
  hadFills := false

/-- The stops triggered by the loop's last trade, if it traded. -/
def drainAfter (b : OrderBook) (lastTradePrice : Option Decimal) : OrderBook × List Order :=
  match lastTradePrice with
  | none => (b, [])
  | some price => b.checkStopTriggers price

/-- A taker is terminal after the loop when it has nothing left or was
cancelled. -/
def takerTerminal (taker : Order) (finalizeEvents : List EngineEvent) : Bool :=
  taker.remaining == 0 ||
    finalizeEvents.any fun e => match e with
      | .cancelled _ _ => true
      | _ => false

/-- What follows the matching loop: on an early return only the stops are
checked, otherwise the taker is finalised first. -/
def afterLoop (s : MatchState) (exit : MatchExit) :
    OrderBook × List EngineEvent × List Order :=
  match exit with
  | .takerConsumed =>
    let (book, triggered) := s.book.drainAfter s.lastTradePrice
    (book, s.events, triggered)
  | .exhausted =>
    let (book, finalizeEvents) := s.book.finalizeTaker s.taker s.hadFills
    -- a taker that rested keeps its OCO link
    let (book, ocoEvents) :=
      if takerTerminal s.taker finalizeEvents then book.maybeCancelOco s.taker.id
      else (book, [])
    let (book, triggered) := book.drainAfter s.lastTradePrice
    (book, s.events ++ finalizeEvents ++ ocoEvents, triggered)

/-- Executes the matching algorithm; returns the events and the triggered stop
orders. -/
def runMatchingLoop [Rounding] (fuel : ℕ) (b : OrderBook) (taker : Order) :
    Option (OrderBook × List EngineEvent × List Order) :=
  match loop matchTurn fuel (b.enterLoop taker) with
  | none => none
  | some (s, exit) => some (afterLoop s exit)

end OrderBook

/-! ## The stop cascade -/

/-- The local variables of the cascade. The work queue is a vector used as a
stack; it is kept with its end first, so that `pop` takes the head. -/
structure CascadeState where
  book : OrderBook
  events : List EngineEvent
  workQueue : List Order
  stopDepth : ℕ
deriving DecidableEq

/-- `stop_depth.saturating_add(u8::try_from(n).unwrap_or(u8::MAX))`. -/
def saturatingDepth (depth n : ℕ) : ℕ := min 255 (depth + min n 255)

/-- One turn of the cascade: the top of the work queue is matched, and the
stops it triggers are pushed unless the chain is already too deep. -/
def cascadeTurn [Rounding] (fuel : ℕ) (c : CascadeState) :
    Option (Turn CascadeState (OrderBook × List EngineEvent)) :=
  match c.workQueue with
  | [] => some (.done (c.book, c.events))
  | order :: rest =>
    match c.book.runMatchingLoop fuel order with
    | none => none
    | some (book, events, triggered) =>
      if c.stopDepth < maxStopChainDepth then
        some (.next {
          book := book
          events := c.events ++ events ++ triggered.map fun t => .stopTriggered t.id
          workQueue := triggered.reverse ++ rest
          stopDepth := saturatingDepth c.stopDepth triggered.length })
      else
        some (.next {
          book := book
          events := c.events ++ events
          workQueue := rest
          stopDepth := c.stopDepth })

namespace OrderBook

/-- The state in which the cascade is entered. -/
def enterCascade (b : OrderBook) (taker : Order) : CascadeState where
  book := b
  events := []
  workQueue := [taker]
  stopDepth := 0

/-- Processes an incoming order, returning the resulting events. -/
def matchOrder [Rounding] (fuel : ℕ) (b : OrderBook) (taker : Order) :
    Option (OrderBook × List EngineEvent) :=
  match b.preCheck taker with
  | some reject => some (b, [reject])
  | none =>
    if taker.orderType.isStop then some (b.registerStopOrder taker)
    else loop (cascadeTurn fuel) fuel (b.enterCascade taker)

end OrderBook

end CryptoCex.Core
