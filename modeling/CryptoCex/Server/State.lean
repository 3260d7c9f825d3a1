import CryptoCex.Server.Logs
import Mathlib.Data.Finset.Basic
import Mathlib.Data.List.Destutter
import Mathlib.Data.String.Basic

/-!
# The state of the engine server

An embedding of `state.rs`: one book per symbol, the two logs, the halted
symbols and `open_orders`, a table of the live orders that is never computed
from the books but updated from the events each call returns. What subtracts or
adds decimals takes their rounding as a parameter, as the book does.

A request may use up the fuel of its match (`none`), fail because an append
failed (`.error`, with the state as the failure left it) or return a response.
The id source, the clock and the disk are ports: streams of the values they
return next.
-/

namespace CryptoCex.Server

open CryptoCex.Core
open Proto (BookSnapshot EngineOrder EngineRequest EngineResponse MarketStatus RejectResponse
  SequencedEngineEvent TradeFill)

/-- What the server knows of a live order. -/
structure OpenOrder where
  userId : Uuid
  symbol : String
  remaining : Decimal
deriving DecidableEq, Repr

/-- The table of live orders. -/
abbrev OpenOrders := OrdMap Uuid OpenOrder

/-! ## Updates of the table of live orders -/

/-- Takes a filled quantity off an open order, which leaves the table when
nothing remains. -/
def decrementOpenOrder [Rounding] (openOrders : OpenOrders) (orderId : Uuid) (quantity : Decimal) :
    OpenOrders :=
  match openOrders.find? orderId with
  | none => openOrders
  | some entry =>
    if entry.remaining ≤ quantity then openOrders.erase orderId
    else openOrders.insert orderId { entry with remaining := Decimal.sub entry.remaining quantity }

/-- The update of one event. Only the submitted order can enter the table. -/
def applyOpenOrderUpdate [Rounding] (submitted : Option Order) (openOrders : OpenOrders) :
    EngineEvent → OpenOrders
  | .fill f =>
    decrementOpenOrder (decrementOpenOrder openOrders f.makerOrderId f.quantity)
      f.takerOrderId f.quantity
  | .rested orderId remaining =>
    match submitted.filter fun order => order.id = orderId with
    | some order => openOrders.insert orderId {
        userId := order.userId
        symbol := order.symbol
        remaining := remaining }
    | none =>
      match openOrders.find? orderId with
      | none => openOrders
      | some entry => openOrders.insert orderId { entry with remaining := remaining }
  | .cancelled orderId _ => openOrders.erase orderId
  | .stopTriggered _ => openOrders

/-- The updates of the events of a call, in order. -/
def applyOpenOrderUpdates [Rounding] (openOrders : OpenOrders) (submitted : Option Order)
    (events : List EngineEvent) : OpenOrders :=
  events.foldl (applyOpenOrderUpdate submitted) openOrders

/-! ## The state -/

/-- The state of the engine server. -/
structure EngineState where
  books : OrdMap String OrderBook
  commandWal : Wal
  eventLog : EventLog
  haltedSymbols : Finset String
  openOrders : OpenOrders
  /-- The ids the id source returns next. -/
  idSource : Stream' Uuid
  /-- The times the clock reads next. -/
  clock : Stream' String
  /-- Whether the next appends succeed. -/
  disk : Stream' Bool
  snapshotDepth : ℕ

namespace EngineState

/-- The book of a symbol; a symbol without a book has an empty one. -/
def bookOf (st : EngineState) (symbol : String) : OrderBook :=
  (st.books.find? symbol).getD OrderBook.new

/-- Appends to the command log. -/
def appendCommand (st : EngineState) (command : WalCommand) :
    Except ServerError Unit × EngineState :=
  let (result, wal) := st.commandWal.append st.disk.head command
  (result, { st with commandWal := wal, disk := st.disk.tail })

/-- Appends the events to the event log; the first failure ends it. -/
def sequenceEvents (st : EngineState) :
    List Proto.EngineEvent → Except ServerError (List SequencedEngineEvent) × EngineState
  | [] => (.ok [], st)
  | event :: events =>
    let (result, log) := st.eventLog.appendNext st.disk.head event
    let st := { st with eventLog := log, disk := st.disk.tail }
    match result with
    | .error e => (.error e, st)
    | .ok sequenced =>
      match st.sequenceEvents events with
      | (.error e, st) => (.error e, st)
      | (.ok rest, st) => (.ok (sequenced :: rest), st)

/-! ## Wire events -/

/-- The wire form of a fill, with a fresh trade id and the current time. -/
def toWireFill (st : EngineState) (symbol : String) (f : Fill) : TradeFill × EngineState :=
  ({  tradeId := st.idSource.head
      symbol := symbol
      takerOrderId := f.takerOrderId
      makerOrderId := f.makerOrderId
      price := f.price
      quantity := f.quantity
      takerSide := toWireSide f.takerSide
      ts := st.clock.head },
    { st with idSource := st.idSource.tail, clock := st.clock.tail })

/-- The wire events of the events of a match, and the fills among them. -/
def toWireCoreEvents (st : EngineState) (symbol : String) :
    List EngineEvent → (List Proto.EngineEvent × List TradeFill) × EngineState
  | [] => (([], []), st)
  | .fill f :: events =>
    let (fill, st) := st.toWireFill symbol f
    let ((wireEvents, fills), st) := st.toWireCoreEvents symbol events
    ((.fill fill :: wireEvents, fill :: fills), st)
  | .rested orderId remaining :: events =>
    let ((wireEvents, fills), st) := st.toWireCoreEvents symbol events
    ((.orderRested orderId remaining :: wireEvents, fills), st)
  | .cancelled orderId reason :: events =>
    let ((wireEvents, fills), st) := st.toWireCoreEvents symbol events
    ((.orderCanceled orderId (toWireCancelReason reason) :: wireEvents, fills), st)
  | .stopTriggered _ :: events => st.toWireCoreEvents symbol events

/-- The wire events of the events of a cancel. -/
def toWireCancelEvents (events : List EngineEvent) : List Proto.EngineEvent :=
  events.filterMap fun e => match e with
    | .cancelled orderId reason => some (.orderCanceled orderId (toWireCancelReason reason))
    | _ => none

def bookSnapshot [Rounding] (st : EngineState) (symbol : String) (depth : ℕ) : BookSnapshot :=
  let levels : BookDepth := match st.books.find? symbol with
    | none => ⟨[], []⟩
    | some book => book.depthLevels depth
  { symbol := symbol
    bids := levels.bids
    asks := levels.asks
    seq := st.eventLog.sequence }

def bookDeltaEvent [Rounding] (st : EngineState) (symbol : String) : Proto.EngineEvent :=
  let snapshot := st.bookSnapshot symbol st.snapshotDepth
  .bookDelta snapshot.symbol snapshot.bids snapshot.asks

/-! ## Placing orders -/

/-- Registers the OCO link of an order that has one. -/
def linkOco (book : OrderBook) (order : Order) : OrderBook :=
  match order.ocoLinkedId with
  | none => book
  | some linkedId => book.registerOco order.id linkedId

/-- Matches an order against the book of its symbol, after registering its OCO
link. -/
def matchInBook [Rounding] (fuel : ℕ) (book : OrderBook) (order : Order) :
    Option (OrderBook × List EngineEvent) :=
  (linkOco book order).matchOrder fuel order

/-- The part of `place_order` that follows a match that was not rejected. -/
def acknowledgePlace [Rounding] (st : EngineState) (requestId : Uuid) (wireOrder : EngineOrder)
    (order : Order) (coreEvents : List EngineEvent) :
    Except ServerError ResponseBundle × EngineState :=
  let symbol := wireOrder.symbol
  let st := { st with
    openOrders := applyOpenOrderUpdates st.openOrders (some order) coreEvents }
  let ((wireEvents, fills), st) := st.toWireCoreEvents symbol coreEvents
  let wireEvents := .orderAccepted wireOrder :: wireEvents ++ [st.bookDeltaEvent symbol]
  match st.sequenceEvents wireEvents with
  | (.error e, st) => (.error e, st)
  | (.ok events, st) =>
    let seq := lastSeqOrCurrent events st.eventLog.sequence
    let status := orderStatusForPlace order.id order.quantity coreEvents
    let result := .order order.id status (fills.filter fun f => f.takerOrderId = order.id) seq
    (.ok { response := .ack requestId result, events := events }, st)

def placeOrder [Rounding] (fuel : ℕ) (st : EngineState) (requestId : Uuid)
    (wireOrder : EngineOrder) : Option (Except ServerError ResponseBundle × EngineState) :=
  match validateWireOrder requestId wireOrder with
  | some rejected => some (.ok { response := .reject rejected, events := [] }, st)
  | none =>
    let symbol := wireOrder.symbol
    if symbol ∈ st.haltedSymbols then some (.ok (marketHalted requestId), st)
    else
      let order := toCoreOrder wireOrder
      match st.appendCommand (.placeOrder order) with
      | (.error e, st) => some (.error e, st)
      | (.ok _, st) =>
        match matchInBook fuel (st.bookOf symbol) order with
        | none => none
        | some (book, coreEvents) =>
          let st := { st with books := st.books.insert symbol book }
          match immediatePreReject requestId order.id coreEvents with
          | some rejected => some (.ok { response := .reject rejected, events := [] }, st)
          | none => some (st.acknowledgePlace requestId wireOrder order coreEvents)

/-! ## Cancels -/

/-- Cancels an order of the table in its book. -/
def cancelKnownOrder [Rounding] (st : EngineState) (orderId : Uuid) :
    Except ServerError (List EngineEvent) × EngineState :=
  match st.openOrders.find? orderId with
  | none => (.ok [], st)
  | some entry =>
    match st.appendCommand (.cancelOrder orderId) with
    | (.error e, st) => (.error e, st)
    | (.ok _, st) =>
      match st.books.find? entry.symbol with
      | none => (.ok [], st)
      | some book =>
        let (book, coreEvents) := book.cancelOrder orderId
        (.ok coreEvents, { st with
          books := st.books.insert entry.symbol book
          openOrders := applyOpenOrderUpdates st.openOrders none coreEvents })

def cancelOrder [Rounding] (st : EngineState) (requestId : Uuid) (symbol : String)
    (orderId : Uuid) : Except ServerError ResponseBundle × EngineState :=
  match st.openOrders.find? orderId with
  | none => (.ok (orderNotFound requestId "order was not found"), st)
  | some entry =>
    if entry.symbol ≠ symbol then
      (.ok (orderNotFound requestId "order was not found for symbol"), st)
    else
      match st.cancelKnownOrder orderId with
      | (.error e, st) => (.error e, st)
      | (.ok coreEvents, st) =>
        if coreEvents.isEmpty then (.ok (orderNotFound requestId "order was not found"), st)
        else
          let wireEvents := toWireCancelEvents coreEvents ++ [st.bookDeltaEvent symbol]
          match st.sequenceEvents wireEvents with
          | (.error e, st) => (.error e, st)
          | (.ok events, st) =>
            let seq := lastSeqOrCurrent events st.eventLog.sequence
            (.ok {
              response := .ack requestId (.cancel orderId .canceled seq)
              events := events }, st)

/-- The local variables of the loop of `cancel_all`. -/
structure CancelAllLocals where
  canceledIds : List Uuid
  /-- A set, iterated in the order of the symbols. -/
  changedSymbols : OrdMap String Unit
  wireEvents : List Proto.EngineEvent

/-- The loop of `cancel_all`. An order of the list may be gone from the table
when its turn comes, as the OCO sibling of an earlier one. -/
def cancelEach [Rounding] (st : EngineState) (locals : CancelAllLocals) :
    List Uuid → Except ServerError CancelAllLocals × EngineState
  | [] => (.ok locals, st)
  | orderId :: orderIds =>
    match st.openOrders.find? orderId with
    | none => st.cancelEach locals orderIds
    | some entry =>
      match st.cancelKnownOrder orderId with
      | (.error e, st) => (.error e, st)
      | (.ok coreEvents, st) =>
        if coreEvents.isEmpty then st.cancelEach locals orderIds
        else st.cancelEach {
          canceledIds := locals.canceledIds ++ cancelledOrderIds coreEvents
          changedSymbols := locals.changedSymbols.insert entry.symbol ()
          wireEvents := locals.wireEvents ++ toWireCancelEvents coreEvents } orderIds

/-- The ids `cancel_all` goes through, sorted: those of the user's open orders,
of one symbol if it is given. -/
def ordersToCancel (st : EngineState) (userId : Uuid) (symbol : Option String) : List Uuid :=
  -- the entries of the table are in the order of their ids
  ((st.openOrders.entries.filter fun e => e.2.userId = userId).filter
    fun e => symbol.all fun s => s = e.2.symbol).map Prod.fst

def cancelAll [Rounding] (st : EngineState) (requestId userId : Uuid) (symbol : Option String) :
    Except ServerError ResponseBundle × EngineState :=
  let orderIds := st.ordersToCancel userId symbol
  match st.cancelEach ⟨[], OrdMap.empty, []⟩ orderIds with
  | (.error e, st) => (.error e, st)
  | (.ok locals, st) =>
    -- `sort_unstable` and `dedup`, which drops repeated neighbours
    let canceledIds := (locals.canceledIds.insertionSort (· ≤ ·)).destutter (· ≠ ·)
    let wireEvents := locals.wireEvents ++ locals.changedSymbols.keys.map st.bookDeltaEvent
    match st.sequenceEvents wireEvents with
    | (.error e, st) => (.error e, st)
    | (.ok events, st) =>
      let seq := lastSeqOrCurrent events st.eventLog.sequence
      (.ok { response := .ack requestId (.cancelAll canceledIds seq), events := events }, st)

/-! ## Market control and queries -/

def marketStatusResponse (st : EngineState) (requestId : Uuid) (symbol : String)
    (status : MarketStatus) : Except ServerError ResponseBundle × EngineState :=
  match st.sequenceEvents [.marketStatus symbol status] with
  | (.error e, st) => (.error e, st)
  | (.ok events, st) =>
    let seq := lastSeqOrCurrent events st.eventLog.sequence
    (.ok {
      response := .ack requestId (.marketStatus symbol status seq)
      events := events }, st)

def haltMarket (st : EngineState) (requestId : Uuid) (symbol : String) :
    Except ServerError ResponseBundle × EngineState :=
  { st with haltedSymbols := insert symbol st.haltedSymbols }.marketStatusResponse
    requestId symbol .halted

def resumeMarket (st : EngineState) (requestId : Uuid) (symbol : String) :
    Except ServerError ResponseBundle × EngineState :=
  { st with haltedSymbols := st.haltedSymbols.erase symbol }.marketStatusResponse
    requestId symbol .trading

def snapshot [Rounding] (st : EngineState) (requestId : Uuid) (symbol : String) (depth : ℕ) :
    ResponseBundle where
  response := .ack requestId (.snapshot (st.bookSnapshot symbol (min depth st.snapshotDepth)))
  events := []

def pong (requestId : Uuid) : ResponseBundle where
  response := .pong requestId
  events := []

/-! ## Requests -/

def handleRequest [Rounding] (fuel : ℕ) (st : EngineState) :
    EngineRequest → Option (Except ServerError ResponseBundle × EngineState)
  | .place requestId order => st.placeOrder fuel requestId order
  | .cancel requestId symbol orderId => some (st.cancelOrder requestId symbol orderId)
  | .cancelAll requestId userId symbol => some (st.cancelAll requestId userId symbol)
  | .haltMarket requestId symbol => some (st.haltMarket requestId symbol)
  | .resumeMarket requestId symbol => some (st.resumeMarket requestId symbol)
  | .snapshot requestId symbol depth => some (.ok (st.snapshot requestId symbol depth), st)
  | .ping requestId => some (.ok (pong requestId), st)

/-! ## Opening -/

/-- Cancels an order while the command log is replayed. -/
def replayCancel [Rounding] (books : OrdMap String OrderBook) (openOrders : OpenOrders)
    (orderId : Uuid) : OrdMap String OrderBook × OpenOrders :=
  match openOrders.find? orderId with
  | none => (books, openOrders)
  | some entry =>
    match books.find? entry.symbol with
    | none => (books, openOrders)
    | some book =>
      let (book, events) := book.cancelOrder orderId
      (books.insert entry.symbol book, applyOpenOrderUpdates openOrders none events)

/-- The books and the table of live orders the command log stands for. -/
def replayBooks [Rounding] (fuel : ℕ) :
    List WalEntry → OrdMap String OrderBook → OpenOrders →
      Option (OrdMap String OrderBook × OpenOrders)
  | [], books, openOrders => some (books, openOrders)
  | entry :: entries, books, openOrders =>
    match entry.command with
    | .placeOrder order =>
      match matchInBook fuel ((books.find? order.symbol).getD OrderBook.new) order with
      | none => none
      | some (book, events) =>
        replayBooks fuel entries (books.insert order.symbol book)
          (applyOpenOrderUpdates openOrders (some order) events)
    | .cancelOrder orderId =>
      let (books, openOrders) := replayCancel books openOrders orderId
      replayBooks fuel entries books openOrders

end EngineState

/-- Opens the engine over the records of its two log files. -/
def EngineState.open [Rounding] (fuel : ℕ) (walEntries : List WalEntry)
    (logged : List SequencedEngineEvent) (idSource : Stream' Uuid) (clock : Stream' String)
    (disk : Stream' Bool) (snapshotDepth : ℕ) : Option EngineState :=
  match EngineState.replayBooks fuel walEntries OrdMap.empty OrdMap.empty with
  | none => none
  | some (books, openOrders) => some {
      books := books
      commandWal := Wal.open walEntries
      eventLog := EventLog.open logged
      haltedSymbols := ∅
      openOrders := openOrders
      idSource := idSource
      clock := clock
      disk := disk
      snapshotDepth := snapshotDepth }

end CryptoCex.Server
