import CryptoCex.Api.PlaceOrder
import CryptoCex.Lib.Machine
import CryptoCex.Lib.OrdMap
import CryptoCex.Server.Declined

/-!
# The API in front of the engine

Calls of `place_order`, the engine client they share (`engine_client.rs`), its connections
and the engine at their other end, as one machine. A step is what can happen without
another task getting in between: a statement on the tables, an entry made or taken out of
the map of pending requests, a frame written under the write lock, a request handled by the
engine, a response dispatched by the reader of a connection.

A connection carries whole frames in order, both ways. The engine stops reading from a
connection when it closes it, and then what is still under way is lost; a connection the
client has given up can still be read by the engine. A write that fails has not put a whole
frame on a connection.

The tags of the frames and the fields `served` and `fills` are history: the code has no
such data, and no step depends on them.
-/

namespace CryptoCex.Api

open CryptoCex.Core (Decimal Fill Uuid)
open Db (Balance Tables numeric value)
open Proto (EngineRequest EngineResponse)
open Server (EngineState ResponseBundle ServerError)

/-! ## The engine client -/

/-- The id under which a request waits for its response. -/
def requestIdOf : EngineRequest → Uuid
  | .place requestId _ | .cancel requestId _ _ | .cancelAll requestId _ _
  | .haltMarket requestId _ | .resumeMarket requestId _ | .snapshot requestId _ _
  | .ping requestId => requestId

def responseId : EngineResponse → Option Uuid
  | .ack requestId _ => some requestId
  | .reject rejected => some rejected.requestId
  | .pong requestId => some requestId
  | .event _ => none

/-- The result of the client's method for a request, given the response: `none` for the
expected acknowledgement. -/
def clientError : EngineRequest → EngineResponse → Option EngineClientError
  | .place _ _, .ack _ (.order _ _ _ _) => none
  | .cancel _ _ _, .ack _ (.cancel _ _ _) => none
  | .cancelAll _ _ _, .ack _ (.cancelAll _ _) => none
  | .haltMarket _ _, .ack _ (.marketStatus _ _ _) => none
  | .resumeMarket _ _, .ack _ (.marketStatus _ _ _) => none
  | .snapshot _ _ _, .ack _ (.snapshot _) => none
  | .ping requestId, .pong responseId =>
    if responseId = requestId then none else some .unexpected
  | .snapshot _ _ _, _ | .ping _, _ => some .unexpected
  | _, .reject rejected => some (.rejected rejected.code rejected.message)
  | _, _ => some .unexpected

/-- A response, with the number of the call whose request it answers. -/
structure Answer where
  call : ℕ
  response : EngineResponse
deriving DecidableEq, Repr

/-- Where the reader of a connection stands. -/
inductive Reader where
  | reading
  /-- Left its loop and discarded the write half, but not yet the pending requests. -/
  | clearing
  | gone
deriving DecidableEq, Repr

/-- A connection to the engine. -/
structure Link where
  /-- Frames the engine has not read, with the calls that wrote them. -/
  requests : List (ℕ × EngineRequest)
  /-- Frames the reader has not read. -/
  responses : List Answer
  /-- Whether the engine still reads from the connection. -/
  serving : Bool
  reader : Reader

/-- Where a call that sends a request stands. -/
inductive SendPhase where
  /-- Not in the map of pending requests yet. -/
  | prepared
  /-- In the map, the frame not written. -/
  | registered
  /-- The frame is written, the response awaited. -/
  | waiting
  | returned
  /-- Took the error path. If a lock was taken, the task that releases it is spawned. -/
  | failed (error : ApiError)
  /-- The lock is released. -/
  | refunded (error : ApiError)
deriving DecidableEq, Repr

/-- A call that sends a request to the engine. -/
structure Sending where
  request : EngineRequest
  /-- The lock taken for the order. -/
  lock : Option Lock
  phase : SendPhase
  /-- The connection the frame was written on. -/
  conn : Option ℕ
  /-- What its channel received. -/
  reply : Option Answer

def Sending.new (request : EngineRequest) (lock : Option Lock) : Sending where
  request := request
  lock := lock
  phase := .prepared
  conn := none
  reply := none

/-- A call of `place_order`. -/
structure PlaceCall where
  requestId : Uuid
  userId : Uuid
  input : PlaceOrderInput

/-- A call in progress. -/
inductive Call where
  /-- Has to look for an order with the same client order id. -/
  | looking (call : PlaceCall)
  | validating (call : PlaceCall)
  /-- Has to take the lock. -/
  | locking (call : PlaceCall) (placement : Placement)
  /-- Has to insert the order. -/
  | inserting (call : PlaceCall) (placement : Placement)
  | sending (send : Sending)
  /-- Returned without involving the engine. -/
  | ended (result : Except ApiError Unit)
  | panicked

/-! ## The system -/

/-- A request the engine took up, with the call it came from, if it came through this client,
and the state the engine was in. -/
structure Served where
  call : Option ℕ
  request : EngineRequest
  before : EngineState

structure System where
  engine : EngineState
  db : Tables
  calls : OrdMap ℕ Call
  /-- The connection of the write half. -/
  writer : Option ℕ
  /-- The calls that hold the other ends of the pending channels. -/
  pending : OrdMap Uuid ℕ
  links : OrdMap ℕ Link
  /-- History: the requests the engine took up. -/
  served : List Served
  /-- History: the fills in the books. -/
  fills : List Fill

/-- How `write_or_reconnect` ends. -/
inductive WriteOutcome where
  /-- The frame went out on the present connection. -/
  | present
  /-- The frame went out on a new connection. -/
  | fresh (c : ℕ)
  /-- No connection could be made, or the write on it failed too. -/
  | failed

/-- A step; calls and connections are named by their numbers. -/
inductive Op where
  /-- A call of `place_order` begins. -/
  | place (k : ℕ) (call : PlaceCall)
  /-- Another handler begins to send a request. -/
  | forward (k : ℕ) (request : EngineRequest)
  | lookUp (k : ℕ) (delivery : Tables.Delivery)
  | validate (k : ℕ) (delivery : Tables.Delivery)
  | lock (k : ℕ) (delivery : Tables.Delivery)
  | insert (k : ℕ) (orderId : Uuid) (delivery : Tables.Delivery)
  | register (k : ℕ)
  | write (k : ℕ) (outcome : WriteOutcome)
  | timeOut (k : ℕ)
  /-- The call goes on with what its channel received. -/
  | resolve (k : ℕ)
  | unlock (k : ℕ) (delivery : Tables.Delivery)
  /-- The engine handles the next request of a connection. -/
  | serve (c : ℕ)
  /-- The engine closes a connection. -/
  | hangUp (c : ℕ)
  /-- The reader dispatches the next response. -/
  | deliver (c : ℕ)
  /-- The reader meets an error or the end of the stream, and discards the write half. -/
  | readerStops (c : ℕ)
  /-- The reader discards the pending requests. -/
  | readerClears (c : ℕ)
  /-- The engine handles a request of another client. -/
  | direct (request : EngineRequest)
  /-- Another service writes a balance. -/
  | settle (userId assetId : Uuid) (balance : Balance)

namespace System

/-- The API and the engine before any call. -/
def start (engine : EngineState) (db : Tables) : System where
  engine := engine
  db := db
  calls := OrdMap.empty
  writer := none
  pending := OrdMap.empty
  links := OrdMap.empty
  served := []
  fills := []

def setCall (s : System) (k : ℕ) (call : Call) : System :=
  { s with calls := s.calls.insert k call }

def setLink (s : System) (c : ℕ) (link : Link) : System :=
  { s with links := s.links.insert c link }

/-! ### The handler -/

/-- The idempotency check. -/
def lookUp (s : System) (k : ℕ) (call : PlaceCall) (delivery : Tables.Delivery) : System :=
  match call.input.clientOrderId with
  | none => s.setCall k (.validating call)
  | some clientOrderId =>
    let (result, db) := s.db.execute delivery
      (Tables.findByClientOrderId call.userId clientOrderId)
    { s with db := db }.setCall k
      (match result with
      | .error _ => .ended (.error .internal)
      | .ok (some _) => .ended (.ok ())
      | .ok none => .validating call)

/-- The checks of the input and of the market, and the choice of the lock. -/
def validate (mul : Decimal → Decimal → Option Decimal) (s : System) (k : ℕ) (call : PlaceCall)
    (delivery : Tables.Delivery) : System :=
  s.setCall k <|
    match validateInput call.input with
    | .error e => .ended (.error e)
    | .ok quantity =>
      match (s.db.execute delivery fun db => .ok (db.markets call.input.symbol, db)).1 with
      | .error _ => .ended (.error .internal)
      | .ok market =>
        match validateMarket market with
        | .error e => .ended (.error e)
        | .ok market =>
          match balanceLockParams mul call.input.side call.input.orderType call.input.price
              quantity call.input.quoteQuantity market.baseAssetId market.quoteAssetId with
          | none => .panicked
          | some params => .locking call
              ⟨quantity, params.map fun p => ⟨call.userId, p.1, p.2⟩⟩

/-- The balance lock. -/
def lockBalance (s : System) (k : ℕ) (call : PlaceCall) (placement : Placement)
    (delivery : Tables.Delivery) : System :=
  match placement.lock with
  | none => s.setCall k (.inserting call placement)
  | some lock =>
    let (result, db) := s.db.execute delivery
      (Tables.tryLockBalance numeric lock.userId lock.assetId (value lock.amount))
    { s with db := db }.setCall k
      (match result with
      | .error _ => .ended (.error .internal)
      | .ok false => .ended (.error ⟨402, .insufficientBalance, "Insufficient balance"⟩)
      | .ok true => .inserting call placement)

/-- The pending order. A failure here returns without releasing the lock. -/
def insertPending (s : System) (k : ℕ) (call : PlaceCall) (placement : Placement)
    (orderId : Uuid) (delivery : Tables.Delivery) : System :=
  let (result, db) := s.db.execute delivery
    (Tables.insertOrder numeric (pendingRow orderId call.userId call.input placement.quantity))
  { s with db := db }.setCall k
    (match result with
    | .error _ => .ended (.error .internal)
    | .ok _ => .sending (.new (.place call.requestId
        (engineOrder orderId call.userId call.input placement.quantity)) placement.lock))

/-- The spawned task that releases the lock; a failed statement is only logged. -/
def unlockBalance (s : System) (k : ℕ) (send : Sending) (lock : Lock) (error : ApiError)
    (delivery : Tables.Delivery) : System :=
  { s with db := (s.db.execute delivery
      (Tables.unlockBalance numeric lock.userId lock.assetId (value lock.amount))).2 }.setCall k
    (.sending { send with phase := .refunded error })

/-! ### The client -/

/-- `pending.insert`: an older call with the same request id loses its entry, and with it
the sender of its channel. -/
def register (s : System) (k : ℕ) (send : Sending) : System :=
  { s with pending := s.pending.insert (requestIdOf send.request) k }.setCall k
    (.sending { send with phase := .registered })

/-- `write_or_reconnect`. -/
def write (s : System) (k : ℕ) (send : Sending) : WriteOutcome → Option System
  | .present =>
    match s.writer with
    | none => none
    | some c =>
      match s.links.find? c with
      | none => none
      | some link =>
        some ((s.setLink c { link with requests := link.requests ++ [(k, send.request)] }).setCall k
          (.sending { send with phase := .waiting, conn := some c }))
  | .fresh c =>
    match s.links.find? c with
    | some _ => none
    | none =>
      some (({ s with writer := some c }.setLink c
          { requests := [(k, send.request)], responses := [], serving := true,
            reader := .reading }).setCall k
        (.sending { send with phase := .waiting, conn := some c }))
  | .failed =>
    some ({ s with writer := none, pending := s.pending.erase (requestIdOf send.request) }.setCall k
      (.sending { send with phase := .failed (engineFailure .io) }))

/-- The response did not come in time. Whatever entry has the request id is removed. -/
def timeOut (s : System) (k : ℕ) (send : Sending) : System :=
  { s with pending := s.pending.erase (requestIdOf send.request) }.setCall k
    (.sending { send with phase := .failed (engineFailure .timeout) })

/-- What a waiting call finds: nothing yet, a response, or that its sender is gone. -/
def resolution (s : System) (k : ℕ) (send : Sending) : Option (Option EngineClientError) :=
  match send.reply with
  | some answer => some (clientError send.request answer.response)
  | none =>
    if s.pending.find? (requestIdOf send.request) = some k then none else some (some .io)

def resolve (s : System) (k : ℕ) (send : Sending) : Option System :=
  (s.resolution k send).map fun
    | none => s.setCall k (.sending { send with phase := .returned })
    | some e => s.setCall k (.sending { send with phase := .failed (engineFailure e) })

/-- The reader dispatches a response to the call that waits under its id. -/
def deliver (s : System) (answer : Answer) : System :=
  match responseId answer.response with
  | none => s
  | some id =>
    match s.pending.find? id with
    | none => s
    | some k =>
      let s := { s with pending := s.pending.erase id }
      match s.calls.find? k with
      | some (.sending send) => s.setCall k (.sending { send with reply := some answer })
      | _ => s

/-! ### The engine -/

/-- The engine handles a request. -/
def handle (fuel : ℕ) (s : System) (call : Option ℕ) (request : EngineRequest) :
    Option (Except ServerError ResponseBundle × System) :=
  (s.engine.handleRequest fuel request).map fun (result, engine) =>
    (result, { s with
      engine := engine
      served := s.served ++ [⟨call, request, s.engine⟩]
      fills := s.fills ++ s.engine.fillsMade fuel request })

/-- The engine handles the next request of a connection. An error closes the connection. -/
def serve (fuel : ℕ) (s : System) (c : ℕ) (link : Link) : Option System :=
  match link.serving, link.requests with
  | true, (k, request) :: requests =>
    (s.handle fuel (some k) request).map fun
      | (.ok bundle, s) => s.setLink c { link with
          requests := requests, responses := link.responses ++ [⟨k, bundle.response⟩] }
      | (.error _, s) => s.setLink c { link with requests := requests, serving := false }
  | _, _ => none

/-! ### Steps -/

/-- The request places no order; orders are placed by `place_order` only. -/
def placesNothing : EngineRequest → Bool
  | .place _ _ => false
  | _ => true

/-- One step; `none` where it is not enabled. -/
def step (fuel : ℕ) (mul : Decimal → Decimal → Option Decimal) (s : System) : Op → Option System
  | .place k call =>
    if s.calls.find? k = none then some (s.setCall k (.looking call)) else none
  | .forward k request =>
    if s.calls.find? k = none ∧ placesNothing request then
      some (s.setCall k (.sending (.new request none)))
    else none
  | .lookUp k delivery =>
    match s.calls.find? k with
    | some (.looking call) => some (s.lookUp k call delivery)
    | _ => none
  | .validate k delivery =>
    match s.calls.find? k with
    | some (.validating call) => some (s.validate mul k call delivery)
    | _ => none
  | .lock k delivery =>
    match s.calls.find? k with
    | some (.locking call placement) => some (s.lockBalance k call placement delivery)
    | _ => none
  | .insert k orderId delivery =>
    match s.calls.find? k with
    | some (.inserting call placement) => some (s.insertPending k call placement orderId delivery)
    | _ => none
  | .register k =>
    match s.calls.find? k with
    | some (.sending send) => if send.phase = .prepared then some (s.register k send) else none
    | _ => none
  | .write k outcome =>
    match s.calls.find? k with
    | some (.sending send) => if send.phase = .registered then s.write k send outcome else none
    | _ => none
  | .timeOut k =>
    match s.calls.find? k with
    | some (.sending send) => if send.phase = .waiting then some (s.timeOut k send) else none
    | _ => none
  | .resolve k =>
    match s.calls.find? k with
    | some (.sending send) => if send.phase = .waiting then s.resolve k send else none
    | _ => none
  | .unlock k delivery =>
    match s.calls.find? k with
    | some (.sending send) =>
      match send.phase, send.lock with
      | .failed error, some lock => some (s.unlockBalance k send lock error delivery)
      | _, _ => none
    | _ => none
  | .serve c =>
    match s.links.find? c with
    | some link => s.serve fuel c link
    | none => none
  | .hangUp c =>
    match s.links.find? c with
    | some link => some (s.setLink c { link with serving := false })
    | none => none
  | .deliver c =>
    match s.links.find? c with
    | some link =>
      match link.reader, link.responses with
      | .reading, answer :: responses =>
        some ((s.setLink c { link with responses := responses }).deliver answer)
      | _, _ => none
    | none => none
  | .readerStops c =>
    match s.links.find? c with
    | some link =>
      if link.reader = .reading then
        some ({ s with writer := none }.setLink c { link with reader := .clearing })
      else none
    | none => none
  | .readerClears c =>
    match s.links.find? c with
    | some link =>
      if link.reader = .clearing then
        some ({ s with pending := OrdMap.empty }.setLink c { link with reader := .gone })
      else none
    | none => none
  | .direct request => (s.handle fuel none request).map Prod.snd
  | .settle userId assetId balance =>
    some { s with db := { s.db with
      balances := Function.update s.db.balances (userId, assetId) (some balance) } }

end System

end CryptoCex.Api
