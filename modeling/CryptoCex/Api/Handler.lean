import CryptoCex.Api.Idempotency
import CryptoCex.Db.Rounding

/-!
# A call of `place_order` by itself

The handler from its first statement to its last, and the task it spawns, when nothing else
touches the tables meanwhile. What comes from outside is given by `Outcomes`: what becomes of
each statement, and what the engine client returns. `Ending` is what the caller gets and the
tables on the way.

Up to the point where the order is forwarded, and in the spawned task, these are the steps of
`CryptoCex.Api.System` (`opening_follows`, `unlockBalance_db`).
-/

namespace CryptoCex.Api

open CryptoCex.Core (Decimal Uuid)
open Db (Balance OrderRow Tables numeric value)
open Db.Tables (Delivery)

/-- What becomes of the statements of a call and of the request it forwards. -/
structure Outcomes where
  lookUp : Delivery
  market : Delivery
  lock : Delivery
  insert : Delivery
  /-- The acknowledged status, or the error of the engine client. -/
  engine : Except EngineClientError Proto.OrderStatus
  /-- Whether the engine holds the order when the call is over, if it was forwarded. -/
  live : Bool
  unlock : Delivery
  updateStatus : Delivery
  findById : Delivery

/-- No response of the database is lost. -/
structure Outcomes.Responsive (io : Outcomes) : Prop where
  lookUp : io.lookUp ≠ .lost
  market : io.market ≠ .lost
  lock : io.lock ≠ .lost
  insert : io.insert ≠ .lost
  unlock : io.unlock ≠ .lost
  updateStatus : io.updateStatus ≠ .lost
  findById : io.findById ≠ .lost

/-- How a call ends. -/
structure Ending where
  /-- What is returned: the HTTP status and the order. `none` if the handler panics. -/
  result : Option (Except ApiError (ℕ × OrderRow))
  /-- The order was forwarded to the engine. -/
  forwarded : Bool
  /-- The tables after the lock step. -/
  afterLock : Tables
  /-- The tables after each later statement, those of the spawned task included. -/
  later : List Tables

/-- The tables when the call is over and the spawned task has run. -/
def Ending.final (e : Ending) : Tables := e.later.getLastD e.afterLock

/-! ## The parts -/

/-- The order of the user with the same client order id. -/
def findExisting (userId : Uuid) (input : PlaceOrderInput) (delivery : Delivery) (db : Tables) :
    Except Db.DbError (Option (Uuid × OrderRow)) :=
  match input.clientOrderId with
  | none => .ok none
  | some clientOrderId =>
    (db.execute delivery (Tables.findByClientOrderId userId clientOrderId)).1

/-- Everything before the lock; it writes nothing. `none` is a panic, an error of `Except` is
what the handler returns without going on. -/
def prepare (mul : Decimal → Decimal → Option Decimal) (userId : Uuid) (input : PlaceOrderInput)
    (io : Outcomes) (db : Tables) :
    Option (Except (Except ApiError (ℕ × OrderRow)) Placement) :=
  match findExisting userId input io.lookUp db with
  | .error _ => some (.error (.error .internal))
  | .ok (some (_, row)) => some (.error (.ok (200, row)))
  | .ok none =>
    match validateInput input with
    | .error e => some (.error (.error e))
    | .ok quantity =>
      match (db.execute io.market fun db => .ok (db.markets input.symbol, db)).1 with
      | .error _ => some (.error (.error .internal))
      | .ok market =>
        match validateMarket market with
        | .error e => some (.error (.error e))
        | .ok market =>
          (balanceLockParams mul input.side input.orderType input.price quantity
            input.quoteQuantity market.baseAssetId market.quoteAssetId).map fun params =>
              .ok ⟨quantity, params.map fun p => ⟨userId, p.1, p.2⟩⟩

/-- The lock step. -/
def takeLock (lock : Option Lock) (delivery : Delivery) (db : Tables) :
    Except ApiError Unit × Tables :=
  match lock with
  | none => (.ok (), db)
  | some lock =>
    match db.execute delivery
        (Tables.tryLockBalance numeric lock.userId lock.assetId (value lock.amount)) with
    | (.error _, db) => (.error .internal, db)
    | (.ok false, db) => (.error ⟨402, .insufficientBalance, "Insufficient balance"⟩, db)
    | (.ok true, db) => (.ok (), db)

/-- The spawned task; a failed statement is only logged. -/
def releaseLock (lock : Option Lock) (delivery : Delivery) (db : Tables) : Tables :=
  match lock with
  | none => db
  | some lock => (db.execute delivery
      (Tables.unlockBalance numeric lock.userId lock.assetId (value lock.amount))).2

/-- The status written after an acknowledgement: its name in lower case, which is a value of
the column. -/
def ackStatus : Proto.OrderStatus → Db.OrderStatus
  | .new => .new
  | .partiallyFilled => .partiallyFilled
  | .filled => .filled
  | .canceled => .canceled
  | .rejected => .rejected

def findById (orderId userId : Uuid) (db : Tables) :
    Except Db.DbError (Option OrderRow × Tables) :=
  .ok ((db.orders.find? orderId).filter fun row => row.userId = userId, db)

/-- What follows when the order is inserted: the engine, and the refund or the status. -/
def forward (orderId userId : Uuid) (lock : Option Lock) (io : Outcomes)
    (locked inserted : Tables) : Ending :=
  match io.engine with
  | .error e =>
    { result := some (.error (engineFailure e))
      forwarded := true
      afterLock := locked
      later := [inserted, releaseLock lock io.unlock inserted] }
  | .ok status =>
    let updated := (inserted.execute io.updateStatus fun db =>
      .ok ((), db.updateStatus orderId (ackStatus status))).2
    { result := some <|
        match (updated.execute io.findById (findById orderId userId)).1 with
        | .ok (some row) => .ok (201, row)
        | _ => .error .internal
      forwarded := true
      afterLock := locked
      later := [inserted, updated] }

/-- The pending order and what follows. A failure here returns without releasing the lock. -/
def insertPending (orderId userId : Uuid) (input : PlaceOrderInput) (placement : Placement)
    (io : Outcomes) (locked : Tables) : Ending :=
  match locked.execute io.insert
      (Tables.insertOrder numeric (pendingRow orderId userId input placement.quantity)) with
  | (.error _, inserted) => ⟨some (.error .internal), false, locked, [inserted]⟩
  | (.ok _, inserted) => forward orderId userId placement.lock io locked inserted

/-- The lock and what follows. -/
def lockBalance (orderId userId : Uuid) (input : PlaceOrderInput) (placement : Placement)
    (io : Outcomes) (db : Tables) : Ending :=
  match takeLock placement.lock io.lock db with
  | (.error e, locked) => ⟨some (.error e), false, locked, []⟩
  | (.ok _, locked) => insertPending orderId userId input placement io locked

/-- `place_order`, with the id it draws for the order. -/
def placeOrder (mul : Decimal → Decimal → Option Decimal) (orderId userId : Uuid)
    (input : PlaceOrderInput) (io : Outcomes) (db : Tables) : Ending :=
  match prepare mul userId input io db with
  | none => ⟨none, false, db, []⟩
  | some (.error result) => ⟨some result, false, db, []⟩
  | some (.ok placement) => lockBalance orderId userId input placement io db

/-! ## The steps of the system -/

namespace System

variable {fuel : ℕ} {mul : Decimal → Decimal → Option Decimal} {s : System} {k : ℕ}

/-- A step if it is enabled. -/
def attempt (fuel : ℕ) (mul : Decimal → Decimal → Option Decimal) (s : System) (op : Op) : System :=
  (s.step fuel mul op).getD s

/-- The steps of a call up to the point where it has a request to send. -/
def opening (k orderId : ℕ) (io : Outcomes) : List Op :=
  [.lookUp k io.lookUp, .validate k io.market, .lock k io.lock, .insert k orderId io.insert]

/-- The call stands where the handler ended or forwarded the order. -/
def Agrees (e : Ending) : Option Call → Prop
  | some (.ended result) => e.forwarded = false ∧
      e.result.map (fun r => r.map fun _ => ()) = some result
  | some .panicked => e.forwarded = false ∧ e.result = none
  | some (.sending send) => e.forwarded = true ∧ send.phase = .prepared
  | _ => False

/-- The system has come as far as the handler did before it heard from the engine. -/
structure Follows (s : System) (k : ℕ) (e : Ending) : Prop where
  db : s.db = e.later.headD e.afterLock
  call : Agrees e (s.calls.find? k)

theorem attempt_disabled {op : Op} (h : s.step fuel mul op = none) : attempt fuel mul s op = s := by
  rw [attempt, h, Option.getD_none]

theorem attempt_enabled {t : System} {op : Op} (h : s.step fuel mul op = some t) :
    attempt fuel mul s op = t := by
  rw [attempt, h, Option.getD_some]

/-- The call is over before it has a request. -/
def Over (s : System) (k : ℕ) : Prop :=
  (∃ result, s.calls.find? k = some (.ended result)) ∨ s.calls.find? k = some .panicked

/-- Nothing more happens to a call that is over. -/
theorem foldl_attempt_over {ops : List Op} (orderId : ℕ) (io : Outcomes) (h : Over s k)
    (hops : ops ⊆ opening k orderId io) : ops.foldl (attempt fuel mul) s = s := by
  induction ops with
  | nil => rfl
  | cons op ops ih =>
    rcases List.cons_subset.mp hops with ⟨hop, hrest⟩
    have hdisabled : s.step fuel mul op = none := by
      simp only [opening, List.mem_cons, List.not_mem_nil, or_false] at hop
      rcases h with ⟨result, hcall⟩ | hcall
      all_goals rcases hop with rfl | rfl | rfl | rfl <;> simp [step, hcall]
    rw [List.foldl_cons, attempt_disabled hdisabled]
    exact ih hrest

@[simp] theorem find?_setCall_self (s : System) (k : ℕ) (call : Call) :
    (s.setCall k call).calls.find? k = some call := by
  rw [setCall, OrdMap.find?_insert, if_pos rfl]

/-- Once the row is in, the order goes to the engine. -/
theorem forward_forwarded (orderId userId : Uuid) (lock : Option Lock) (io : Outcomes)
    (locked inserted : Tables) :
    (forward orderId userId lock io locked inserted).forwarded = true := by
  unfold forward
  split <;> rfl

theorem forward_later (orderId userId : Uuid) (lock : Option Lock) (io : Outcomes)
    (locked inserted : Tables) (db : Tables) :
    (forward orderId userId lock io locked inserted).later.headD db = inserted := by
  unfold forward
  split <;> rfl

/-- From the insert on, the steps of the machine compute what the handler returns. -/
theorem insertPending_follows {call : PlaceCall} {placement : Placement} (orderId : ℕ)
    (io : Outcomes) (h : s.calls.find? k = some (.inserting call placement)) :
    Follows ([Op.insert k orderId io.insert].foldl (attempt fuel mul) s) k
      (Api.insertPending orderId call.userId call.input placement io s.db) := by
  have hstep : s.step fuel mul (.insert k orderId io.insert) =
      some (s.insertPending k call placement orderId io.insert) := by
    simp only [step, h]
  rw [List.foldl_cons, attempt_enabled hstep, List.foldl_nil]
  unfold System.insertPending Api.insertPending
  rcases s.db.execute io.insert (Tables.insertOrder numeric
    (pendingRow orderId call.userId call.input placement.quantity)) with ⟨_ | _, inserted⟩
  · refine ⟨rfl, ?_⟩
    rw [find?_setCall_self]
    exact ⟨rfl, rfl⟩
  · refine ⟨(forward_later ..).symm, ?_⟩
    rw [find?_setCall_self]
    exact ⟨forward_forwarded .., rfl⟩

/-- From the lock on, the steps of the machine compute what the handler returns. -/
theorem lockBalance_follows {call : PlaceCall} {placement : Placement} (orderId : ℕ)
    (io : Outcomes) (h : s.calls.find? k = some (.locking call placement)) :
    Follows ([Op.lock k io.lock, .insert k orderId io.insert].foldl (attempt fuel mul) s) k
      (Api.lockBalance orderId call.userId call.input placement io s.db) := by
  have hstep : s.step fuel mul (.lock k io.lock) =
      some (s.lockBalance k call placement io.lock) := by
    simp only [step, h]
  rw [List.foldl_cons, attempt_enabled hstep]
  -- what the insert does when the lock step ended the call
  have hended : ∀ db e, Follows ([Op.insert k orderId io.insert].foldl (attempt fuel mul)
      (setCall { s with db := db } k (.ended (.error e)))) k
      ⟨some (.error e), false, db, []⟩ := by
    intro db e
    have hover : Over (setCall { s with db := db } k (.ended (.error e))) k :=
      .inl ⟨_, find?_setCall_self ..⟩
    rw [foldl_attempt_over orderId io hover (by simp [opening])]
    refine ⟨rfl, ?_⟩
    rw [find?_setCall_self]
    exact ⟨rfl, rfl⟩
  unfold System.lockBalance Api.lockBalance takeLock
  cases placement.lock with
  | none => exact insertPending_follows orderId io (find?_setCall_self ..)
  | some lock =>
    simp only
    rcases s.db.execute io.lock (Tables.tryLockBalance numeric lock.userId lock.assetId
      (value lock.amount)) with ⟨_ | _ | _, locked⟩
    · exact hended locked _
    · exact hended locked _
    · exact insertPending_follows orderId io (find?_setCall_self ..)

/-- The look-up reads only. -/
theorem findByClientOrderId_execute (db : Tables) (delivery : Delivery) (userId : Uuid)
    (clientOrderId : String) :
    (db.execute delivery (Tables.findByClientOrderId userId clientOrderId)).2 = db := by
  cases delivery <;> rfl

/-- Nothing is written before the lock, and a call that ends there is over. -/
theorem validate_follows {call : PlaceCall} (orderId : ℕ) (io : Outcomes)
    (h : s.calls.find? k = some (.validating call))
    (hnew : findExisting call.userId call.input io.lookUp s.db = .ok none) :
    Follows ((opening k orderId io).tail.foldl (attempt fuel mul) s) k
      (placeOrder mul orderId call.userId call.input io s.db) := by
  have hstep : s.step fuel mul (.validate k io.market) =
      some (s.validate mul k call io.market) := by
    simp only [step, h]
  rw [opening, List.tail_cons, List.foldl_cons, attempt_enabled hstep]
  have hended : ∀ e, Follows ([Op.lock k io.lock, .insert k orderId io.insert].foldl
      (attempt fuel mul) (s.setCall k (.ended (.error e)))) k
      ⟨some (.error e), false, s.db, []⟩ := by
    intro e
    have hover : Over (s.setCall k (.ended (.error e))) k := .inl ⟨_, find?_setCall_self ..⟩
    rw [foldl_attempt_over orderId io hover (by simp [opening])]
    refine ⟨rfl, ?_⟩
    rw [find?_setCall_self]
    exact ⟨rfl, rfl⟩
  unfold System.validate placeOrder prepare
  simp only [hnew]
  rcases validateInput call.input with e | quantity
  · exact hended e
  simp only
  rcases (s.db.execute io.market fun db => .ok (db.markets call.input.symbol, db)).1 with e | market
  · exact hended _
  simp only
  rcases validateMarket market with e | market
  · exact hended e
  simp only
  rcases balanceLockParams mul call.input.side call.input.orderType call.input.price quantity
    call.input.quoteQuantity market.baseAssetId market.quoteAssetId with _ | params
  · -- the product overflows
    have hover : Over (s.setCall k .panicked) k := .inr (find?_setCall_self ..)
    rw [foldl_attempt_over orderId io hover (by simp [opening])]
    refine ⟨rfl, ?_⟩
    rw [find?_setCall_self]
    exact ⟨rfl, rfl⟩
  · exact lockBalance_follows orderId io (find?_setCall_self ..)

/-- The steps of the system are those of the handler. -/
theorem opening_follows {call : PlaceCall} (orderId : ℕ) (io : Outcomes)
    (h : s.calls.find? k = some (.looking call)) :
    Follows ((opening k orderId io).foldl (attempt fuel mul) s) k
      (placeOrder mul orderId call.userId call.input io s.db) := by
  have hstep : s.step fuel mul (.lookUp k io.lookUp) = some (s.lookUp k call io.lookUp) := by
    simp only [step, h]
  have hended : ∀ r : Except ApiError (ℕ × OrderRow),
      Follows ((opening k orderId io).tail.foldl (attempt fuel mul)
        (s.setCall k (.ended (r.map fun _ => ())))) k ⟨some r, false, s.db, []⟩ := by
    intro r
    have hover : Over (s.setCall k (.ended (r.map fun _ => ()))) k :=
      .inl ⟨_, find?_setCall_self ..⟩
    rw [foldl_attempt_over orderId io hover (List.tail_subset _)]
    refine ⟨rfl, ?_⟩
    rw [find?_setCall_self]
    exact ⟨rfl, rfl⟩
  -- the look-up; without a client order id there is none
  rw [opening, List.foldl_cons, attempt_enabled hstep]
  change Follows ((opening k orderId io).tail.foldl (attempt fuel mul) _) k _
  unfold System.lookUp
  cases hid : call.input.clientOrderId with
  | none =>
    have hnew : findExisting call.userId call.input io.lookUp s.db = .ok none := by
      simp only [findExisting, hid]
    exact validate_follows orderId io (find?_setCall_self ..) hnew
  | some clientOrderId =>
    have hfind : findExisting call.userId call.input io.lookUp s.db =
        (s.db.execute io.lookUp (Tables.findByClientOrderId call.userId clientOrderId)).1 := by
      simp only [findExisting, hid]
    have hdb := findByClientOrderId_execute s.db io.lookUp call.userId clientOrderId
    rcases hexec : s.db.execute io.lookUp (Tables.findByClientOrderId call.userId clientOrderId)
      with ⟨result, db⟩
    rw [hexec] at hfind hdb
    cases hdb
    simp only [hexec]
    rcases result with e | _ | ⟨id, row⟩
    · -- the database did not answer
      have hplace : placeOrder mul orderId call.userId call.input io s.db =
          ⟨some (.error .internal), false, s.db, []⟩ := by
        simp only [placeOrder, prepare, hfind]
      rw [hplace]
      exact hended (.error .internal)
    · -- no such order yet
      exact validate_follows orderId io (find?_setCall_self ..) hfind
    · -- the order is there already and is returned
      have hplace : placeOrder mul orderId call.userId call.input io s.db =
          ⟨some (.ok (200, row)), false, s.db, []⟩ := by
        simp only [placeOrder, prepare, hfind]
      rw [hplace]
      exact hended (.ok (200, row))

/-- The task that the system runs after a failure is the one of the handler. -/
theorem unlockBalance_db (s : System) (k : ℕ) (send : Sending) (lock : Lock) (error : ApiError)
    (delivery : Delivery) :
    (s.unlockBalance k send lock error delivery).db = releaseLock (some lock) delivery s.db := rfl

end System

end CryptoCex.Api
