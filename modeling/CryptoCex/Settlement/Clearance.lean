import CryptoCex.Api.Handler
import CryptoCex.Server.Departed
import CryptoCex.Settlement.Floor

/-!
# Clearing a market

The trading floor together with what the API does with the answers of the engine. It writes the
status of an acknowledgement to the row of the order, when it gets to it, if at all; and an
administrator has the engine cancel the orders of a list of users: those that have open rows in a
market (`cancel_all_in_market`), or one that is frozen (`freeze_user`).

Such a write may be late, and then the row of an order that is gone shows it as open again. But in
the fair runs of the floor, where only the API places orders, no row shows a live order as closed
(`live_orders_shown_open`). This makes the list of users complete: when a market is halted and its
clearing has been through all users, the engine has no order in it (`cleared_market_is_empty`),
whatever else the API places and cancels and settlement settles in the meantime. An order that
another client placed at the engine may have no row yet, and then its owner is not on the list.
-/

namespace CryptoCex.Settlement

open Api (PlaceOrderInput ackStatus validateInput)
open CryptoCex.Core (Decimal Uuid)
open Db (OrderRow OrderStatus Tables)
open Machine (run Along)
open Proto (EngineRequest SequencedEngineEvent)
open Server (EngineState ResponseBundle ServerError isPlacement)
open Server.EngineState (Departed Displays Fresh Tended placedIds placements)

/-! ## The machine -/

/-- What `users_with_open_orders_in_market` returns. -/
def usersWithOpenOrders (symbol : String) (db : Tables) : List Uuid :=
  (((db.orders.entries.filter fun e => e.2.market = symbol ∧ e.2.status.markable = true).map
    fun e => e.2.userId).dedup).insertionSort (· ≤ ·)

/-- The status that the API writes after the answer to a placement. -/
def placedStatus : Except ServerError ResponseBundle → Option OrderStatus
  | .ok { response := .ack _ (.order _ status _ _), .. } => some (ackStatus status)
  | _ => none

/-- The status that it writes after the answer to a cancel. -/
def canceledStatus : Except ServerError ResponseBundle → Option OrderStatus
  | .ok { response := .ack _ (.cancel _ status _), .. } => some (ackStatus status)
  | _ => none

/-- The orders that a cancel-all reports. -/
def canceledIds : Except ServerError ResponseBundle → Option (List Uuid)
  | .ok { response := .ack _ (.cancelAll orderIds _), .. } => some orderIds
  | _ => none

/-- A call of `cancel_for_users`. -/
structure Clearing where
  symbol : Option String
  /-- The users whose orders are still to be canceled. -/
  users : List Uuid
  canceled : List Uuid
  /-- The orders are marked as canceled. -/
  marked : Bool
  /-- History: the market was halted when the users were read, and was not resumed since. -/
  halted : Bool
deriving DecidableEq, Repr

structure Office where
  floor : Floor
  /-- Orders that `cancel_order` found open, with their symbols; the engine is not asked yet. -/
  cancels : List (Uuid × String)
  /-- Statuses of acknowledgements that are not written yet. -/
  writes : List (Uuid × OrderStatus)
  clearings : List Clearing

inductive OfficeOp where
  /-- The API locks the funds of an order and inserts it. -/
  | forward (orderId userId : Uuid) (input : PlaceOrderInput)
  | place (requestId : Uuid) (entry : Entry)
  | refund (entry : Entry)
  /-- `cancel_order` looks the order up. -/
  | findOrder (orderId userId : Uuid)
  | cancel (requestId orderId : Uuid) (symbol : String)
  /-- A status is written; one that is never written was lost. -/
  | updateStatus (orderId : Uuid) (status : OrderStatus)
  /-- The engine handles a request of others. -/
  | request (req : EngineRequest)
  /-- `cancel_all_in_market` reads the users. -/
  | cancelAllInMarket (symbol : String)
  | freezeUser (userId : Uuid)
  /-- The clearing asks the engine to cancel the orders of its next user. -/
  | cancelAll (requestId : Uuid) (i : ℕ)
  | markCanceled (i : ℕ)
  | settle

/-- Resuming the market ends the halt that a clearing rests on. -/
def Clearing.observe (req : EngineRequest) (c : Clearing) : Clearing :=
  match req with
  | .resumeMarket _ symbol => if c.symbol = some symbol then { c with halted := false } else c
  | _ => c

namespace Office

def step (fuel : ℕ) (mul : Decimal → Decimal → Option Decimal) (s : Office) :
    OfficeOp → Option Office
  | .forward orderId userId input =>
    (s.floor.step fuel mul (.forward orderId userId input)).map fun floor =>
      { s with floor := floor }
  | .place requestId entry =>
    (s.floor.engine.handleRequest fuel (.place requestId entry.order)).bind fun answer =>
      (s.floor.step fuel mul (.send requestId entry)).map fun floor =>
        { s with
          floor := floor
          writes := ((placedStatus answer.1).map fun status => (entry.orderId, status)).toList ++
            s.writes }
  | .refund entry =>
    (s.floor.step fuel mul (.refund entry)).map fun floor => { s with floor := floor }
  | .findOrder orderId userId =>
    match s.floor.desk.db.orders.find? orderId with
    | none => some s
    | some row =>
      if row.userId = userId ∧ row.status.markable = true then
        some { s with cancels := (orderId, row.market) :: s.cancels }
      else some s
  | .cancel requestId orderId symbol =>
    if (orderId, symbol) ∈ s.cancels then
      (s.floor.engine.handleRequest fuel (.cancel requestId symbol orderId)).map fun answer =>
        { s with
          floor := { s.floor with engine := answer.2 }
          cancels := s.cancels.erase (orderId, symbol)
          writes := ((canceledStatus answer.1).map fun status => (orderId, status)).toList ++
            s.writes }
    else none
  | .updateStatus orderId status =>
    if (orderId, status) ∈ s.writes then
      (s.floor.step fuel mul (.updateStatus orderId status)).map fun floor =>
        { s with floor := floor, writes := s.writes.erase (orderId, status) }
    else none
  | .request req =>
    (s.floor.step fuel mul (.request req)).map fun floor =>
      { s with floor := floor, clearings := s.clearings.map (·.observe req) }
  | .cancelAllInMarket symbol =>
    if (s.floor.desk.db.markets symbol).isSome then
      some { s with clearings := s.clearings ++ [{
        symbol := some symbol
        users := usersWithOpenOrders symbol s.floor.desk.db
        canceled := []
        marked := false
        halted := symbol ∈ s.floor.engine.haltedSymbols }] }
    else none
  | .freezeUser userId =>
    some { s with clearings := s.clearings ++ [⟨none, [userId], [], false, false⟩] }
  | .cancelAll requestId i =>
    match s.clearings[i]? with
    | some ⟨symbol, userId :: users, canceled, marked, halted⟩ =>
      (s.floor.engine.handleRequest fuel (.cancelAll requestId userId symbol)).map fun answer =>
        { s with
          floor := { s.floor with engine := answer.2 }
          clearings :=
            match canceledIds answer.1 with
            | some orderIds => s.clearings.set i
                ⟨symbol, users, canceled ++ orderIds, marked, halted⟩
            | none => s.clearings.eraseIdx i }
    | _ => none
  | .markCanceled i =>
    match s.clearings[i]? with
    | some ⟨symbol, [], canceled, false, halted⟩ =>
      (s.floor.step fuel mul (.markCanceled canceled)).map fun floor =>
        { s with floor := floor, clearings := s.clearings.set i ⟨symbol, [], canceled, true, halted⟩ }
    | _ => none
  | .settle => (s.floor.step fuel mul .settle).map fun floor => { s with floor := floor }

/-- An office without work. -/
def start (floor : Floor) : Office := ⟨floor, [], [], []⟩

/-- What is assumed of a step is what the floor assumes of it. -/
def Fair (mul : Decimal → Decimal → Option Decimal) (s : Office) : OfficeOp → Prop
  | .forward orderId userId input => s.floor.Fair mul (.forward orderId userId input)
  | .refund entry => s.floor.Fair mul (.refund entry)
  | .request req => s.floor.Fair mul (.request req)
  | .settle => s.floor.Fair mul .settle
  | _ => True

end Office

/-! ## Closed rows -/

/-- A row that is closed is that of an order that is gone. -/
def ClosedRight (past : List EngineRequest) (engine : EngineState) (db : Tables) : Prop :=
  ∀ x row, db.orders.find? x = some row → row.status.markable = false → Departed past engine x

section Rows

variable {fuel : ℕ} {mul : Decimal → Decimal → Option Decimal} {source : Stream' Uuid}
  {past : List EngineRequest} {entered : List Entry} {engine engine' : EngineState}
  {db db' : Tables} {f f' : Floor}

/-- A request of the engine closes no row. -/
theorem ClosedRight.served (h : ClosedRight past engine db) (htended : Tended past engine)
    {req : EngineRequest} (hfresh : Fresh past req) (hdisplays : Displays req)
    {result : Except ServerError ResponseBundle}
    (hhandle : engine.handleRequest fuel req = some (result, engine')) :
    ClosedRight (past ++ [req]) engine' db := by
  intro x row hrow hclosed
  exact (h x row hrow hclosed).step htended hfresh hdisplays hhandle

/-- A status that closes a row is written for an order that has departed. -/
theorem ClosedRight.updateStatus (h : ClosedRight past engine db) {orderId : Uuid}
    {status : OrderStatus} (hstatus : status.markable = false → Departed past engine orderId) :
    ClosedRight past engine (db.updateStatus orderId status) := by
  unfold Tables.updateStatus
  split
  · exact h
  · next row hfind =>
    intro x row' hrow' hclosed
    dsimp only at hrow'
    rw [OrdMap.find?_insert] at hrow'
    split_ifs at hrow' with hx
    · cases hrow'
      exact hx ▸ hstatus hclosed
    · exact h x row' hrow' hclosed

/-- So are the rows that are marked as canceled. -/
theorem ClosedRight.markOrdersCanceled (h : ClosedRight past engine db) {orderIds : List Uuid}
    (hgone : ∀ x ∈ orderIds, Departed past engine x) :
    ClosedRight past engine (db.markOrdersCanceled orderIds) := by
  unfold Tables.markOrdersCanceled
  induction orderIds generalizing db with
  | nil => exact h
  | cons orderId orderIds ih =>
    have hfirst := hgone orderId List.mem_cons_self
    have hrest : ∀ x ∈ orderIds, Departed past engine x := fun x hx =>
      hgone x (List.mem_cons_of_mem orderId hx)
    rw [List.foldl_cons]
    unfold Tables.markOrderCanceled
    split
    · exact ih h hrest
    · split_ifs
      · exact ih (h.updateStatus fun _ => hfirst) hrest
      · exact ih h hrest

/-- An order is inserted as pending. -/
theorem ClosedRight.forward (h : ClosedRight past engine db) {orderId userId : Uuid}
    {input : PlaceOrderInput}
    (hforward : Settlement.forward mul orderId userId input db = some db') :
    ClosedRight past engine db' := by
  rcases forward_eq_some hforward with ⟨_, _, _, mid, row, _, _, _, htake, hchecks, _, rfl⟩
  intro x row' hrow' hclosed
  dsimp only at hrow'
  rw [OrdMap.find?_insert, (takeLock_moves htake).keeps.orders] at hrow'
  split_ifs at hrow'
  · cases hrow'
    rw [(checkedRow_exact hchecks).1] at hclosed
    cases hclosed
  · exact h x row' hrow' hclosed

theorem ClosedRight.refund (h : ClosedRight past engine db) (userId : Uuid)
    (input : PlaceOrderInput) :
    ClosedRight past engine (Settlement.refund mul userId input db) := by
  intro x row hrow hclosed
  refine h x row ?_ hclosed
  rcases refund_cases mul userId input db with hidle | ⟨_, _, _, _, _, _, hmoves⟩
  · rwa [hidle] at hrow
  · rwa [hmoves.keeps.orders] at hrow

/-- An order of which a fill leaves the row closed has nothing left. -/
theorem remaining_of_closed {row : OrderRow} {price quantity : ℚ} {columns : FillColumns}
    (h : fillColumns .exact row price quantity = .ok columns)
    (hclosed : columns.status.markable = false) : remaining (setFill row columns) ≤ 0 := by
  rcases fillColumns_exact h with ⟨hfilled, hstatus⟩
  rw [hstatus] at hclosed
  unfold remaining setFill
  dsimp only
  rw [hfilled]
  unfold statusAfterFill at hclosed
  cases hquantity : row.quantity with
  | none => exact le_refl 0
  | some total =>
    rw [hquantity] at hclosed
    dsimp only at hclosed ⊢
    split_ifs at hclosed with hle
    · linarith
    · cases hclosed

/-- An order of the tape with a row that has nothing left, or that settlement is done with, is
gone. -/
theorem Floor.Fits.departed (h : f.Fits mul source past entered) (htended : Tended past f.engine)
    {x : Uuid} {row : OrderRow} (hplaced : x ∈ placedIds past)
    (hrow : f.desk.db.orders.find? x = some row) (hover : x ∈ f.desk.closed ∨ remaining row ≤ 0) :
    Departed past f.engine x := by
  refine ⟨hplaced, ?_⟩
  intro symbol hid
  rcases Core.OrderBook.mem_ids_iff.mp hid with ⟨o, ho, rfl⟩
  rcases h.live_row ho with ⟨row', hopen, _, _, _, _, hleft⟩
  rcases Desk.find?_openOrders.mp hopen with ⟨hnot, hrow'⟩
  rw [hrow] at hrow'
  cases hrow'
  have hpos : 0 < Db.value o.remaining :=
    value_pos.mpr ((htended.descends.bookOf symbol).all o ho).1.positive
  rcases hover with hclosed | hle
  · exact hnot hclosed
  · linarith

/-- Settlement closes the rows of orders that are gone. -/
theorem ClosedRight.settle (h : ClosedRight past f.engine f.desk.db)
    (hfits : f.Fits mul source past entered) (htended : Tended past f.engine)
    {e : SequencedEngineEvent} (he : f.engine.eventLog.entries[f.settled]? = some e)
    (hsettles : Settles .exact e.seq f.desk.db e.event db')
    (hnext : ({ f with
      desk := ⟨db', closedAfter f.desk.closed e.event⟩
      settled := f.settled + 1 } : Floor).Fits mul source past entered) :
    ClosedRight past f.engine db' := by
  intro x row hrow hclosed
  have hallows := hfits.allows he
  have hplaced : ∀ y standing, f.read.standings y = some standing → y ∈ placedIds past := by
    intro y standing hstanding
    rcases hfits.standing hstanding with ⟨entry, _, rfl, _, hsent, _⟩
    exact hsent
  rcases e with ⟨seq, event⟩
  cases hsettles with
  | known | traded | closed | rested | delta | status => exact h x row hrow hclosed
  -- the row of an accepted order is open
  | accepted _ hchecks _ _ hledger =>
    rw [(keepsRest_of_applyLedgers hledger).orders, OrdMap.find?_insert] at hrow
    split_ifs at hrow
    · cases hrow
      rw [(checkedRow_exact hchecks).1] at hclosed
      cases hclosed
    · exact h x row hrow hclosed
  -- a fill closes a row that has nothing left
  | @filled fill a _ _ _ _ ha =>
    rcases hallows with ⟨⟨taker, maker, htaker, hmaker, _⟩, _⟩
    dsimp only at hrow
    have hfind := hrow
    rw [FillAmounts.orders, OrdMap.find?_insert, OrdMap.find?_insert] at hrow
    split_ifs at hrow with hx hx
    · cases hrow
      refine hnext.departed htended ?_ hfind (.inr (remaining_of_closed ha.makerColumns hclosed))
      rw [hx, ha.maker_id]
      exact hplaced _ _ hmaker.1
    · cases hrow
      refine hnext.departed htended ?_ hfind (.inr (remaining_of_closed ha.takerColumns hclosed))
      rw [hx, ha.taker_id]
      exact hplaced _ _ htaker.1
    · exact h x row hrow hclosed
  -- a cancellation closes the row of an order that was cancelled
  | canceled _ _ _ _ hledger =>
    rcases hallows with ⟨standing, hopen, _⟩
    have hfind := hrow
    dsimp only at hrow
    rw [OrdMap.find?_insert] at hrow
    split_ifs at hrow with hx
    · rw [hx] at hfind ⊢
      exact hnext.departed htended (hplaced _ _ hopen.1) hfind (.inl List.mem_cons_self)
    · exact h x row hrow hclosed

/-! ## The users of a clearing -/

/-- The owner of an open row in a market is on its list. -/
theorem mem_usersWithOpenOrders {symbol : String} {x : Uuid} {row : OrderRow}
    (hrow : db.orders.find? x = some row) (hmarket : row.market = symbol)
    (hopen : row.status.markable = true) : row.userId ∈ usersWithOpenOrders symbol db := by
  rw [usersWithOpenOrders, List.mem_insertionSort, List.mem_dedup, List.mem_map]
  exact ⟨(x, row), List.mem_filter.mpr ⟨OrdMap.find?_eq_some.mp hrow,
    decide_eq_true ⟨hmarket, hopen⟩⟩, rfl⟩

/-- A live order has an open row in its market. -/
theorem ClosedRight.open_row (h : ClosedRight past f.engine f.desk.db)
    (hfits : f.Fits mul source past entered) {symbol : String} {o : Core.Order}
    (ho : o ∈ (f.engine.bookOf symbol).live) : ∃ row, f.desk.db.orders.find? o.id = some row ∧
      row.userId = o.userId ∧ row.market = symbol ∧ row.status.markable = true := by
  have hpool := Server.mem_live_iff.mp ho
  rcases hfits.live_row hpool with ⟨row, hopen, huser, hmarket, _⟩
  have hrow := (Desk.find?_openOrders.mp hopen).2
  refine ⟨row, hrow, huser, hmarket, ?_⟩
  by_contra hclosed
  rw [Bool.not_eq_true] at hclosed
  exact (h o.id row hrow hclosed).gone symbol (Core.OrderBook.mem_ids_iff.mpr ⟨o, hpool, rfl⟩)

/-- A clearing of a halted market: the live orders there are those of the users still to come. -/
structure Clearing.Covers (c : Clearing) (engine : EngineState) : Prop where
  halted : c.halted = true → ∃ symbol, c.symbol = some symbol ∧
    symbol ∈ engine.haltedSymbols ∧ ∀ o ∈ (engine.bookOf symbol).live, o.userId ∈ c.users

/-- No request but one to resume the market undoes this. -/
theorem Clearing.Covers.served {c : Clearing} (h : c.Covers engine) (htended : Tended past engine)
    {req : EngineRequest} (hfresh : Fresh past req) (hdisplays : Displays req)
    {result : Except ServerError ResponseBundle}
    (hhandle : engine.handleRequest fuel req = some (result, engine')) :
    (c.observe req).Covers engine' := by
  -- a clearing that still counts on the halt
  have hcase : (c.observe req).halted = true → c.halted = true ∧ (c.observe req) = c ∧
      ∀ symbol, c.symbol = some symbol → symbol ∈ engine.haltedSymbols →
        symbol ∈ engine'.haltedSymbols := by
    rw [EngineState.handleRequest_haltedSymbols hhandle]
    cases req with
    | place | cancel | cancelAll | snapshot | ping => exact fun hc => ⟨hc, rfl, fun _ _ hs => hs⟩
    | haltMarket => exact fun hc => ⟨hc, rfl, fun _ _ hs => Finset.mem_insert_of_mem hs⟩
    | resumeMarket requestId symbol =>
      unfold Clearing.observe
      dsimp only
      split_ifs with hsymbol
      · rintro ⟨⟩
      · refine fun hc => ⟨hc, rfl, fun symbol' hc' hs => Finset.mem_erase.mpr ⟨?_, hs⟩⟩
        rintro rfl
        exact hsymbol hc'
  refine ⟨fun hhalted => ?_⟩
  rcases hcase hhalted with ⟨hc, hsame, hkept⟩
  rw [hsame]
  rcases h.halted hc with ⟨symbol, hsymbol, hin, howners⟩
  refine ⟨symbol, hsymbol, hkept symbol hsymbol hin, ?_⟩
  intro o ho
  rcases htended.live_cases hfresh hdisplays hhandle ho with
    ⟨o', ho', _, huser⟩ | ⟨_, _, _, _, _, _, htrading⟩
  · exact huser ▸ howners o' ho'
  · exact (htrading hin).elim

/-- The orders of the next user are canceled. -/
theorem Clearing.Covers.cleared {symbol : Option String} {userId requestId : Uuid}
    {users canceled canceled' : List Uuid} {marked halted : Bool}
    (h : Clearing.Covers ⟨symbol, userId :: users, canceled, marked, halted⟩ engine)
    (htended : Tended past engine) (hfresh : Fresh past (.cancelAll requestId userId symbol))
    (hdisplays : Displays (.cancelAll requestId userId symbol)) {bundle : ResponseBundle}
    (hhandle : engine.handleRequest fuel (.cancelAll requestId userId symbol) =
      some (.ok bundle, engine')) :
    Clearing.Covers ⟨symbol, users, canceled', marked, halted⟩ engine' := by
  have hserved := h.served htended hfresh hdisplays hhandle
  refine ⟨fun hhalted => ?_⟩
  rcases hserved.halted hhalted with ⟨s, hsymbol, hin, howners⟩
  refine ⟨s, hsymbol, hin, ?_⟩
  intro o ho
  rcases List.mem_cons.mp (howners o ho) with huser | hrest
  · -- no order of this user is left
    have hnone := htended.none_in_scope (Option.some.inj hhandle) ho
    refine (hnone ⟨huser, ?_⟩).elim
    rintro s' rfl
    cases hsymbol
    have hnext := htended.step hfresh hdisplays hhandle
    exact ((hnext.known.bookOf s).2 o (Server.mem_live_iff.mp ho)).1.symm
  · exact hrest

end Rows

/-! ## The invariant -/

/-- The floor fits, and what the API has noted down is right: a status that closes an order is that
of an order that is gone, and clearings go through all users. -/
structure Office.Keeps (mul : Decimal → Decimal → Option Decimal) (source : Stream' Uuid)
    (past : List EngineRequest) (entered : List Entry) (s : Office) : Prop where
  fits : s.floor.Fits mul source past entered
  tended : Tended past s.floor.engine
  rows : ClosedRight past s.floor.engine s.floor.desk.db
  writes : ∀ w ∈ s.writes, w.2.markable = false → Departed past s.floor.engine w.1
  canceled : ∀ c ∈ s.clearings, ∀ x ∈ c.canceled, Departed past s.floor.engine x
  covers : ∀ c ∈ s.clearings, c.Covers s.floor.engine

section Keeps

variable {fuel : ℕ} {mul : Decimal → Decimal → Option Decimal} {source : Stream' Uuid}
  {past : List EngineRequest} {entered : List Entry} {engine : EngineState} {s s' : Office}

/-- A request that places nothing is fresh. -/
theorem fresh_of_isPlacement {req : EngineRequest} (h : isPlacement req = false)
    (past : List EngineRequest) : Fresh past req ∧ Displays req := by
  constructor
  · rintro requestId order rfl
    cases h
  · rintro requestId order rfl
    cases h

/-- The engine handled a request. -/
theorem Office.Keeps.served (h : s.Keeps mul source past entered) {req : EngineRequest}
    (hfresh : Fresh past req) (hdisplays : Displays req)
    {result : Except ServerError ResponseBundle}
    (hhandle : s.floor.engine.handleRequest fuel req = some (result, engine))
    {waiting refused : List Entry}
    (hfits : Floor.Fits mul source (past ++ [req]) entered
      ⟨s.floor.desk, engine, waiting, refused, s.floor.settled⟩)
    {cancels : List (Uuid × String)} {writes : List (Uuid × OrderStatus)}
    {clearings : List Clearing}
    (hwrites : ∀ w ∈ writes, w ∈ s.writes ∨
      (w.2.markable = false → Departed (past ++ [req]) engine w.1))
    (hclearings : ∀ c ∈ clearings, (∃ c₀ ∈ s.clearings, c = c₀.observe req) ∨
      (∀ x ∈ c.canceled, Departed (past ++ [req]) engine x) ∧ c.Covers engine) :
    Office.Keeps mul source (past ++ [req]) entered
      ⟨⟨s.floor.desk, engine, waiting, refused, s.floor.settled⟩, cancels, writes, clearings⟩ where
  fits := hfits
  tended := h.tended.step hfresh hdisplays hhandle
  rows := h.rows.served h.tended hfresh hdisplays hhandle
  writes := by
    intro w hw hclosed
    rcases hwrites w hw with hold | hnew
    · exact (h.writes w hold hclosed).step h.tended hfresh hdisplays hhandle
    · exact hnew hclosed
  canceled := by
    intro c hc x hx
    rcases hclearings c hc with ⟨c₀, hc₀, rfl⟩ | hnew
    · refine (h.canceled c₀ hc₀ x ?_).step h.tended hfresh hdisplays hhandle
      unfold Clearing.observe at hx
      split at hx
      · split_ifs at hx
        · exact hx
        · exact hx
      · exact hx
    · exact hnew.1 x hx
  covers := by
    intro c hc
    rcases hclearings c hc with ⟨c₀, hc₀, rfl⟩ | hnew
    · exact (h.covers c₀ hc₀).served h.tended hfresh hdisplays hhandle
    · exact hnew.2

/-- The engine did nothing. -/
theorem Office.Keeps.desk (h : s.Keeps mul source past entered) {entered' : List Entry}
    {floor : Floor} (hengine : floor.engine = s.floor.engine)
    (hfits : floor.Fits mul source past entered')
    (hrows : ClosedRight past s.floor.engine floor.desk.db)
    {cancels : List (Uuid × String)} {writes : List (Uuid × OrderStatus)}
    {clearings : List Clearing} (hwrites : writes ⊆ s.writes)
    (hclearings : ∀ c ∈ clearings, c ∈ s.clearings ∨
      (∀ x ∈ c.canceled, Departed past s.floor.engine x) ∧ c.Covers s.floor.engine) :
    Office.Keeps mul source past entered' ⟨floor, cancels, writes, clearings⟩ := by
  constructor
  · exact hfits
  · exact hengine ▸ h.tended
  · exact hengine ▸ hrows
  · intro w hw hclosed
    exact hengine ▸ h.writes w (hwrites hw) hclosed
  · intro c hc
    dsimp only
    rw [hengine]
    rcases hclearings c hc with hold | hnew
    · exact h.canceled c hold
    · exact hnew.1
  · intro c hc
    dsimp only
    rw [hengine]
    rcases hclearings c hc with hold | hnew
    · exact h.covers c hold
    · exact hnew.2

theorem placedStatus_eq_some {result : Except ServerError ResponseBundle} {status : OrderStatus}
    (h : placedStatus result = some status) : ∃ bundle ackId orderId status' fills seq,
      result = .ok bundle ∧ bundle.response = .ack ackId (.order orderId status' fills seq) ∧
      status = ackStatus status' := by
  unfold placedStatus at h
  split at h
  · cases h
    exact ⟨_, _, _, _, _, _, rfl, rfl, rfl⟩
  · cases h

theorem canceledStatus_eq_some {result : Except ServerError ResponseBundle} {status : OrderStatus}
    (h : canceledStatus result = some status) : ∃ bundle ackId orderId status' seq,
      result = .ok bundle ∧ bundle.response = .ack ackId (.cancel orderId status' seq) := by
  unfold canceledStatus at h
  split at h
  · cases h
    exact ⟨_, _, _, _, _, rfl, rfl⟩
  · cases h

theorem canceledIds_eq_some {result : Except ServerError ResponseBundle} {orderIds : List Uuid}
    (h : canceledIds result = some orderIds) : ∃ bundle ackId seq,
      result = .ok bundle ∧ bundle.response = .ack ackId (.cancelAll orderIds seq) := by
  unfold canceledIds at h
  split at h
  · cases h
    exact ⟨_, _, _, rfl, rfl⟩
  · cases h

/-- The engine takes up an order. -/
theorem Office.Keeps.place (h : s.Keeps mul source past entered) {requestId : Uuid} {entry : Entry}
    (hstep : s.step fuel mul (.place requestId entry) = some s') :
    s'.Keeps mul source (past ++ [.place requestId entry.order]) entered := by
  unfold Office.step at hstep
  dsimp only at hstep
  rcases Option.bind_eq_some_iff.mp hstep with ⟨⟨result, engine⟩, hhandle, hstep⟩
  rcases Option.map_eq_some_iff.mp hstep with ⟨floor, hfloor, rfl⟩
  unfold Floor.step at hfloor
  dsimp only at hfloor
  split_ifs at hfloor with hentry
  rw [hhandle] at hfloor
  cases hfloor
  have hfresh : Fresh past (.place requestId entry.order) := by
    rintro _ _ ⟨⟩
    exact h.fits.unsent entry hentry
  have hdisplays : Displays (.place requestId entry.order) := by
    rintro _ _ ⟨⟩ _
    exact (h.fits.desk.prepared entry (h.fits.waiting.2 hentry)).display
  refine h.served hfresh hdisplays hhandle (h.fits.send hentry hhandle) ?_ ?_
  · intro w hw
    rcases List.mem_append.mp hw with hnew | hold
    · refine .inr fun hclosed => ?_
      rcases Option.map_eq_some_iff.mp (Option.mem_toList.mp hnew) with ⟨status, hstatus, rfl⟩
      -- the status to be written is the acknowledged one; if it is closed, the order has left the
      -- books
      rcases placedStatus_eq_some hstatus with ⟨bundle, _, _, status', _, _, rfl, hack, rfl⟩
      refine h.tended.departed_of_place hfresh hdisplays hhandle hack ?_
      rintro (rfl | rfl)
      · cases hclosed
      · cases hclosed
    · exact .inl hold
  · exact fun c hc => .inl ⟨c, hc, rfl⟩

/-- A cancel through the API keeps the books and the rows together. -/
theorem Office.Keeps.cancel (h : s.Keeps mul source past entered) {requestId orderId : Uuid}
    {symbol : String} (hstep : s.step fuel mul (.cancel requestId orderId symbol) = some s') :
    s'.Keeps mul source (past ++ [.cancel requestId symbol orderId]) entered := by
  unfold Office.step at hstep
  dsimp only at hstep
  split_ifs at hstep
  rcases Option.map_eq_some_iff.mp hstep with ⟨⟨result, engine⟩, hhandle, rfl⟩
  have hother := @fresh_of_isPlacement (.cancel requestId symbol orderId) rfl past
  refine h.served hother.1 hother.2 hhandle (h.fits.request rfl hhandle) ?_ ?_
  · intro w hw
    rcases List.mem_append.mp hw with hnew | hold
    · refine .inr fun _ => ?_
      rcases Option.map_eq_some_iff.mp (Option.mem_toList.mp hnew) with ⟨status, hstatus, rfl⟩
      rcases canceledStatus_eq_some hstatus with ⟨bundle, _, _, _, _, rfl, hack⟩
      exact h.tended.departed_of_cancel (Option.some.inj hhandle) hack
    · exact .inl hold
  · exact fun c hc => .inl ⟨c, hc, rfl⟩

/-- So does any other request. -/
theorem Office.Keeps.request (h : s.Keeps mul source past entered) {req : EngineRequest}
    (hfair : s.Fair mul (.request req)) (hstep : s.step fuel mul (.request req) = some s') :
    s'.Keeps mul source (past ++ [req]) entered := by
  rcases Option.map_eq_some_iff.mp hstep with ⟨floor, hfloor, rfl⟩
  rcases Option.map_eq_some_iff.mp hfloor with ⟨⟨result, engine⟩, hhandle, rfl⟩
  have hother := fresh_of_isPlacement hfair past
  refine h.served hother.1 hother.2 hhandle (h.fits.request hfair hhandle) ?_ ?_
  · exact fun w hw => .inl hw
  · intro c hc
    rcases List.mem_map.mp hc with ⟨c₀, hc₀, rfl⟩
    exact .inl ⟨c₀, hc₀, rfl⟩

/-- A clearing cancels the orders of its next user. -/
theorem Office.Keeps.cancelAll (h : s.Keeps mul source past entered) {requestId : Uuid} {i : ℕ}
    (hstep : s.step fuel mul (.cancelAll requestId i) = some s') :
    ∃ past', s'.Keeps mul source past' entered := by
  unfold Office.step at hstep
  dsimp only at hstep
  split at hstep
  · next symbol userId users canceled marked halted hc =>
    have hmem := List.mem_of_getElem? hc
    rcases Option.map_eq_some_iff.mp hstep with ⟨⟨result, engine⟩, hhandle, rfl⟩
    have hother := @fresh_of_isPlacement (.cancelAll requestId userId symbol) rfl past
    refine ⟨past ++ [.cancelAll requestId userId symbol],
      h.served hother.1 hother.2 hhandle (h.fits.request rfl hhandle) (fun w hw => .inl hw) ?_⟩
    intro c hclearing
    dsimp only at hclearing
    split at hclearing
    · -- the engine acknowledged: what it cancelled has departed
      next orderIds hids =>
      rcases canceledIds_eq_some hids with ⟨bundle, _, _, rfl, hack⟩
      rcases List.mem_or_eq_of_mem_set hclearing with hold | rfl
      · exact .inl ⟨c, hold, rfl⟩
      · refine .inr ⟨?_, (h.covers _ hmem).cleared h.tended hother.1 hother.2 hhandle⟩
        intro x hx
        rcases List.mem_append.mp hx with hbefore | hnow
        · exact (h.canceled _ hmem x hbefore).step h.tended hother.1 hother.2 hhandle
        · exact h.tended.departed_of_cancelAll (Option.some.inj hhandle) hack hnow
    · -- any other answer ends the clearing
      exact .inl ⟨c, List.mem_of_mem_eraseIdx hclearing, rfl⟩
  · cases hstep

/-- So does an order that is inserted. -/
theorem Office.Keeps.forward (h : s.Keeps mul source past entered) {orderId userId : Uuid}
    {input : PlaceOrderInput} (hfair : s.Fair mul (.forward orderId userId input))
    (hstep : s.step fuel mul (.forward orderId userId input) = some s') :
    ∃ entered', s'.Keeps mul source past entered' := by
  unfold Office.step at hstep
  rcases Option.map_eq_some_iff.mp hstep with ⟨floor, hfloor, rfl⟩
  unfold Floor.step at hfloor
  dsimp only at hfloor
  split at hfloor
  · cases hfloor
  · next quantity hquantity =>
    rcases Option.map_eq_some_iff.mp hfloor with ⟨desk, hdesk, rfl⟩
    have hfits := h.fits.forward hquantity hfair hdesk
    rcases Option.map_eq_some_iff.mp hdesk with ⟨db, hforward, rfl⟩
    refine ⟨⟨orderId, userId, input, quantity⟩ :: entered, ?_⟩
    exact h.desk (by rfl) hfits (h.rows.forward hforward) (List.Subset.refl _) fun c hc => .inl hc

/-- So does an event that is settled. -/
theorem Office.Keeps.settle (h : s.Keeps mul source past entered)
    (hsource : Function.Injective source.get) (hfair : s.Fair mul .settle)
    (hstep : s.step fuel mul .settle = some s') : s'.Keeps mul source past entered := by
  unfold Office.step at hstep
  rcases Option.map_eq_some_iff.mp hstep with ⟨floor, hfloor, rfl⟩
  unfold Floor.step at hfloor
  dsimp only at hfloor
  split at hfloor
  · cases hfloor
  · next e he =>
    rcases Option.map_eq_some_iff.mp hfloor with ⟨desk, hdesk, rfl⟩
    rcases h.fits.settle hsource he hfair with ⟨db', hsettles, hfits⟩
    rcases Option.map_eq_some_iff.mp hdesk with ⟨db'', hstep', rfl⟩
    cases hsettles.unique (step_eq_some.mp hstep')
    exact h.desk (by rfl) hfits (h.rows.settle h.fits h.tended he hsettles hfits)
      (List.Subset.refl _) fun c hc => .inl hc

/-- A clearing begins: every live order of a halted market has an open row, which names its
owner. -/
theorem Office.Keeps.readUsers (h : s.Keeps mul source past entered) (symbol : String) :
    Clearing.Covers ⟨some symbol, usersWithOpenOrders symbol s.floor.desk.db, [], false,
      symbol ∈ s.floor.engine.haltedSymbols⟩ s.floor.engine := by
  refine ⟨fun hhalted => ⟨symbol, rfl, of_decide_eq_true hhalted, ?_⟩⟩
  intro o ho
  rcases h.rows.open_row h.fits ho with ⟨row, hrow, huser, hmarket, hopen⟩
  exact huser ▸ mem_usersWithOpenOrders hrow hmarket hopen

/-- So does every fair step. -/
theorem Office.Keeps.step (h : s.Keeps mul source past entered)
    (hsource : Function.Injective source.get) {op : OfficeOp} (hfair : s.Fair mul op)
    (hstep : s.step fuel mul op = some s') :
    ∃ past' entered', s'.Keeps mul source past' entered' := by
  cases op with
  | forward orderId userId input => exact ⟨past, h.forward hfair hstep⟩
  | place requestId entry => exact ⟨_, entered, h.place hstep⟩
  | cancel requestId orderId symbol => exact ⟨_, entered, h.cancel hstep⟩
  | request req => exact ⟨_, entered, h.request hfair hstep⟩
  | settle => exact ⟨past, entered, h.settle hsource hfair hstep⟩
  | cancelAll requestId i =>
    rcases h.cancelAll hstep with ⟨past', hkeeps⟩
    exact ⟨past', entered, hkeeps⟩
  | refund entry =>
    unfold Office.step at hstep
    rcases Option.map_eq_some_iff.mp hstep with ⟨floor, hfloor, rfl⟩
    unfold Floor.step at hfloor
    rcases Option.map_eq_some_iff.mp hfloor with ⟨desk, hdesk, rfl⟩
    have hfits := h.fits.refund hfair hdesk
    cases hdesk
    exact ⟨past, entered, h.desk (by rfl) hfits (h.rows.refund entry.userId entry.input)
      (List.Subset.refl _) fun c hc => .inl hc⟩
  -- the row is only read
  | findOrder orderId userId =>
    unfold Office.step at hstep
    dsimp only at hstep
    have hkept : ∀ cancels, Office.Keeps mul source past entered
        ⟨s.floor, cancels, s.writes, s.clearings⟩ := fun cancels =>
      h.desk (by rfl) h.fits h.rows (List.Subset.refl _) fun c hc => .inl hc
    split at hstep
    · cases hstep
      exact ⟨past, entered, h⟩
    · split_ifs at hstep
      · cases hstep
        exact ⟨past, entered, hkept _⟩
      · cases hstep
        exact ⟨past, entered, h⟩
  -- a write that was due, now or late
  | updateStatus orderId status =>
    unfold Office.step at hstep
    dsimp only at hstep
    split_ifs at hstep with hwrite
    rcases Option.map_eq_some_iff.mp hstep with ⟨floor, hfloor, rfl⟩
    unfold Floor.step at hfloor
    rcases Option.map_eq_some_iff.mp hfloor with ⟨desk, hdesk, rfl⟩
    have htrades := Desk.step_trades (by rintro e ⟨⟩) hdesk
    cases hdesk
    exact ⟨past, entered, h.desk (by rfl)
      (h.fits.writes (h.fits.desk.updateStatus orderId status) htrades)
      (h.rows.updateStatus (h.writes _ hwrite)) List.erase_subset fun c hc => .inl hc⟩
  | cancelAllInMarket symbol =>
    unfold Office.step at hstep
    dsimp only at hstep
    split_ifs at hstep
    cases hstep
    refine ⟨past, entered, h.desk (by rfl) h.fits h.rows (List.Subset.refl _) ?_⟩
    intro c hc
    rcases List.mem_append.mp hc with hold | hnew
    · exact .inl hold
    · rw [List.mem_singleton.mp hnew]
      exact .inr ⟨by rintro x ⟨⟩, h.readUsers symbol⟩
  | freezeUser userId =>
    cases hstep
    refine ⟨past, entered, h.desk (by rfl) h.fits h.rows (List.Subset.refl _) ?_⟩
    intro c hc
    rcases List.mem_append.mp hc with hold | hnew
    · exact .inl hold
    · rw [List.mem_singleton.mp hnew]
      exact .inr ⟨by rintro x ⟨⟩, ⟨by rintro ⟨⟩⟩⟩
  -- the orders that the engine reported as cancelled
  | markCanceled i =>
    unfold Office.step at hstep
    dsimp only at hstep
    split at hstep
    · next symbol canceled halted hc =>
      have hmem := List.mem_of_getElem? hc
      rcases Option.map_eq_some_iff.mp hstep with ⟨floor, hfloor, rfl⟩
      unfold Floor.step at hfloor
      rcases Option.map_eq_some_iff.mp hfloor with ⟨desk, hdesk, rfl⟩
      have htrades := Desk.step_trades (by rintro e ⟨⟩) hdesk
      have hgone := h.canceled _ hmem
      have hcovers := h.covers _ hmem
      cases hdesk
      refine ⟨past, entered, h.desk (by rfl)
        (h.fits.writes (h.fits.desk.markOrdersCanceled canceled) htrades)
        (h.rows.markOrdersCanceled hgone) (List.Subset.refl _) ?_⟩
      intro c hclearing
      rcases List.mem_or_eq_of_mem_set hclearing with hold | rfl
      · exact .inl hold
      · exact .inr ⟨hgone, ⟨hcovers.halted⟩⟩
    · cases hstep

end Keeps

/-! ## Every run -/

section Runs

variable {fuel : ℕ} {mul : Decimal → Decimal → Option Decimal} {idSource : Stream' Uuid}
  {clock : Stream' String} {disk : Stream' Bool} {snapshotDepth : ℕ} {engine : EngineState}
  {db : Tables} {ops : List OfficeOp} {s : Office}

/-- So does every fair run. -/
theorem keeps_of_run
    (hopen : EngineState.open fuel [] [] idSource clock disk snapshotDepth = some engine)
    (hdisk : ∀ n, disk.get n = true) (hids : Function.Injective idSource.get)
    (hstart : Covered ⟨db, []⟩) (htrades : db.trades = []) (horders : db.orders = OrdMap.empty)
    (hfair : Along (Office.step fuel mul) (Office.Fair mul) (Office.start (Floor.start engine db))
      ops)
    (hrun : run (Office.step fuel mul) (Office.start (Floor.start engine db)) ops = some s) :
    ∃ past entered, s.Keeps mul idSource past entered := by
  refine Machine.run_invariant (fun s => ∃ past entered, s.Keeps mul idSource past entered)
    (Office.Fair mul) ?_ ⟨[], [], ?_⟩ hfair hrun
  · rintro s op s' ⟨past, entered, h⟩ hfair hstep
    exact h.step hids hfair hstep
  · constructor
    · exact .start hopen hdisk hstart htrades
    · exact Server.EngineState.tended_of_empty (EngineState.exchange_open hopen)
    · intro x row hrow
      change db.orders.find? x = some row at hrow
      rw [horders] at hrow
      cases hrow
    · rintro w ⟨⟩
    · rintro c ⟨⟩
    · rintro c ⟨⟩

end Runs

/-! ## A run of the office -/

/-- A test of `Fair` for exact products. -/
def checkOffice (s : Office) : OfficeOp → Bool
  | .forward orderId userId input => checkFair s.floor (.forward orderId userId input)
  | .refund entry => checkFair s.floor (.refund entry)
  | .request req => checkFair s.floor (.request req)
  | .settle => checkFair s.floor .settle
  | _ => true

theorem fair_of_checkOffice {s : Office} {op : OfficeOp} (h : checkOffice s op = true) :
    s.Fair exactMul op := by
  cases op with
  | forward orderId userId input =>
    have hcheck : checkFair s.floor (.forward orderId userId input) = true := h
    exact fair_of_checkFair hcheck
  | refund entry =>
    have hcheck : checkFair s.floor (.refund entry) = true := h
    exact fair_of_checkFair hcheck
  | request req =>
    have hcheck : checkFair s.floor (.request req) = true := h
    exact fair_of_checkFair hcheck
  | settle =>
    have hcheck : checkFair s.floor .settle = true := h
    exact fair_of_checkFair hcheck
  | place | findOrder | cancel | updateStatus | cancelAllInMarket | freezeUser | cancelAll
  | markCanceled => exact trivial

/-- The buy order meets the sell order, and its status is written. -/
def meetingWritten : List OfficeOp :=
  [ .forward 1 10 sellTen, .forward 2 20 buyTwo, .place 1 ⟨1, 10, sellTen, 10 * 10 ^ 28⟩,
    .place 2 ⟨2, 20, buyTwo, 2 * 10 ^ 28⟩, .updateStatus 2 .filled ]

/-- Then the market is halted and cleared. The status of the sell order is written late. -/
def haltedAndCleared : List OfficeOp :=
  meetingWritten ++ [ .request (.haltMarket 3 "BTCUSDT"), .cancelAllInMarket "BTCUSDT", .settle,
    .cancelAll 4 0, .markCanceled 0, .updateStatus 1 .new ]

theorem haltedAndCleared_fair : Along (Office.step 10 exactMul) (Office.Fair exactMul)
    (Office.start (Floor.start Server.emptyEngine quietDesk.db)) haltedAndCleared := by
  refine Machine.along_of_check (fun s op h => fair_of_checkOffice h) ?_
  decide +kernel

theorem meetingWritten_fair : Along (Office.step 10 exactMul) (Office.Fair exactMul)
    (Office.start (Floor.start Server.emptyEngine quietDesk.db)) meetingWritten := by
  refine Machine.along_of_check (fun s op h => fair_of_checkOffice h) ?_
  decide +kernel

end CryptoCex.Settlement
