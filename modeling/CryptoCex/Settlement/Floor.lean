import CryptoCex.Api.Freeze
import CryptoCex.Server.Reject
import CryptoCex.Server.Resources
import CryptoCex.Settlement.Copies

/-!
# The trading floor

The API, the engine and settlement as one machine: the API locks funds for an order, inserts it
and sends it to the engine; the engine matches it against its books and logs what happened; and
settlement works through the log, event by event, at its own pace. The steps come in any order.

An order is sent as it was inserted, once. What is proved of the machine is proved of the runs that
are `Fair`: there are no stop orders, every buy order has a price, and what it costs is not rounded;
the API is the only client that places orders, and it refunds only the orders that the engine
refused. The engine starts with empty logs, and its disk takes every append.

No order of such steps stops settlement: the next event of the log can always be settled
(`settlement_keeps_up`). And in every state the locks cover what the live orders of all books would
cost their owners, however far settlement is behind (`books_are_funded`).
-/

namespace CryptoCex.Settlement

open Api (PlaceOrderInput engineOrder pendingRow validateInput)
open CryptoCex.Core (Decimal Uuid)
open Db (OrderRow OrderStatus Tables value)
open Machine (run Along)
open Proto (EngineOrder EngineRequest SequencedEngineEvent)
open Server (Backs EngineState ResponseBundle ServerError Tape isPlacement isRejection toCoreOrder
  toCoreSide u64Max)
open Server.EngineState (placedIds placements)

/-! ## The machine -/

/-- An order that `place_order` inserted, with its effective quantity. -/
structure Entry where
  orderId : Uuid
  userId : Uuid
  input : PlaceOrderInput
  quantity : Decimal
deriving DecidableEq

/-- The order that is sent to the engine. -/
def Entry.order (entry : Entry) : EngineOrder :=
  engineOrder entry.orderId entry.userId entry.input entry.quantity

structure Floor where
  desk : Desk
  engine : EngineState
  /-- Inserted orders that are not sent yet. -/
  waiting : List Entry
  /-- Orders that the engine refused and that are not refunded yet. -/
  refused : List Entry
  /-- How many events of the log are settled. -/
  settled : ℕ

inductive FloorOp where
  /-- The API locks the funds of an order and inserts it. -/
  | forward (orderId userId : Uuid) (input : PlaceOrderInput)
  /-- The engine takes up the order. -/
  | send (requestId : Uuid) (entry : Entry)
  /-- The engine handles a request of another client, or another request of the API. -/
  | request (req : EngineRequest)
  /-- The API gives the funds of an order back. -/
  | refund (entry : Entry)
  /-- The next event of the log is settled. -/
  | settle
  | updateStatus (orderId : Uuid) (status : OrderStatus)
  | markCanceled (orderIds : List Uuid)

/-- The engine acknowledged the order. -/
def acknowledged : Except ServerError ResponseBundle → Bool
  | .ok bundle => !isRejection bundle.response
  | .error _ => false

namespace Floor

def step (fuel : ℕ) (mul : Decimal → Decimal → Option Decimal) (s : Floor) :
    FloorOp → Option Floor
  | .forward orderId userId input =>
    match validateInput input with
    | .error _ => none
    | .ok quantity =>
      (s.desk.step mul (.forward orderId userId input)).map fun desk =>
        { s with desk := desk, waiting := ⟨orderId, userId, input, quantity⟩ :: s.waiting }
  | .send requestId entry =>
    if entry ∈ s.waiting then
      (s.engine.handleRequest fuel (.place requestId entry.order)).map fun answer =>
        { s with
          engine := answer.2
          waiting := s.waiting.erase entry
          refused := if acknowledged answer.1 then s.refused else entry :: s.refused }
    else none
  | .request req =>
    (s.engine.handleRequest fuel req).map fun answer => { s with engine := answer.2 }
  | .refund entry =>
    (s.desk.step mul (.refund entry.orderId entry.userId entry.input)).map fun desk =>
      { s with desk := desk, refused := s.refused.erase entry }
  | .settle =>
    match s.engine.eventLog.entries[s.settled]? with
    | none => none
    | some e => (s.desk.step mul (.settle e)).map fun desk =>
        { s with desk := desk, settled := s.settled + 1 }
  | .updateStatus orderId status =>
    (s.desk.step mul (.updateStatus orderId status)).map fun desk => { s with desk := desk }
  | .markCanceled orderIds =>
    (s.desk.step mul (.markCanceled orderIds)).map fun desk => { s with desk := desk }

/-- A floor without orders. -/
def start (engine : EngineState) (db : Tables) : Floor where
  desk := ⟨db, []⟩
  engine := engine
  waiting := []
  refused := []
  settled := 0

/-- What is assumed of a step. An order is one the API locks the whole cost for: no stop order, a
buy order has a price, and the product is not rounded; and its owner has balances in both assets of
the market. Nobody else places orders at the engine, as the market maker does. The API refunds an
order only after the engine refused it, not when it has waited too long for the answer. The log
has numbers left. -/
def Fair (mul : Decimal → Decimal → Option Decimal) (s : Floor) : FloorOp → Prop
  | .forward _ userId input => Unrounded mul input ∧ isStop input.orderType = false ∧
      (input.side = .buy → input.price ≠ none) ∧
      ∀ market, s.desk.db.markets input.symbol = some market →
        (s.desk.db.balances (userId, market.baseAssetId)).isSome ∧
        (s.desk.db.balances (userId, market.quoteAssetId)).isSome
  | .request req => isPlacement req = false
  | .refund entry => entry ∈ s.refused
  | .settle => s.engine.eventLog.sequence < u64Max
  | _ => True

/-- The log of the engine, as it can be read by others. -/
def log (s : Floor) : List Proto.EngineEvent := s.engine.eventLog.entries.map (·.event)

/-- The tape as far as settlement has read it. -/
def read (s : Floor) : Tape := Tape.blank.applyAll (s.log.take s.settled)

end Floor

/-! ## The desk and the orders that were entered -/

/-- The order was checked when it was inserted, and its row is there. -/
structure Prepared (mul : Decimal → Decimal → Option Decimal) (db : Tables) (entry : Entry) :
    Prop where
  unrounded : Unrounded mul entry.input
  validated : validateInput entry.input = .ok entry.quantity
  priced : entry.input.side = .buy → entry.input.price ≠ none
  display : ∀ d, entry.input.displayQuantity = some d → 0 < d
  market : (db.markets entry.input.symbol).isSome
  insertable : ∃ row, Tables.checkedRow some (acceptedRow entry.order) .new = .ok row
  row : (db.orders.find? entry.orderId).isSome

/-- The entered orders have rows, which show them as they stand on the tape; those of which
nothing is on the tape yet, and of which something may come, are untouched. -/
structure Enlists (mul : Decimal → Decimal → Option Decimal) (t : Tape) (entered : List Entry)
    (Pending : Entry → Prop) (s : Desk) : Prop where
  covered : Covered s
  copies : Copies t s
  prepared : ∀ entry ∈ entered, Prepared mul s.db entry
  pending : ∀ entry ∈ entered, Pending entry → t.standings entry.orderId = none →
    ∃ row, s.openOrders.find? entry.orderId = some row ∧
      Untouched row entry.userId entry.input entry.quantity
  closed : ∀ x ∈ s.closed, (s.db.orders.find? x).isSome

variable {mul : Decimal → Decimal → Option Decimal} {t : Tape} {entered : List Entry}
  {Pending Pending' : Entry → Prop} {s s' : Desk} {entry : Entry}

theorem Prepared.next {db db' : Tables} (h : Prepared mul db entry)
    (hmarkets : db'.markets = db.markets)
    (hrows : ∀ x, (db.orders.find? x).isSome → (db'.orders.find? x).isSome) :
    Prepared mul db' entry :=
  { h with
    market := hmarkets ▸ h.market
    row := hrows _ h.row }

/-- An untouched row is as the engine accepts the order. -/
theorem Untouched.rowFor {row : OrderRow}
    (h : Untouched row entry.userId entry.input entry.quantity) :
    RowFor (toCoreOrder entry.order) row ∧ remaining row = value entry.order.quantity := by
  refine ⟨⟨h.userId, h.market, ?_, h.price⟩, ?_⟩
  · rw [h.side]
    rfl
  · rw [remaining, h.quantity, h.filledQuantity]
    exact sub_zero _

theorem Enlists.mono (h : Enlists mul t entered Pending s)
    (himp : ∀ entry ∈ entered, Pending' entry → Pending entry) :
    Enlists mul t entered Pending' s :=
  { h with pending := fun entry hentry hpending =>
      h.pending entry hentry (himp entry hentry hpending) }

/-- The columns that settlement would insert pass their checks if those of the API do. -/
theorem acceptedRow_checks (entry : Entry) {row : OrderRow}
    (h : Tables.checkedRow some (pendingRow entry.orderId entry.userId entry.input entry.quantity)
      .pending = .ok row) :
    (∃ row', Tables.checkedRow some (acceptedRow entry.order) .new = .ok row') ∧
      ∀ d, entry.input.displayQuantity = some d → 0 < d := by
  unfold Tables.checkedRow at h
  rcases Except.bind_eq_ok.mp h with ⟨price, hprice, h⟩
  rcases Except.bind_eq_ok.mp h with ⟨stop, hstop, h⟩
  rcases Except.bind_eq_ok.mp h with ⟨quantity, hquantity, h⟩
  rcases Except.bind_eq_ok.mp h with ⟨quote, hquote, h⟩
  rcases Except.bind_eq_ok.mp h with ⟨display, hdisplay, h⟩
  constructor
  · -- the same columns, less the client order id and the quote quantity
    have hprice' : Tables.storePositive some (acceptedRow entry.order).price = .ok price := hprice
    have hstop' : Tables.storePositive some (acceptedRow entry.order).stopPrice = .ok stop := hstop
    have hquantity' : Tables.storePositive some (acceptedRow entry.order).quantity =
        .ok quantity := hquantity
    have hquote' : Tables.storePositive some (acceptedRow entry.order).quoteQuantity = .ok none :=
      rfl
    have hdisplay' : Tables.storePositive some (acceptedRow entry.order).displayQuantity =
        .ok display := hdisplay
    have hsome : ¬ ((acceptedRow entry.order).quantity = none ∧
        (acceptedRow entry.order).quoteQuantity = none) := by
      rintro ⟨hnone, _⟩
      cases hnone
    unfold Tables.checkedRow
    simp only [hprice', hstop', hquantity', hquote', hdisplay', if_neg hsome, bind, Except.bind]
    exact ⟨_, rfl⟩
  · intro d hd
    have hpos := (storePositive_exact hdisplay).2 (value d) (by simp [pendingRow, hd])
    exact value_pos.mp hpos

/-- Another order has the row it had. -/
theorem find?_openOrders_of_ne {db : Tables} {closed : List Uuid} {x : Uuid}
    (horders : db.orders.find? x = s.db.orders.find? x) (hclosed : x ∈ closed ↔ x ∈ s.closed) :
    (Desk.openOrders ⟨db, closed⟩).find? x = s.openOrders.find? x := by
  unfold Desk.openOrders
  rw [OrdMap.find?_filterKeys, OrdMap.find?_filterKeys]
  simp only [horders, hclosed]

/-- The API enters an order. -/
theorem Enlists.forward (h : Enlists mul t entered Pending s) {orderId userId : Uuid}
    {input : PlaceOrderInput} {quantity : Decimal} {db' : Tables}
    (hquantity : validateInput input = .ok quantity) (hmul : Unrounded mul input)
    (hstop : isStop input.orderType = false) (hpriced : input.side = .buy → input.price ≠ none)
    (hbalances : ∀ market, s.db.markets input.symbol = some market →
      (s.db.balances (userId, market.baseAssetId)).isSome ∧
      (s.db.balances (userId, market.quoteAssetId)).isSome)
    (hforward : Settlement.forward mul orderId userId input s.db = some db') :
    s.db.orders.find? orderId = none ∧
      Enlists mul t (⟨orderId, userId, input, quantity⟩ :: entered)
        (fun entry => entry = ⟨orderId, userId, input, quantity⟩ ∨ Pending entry)
        { s with db := db' } := by
  have hpermitted : Permitted mul s (.forward orderId userId input) := by
    refine ⟨hmul, fun _ market _ hmarket => ?_⟩
    exact ⟨(hbalances market hmarket).1, (hbalances market hmarket).2, by simp [hstop]⟩
  have hcovered := h.covered.forwarded hpermitted hforward
  rcases forward_eq_some hforward with ⟨quantity', market, lock, mid, row, hquantity', hmarket, _,
    htake, hchecks, hnew, hafter⟩
  rw [hquantity] at hquantity'
  cases hquantity'
  have hkeeps := (takeLock_moves htake).keeps
  rw [hkeeps.orders] at hnew
  have horders : db'.orders = s.db.orders.insert orderId row := by
    rw [hafter, ← hkeeps.orders]
  have hmarkets : db'.markets = s.db.markets := by
    rw [hafter, ← hkeeps.markets]
  -- the new id is no old one, so that no old row changes
  have hother : ∀ x, (s.db.orders.find? x).isSome →
      db'.orders.find? x = s.db.orders.find? x := by
    intro x hx
    rw [horders, OrdMap.find?_insert, if_neg]
    rintro rfl
    rw [hnew] at hx
    cases hx
  have hrows : ∀ x, (s.db.orders.find? x).isSome → (db'.orders.find? x).isSome := fun x hx =>
    hother x hx ▸ hx
  rcases acceptedRow_checks ⟨orderId, userId, input, quantity⟩ hchecks with
    ⟨hinsertable, hdisplay⟩
  -- the copies, what was entered, what is pending, what is closed
  refine ⟨hnew, hcovered, ?_, ?_, ?_, ?_⟩
  · intro x standing hstanding
    rcases h.copies x standing hstanding with ⟨⟨row', hrow', hshows⟩, hclosed⟩
    exact ⟨⟨row', (hother x (by rw [hrow']; rfl)).trans hrow', hshows⟩, hclosed⟩
  · intro entry hentry
    rcases List.mem_cons.mp hentry with rfl | hentry
    · refine ⟨hmul, hquantity, hpriced, hdisplay, ?_, hinsertable, ?_⟩
      · rw [hmarkets, hmarket]
        rfl
      · rw [horders, OrdMap.find?_insert_self]
        rfl
    · exact (h.prepared entry hentry).next hmarkets hrows
  · intro entry hentry hpending hnone
    rcases List.mem_cons.mp hentry with rfl | hentry
    · refine ⟨row, Desk.find?_openOrders.mpr ⟨?_, ?_⟩, ?_⟩
      · intro hclosed
        have hsome := h.closed orderId hclosed
        rw [hnew] at hsome
        cases hsome
      · rw [horders, OrdMap.find?_insert_self]
      · rw [(checkedRow_exact hchecks).1]
        exact ⟨rfl, rfl, rfl, rfl, rfl, rfl⟩
    · have hsome := (h.prepared entry hentry).row
      have hne : entry ≠ ⟨orderId, userId, input, quantity⟩ := by
        rintro rfl
        rw [hnew] at hsome
        cases hsome
      rcases h.pending entry hentry (hpending.resolve_left hne) hnone with ⟨row', hrow', huntouched⟩
      refine ⟨row', ?_, huntouched⟩
      rw [find?_openOrders_of_ne (hother _ hsome) Iff.rfl]
      exact hrow'
  · intro x hx
    exact hrows x (h.closed x hx)

/-- The API refunds an order of which nothing is on the tape; from there on nothing may come. -/
theorem Enlists.refund (h : Enlists mul t entered Pending s)
    (hids : (entered.map (·.orderId)).Nodup) (hentry : entry ∈ entered) (hpending : Pending entry)
    (hnone : t.standings entry.orderId = none)
    (himp : ∀ entry' ∈ entered, Pending' entry' → Pending entry' ∧ entry' ≠ entry) :
    Enlists mul t entered Pending'
      ⟨Settlement.refund mul entry.userId entry.input s.db, entry.orderId :: s.closed⟩ := by
  have hprepared := h.prepared entry hentry
  have hpermitted : Permitted mul s (.refund entry.orderId entry.userId entry.input) := by
    refine ⟨hprepared.unrounded, ?_⟩
    intro quantity market hquantity _
    rw [hprepared.validated] at hquantity
    cases hquantity
    exact ⟨h.pending entry hentry hpending hnone, fun hbuy hprice =>
      (hprepared.priced hbuy hprice).elim⟩
  have hcovered := h.covered.refunded hpermitted
  -- a refund writes to a balance only
  have hsame : (Settlement.refund mul entry.userId entry.input s.db).orders = s.db.orders ∧
      (Settlement.refund mul entry.userId entry.input s.db).markets = s.db.markets := by
    rcases refund_cases mul entry.userId entry.input s.db with hidle | ⟨_, _, _, _, _, _, hmoves⟩
    · rw [hidle]
      exact ⟨rfl, rfl⟩
    · exact ⟨hmoves.keeps.orders, hmoves.keeps.markets⟩
  refine ⟨hcovered, ?_, ?_, ?_, ?_⟩
  · intro x standing hstanding
    dsimp only
    rw [hsame.1]
    rcases h.copies x standing hstanding with ⟨hrow, hclosed⟩
    refine ⟨hrow, ?_⟩
    rw [List.mem_cons, or_iff_right, hclosed]
    rintro rfl
    rw [hnone] at hstanding
    cases hstanding
  · intro entry' hentry'
    refine (h.prepared entry' hentry').next hsame.2 fun x hx => ?_
    rw [hsame.1]
    exact hx
  · intro entry' hentry' hpending' hnone'
    rcases himp entry' hentry' hpending' with ⟨hold, hne⟩
    have hid : entry'.orderId ≠ entry.orderId := fun heq =>
      hne (List.inj_on_of_nodup_map hids hentry' hentry heq)
    rw [find?_openOrders_of_ne (s := s)]
    · exact h.pending entry' hentry' hold hnone'
    · rw [hsame.1]
    · rw [List.mem_cons, or_iff_right hid]
  · intro x hx
    dsimp only
    rw [hsame.1]
    rcases List.mem_cons.mp hx with rfl | hx
    · exact hprepared.row
    · exact h.closed x hx

/-- A status is written. -/
theorem Enlists.writes (h : Enlists mul t entered Pending s) {db' : Tables}
    (hcovered : Covered { s with db := db' }) (hmarkets : db'.markets = s.db.markets)
    (hrows : ∀ x, (∃ row status, s.db.orders.find? x = some row ∧
      db'.orders.find? x = some { row with status := status }) ∨
      db'.orders.find? x = s.db.orders.find? x) :
    Enlists mul t entered Pending { s with db := db' } := by
  have hkept : ∀ x row, s.db.orders.find? x = some row →
      ∃ status, db'.orders.find? x = some { row with status := status } := by
    intro x row hrow
    rcases hrows x with ⟨row', status, hrow', hafter⟩ | hsame
    · rw [hrow] at hrow'
      cases hrow'
      exact ⟨status, hafter⟩
    · exact ⟨row.status, hsame.trans hrow⟩
  have hsome : ∀ x, (s.db.orders.find? x).isSome → (db'.orders.find? x).isSome := by
    intro x hx
    rcases Option.isSome_iff_exists.mp hx with ⟨row, hrow⟩
    rcases hkept x row hrow with ⟨status, hafter⟩
    rw [hafter]
    rfl
  -- only the statuses of rows have changed, which no part looks at
  refine ⟨hcovered, ?_, ?_, ?_, ?_⟩
  · intro x standing hstanding
    rcases h.copies x standing hstanding with ⟨⟨row, hrow, hshows⟩, hclosed⟩
    rcases hkept x row hrow with ⟨status, hafter⟩
    exact ⟨⟨_, hafter, ⟨hshows.userId, hshows.market, hshows.side, hshows.price⟩, hshows.left⟩,
      hclosed⟩
  · exact fun entry hentry => (h.prepared entry hentry).next hmarkets hsome
  · intro entry hentry hpending hnone
    rcases h.pending entry hentry hpending hnone with ⟨row, hopen, huntouched⟩
    rcases Desk.find?_openOrders.mp hopen with ⟨hclosed, hrow⟩
    rcases hkept _ row hrow with ⟨status, hafter⟩
    exact ⟨_, Desk.find?_openOrders.mpr ⟨hclosed, hafter⟩, huntouched.userId, huntouched.market,
      huntouched.side, huntouched.price, huntouched.quantity, huntouched.filledQuantity⟩
  · exact fun x hx => hsome x (h.closed x hx)

/-- A status leaves the copies as they are. -/
theorem Enlists.updateStatus (h : Enlists mul t entered Pending s) (orderId : Uuid)
    (status : OrderStatus) :
    Enlists mul t entered Pending { s with db := s.db.updateStatus orderId status } := by
  have hcovered := h.covered.updateStatus orderId status
  unfold Tables.updateStatus at hcovered ⊢
  cases hfind : s.db.orders.find? orderId with
  | none => exact h
  | some row =>
    rw [hfind] at hcovered
    refine h.writes hcovered rfl ?_
    intro x
    rw [OrdMap.find?_insert]
    split_ifs with hx
    · subst hx
      exact Or.inl ⟨row, status, hfind, rfl⟩
    · exact Or.inr rfl

/-- So do many. -/
theorem Enlists.markOrdersCanceled (h : Enlists mul t entered Pending s) (orderIds : List Uuid) :
    Enlists mul t entered Pending { s with db := s.db.markOrdersCanceled orderIds } := by
  unfold Tables.markOrdersCanceled
  induction orderIds generalizing s with
  | nil => exact h
  | cons orderId orderIds ih =>
    rw [List.foldl_cons]
    unfold Tables.markOrderCanceled
    split
    · exact ih h
    · split_ifs
      · exact ih (h.updateStatus orderId .canceled)
      · exact ih h

/-- Settling an event that the tape allows leaves an order alone that is not on the tape. -/
theorem settle_unnamed {e : SequencedEngineEvent} {db' : Tables} {x : Uuid}
    (hallows : t.Allows e.event) (hnone : (t.apply e.event).standings x = none)
    (hrow : ∀ order, e.event = .orderAccepted order → (s.db.orders.find? order.id).isSome)
    (hsettles : Settles .exact e.seq s.db e.event db') :
    db'.orders.find? x = s.db.orders.find? x ∧
      (x ∈ closedAfter s.closed e.event ↔ x ∈ s.closed) := by
  rcases e with ⟨seq, event⟩
  -- an event names orders of the tape only
  have hne : Server.Tells event → ∀ y standing, t.standings y = some standing → x ≠ y := by
    rintro htells y standing hy rfl
    have hsome := Server.isSome_apply (t := t) htells (x := x)
    rw [hnone, hy] at hsome
    cases hsome
  cases hsettles with
  | accepted _ _ hnew =>
    have hsome := hrow _ rfl
    rw [hnew] at hsome
    cases hsome
  | @filled f a _ _ _ _ ha =>
    rcases hallows with ⟨⟨taker, maker, htaker, hmaker, _⟩, _⟩
    have htakerNe : x ≠ f.takerOrderId := hne trivial _ _ htaker.1
    have hmakerNe : x ≠ f.makerOrderId := hne trivial _ _ hmaker.1
    refine ⟨?_, Iff.rfl⟩
    rw [FillAmounts.orders, OrdMap.find?_insert, OrdMap.find?_insert, ha.taker_id, ha.maker_id,
      if_neg hmakerNe, if_neg htakerNe]
  | closed =>
    rcases hallows with ⟨standing, hopen, _⟩
    exact ⟨rfl, by rw [closedAfter, List.mem_cons, or_iff_right (hne trivial _ _ hopen.1)]⟩
  | canceled =>
    rcases hallows with ⟨standing, hopen, _⟩
    have hother := hne trivial _ _ hopen.1
    refine ⟨?_, by rw [closedAfter, List.mem_cons, or_iff_right hother]⟩
    dsimp only
    rw [OrdMap.find?_insert, if_neg hother]
  | known | traded | rested | delta | status => exact ⟨rfl, Iff.rfl⟩

/-- An event that the tape allows can be settled, and the rows follow the tape. -/
theorem Enlists.settle (h : Enlists mul t entered Pending s) {e : SequencedEngineEvent}
    (hallows : t.Allows e.event) (hpriced : Priced t) (hseq : 0 < e.seq)
    (hentered : ∀ order, e.event = .orderAccepted order →
      ∃ entry ∈ entered, Pending entry ∧ entry.order = order)
    (hseqs : ∀ trade ∈ s.db.trades, trade.engineSeq ≠ e.seq)
    (hids : ∀ f, e.event = .fill f → ∀ trade ∈ s.db.trades, trade.id ≠ f.tradeId) :
    ∃ db', Settles .exact e.seq s.db e.event db' ∧
      Enlists mul (t.apply e.event) entered Pending ⟨db', closedAfter s.closed e.event⟩ := by
  have hrow : ∀ order, e.event = .orderAccepted order → (s.db.orders.find? order.id).isSome := by
    intro order horder
    rcases hentered order horder with ⟨entry, hentry, _, rfl⟩
    exact (h.prepared entry hentry).row
  have hpromised := h.copies.promised h.covered hallows hseq hrow hids
  have hpaid : ∀ f, e.event = .fill f → PaidFor s f := by
    intro f hf
    rw [hf] at hallows
    exact h.copies.paidFor hpriced hallows
  have hcommits : ∃ db', Settles .exact e.seq s.db e.event db' := by
    rcases e with ⟨seq, event⟩
    cases event with
    | orderAccepted order =>
      rcases hentered order rfl with ⟨entry, hentry, _, rfl⟩
      have hprepared := h.prepared entry hentry
      rcases Option.isSome_iff_exists.mp hprepared.market with ⟨market, hmarket⟩
      rcases Option.isSome_iff_exists.mp hprepared.row with ⟨row, hfound⟩
      rcases hprepared.insertable with ⟨new, hchecks⟩
      exact ⟨s.db, .known hmarket hchecks hfound⟩
    | fill f =>
      rcases h.covered.fill_commits hpromised (hpaid f rfl) with hidle |
        ⟨a, _, _, _, _, _, _, _, hfilled⟩
      · exact ⟨_, hidle⟩
      · exact ⟨_, hfilled⟩
    | orderCanceled orderId reason => exact h.covered.cancel_commits hpromised.1 hpromised.2
    | orderRested => exact ⟨s.db, .rested⟩
    | bookDelta => exact ⟨s.db, .delta⟩
    | marketStatus => exact ⟨s.db, .status⟩
  rcases hcommits with ⟨db', hsettles⟩
  have hstep : s.step mul (.settle e) = some ⟨db', closedAfter s.closed e.event⟩ := by
    simp only [Desk.step, step_eq_some.mpr hsettles, Option.map_some]
  have hkept : ∀ x, (s.db.orders.find? x).isSome → (db'.orders.find? x).isSome := by
    intro x hx
    rcases Option.isSome_iff_exists.mp hx with ⟨row, hfound⟩
    rcases hsettles.row hfound with ⟨row', hrow', _⟩
    rw [hrow']
    rfl
  have hpermitted : Permitted mul s (.settle e) := ⟨hpromised, hpaid⟩
  refine ⟨db', hsettles, h.covered.step hpermitted hstep, ?_, ?_, ?_, ?_⟩
  · refine h.copies.settle hallows ?_ hseqs hsettles
    intro order horder
    rcases hentered order horder with ⟨entry, hentry, hpending, rfl⟩
    have hnone : t.standings entry.orderId = none := by
      rw [horder] at hallows
      exact hallows.1
    rcases h.pending entry hentry hpending hnone with ⟨row, hopen, huntouched⟩
    exact ⟨row, hopen, huntouched.rowFor⟩
  · exact fun entry hentry => (h.prepared entry hentry).next hsettles.markets hkept
  · intro entry hentry hpending hnone
    rcases settle_unnamed hallows hnone hrow hsettles with ⟨hsame, hclosed⟩
    have hbefore : t.standings entry.orderId = none := by
      cases hstanding : t.standings entry.orderId with
      | none => rfl
      | some standing =>
        have hsome : ((t.applyAll [e.event]).standings entry.orderId).isSome :=
          Server.isSome_applyAll_of (by rw [hstanding]; rfl)
        change ((t.apply e.event).standings entry.orderId).isSome = true at hsome
        rw [hnone] at hsome
        cases hsome
    rcases h.pending entry hentry hpending hbefore with ⟨row, hopen, huntouched⟩
    exact ⟨row, (find?_openOrders_of_ne hsame hclosed).trans hopen, huntouched⟩
  · intro x hx
    by_cases hold : x ∈ s.closed
    · exact hkept x (h.closed x hold)
    · -- the order whose cancel is settled
      rcases e with ⟨seq, event⟩
      cases event with
      | orderCanceled orderId reason =>
        rcases List.mem_cons.mp hx with rfl | hx
        · rcases Option.isSome_iff_exists.mp hpromised.1 with ⟨row, hopen⟩
          exact hkept x (by rw [(Desk.find?_openOrders.mp hopen).2]; rfl)
        · exact (hold hx).elim
      | orderAccepted | orderRested | fill | bookDelta | marketStatus => exact (hold hx).elim

/-! ## The trades of the desk -/

theorem trades_updateStatus (orderId : Uuid) (status : OrderStatus) (db : Tables) :
    (db.updateStatus orderId status).trades = db.trades := by
  unfold Tables.updateStatus
  split <;> rfl

/-- Only settlement makes trades. -/
theorem Desk.step_trades {op : DeskOp} (hop : ∀ e, op ≠ .settle e)
    (hstep : s.step mul op = some s') : s'.db.trades = s.db.trades := by
  cases op with
  | forward orderId userId input =>
    rcases Option.map_eq_some_iff.mp hstep with ⟨db', hforward, rfl⟩
    rcases forward_eq_some hforward with ⟨_, _, _, mid, _, _, _, _, htake, _, _, hafter⟩
    rw [hafter]
    exact (takeLock_moves htake).keeps.trades
  | refund orderId userId input =>
    cases hstep
    rcases refund_cases mul userId input s.db with hidle | ⟨_, _, _, _, _, _, hmoves⟩
    · exact congrArg Tables.trades hidle
    · exact hmoves.keeps.trades
  | updateStatus orderId status =>
    cases hstep
    exact trades_updateStatus orderId status s.db
  -- one status after the other
  | markCanceled orderIds =>
    cases hstep
    dsimp only
    unfold Tables.markOrdersCanceled
    clear hop
    generalize s.db = db
    induction orderIds generalizing db with
    | nil => rfl
    | cons orderId orderIds ih =>
      rw [List.foldl_cons, ih]
      unfold Tables.markOrderCanceled
      split
      · rfl
      · split_ifs
        · exact trades_updateStatus orderId .canceled db
        · rfl
  | settle e => exact (hop e rfl).elim

/-- A trade that settling an event adds is that of its fill. -/
theorem trade_of_settles {e : SequencedEngineEvent} {db db' : Tables}
    (h : Settles .exact e.seq db e.event db') {trade : Db.TradeRow} (htrade : trade ∈ db'.trades) :
    trade ∈ db.trades ∨
      ∃ f, e.event = .fill f ∧ trade.engineSeq = e.seq ∧ trade.id = f.tradeId := by
  rcases e with ⟨seq, event⟩
  cases h with
  | accepted _ _ _ _ hledger =>
    rw [(keepsRest_of_applyLedgers hledger).trades] at htrade
    exact Or.inl htrade
  | @filled f _ _ _ _ _ _ _ _ _ _ hledger =>
    dsimp only at htrade
    rw [(keepsRest_of_applyLedgers hledger).trades] at htrade
    rcases List.mem_append.mp htrade with hold | hnew
    · exact Or.inl hold
    · rw [List.mem_singleton.mp hnew]
      exact Or.inr ⟨f, rfl, rfl, rfl⟩
  | canceled _ _ _ _ hledger =>
    dsimp only at htrade
    rw [(keepsRest_of_applyLedgers hledger).trades] at htrade
    exact Or.inl htrade
  | known | traded | closed | rested | delta | status => exact Or.inl htrade

/-! ## The invariant -/

/-- Something of the order may still come from the engine, or it waits for its refund. -/
def Floor.Expects (s : Floor) (entry : Entry) : Prop :=
  entry ∈ s.waiting ∨ entry ∈ s.refused ∨ .orderAccepted entry.order ∈ s.log

/-- The engine handled the requests `past`, and the API entered the orders `entered`. -/
structure Floor.Fits (mul : Decimal → Decimal → Option Decimal) (source : Stream' Uuid)
    (past : List EngineRequest) (entered : List Entry) (s : Floor) : Prop where
  desk : Enlists mul s.read entered s.Expects s.desk
  run : s.engine.RunTaped past
  unique : (placedIds past).Nodup
  drawn : s.engine.DrawnFrom source
  healthy : s.engine.Healthy
  numbered : Server.Numbered 0 s.engine.eventLog.entries s.engine.eventLog.sequence
  behind : s.settled ≤ s.log.length
  ids : (entered.map (·.orderId)).Nodup
  waiting : s.waiting.Nodup ∧ s.waiting ⊆ entered
  refused : s.refused.Nodup ∧ s.refused ⊆ entered
  unsent : ∀ entry ∈ s.waiting, entry.orderId ∉ placedIds past
  sent : ∀ entry ∈ s.refused, entry.orderId ∈ placedIds past
  placed : ∀ x ∈ placedIds past, x ∈ entered.map (·.orderId)
  logged : ∀ order, .orderAccepted order ∈ s.log → ∃ entry ∈ entered, entry.order = order ∧
    entry.orderId ∈ placedIds past ∧ entry ∉ s.refused
  trades : ∀ trade ∈ s.desk.db.trades, ∃ e ∈ s.engine.eventLog.entries.take s.settled,
    ∃ f, e.event = .fill f ∧ trade.engineSeq = e.seq ∧ trade.id = f.tradeId

section Fits

variable {fuel : ℕ} {source : Stream' Uuid} {past : List EngineRequest} {f f' : Floor}

theorem Healthy.recorded {st : EngineState} (h : st.Healthy) (req : EngineRequest) :
    st.Recorded req := ⟨fun _ _ _ _ => h 1, fun _ _ _ => h 0⟩

/-- What the engine does with a request, seen from its log. -/
structure Handles (source : Stream' Uuid) (past : List EngineRequest) (req : EngineRequest)
    (st st' : EngineState) : Prop where
  run : st'.RunTaped (past ++ [req])
  unique : (placedIds (past ++ [req])).Nodup
  drawn : st'.DrawnFrom source
  healthy : st'.Healthy
  numbered : Server.Numbered 0 st'.eventLog.entries st'.eventLog.sequence
  grown : ∃ new, st'.eventLog.entries = st.eventLog.entries ++ new ∧
    ∀ order, .orderAccepted order ∈ new.map (·.event) → order ∈ placements [req]

/-- A fresh request is handled with its events on the tape. -/
theorem Floor.Fits.handles (h : f.Fits mul source past entered) {req : EngineRequest}
    (hfresh : EngineState.Fresh past req)
    (hdisplay : ∀ order ∈ placements [req], ∀ d, order.displayQty = some d → 0 < d)
    {result : Except ServerError ResponseBundle} {engine : EngineState}
    (hhandle : f.engine.handleRequest fuel req = some (result, engine)) :
    Handles source past req f.engine engine := by
  have hgrows := h.run.grows h.unique hfresh (fun order horder _ => hdisplay order horder)
    (Healthy.recorded h.healthy req) hhandle
  have hdraws := EngineState.handleRequest_draws hhandle
  constructor
  · exact h.run.step hfresh hhandle hgrows
  · exact Server.EngineState.nodup_placedIds_append h.unique hfresh
  · exact h.drawn.step hdraws
  · exact h.healthy.draws hdraws
  · rcases EngineState.handleRequest_logs hhandle with ⟨new, hext, _⟩
    rw [hext.entries]
    exact h.numbered.append hext.numbered
  · rcases hgrows with ⟨new, hlog, _, _, hnames⟩
    exact ⟨new, hlog, hnames⟩

/-- The log grows by the events of the request, and accepts its order only. -/
theorem Handles.log {req : EngineRequest} {engine : EngineState}
    (h : Handles source past req f.engine engine) : ∃ new : List Proto.EngineEvent,
    engine.eventLog.entries.map (·.event) = f.log ++ new ∧
      ∀ order, .orderAccepted order ∈ new → order ∈ placements [req] := by
  rcases h.grown with ⟨new, hentries, hnames⟩
  refine ⟨new.map (·.event), ?_, hnames⟩
  rw [hentries, List.map_append]
  rfl

/-- The engine handled a request; the lists of the API follow. -/
theorem Floor.Fits.served (h : f.Fits mul source past entered) {req : EngineRequest}
    {engine : EngineState} (hhandles : Handles source past req f.engine engine)
    {waiting refused : List Entry} (hwaiting : waiting.Nodup ∧ waiting ⊆ f.waiting)
    (hrefused : refused.Nodup ∧ refused ⊆ entered)
    (hunsent : ∀ entry ∈ waiting, entry.orderId ∉ placedIds [req])
    (hsent : ∀ entry ∈ refused, entry.orderId ∈ placedIds (past ++ [req]))
    (hexpects : ∀ entry ∈ entered,
      Floor.Expects ⟨f.desk, engine, waiting, refused, f.settled⟩ entry → f.Expects entry)
    (hplaced : ∀ x ∈ placedIds [req], x ∈ entered.map (·.orderId))
    (hlogged : ∀ order, .orderAccepted order ∈ engine.eventLog.entries.map (·.event) →
      ∃ entry ∈ entered, entry.order = order ∧ entry.orderId ∈ placedIds (past ++ [req]) ∧
        entry ∉ refused) :
    Floor.Fits mul source (past ++ [req]) entered
      ⟨f.desk, engine, waiting, refused, f.settled⟩ := by
  rcases hhandles.log with ⟨new, hlog, _⟩
  have hids : placedIds (past ++ [req]) = placedIds past ++ placedIds [req] := by
    simp only [placedIds, EngineState.placements_append, List.map_append]
  have hread : Floor.read ⟨f.desk, engine, waiting, refused, f.settled⟩ = f.read := by
    unfold Floor.read Floor.log
    rw [hlog, List.take_append_of_le_length h.behind]
    rfl
  rcases hhandles.grown with ⟨new', hentries, _⟩
  have hbehind : f.settled ≤ f.engine.eventLog.entries.length := by
    have := h.behind
    rwa [Floor.log, List.length_map] at this
  -- the log has grown at its end, behind what was settled
  constructor
  · rw [hread]
    exact h.desk.mono hexpects
  · exact hhandles.run
  · exact hhandles.unique
  · exact hhandles.drawn
  · exact hhandles.healthy
  · exact hhandles.numbered
  · rw [Floor.log, hlog, List.length_append]
    exact h.behind.trans (Nat.le_add_right _ _)
  · exact h.ids
  · exact ⟨hwaiting.1, List.Subset.trans hwaiting.2 h.waiting.2⟩
  · exact hrefused
  · -- an order that waits was in no request, this one included
    intro entry hentry
    rw [hids, List.mem_append, not_or]
    exact ⟨h.unsent entry (hwaiting.2 hentry), hunsent entry hentry⟩
  · exact hsent
  · intro x hx
    rw [hids] at hx
    rcases List.mem_append.mp hx with hx | hx
    · exact h.placed x hx
    · exact hplaced x hx
  · exact hlogged
  · intro trade htrade
    dsimp only
    rw [hentries, List.take_append_of_le_length hbehind]
    exact h.trades trade htrade

/-- A request that places nothing keeps the floor together. -/
theorem Floor.Fits.request (h : f.Fits mul source past entered) {req : EngineRequest}
    (hother : isPlacement req = false) {result : Except ServerError ResponseBundle}
    {engine : EngineState} (hhandle : f.engine.handleRequest fuel req = some (result, engine)) :
    ({ f with engine := engine } : Floor).Fits mul source (past ++ [req]) entered := by
  have hnone : placements [req] = [] := by
    cases req with
    | place => cases hother
    | cancel | cancelAll | haltMarket | resumeMarket | snapshot | ping => rfl
  have hnoIds : placedIds [req] = [] := by rw [placedIds, hnone]; rfl
  have hids : placedIds (past ++ [req]) = placedIds past := by
    simp only [placedIds, EngineState.placements_append, hnone, List.append_nil]
  have hfresh : EngineState.Fresh past req := by
    rintro requestId order rfl
    cases hother
  have hhandles := h.handles hfresh (by rw [hnone]; rintro _ ⟨⟩) hhandle
  rcases hhandles.log with ⟨new, hlog, hnames⟩
  -- no order is accepted
  have hold : ∀ order, .orderAccepted order ∈ engine.eventLog.entries.map (·.event) →
      .orderAccepted order ∈ f.log := by
    intro order horder
    rw [hlog] at horder
    refine (List.mem_append.mp horder).resolve_right fun hnew => ?_
    have hmem := hnames order hnew
    rw [hnone] at hmem
    cases hmem
  refine h.served hhandles ⟨h.waiting.1, List.Subset.refl _⟩ h.refused ?_ ?_ ?_ ?_ ?_
  · rw [hnoIds]
    rintro entry _ ⟨⟩
  · rw [hids]
    exact h.sent
  · rintro entry _ (hwaits | hrefunds | haccepted)
    · exact Or.inl hwaits
    · exact Or.inr (Or.inl hrefunds)
    · exact Or.inr (Or.inr (hold _ haccepted))
  · rw [hnoIds]
    rintro x ⟨⟩
  · intro order horder
    rw [hids]
    exact h.logged order (hold order horder)

/-- The engine acknowledges the order or it refuses it, and then it logs nothing. -/
theorem refused_logs_nothing {requestId : Uuid} {order : EngineOrder} {st st' : EngineState}
    (hhealthy : st.Healthy) {result : Except ServerError ResponseBundle}
    (hhandle : st.handleRequest fuel (.place requestId order) = some (result, st'))
    (hrefused : acknowledged result = false) : st'.eventLog = st.eventLog := by
  rcases hhealthy.placeOrder hhandle with ⟨bundle, rfl⟩
  cases Server.placeOrder_placed hhandle with
  | refused _ _ hsame => rw [hsame]
  | rejected _ _ _ _ _ _ _ _ hlog => exact hlog
  | accepted _ _ _ _ hresponse =>
    rw [acknowledged, Bool.not_eq_false'] at hrefused
    cases hanswer : bundle.response with
    | reject rejected => exact (hresponse rejected hanswer).elim
    | ack | event | pong =>
      rw [hanswer] at hrefused
      cases hrefused

/-- Sending an order does. -/
theorem Floor.Fits.send (h : f.Fits mul source past entered) {requestId : Uuid}
    (hentry : entry ∈ f.waiting) {result : Except ServerError ResponseBundle}
    {engine : EngineState}
    (hhandle : f.engine.handleRequest fuel (.place requestId entry.order) =
      some (result, engine)) :
    ({ f with
      engine := engine
      waiting := f.waiting.erase entry
      refused := if acknowledged result then f.refused else entry :: f.refused } : Floor).Fits
        mul source (past ++ [.place requestId entry.order]) entered := by
  have hentered := h.waiting.2 hentry
  have hunsent := h.unsent entry hentry
  have hids : placedIds (past ++ [.place requestId entry.order]) =
      placedIds past ++ [entry.orderId] := by
    simp only [placedIds, EngineState.placements_append, List.map_append]
    rfl
  have hfresh : EngineState.Fresh past (.place requestId entry.order) := by
    rintro _ _ ⟨⟩
    exact hunsent
  have hhandles := h.handles hfresh (by
    intro order horder
    rw [List.mem_singleton.mp horder]
    exact (h.desk.prepared entry hentered).display) hhandle
  have hsame : ∀ entry' ∈ entered, entry'.orderId = entry.orderId → entry' = entry :=
    fun entry' hentry' heq => List.inj_on_of_nodup_map h.ids hentry' hentered heq
  have hnotRefused : entry ∉ f.refused := fun hmem => hunsent (h.sent entry hmem)
  rcases hhandles.log with ⟨new, hlog, hnames⟩
  -- the log accepts the order only if it was acknowledged, and then it is not refunded
  have hnew : ∀ order, .orderAccepted order ∈ engine.eventLog.entries.map (·.event) →
      .orderAccepted order ∈ f.log ∨ order = entry.order ∧ acknowledged result = true := by
    intro order horder
    cases hack : acknowledged result with
    | false =>
      rw [refused_logs_nothing h.healthy hhandle hack] at horder
      exact Or.inl horder
    | true =>
      rw [hlog] at horder
      rcases List.mem_append.mp horder with hold | hnew
      · exact Or.inl hold
      · exact Or.inr ⟨List.mem_singleton.mp (hnames order hnew), rfl⟩
  refine h.served hhandles ⟨h.waiting.1.erase entry, List.erase_subset⟩ ?_ ?_ ?_ ?_ ?_ ?_
  · split_ifs
    · exact h.refused
    · exact ⟨List.nodup_cons.mpr ⟨hnotRefused, h.refused.1⟩,
        List.cons_subset.mpr ⟨hentered, h.refused.2⟩⟩
  · intro entry' hentry' hmem
    have hne : entry' ≠ entry := fun heq =>
      h.waiting.1.not_mem_erase (heq ▸ hentry')
    exact hne (hsame entry' (h.waiting.2 (List.mem_of_mem_erase hentry'))
      (List.mem_singleton.mp hmem))
  · intro entry' hentry'
    rw [hids]
    split_ifs at hentry'
    · exact List.mem_append_left _ (h.sent entry' hentry')
    · rcases List.mem_cons.mp hentry' with rfl | hentry'
      · exact List.mem_append_right _ (List.mem_singleton_self _)
      · exact List.mem_append_left _ (h.sent entry' hentry')
  · rintro entry' hentry' (hwaits | hrefunds | haccepted)
    · exact Or.inl (List.mem_of_mem_erase hwaits)
    · change entry' ∈ (if acknowledged result then f.refused else entry :: f.refused) at hrefunds
      split_ifs at hrefunds
      · exact Or.inr (Or.inl hrefunds)
      · rcases List.mem_cons.mp hrefunds with rfl | hrefunds
        · exact Or.inl hentry
        · exact Or.inr (Or.inl hrefunds)
    · rcases hnew _ haccepted with hold | ⟨heq, _⟩
      · exact Or.inr (Or.inr hold)
      · rw [hsame entry' hentry' (congrArg EngineOrder.id heq)]
        exact Or.inl hentry
  · intro x hx
    rw [List.mem_singleton.mp hx]
    exact List.mem_map_of_mem hentered
  · intro order horder
    rw [hids]
    rcases hnew order horder with hold | ⟨rfl, hack⟩
    · rcases h.logged order hold with ⟨entry', hentry', heq, hsent, hnot⟩
      refine ⟨entry', hentry', heq, List.mem_append_left _ hsent, ?_⟩
      split_ifs
      · exact hnot
      · rw [List.mem_cons, not_or]
        refine ⟨?_, hnot⟩
        rintro rfl
        exact hunsent hsent
    · refine ⟨entry, hentered, rfl, List.mem_append_right _ (List.mem_singleton_self _), ?_⟩
      rw [if_pos hack]
      exact hnotRefused

/-- Inserting an order does. -/
theorem Floor.Fits.forward (h : f.Fits mul source past entered) {orderId userId : Uuid}
    {input : PlaceOrderInput} {quantity : Decimal} (hquantity : validateInput input = .ok quantity)
    (hfair : f.Fair mul (.forward orderId userId input)) {desk : Desk}
    (hstep : f.desk.step mul (.forward orderId userId input) = some desk) :
    ({ f with
      desk := desk
      waiting := ⟨orderId, userId, input, quantity⟩ :: f.waiting } : Floor).Fits mul source past
        (⟨orderId, userId, input, quantity⟩ :: entered) := by
  rcases hfair with ⟨hmul, hstop, hpriced, hbalances⟩
  have htrades := Desk.step_trades (by rintro e ⟨⟩) hstep
  rcases Option.map_eq_some_iff.mp hstep with ⟨db', hforward, rfl⟩
  rcases h.desk.forward hquantity hmul hstop hpriced hbalances hforward with ⟨hnew, hdesk⟩
  -- every order entered so far has a row, and this id had none
  have hfresh : orderId ∉ entered.map (·.orderId) := by
    intro hmem
    rcases List.mem_map.mp hmem with ⟨entry, hentry, rfl⟩
    have hrow := (h.desk.prepared entry hentry).row
    rw [hnew] at hrow
    cases hrow
  have hne : ∀ entry ∈ entered, entry ≠ ⟨orderId, userId, input, quantity⟩ := by
    rintro entry hentry rfl
    exact hfresh (List.mem_map_of_mem hentry)
  constructor
  · -- the new order waits; the others wait, are refused or are in the log as before
    refine hdesk.mono ?_
    rintro entry _ (hwaits | hrest)
    · rcases List.mem_cons.mp hwaits with rfl | hwaits
      · exact Or.inl rfl
      · exact Or.inr (Or.inl hwaits)
    · exact Or.inr (Or.inr hrest)
  · exact h.run
  · exact h.unique
  · exact h.drawn
  · exact h.healthy
  · exact h.numbered
  · exact h.behind
  · exact List.nodup_cons.mpr ⟨hfresh, h.ids⟩
  · refine ⟨List.nodup_cons.mpr ⟨?_, h.waiting.1⟩, List.cons_subset_cons _ h.waiting.2⟩
    exact fun hmem => hne _ (h.waiting.2 hmem) rfl
  · exact ⟨h.refused.1, List.subset_cons_of_subset _ h.refused.2⟩
  · intro entry hentry
    rcases List.mem_cons.mp hentry with rfl | hentry
    · exact fun hmem => hfresh (h.placed _ hmem)
    · exact h.unsent entry hentry
  · exact h.sent
  · exact fun x hx => List.mem_cons_of_mem _ (h.placed x hx)
  · intro order horder
    rcases h.logged order horder with ⟨entry, hentry, hrest⟩
    exact ⟨entry, List.mem_cons_of_mem _ hentry, hrest⟩
  · intro trade htrade
    exact h.trades trade (htrades ▸ htrade)

theorem Floor.read_accepts (h : f.Fits mul source past entered) :
    Tape.blank.Accepts (f.log.take f.settled) := by
  have haccepts := h.run.accepts
  change Tape.blank.Accepts f.log at haccepts
  rw [← List.take_append_drop f.settled f.log] at haccepts
  exact (Tape.accepts_append.mp haccepts).1

/-- An order on the tape that settlement has read was entered and sent. -/
theorem Floor.Fits.standing (h : f.Fits mul source past entered) {x : Uuid}
    {standing : Server.Standing} (hstanding : f.read.standings x = some standing) :
    ∃ entry ∈ entered, entry.orderId = x ∧ standing.order = toCoreOrder entry.order ∧
      entry.orderId ∈ placedIds past ∧ entry ∉ f.refused := by
  rcases (Tape.origin hstanding (Floor.read_accepts h)).2 with ⟨order, horder, rfl, hsame⟩
  rcases h.logged order (List.mem_of_mem_take horder) with ⟨entry, hentry, rfl, hsent, hnot⟩
  exact ⟨entry, hentry, rfl, hsame, hsent, hnot⟩

theorem Floor.Fits.priced (h : f.Fits mul source past entered) : Priced f.read := by
  intro x standing hstanding hbuy
  rcases h.standing hstanding with ⟨entry, hentry, _, hsame, _⟩
  rw [hsame] at hbuy ⊢
  refine (h.desk.prepared entry hentry).priced ?_
  exact toCoreSide_inj.mp (hbuy.trans rfl)

/-- Refunding a refused one does. -/
theorem Floor.Fits.refund (h : f.Fits mul source past entered) (hentry : entry ∈ f.refused)
    {desk : Desk}
    (hstep : f.desk.step mul (.refund entry.orderId entry.userId entry.input) = some desk) :
    ({ f with desk := desk, refused := f.refused.erase entry } : Floor).Fits mul source past
      entered := by
  have htrades := Desk.step_trades (by rintro e ⟨⟩) hstep
  cases hstep
  have hentered := h.refused.2 hentry
  -- settlement has read of no order that the engine refused
  have hnone : f.read.standings entry.orderId = none := by
    cases hstanding : f.read.standings entry.orderId with
    | none => rfl
    | some standing =>
      rcases h.standing hstanding with ⟨entry', hentry', hid, _, _, hnot⟩
      exact (hnot (List.inj_on_of_nodup_map h.ids hentry' hentered hid ▸ hentry)).elim
  have hgone : entry ∉ f.refused.erase entry := h.refused.1.not_mem_erase
  constructor
  · -- the refunded order is expected no more
    refine h.desk.refund h.ids hentered (Or.inr (Or.inl hentry)) hnone ?_
    rintro entry' hentry' (hwaits | hrefunds | haccepted)
    · refine ⟨Or.inl hwaits, ?_⟩
      rintro rfl
      exact h.unsent _ hwaits (h.sent _ hentry)
    · refine ⟨Or.inr (Or.inl (List.mem_of_mem_erase hrefunds)), ?_⟩
      rintro rfl
      exact hgone hrefunds
    · refine ⟨Or.inr (Or.inr haccepted), ?_⟩
      rintro rfl
      rcases h.logged _ haccepted with ⟨entry'', hentry'', heq, _, hnot⟩
      have hsame := List.inj_on_of_nodup_map h.ids hentry'' hentered (congrArg EngineOrder.id heq)
      exact hnot (hsame ▸ hentry)
  · exact h.run
  · exact h.unique
  · exact h.drawn
  · exact h.healthy
  · exact h.numbered
  · exact h.behind
  · exact h.ids
  · exact h.waiting
  · exact ⟨h.refused.1.erase entry, List.Subset.trans List.erase_subset h.refused.2⟩
  · exact h.unsent
  · exact fun entry' hentry' => h.sent entry' (List.mem_of_mem_erase hentry')
  · exact h.placed
  · intro order horder
    rcases h.logged order horder with ⟨entry', hentry', heq, hsent, hnot⟩
    exact ⟨entry', hentry', heq, hsent, fun hmem => hnot (List.mem_of_mem_erase hmem)⟩
  · intro trade htrade
    exact h.trades trade (htrades ▸ htrade)

/-- A status write leaves everything but the tables alone. -/
theorem Floor.Fits.writes (h : f.Fits mul source past entered) {desk : Desk}
    (hdesk : Enlists mul f.read entered f.Expects desk)
    (htrades : desk.db.trades = f.desk.db.trades) :
    ({ f with desk := desk } : Floor).Fits mul source past entered :=
  { h with
    desk := hdesk
    trades := fun trade htrade => h.trades trade (htrades ▸ htrade) }

theorem take_succ_of_getElem? {α : Type} {l : List α} {n : ℕ} {a : α} (h : l[n]? = some a) :
    l.take (n + 1) = l.take n ++ [a] := by
  rw [List.take_add_one, h]
  rfl

theorem split_of_getElem? {α : Type} {l : List α} {n : ℕ} {a : α} (h : l[n]? = some a) :
    l = l.take n ++ a :: l.drop (n + 1) := by
  conv_lhs => rw [← List.take_append_drop (n + 1) l, take_succ_of_getElem? h]
  rw [List.append_assoc, List.singleton_append]

/-- The log is what is settled, the next event, and the rest. -/
theorem Floor.split_log {e : SequencedEngineEvent}
    (he : f.engine.eventLog.entries[f.settled]? = some e) :
    f.log = f.log.take f.settled ++
      e.event :: (f.engine.eventLog.entries.drop (f.settled + 1)).map (·.event) := by
  rw [Floor.log, ← List.map_take, ← List.map_cons, ← List.map_append, ← split_of_getElem? he]

/-- The tape allows the next event of the log. -/
theorem Floor.Fits.allows (h : f.Fits mul source past entered) {e : SequencedEngineEvent}
    (he : f.engine.eventLog.entries[f.settled]? = some e) : f.read.Allows e.event := by
  have haccepts := h.run.accepts
  change Tape.blank.Accepts f.log at haccepts
  rw [Floor.split_log he] at haccepts
  exact (Tape.accepts_append.mp haccepts).2.1

/-- The next event of the log can be settled. -/
theorem Floor.Fits.settle (h : f.Fits mul source past entered)
    (hsource : Function.Injective source.get) {e : SequencedEngineEvent}
    (he : f.engine.eventLog.entries[f.settled]? = some e)
    (hnumbers : f.engine.eventLog.sequence < u64Max) :
    ∃ db', Settles .exact e.seq f.desk.db e.event db' ∧
      ({ f with
        desk := ⟨db', closedAfter f.desk.closed e.event⟩
        settled := f.settled + 1 } : Floor).Fits mul source past entered := by
  have htake := take_succ_of_getElem? he
  have hsplit := split_of_getElem? he
  have hlog := Floor.split_log he
  have hread : Tape.blank.applyAll (f.log.take (f.settled + 1)) = f.read.apply e.event := by
    have hevents : f.log.take (f.settled + 1) = f.log.take f.settled ++ [e.event] := by
      rw [Floor.log, ← List.map_take, htake, List.map_append, List.map_take]
      rfl
    rw [hevents, Tape.applyAll_append]
    rfl
  have hallows := h.allows he
  have hmem : e ∈ f.engine.eventLog.entries := List.mem_of_getElem? he
  have hseq : 0 < e.seq := by
    have hlow := ((h.numbered.bounds (Nat.zero_le _)).2.2 e hmem).1
    have hmax : 1 ≤ u64Max := by decide
    omega
  -- the events before are numbered below this one, and their trades have other ids
  have hbefore : ∀ e' ∈ f.engine.eventLog.entries.take f.settled, e'.seq < e.seq := by
    have hpairwise := h.numbered.pairwise hnumbers
    rw [hsplit] at hpairwise
    intro e' he'
    exact (List.pairwise_append.mp hpairwise).2.2 e' he' e List.mem_cons_self
  have hids : ∀ fill, e.event = .fill fill → ∀ trade ∈ f.desk.db.trades,
      trade.id ≠ fill.tradeId := by
    intro fill hfill trade htrade heq
    rcases h.trades trade htrade with ⟨e', he', fill', hfill', _, hid⟩
    have hnodup := h.drawn.nodup hsource
    change (Server.tradeIds f.log).Nodup at hnodup
    rw [hlog, Server.tradeIds_append] at hnodup
    have hin : fill'.tradeId ∈ Server.tradeIds (f.log.take f.settled) := by
      refine Server.mem_tradeIds ?_
      rw [Floor.log, ← List.map_take, ← hfill']
      exact List.mem_map_of_mem he'
    refine (List.nodup_append.mp hnodup).2.2 _ hin fill.tradeId ?_ (hid.symm.trans heq)
    rw [hfill]
    exact List.mem_cons_self
  have hentered : ∀ order, e.event = .orderAccepted order →
      ∃ entry ∈ entered, f.Expects entry ∧ entry.order = order := by
    intro order horder
    have hin : .orderAccepted order ∈ f.log := by
      rw [← horder]
      exact List.mem_map_of_mem hmem
    rcases h.logged order hin with ⟨entry, hentry, rfl, _⟩
    exact ⟨entry, hentry, Or.inr (Or.inr hin), rfl⟩
  rcases h.desk.settle hallows h.priced hseq hentered (fun trade htrade => by
    rcases h.trades trade htrade with ⟨e', he', _, _, heq, _⟩
    have := hbefore e' he'
    omega) hids with ⟨db', hsettles, hdesk⟩
  refine ⟨db', hsettles, ?_⟩
  exact { h with
    desk := by
      change Enlists mul (Tape.blank.applyAll (f.log.take (f.settled + 1))) entered f.Expects _
      rw [hread]
      exact hdesk
    behind := by
      have hlt : f.settled < f.engine.eventLog.entries.length := by
        rcases List.getElem?_eq_some_iff.mp he with ⟨hlt, _⟩
        exact hlt
      change f.settled + 1 ≤ f.log.length
      rw [Floor.log, List.length_map]
      exact hlt
    trades := by
      intro trade htrade
      dsimp only
      rw [htake]
      rcases trade_of_settles hsettles htrade with hold | ⟨fill, hfill, hrest⟩
      · rcases h.trades trade hold with ⟨e', he', hrest⟩
        exact ⟨e', List.mem_append_left _ he', hrest⟩
      · exact ⟨e, List.mem_append_right _ (List.mem_singleton_self _), fill, hfill, hrest⟩ }

/-- A floor without orders is together. -/
theorem Floor.Fits.start {idSource : Stream' Uuid} {clock : Stream' String} {disk : Stream' Bool}
    {snapshotDepth : ℕ} {engine : EngineState} {db : Tables}
    (hopen : EngineState.open fuel [] [] idSource clock disk snapshotDepth = some engine)
    (hdisk : ∀ n, disk.get n = true) (hstart : Covered ⟨db, []⟩) (htrades : db.trades = []) :
    (Floor.start engine db).Fits mul idSource [] [] := by
  have hrun := EngineState.runTaped_open hopen
  cases hopen
  -- there is nothing that could be out of step
  constructor
  · refine ⟨hstart, ?_, ?_, ?_, ?_⟩
    · rintro x standing ⟨⟩
    · rintro entry ⟨⟩
    · rintro entry ⟨⟩
    · rintro x ⟨⟩
  · exact hrun
  · exact List.nodup_nil
  · exact ⟨0, rfl, List.Sublist.slnil⟩
  · exact hdisk
  · exact .nil
  · exact le_refl _
  · exact List.nodup_nil
  · exact ⟨List.nodup_nil, List.nil_subset _⟩
  · exact ⟨List.nodup_nil, List.nil_subset _⟩
  · rintro entry ⟨⟩
  · rintro entry ⟨⟩
  · rintro x ⟨⟩
  · rintro order ⟨⟩
  · intro trade htrade
    change trade ∈ db.trades at htrade
    rw [htrades] at htrade
    cases htrade

/-- So every fair step keeps the floor together. -/
theorem Floor.Fits.step (h : f.Fits mul source past entered)
    (hsource : Function.Injective source.get) {op : FloorOp} (hfair : f.Fair mul op)
    (hstep : f.step fuel mul op = some f') :
    ∃ past' entered', f'.Fits mul source past' entered' := by
  cases op with
  | forward orderId userId input =>
    unfold Floor.step at hstep
    dsimp only at hstep
    split at hstep
    · cases hstep
    · next quantity hquantity =>
      rcases Option.map_eq_some_iff.mp hstep with ⟨desk, hdesk, rfl⟩
      exact ⟨_, _, h.forward hquantity hfair hdesk⟩
  -- the engine answers an order of the API
  | send requestId entry =>
    unfold Floor.step at hstep
    dsimp only at hstep
    split_ifs at hstep with hentry
    rcases Option.map_eq_some_iff.mp hstep with ⟨⟨result, engine⟩, hhandle, rfl⟩
    exact ⟨_, _, h.send hentry hhandle⟩
  -- or serves somebody else, who places nothing
  | request req =>
    rcases Option.map_eq_some_iff.mp hstep with ⟨⟨result, engine⟩, hhandle, rfl⟩
    exact ⟨_, _, h.request hfair hhandle⟩
  | refund entry =>
    unfold Floor.step at hstep
    rcases Option.map_eq_some_iff.mp hstep with ⟨desk, hdesk, rfl⟩
    exact ⟨_, _, h.refund hfair hdesk⟩
  -- the next event is one that settles
  | settle =>
    unfold Floor.step at hstep
    dsimp only at hstep
    split at hstep
    · cases hstep
    · next e he =>
      rcases Option.map_eq_some_iff.mp hstep with ⟨desk, hdesk, rfl⟩
      rcases h.settle hsource he hfair with ⟨db', hsettles, hfits⟩
      rcases Option.map_eq_some_iff.mp hdesk with ⟨db'', hstep', rfl⟩
      cases hsettles.unique (step_eq_some.mp hstep')
      exact ⟨_, _, hfits⟩
  -- the rest writes statuses
  | updateStatus orderId status =>
    unfold Floor.step at hstep
    rcases Option.map_eq_some_iff.mp hstep with ⟨desk, hdesk, rfl⟩
    have htrades := Desk.step_trades (by rintro e ⟨⟩) hdesk
    cases hdesk
    exact ⟨_, _, h.writes (h.desk.updateStatus orderId status) htrades⟩
  | markCanceled orderIds =>
    unfold Floor.step at hstep
    rcases Option.map_eq_some_iff.mp hstep with ⟨desk, hdesk, rfl⟩
    have htrades := Desk.step_trades (by rintro e ⟨⟩) hdesk
    cases hdesk
    exact ⟨_, _, h.writes (h.desk.markOrdersCanceled orderIds) htrades⟩

/-- A live order has an open row, with at least as much left. -/
theorem Floor.Fits.live_row (h : f.Fits mul source past entered) {symbol : String}
    {o : Core.Order} (ho : o ∈ (f.engine.bookOf symbol).pool) :
    ∃ row, f.desk.openOrders.find? o.id = some row ∧ row.userId = o.userId ∧
      row.market = symbol ∧ toCoreSide row.side = o.side ∧ row.price = o.price.map value ∧
      value o.remaining ≤ remaining row := by
  have hbacks : Backs (Tape.blank.applyAll f.log).standings symbol o :=
    (h.run.taped.live symbol o ho).2
  have haccepts : Tape.blank.Accepts f.log := h.run.accepts
  have hrow : ∀ {standing : Server.Standing} {row : OrderRow}, RowFor standing.order row →
      standing.order.userId = o.userId ∧ standing.order.side = o.side ∧
        standing.order.price = o.price ∧ standing.order.symbol = symbol →
      row.userId = o.userId ∧ row.market = symbol ∧ toCoreSide row.side = o.side ∧
        row.price = o.price.map value := by
    rintro standing row hfor ⟨huser, hside, hprice, hsymbol⟩
    exact ⟨hfor.userId.trans huser, hfor.market.trans hsymbol, hfor.side.trans hside,
      hprice ▸ hfor.price⟩
  by_cases hread : (f.read.standings o.id).isSome
  · -- settlement has read its acceptance, and may be behind with its fills
    rw [← List.take_append_drop f.settled f.log, Tape.applyAll_append] at hbacks
    rw [← List.take_append_drop f.settled f.log] at haccepts
    rcases hbacks.earlier (Tape.accepts_append.mp haccepts).2 hread with
      ⟨standing, hopen, hleft, hsame⟩
    rcases h.desk.copies.open_row hopen with ⟨row, hfind, hshows⟩
    rcases hrow hshows.toRowFor hsame with ⟨huser, hmarket, hside, hprice⟩
    refine ⟨row, hfind, huser, hmarket, hside, hprice, ?_⟩
    rw [hshows.left]
    exact value_le.mpr hleft
  · -- its row is as it was inserted
    rcases hbacks with ⟨standing, hopen, hleft, hsame⟩
    rcases Tape.origin hopen.1 haccepts with ⟨hle, order, horder, hid, horigin⟩
    rcases h.logged order horder with ⟨entry, hentry, rfl, _, _⟩
    have hnone : f.read.standings entry.orderId = none := by
      rw [← Option.not_isSome_iff_eq_none]
      change ¬ (f.read.standings entry.order.id).isSome = true
      rw [hid]
      exact hread
    rcases h.desk.pending entry hentry (Or.inr (Or.inr horder)) hnone with
      ⟨row, hfind, huntouched⟩
    have hfor : RowFor standing.order row := horigin ▸ huntouched.rowFor.1
    rcases hrow hfor hsame with ⟨huser, hmarket, hside, hprice⟩
    refine ⟨row, hid ▸ hfind, huser, hmarket, hside, hprice, ?_⟩
    rw [huntouched.rowFor.2]
    refine value_le.mpr (hleft.trans (hle.trans ?_))
    rw [horigin]
    exact le_refl _

end Fits

/-! ## Runs of the floor -/

section Runs

variable {fuel : ℕ} {idSource : Stream' Uuid} {clock : Stream' String} {disk : Stream' Bool}
  {snapshotDepth : ℕ} {engine : EngineState} {db : Tables} {ops : List FloorOp} {f : Floor}

/-- And so does every fair run. -/
theorem fits_of_run
    (hopen : EngineState.open fuel [] [] idSource clock disk snapshotDepth = some engine)
    (hdisk : ∀ n, disk.get n = true) (hids : Function.Injective idSource.get)
    (hstart : Covered ⟨db, []⟩) (htrades : db.trades = [])
    (hfair : Along (Floor.step fuel mul) (Floor.Fair mul) (Floor.start engine db) ops)
    (hrun : run (Floor.step fuel mul) (Floor.start engine db) ops = some f) :
    ∃ past entered, f.Fits mul idSource past entered := by
  refine Machine.run_invariant (fun f => ∃ past entered, f.Fits mul idSource past entered)
    (Floor.Fair mul) ?_ ⟨[], [], .start hopen hdisk hstart htrades⟩ hfair hrun
  rintro f op f' ⟨past, entered, h⟩ hfair hstep
  exact h.step hids hfair hstep

/-- In every fair run from empty logs and tables that cover what is owed, with a disk that takes
every append, settlement of the next event of the log never fails. -/
theorem settlement_keeps_up
    (hopen : EngineState.open fuel [] [] idSource clock disk snapshotDepth = some engine)
    (hdisk : ∀ n, disk.get n = true) (hids : Function.Injective idSource.get)
    (hstart : Covered ⟨db, []⟩) (htrades : db.trades = [])
    (hfair : Along (Floor.step fuel mul) (Floor.Fair mul) (Floor.start engine db) ops)
    (hrun : run (Floor.step fuel mul) (Floor.start engine db) ops = some f)
    {e : SequencedEngineEvent} (he : f.engine.eventLog.entries[f.settled]? = some e)
    (hnumbers : f.engine.eventLog.sequence < u64Max) :
    ∃ db', settle .exact e.seq e.event f.desk.db = .ok db' ∧ NonnegBalances db' := by
  rcases fits_of_run hopen hdisk hids hstart htrades hfair hrun with ⟨past, entered, h⟩
  rcases h.settle hids he hnumbers with ⟨db', hsettles, hfits⟩
  exact ⟨db', settle_eq_ok.mpr hsettles, hfits.desk.covered.balances⟩

/-- In every such run the locks cover what the open orders owe, and every live order of every book
is an open order with at least as much left. -/
theorem books_are_funded
    (hopen : EngineState.open fuel [] [] idSource clock disk snapshotDepth = some engine)
    (hdisk : ∀ n, disk.get n = true) (hids : Function.Injective idSource.get)
    (hstart : Covered ⟨db, []⟩) (htrades : db.trades = [])
    (hfair : Along (Floor.step fuel mul) (Floor.Fair mul) (Floor.start engine db) ops)
    (hrun : run (Floor.step fuel mul) (Floor.start engine db) ops = some f) :
    (∀ key, f.desk.owed key ≤ locked f.desk.db key) ∧
    ∀ symbol, ∀ o ∈ (f.engine.bookOf symbol).pool, ∃ row,
      f.desk.openOrders.find? o.id = some row ∧ row.userId = o.userId ∧ row.market = symbol ∧
      toCoreSide row.side = o.side ∧ row.price = o.price.map value ∧
      value o.remaining ≤ remaining row := by
  rcases fits_of_run hopen hdisk hids hstart htrades hfair hrun with ⟨past, entered, h⟩
  refine ⟨?_, fun symbol o ho => h.live_row ho⟩
  intro key
  exact sub_nonneg.mp (h.desk.covered.spare key)

end Runs

/-! ## A run of the floor -/

/-- A test of `Fair` for exact products. -/
def checkFair (f : Floor) : FloorOp → Bool
  | .forward _ userId input => !isStop input.orderType &&
      (input.side = .sell || input.price.isSome) &&
      match f.desk.db.markets input.symbol with
      | none => true
      | some market => (f.desk.db.balances (userId, market.baseAssetId)).isSome &&
          (f.desk.db.balances (userId, market.quoteAssetId)).isSome
  | .request req => !isPlacement req
  | .refund entry => entry ∈ f.refused
  | .settle => f.engine.eventLog.sequence < u64Max
  | _ => true

theorem fair_of_checkFair {f : Floor} {op : FloorOp} (h : checkFair f op = true) :
    f.Fair exactMul op := by
  cases op with
  | forward orderId userId input =>
    simp only [checkFair, Bool.and_eq_true, Bool.or_eq_true, Bool.not_eq_true',
      decide_eq_true_eq] at h
    rcases h with ⟨⟨hstop, hpriced⟩, hbalances⟩
    refine ⟨exactMul_unrounded input, hstop, ?_, ?_⟩
    · intro hbuy hnone
      rw [hbuy, hnone] at hpriced
      rcases hpriced with hsell | hsome
      · cases hsell
      · cases hsome
    · intro market hmarket
      rw [hmarket] at hbalances
      exact Bool.and_eq_true_iff.mp hbalances
  | settle =>
    have hnumbers : f.engine.eventLog.sequence < u64Max := by
      simpa only [checkFair, decide_eq_true_eq] using h
    exact hnumbers
  | request req =>
    have hother : isPlacement req = false := by
      simpa only [checkFair, Bool.not_eq_true'] using h
    exact hother
  | refund entry =>
    have hrefused : entry ∈ f.refused := by
      simpa only [checkFair, decide_eq_true_eq] using h
    exact hrefused
  | send | updateStatus | markCanceled => exact trivial

/-- Both orders are entered and sent, and settlement reads the log up to their trade. -/
def meetingOps : List FloorOp :=
  [ .forward 1 10 sellTen, .forward 2 20 buyTwo, .send 1 ⟨1, 10, sellTen, 10 * 10 ^ 28⟩,
    .send 2 ⟨2, 20, buyTwo, 2 * 10 ^ 28⟩, .settle, .settle, .settle, .settle ]

theorem meetingOps_fair : Along (Floor.step 10 exactMul) (Floor.Fair exactMul)
    (Floor.start Server.emptyEngine quietDesk.db) meetingOps := by
  refine Machine.along_of_check (fun f op h => fair_of_checkFair h) ?_
  decide +kernel

theorem emptyEngine_ids : Function.Injective (Stream'.get (fun n => n : Stream' Uuid)) :=
  fun _ _ h => h

theorem meeting_settles : ∃ f db',
    run (Floor.step 10 exactMul) (Floor.start Server.emptyEngine quietDesk.db) meetingOps = some f ∧
    f.engine.eventLog.entries[f.settled]? = some ⟨5, .fill fillTwo⟩ ∧
    settle .exact 5 (.fill fillTwo) f.desk.db = .ok db' ∧ NonnegBalances db' := by
  have hview : (run (Floor.step 10 exactMul) (Floor.start Server.emptyEngine quietDesk.db)
      meetingOps).map (fun f =>
        (f.engine.eventLog.entries[f.settled]?, decide (f.engine.eventLog.sequence < u64Max))) =
      some (some ⟨5, .fill fillTwo⟩, true) := by
    decide +kernel
  rcases Option.map_eq_some_iff.mp hview with ⟨f, hrun, hview⟩
  rcases Prod.mk.inj hview with ⟨he, hnumbers⟩
  rcases settlement_keeps_up (Server.emptyEngine_open 10) (fun _ => rfl) emptyEngine_ids
    quietDesk_covered rfl meetingOps_fair hrun he (of_decide_eq_true hnumbers) with
    ⟨db', hsettles, hnonneg⟩
  exact ⟨f, db', hrun, he, hsettles, hnonneg⟩

/-- The trade is not settled yet; the sell order is in the book with less left than its row says. -/
theorem meeting_funded : ∃ f,
    run (Floor.step 10 exactMul) (Floor.start Server.emptyEngine quietDesk.db) meetingOps = some f ∧
    (f.engine.bookOf "BTCUSDT").live.map (·.remaining) = [8 * 10 ^ 28] ∧
    (f.desk.db.orders.find? 1).map remaining = some 10 ∧
    (∀ key, f.desk.owed key ≤ locked f.desk.db key) ∧
    ∀ symbol, ∀ o ∈ (f.engine.bookOf symbol).pool, ∃ row,
      f.desk.openOrders.find? o.id = some row ∧ row.userId = o.userId ∧ row.market = symbol ∧
      toCoreSide row.side = o.side ∧ row.price = o.price.map value ∧
      value o.remaining ≤ remaining row := by
  have hview : (run (Floor.step 10 exactMul) (Floor.start Server.emptyEngine quietDesk.db)
      meetingOps).map (fun f => ((f.engine.bookOf "BTCUSDT").live.map (·.remaining),
        (f.desk.db.orders.find? 1).map remaining)) = some ([8 * 10 ^ 28], some 10) := by
    decide +kernel
  rcases Option.map_eq_some_iff.mp hview with ⟨f, hrun, hview⟩
  rcases Prod.mk.inj hview with ⟨hbook, hrow⟩
  exact ⟨f, hrun, hbook, hrow, books_are_funded (Server.emptyEngine_open 10) (fun _ => rfl)
    emptyEngine_ids quietDesk_covered rfl meetingOps_fair hrun⟩

end CryptoCex.Settlement
