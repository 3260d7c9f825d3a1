import CryptoCex.Core.LevelTotals
import CryptoCex.Lib.Machine
import CryptoCex.Server.Acks
import CryptoCex.Server.OnGrid

/-!
# Whether the engine's additions stay in range

The admission checks bound what one order brings, but handling it adds up what many orders have
left: the levels a fill-or-kill order walks, the levels of the book that is published, and the
fills of the order. An addition out of range panics, after the command was logged.
`placeOrder?` is `place_order` with every addition checked: it panics exactly where the sum is out
of range, and its differences are rounded as those of `placeOrder`. With exact differences it
returns what `placeOrder` returns or panics (`placeOrder?_exact`).

Two orders of the largest quantity at one price are enough to make it panic
(`largest_orders_overflow`). No addition is out of range in a run where each order that is matched
has room at its level, each fill-or-kill order walks levels that are in range, orders of one id
trade no more than the range in one request, every display quantity is positive, and no difference
of the quantities needs to be rounded (`requests_inRange`). Without the last the fills of an order
may add up to more than its quantity: an order for `2⁹⁶ - 1` has as much left after a fill of
`0.4`.
-/

namespace CryptoCex.Server

open CryptoCex.Core CryptoCex.Core.OrderBook CheckedSum
open Proto (BookSnapshot EngineOrder EngineRequest OrderStatus)

/-! ## Checked additions -/

def orderStatusForPlace? (orderId : Uuid) (quantity : Decimal) (events : List EngineEvent) :
    Option OrderStatus :=
  (sum? maxDecimal (takenBy orderId events)).map fun filled =>
    let hasRested := events.any fun e => match e with
      | .rested restedId _ => restedId == orderId
      | _ => false
    if hasRested then
      if filled > 0 then .partiallyFilled else .new
    else if filled ≥ quantity then .filled
    else if events.any fun e => match e with
        | .cancelled canceledId _ => canceledId == orderId
        | _ => false then .canceled
    else .filled

namespace EngineState

def bookSnapshot? (st : EngineState) (symbol : String) (depth : ℕ) : Option BookSnapshot :=
  let levels? : Option BookDepth := match st.books.find? symbol with
    | none => some ⟨[], []⟩
    | some book => book.depthLevels? depth
  levels?.map fun levels => {
    symbol := symbol
    bids := levels.bids
    asks := levels.asks
    seq := st.eventLog.sequence }

def bookDeltaEvent? (st : EngineState) (symbol : String) : Option Proto.EngineEvent :=
  (st.bookSnapshot? symbol st.snapshotDepth).map fun snapshot =>
    .bookDelta snapshot.symbol snapshot.bids snapshot.asks

def matchInBook? [Rounding] (fuel : ℕ) (book : OrderBook) (order : Order) :
    Option (Option (OrderBook × List EngineEvent)) :=
  (linkOco book order).matchOrder? fuel order

def acknowledgePlace? [Rounding] (st : EngineState) (requestId : Uuid) (wireOrder : EngineOrder)
    (order : Order) (coreEvents : List EngineEvent) :
    Option (Except ServerError ResponseBundle × EngineState) :=
  let symbol := wireOrder.symbol
  let st := { st with
    openOrders := applyOpenOrderUpdates st.openOrders (some order) coreEvents }
  let ((wireEvents, fills), st) := st.toWireCoreEvents symbol coreEvents
  (st.bookDeltaEvent? symbol).bind fun delta =>
    match st.sequenceEvents (.orderAccepted wireOrder :: wireEvents ++ [delta]) with
    | (.error e, st) => some (.error e, st)
    | (.ok events, st) =>
      let seq := lastSeqOrCurrent events st.eventLog.sequence
      (orderStatusForPlace? order.id order.quantity coreEvents).map fun status =>
        let result := .order order.id status (fills.filter fun f => f.takerOrderId = order.id) seq
        (.ok { response := .ack requestId result, events := events }, st)

/-- `none` is a panic; the inner option is that of `placeOrder`. -/
def placeOrder? [Rounding] (fuel : ℕ) (st : EngineState) (requestId : Uuid)
    (wireOrder : EngineOrder) : Option (Option (Except ServerError ResponseBundle × EngineState)) :=
  match validateWireOrder requestId wireOrder with
  | some rejected => some (some (.ok { response := .reject rejected, events := [] }, st))
  | none =>
    let symbol := wireOrder.symbol
    if symbol ∈ st.haltedSymbols then some (some (.ok (marketHalted requestId), st))
    else
      let order := toCoreOrder wireOrder
      match st.appendCommand (.placeOrder order) with
      | (.error e, st) => some (some (.error e, st))
      | (.ok _, st) =>
        (matchInBook? fuel (st.bookOf symbol) order).bind fun matched => match matched with
          | none => some none
          | some (book, coreEvents) =>
            let st := { st with books := st.books.insert symbol book }
            match immediatePreReject requestId order.id coreEvents with
            | some rejected => some (some (.ok { response := .reject rejected, events := [] }, st))
            | none => (st.acknowledgePlace? requestId wireOrder order coreEvents).map some

end EngineState

/-! ## What returns is exact -/

/-- A status that is found without a panic is the status. -/
theorem orderStatusForPlace?_exact {id : Uuid} {quantity : Decimal} {events : List EngineEvent}
    {status : OrderStatus} (h : orderStatusForPlace? id quantity events = some status) :
    orderStatusForPlace id quantity events = status := by
  obtain ⟨filled, hfilled, rfl⟩ := Option.map_eq_some_iff.mp h
  rw [orderStatusForPlace_of_sum, Decimal.sum_exact, sum?_exact hfilled]
  rfl

namespace EngineState

variable {fuel : ℕ} {st : EngineState}

theorem bookSnapshot?_exact {symbol : String} {depth : ℕ} {snapshot : BookSnapshot}
    (h : st.bookSnapshot? symbol depth = some snapshot) :
    st.bookSnapshot symbol depth = snapshot := by
  obtain ⟨levels, hlevels, rfl⟩ := Option.map_eq_some_iff.mp h
  unfold bookSnapshot
  cases hbook : st.books.find? symbol with
  | none =>
    rw [hbook] at hlevels
    cases hlevels
    rfl
  | some book =>
    rw [hbook] at hlevels
    dsimp only
    rw [depthLevels?_exact hlevels]

/-- The same for a diff. -/
theorem bookDeltaEvent?_exact {symbol : String} {delta : Proto.EngineEvent}
    (h : st.bookDeltaEvent? symbol = some delta) : st.bookDeltaEvent symbol = delta := by
  obtain ⟨snapshot, hsnapshot, rfl⟩ := Option.map_eq_some_iff.mp h
  unfold bookDeltaEvent
  rw [bookSnapshot?_exact hsnapshot]

theorem acknowledgePlace?_exact {requestId : Uuid} {wireOrder : EngineOrder} {order : Order}
    {events : List EngineEvent} {r : Except ServerError ResponseBundle × EngineState}
    (h : st.acknowledgePlace? requestId wireOrder order events = some r) :
    st.acknowledgePlace requestId wireOrder order events = r := by
  obtain ⟨delta, hdelta, h⟩ := Option.bind_eq_some_iff.mp h
  unfold acknowledgePlace
  dsimp only at h ⊢
  rw [bookDeltaEvent?_exact hdelta]
  generalize sequenceEvents _ _ = sequenced at h ⊢
  obtain ⟨result, stored⟩ := sequenced
  cases result with
  | error e => exact Option.some.inj h
  | ok sequenced =>
    obtain ⟨status, hstatus, rfl⟩ := Option.map_eq_some_iff.mp h
    dsimp only
    rw [orderStatusForPlace?_exact hstatus]

/-- Placing an order returns what it does with exact sums, or panics. -/
theorem placeOrder?_exact {requestId : Uuid} {wireOrder : EngineOrder}
    {r : Option (Except ServerError ResponseBundle × EngineState)}
    (h : st.placeOrder? fuel requestId wireOrder = some r) :
    st.placeOrder fuel requestId wireOrder = r := by
  unfold placeOrder? at h
  unfold placeOrder
  cases hvalid : validateWireOrder requestId wireOrder with
  | some rejected =>
    rw [hvalid] at h
    exact Option.some.inj h
  | none =>
    rw [hvalid] at h
    dsimp only at h ⊢
    split_ifs at h ⊢ with hhalted
    · exact Option.some.inj h
    -- the log decides alike for both, so its answer is split once
    · generalize st.appendCommand _ = appended at h ⊢
      obtain ⟨result, logged⟩ := appended
      cases result with
      | error e => exact Option.some.inj h
      | ok seq =>
        obtain ⟨matched, hmatched, h⟩ := Option.bind_eq_some_iff.mp h
        have hmatch : matchInBook fuel _ _ = matched := matchOrder?_exact hmatched
        dsimp only
        rw [hmatch]
        cases matched with
        | none => exact Option.some.inj h
        | some matched =>
          dsimp only at h ⊢
          cases hreject : immediatePreReject requestId (toCoreOrder wireOrder).id matched.2 with
          | some rejected =>
            rw [hreject] at h
            exact Option.some.inj h
          | none =>
            rw [hreject] at h
            obtain ⟨acked, hacked, rfl⟩ := Option.map_eq_some_iff.mp h
            dsimp only
            rw [← acknowledgePlace?_exact hacked]

end EngineState

/-! ## Books in range -/

/-- What keeps the additions of a call in range, told of the book that the order is given to. -/
structure Fits (fuel : ℕ) (b : OrderBook) (order : Order) : Prop where
  /-- A display quantity is positive, as the checks demand of icebergs only. -/
  shows : ∀ d ∈ order.displayQty, 0 < d
  /-- The levels that a fill-or-kill order walks are in range. -/
  walk : order.orderType = .fok → WalkFits order.remaining 0 (b.acceptable order)
  /-- The order and the stops it triggers have room at their levels when they are matched. -/
  rest : ∀ e ∈ b.entering fuel order, RestFits e.1 e.2
  /-- The orders of its id among them are in range together. -/
  fills : broughtBy order.id (b.entering fuel order) ≤ maxDecimal

instance (fuel : ℕ) (b : OrderBook) (order : Order) : Decidable (Fits fuel b order) :=
  decidable_of_iff ((∀ d ∈ order.displayQty, 0 < d) ∧
      (order.orderType = .fok → WalkFits order.remaining 0 (b.acceptable order)) ∧
      (∀ e ∈ b.entering fuel order, RestFits e.1 e.2) ∧
      broughtBy order.id (b.entering fuel order) ≤ maxDecimal)
    ⟨fun h => ⟨h.1, h.2.1, h.2.2.1, h.2.2.2⟩, fun h => ⟨h.shows, h.walk, h.rest, h.fills⟩⟩

namespace Exchange

/-- Every book holds positive orders, and its levels are in range. -/
def InRange (x : Exchange) : Prop :=
  ∀ symbol, (x.bookOf symbol).All Order.Sized ∧ (x.bookOf symbol).LevelsFit

variable {D : Set Decimal} {fuel : ℕ} {x y : Exchange}

theorem levelsFit_new : OrderBook.new.LevelsFit := by
  intro side price
  have hempty : OrderBook.new.queue side price = [] := by
    cases side with
    | buy => rfl
    | sell => rfl
  rw [hempty]
  exact maxDecimal_nonneg

theorem inRange_of_books (h : x.books = OrdMap.empty) : x.InRange := by
  intro symbol
  have hnew : x.bookOf symbol = OrderBook.new := by
    simp [bookOf, h]
  rw [hnew]
  exact ⟨all_new Order.Sized, levelsFit_new⟩

/-- Putting back a book in range keeps the exchange in range. -/
theorem InRange.insert (h : x.InRange) {symbol : String} {book : OrderBook}
    (hall : book.All Order.Sized) (hlevels : book.LevelsFit)
    (hbooks : y.books = x.books.insert symbol book) : y.InRange := by
  intro symbol'
  rw [bookOf_insert hbooks]
  split_ifs
  · exact ⟨hall, hlevels⟩
  · exact h symbol'

theorem inRange_linkOco {b : OrderBook} (hall : b.All Order.Sized) (hlevels : b.LevelsFit)
    (order : Order) : (EngineState.linkOco b order).All Order.Sized ∧
      (EngineState.linkOco b order).LevelsFit := by
  unfold EngineState.linkOco
  split
  · exact ⟨hall, hlevels⟩
  · exact ⟨⟨hall.noEmpty, hall.all⟩, hlevels⟩

/-- What a match leaves where its additions are kept in range. -/
theorem InRange.matchInBook [Rounding] (hD : Grid D) (h : x.InRange) (hx : x.OnGrid D)
    {order : Order} (horder : order.OnGrid D) {symbol : String}
    (hfits : Fits fuel (EngineState.linkOco (x.bookOf symbol) order) order)
    {book : OrderBook} {events : List EngineEvent}
    (hmatch : EngineState.matchInBook fuel (x.bookOf symbol) order = some (book, events)) :
    (book.All Order.Sized ∧ book.LevelsFit) ∧
      (∀ f, EngineEvent.fill f ∈ events → 0 < f.quantity) ∧
      fillSum (·.takerOrderId = order.id) events ≤ maxDecimal := by
  obtain ⟨hall, hlevels⟩ := inRange_linkOco (h symbol).1 (h symbol).2 order
  have hsized : order.Sized := ⟨horder.positive, hfits.shows⟩
  rw [(matchInBook_grid hD (hx.bookOf symbol) horder).1] at hmatch
  obtain ⟨hall', hfills⟩ := matchOrder_all kept_sized hall hsized hmatch
  obtain ⟨hlevels', hsum⟩ := matchOrder_spends hall hsized hlevels hmatch order.id
  exact ⟨⟨hall', hlevels' hfits.rest⟩, hfills, hsum.trans hfits.fills⟩

/-- A cancel adds nothing to a level. -/
theorem Step.inRange_cancel [Rounding] {orderId : Uuid}
    (hstep : Step fuel x (.cancelOrder orderId) y)
    (h : x.InRange) : y.InRange := by
  cases hstep with
  | bookless => exact h
  | @cancelled _ entry book _ hbook =>
    have hof : x.bookOf entry.symbol = book := by
      simp [bookOf, hbook]
    obtain ⟨hall, hlevels⟩ := h entry.symbol
    rw [hof] at hall hlevels
    have hwithin := within_cancelOrder book orderId
    refine h.insert (hwithin.all hall) ?_ rfl
    intro side price
    exact (hwithin.queueQty_le hall side price).trans (hlevels side price)

end Exchange

/-! ## Requests and runs -/

namespace EngineState

variable {D : Set Decimal} {fuel : ℕ} {st st' : EngineState}

/-- Where a placed order is matched, it keeps the additions in range. -/
def RequestFits (fuel : ℕ) (st : EngineState) : EngineRequest → Prop
  | .place requestId order =>
    validateWireOrder requestId order = none → order.symbol ∉ st.haltedSymbols →
      st.disk.head = true →
        Fits fuel (linkOco (st.bookOf order.symbol) (toCoreOrder order)) (toCoreOrder order)
  | _ => True

instance (fuel : ℕ) (st : EngineState) (req : EngineRequest) :
    Decidable (st.RequestFits fuel req) := by
  unfold RequestFits
  split <;> infer_instance

/-- No addition is out of range, neither in placing an order nor in showing a book. -/
structure AddsInRange [Rounding] (fuel : ℕ) (st : EngineState) (req : EngineRequest) : Prop where
  place : ∀ requestId order, req = .place requestId order →
    (st.placeOrder? fuel requestId order).isSome = true
  shown : ∀ symbol depth, (st.bookSnapshot? symbol depth).isSome = true

/-- A book in range can be shown to any depth. -/
theorem bookSnapshot?_isSome (h : st.exchange.InRange) (symbol : String) (depth : ℕ) :
    (st.bookSnapshot? symbol depth).isSome = true := by
  unfold bookSnapshot?
  cases hbook : st.books.find? symbol with
  | none => rfl
  | some book =>
    have hof : st.exchange.bookOf symbol = book := by
      simp [Exchange.bookOf, exchange, hbook]
    obtain ⟨hall, hlevels⟩ := h symbol
    rw [hof] at hall hlevels
    simpa using hlevels.depthLevels? hall depth

/-- Every request keeps the books in range and on the grid. -/
theorem handleRequest_inRange [Rounding] (hD : Grid D) {req : EngineRequest}
    {result : Except ServerError ResponseBundle}
    (h : st.exchange.InRange ∧ st.exchange.OnGrid D) (hfits : st.RequestFits fuel req)
    (hgrid : PlacedOnGrid D [req]) (hreq : st.handleRequest fuel req = some (result, st')) :
    st'.exchange.InRange ∧ st'.exchange.OnGrid D := by
  obtain ⟨hrange, hx⟩ := h
  cases handleRequest_effect hreq with
  | @place requestId order hvalid htrading hdisk _ hstep =>
    have horder := hgrid requestId order List.mem_cons_self hvalid
    obtain ⟨book, events, hbooks, hmatch⟩ := hstep.place_book
    obtain ⟨⟨hall, hlevels⟩, _⟩ := hrange.matchInBook hD hx horder
      (hfits hvalid htrading hdisk) hmatch
    refine ⟨hrange.insert hall hlevels hbooks, (hstep.of_grid hD hx ?_).2⟩
    rintro _ ⟨⟩
    exact horder
  | cancels ids _ hdoes =>
    refine hdoes.steps.cancels_invariant (fun x => x.InRange ∧ x.OnGrid D) ?_ ⟨hrange, hx⟩
    rintro x orderId y ⟨hrange, hx⟩ hstep
    exact ⟨hstep.inRange_cancel hrange, (hstep.of_grid hD hx (by rintro _ ⟨⟩)).2⟩

/-- Positive fills that sum to no more than the largest decimal can be added up. -/
theorem orderStatusForPlace?_isSome {id : Uuid} {quantity : Decimal} {events : List EngineEvent}
    (hfills : ∀ f, EngineEvent.fill f ∈ events → 0 < f.quantity)
    (hsum : fillSum (·.takerOrderId = id) events ≤ maxDecimal) :
    (orderStatusForPlace? id quantity events).isSome = true := by
  have hnonneg : ∀ x ∈ takenBy id events, 0 ≤ x := by
    intro x hx
    obtain ⟨e, he, hquantity⟩ := List.mem_filterMap.mp hx
    cases e with
    | fill f =>
      dsimp only at hquantity
      split_ifs at hquantity
      · cases hquantity
        exact (hfills f he).le
    | rested | cancelled | stopTriggered => cases hquantity
  have htaken : (takenBy id events).sum ≤ maxDecimal := (sum_takenBy id events).le.trans hsum
  unfold orderStatusForPlace?
  rw [Option.isSome_map, sum?_eq maxDecimal_nonneg hnonneg, if_pos htaken]
  rfl

/-- So an acknowledgement does not panic. -/
theorem acknowledgePlace?_isSome [Rounding] {requestId : Uuid} {wireOrder : EngineOrder}
    {order : Order}
    {events : List EngineEvent} (h : st.exchange.InRange)
    (hfills : ∀ f, EngineEvent.fill f ∈ events → 0 < f.quantity)
    (hsum : fillSum (·.takerOrderId = order.id) events ≤ maxDecimal) :
    (st.acknowledgePlace? requestId wireOrder order events).isSome = true := by
  have hexchange : ({ st with
      openOrders := applyOpenOrderUpdates st.openOrders (some order) events }.toWireCoreEvents
        wireOrder.symbol events).2.exchange.InRange := by
    rw [(toWireCoreEvents_reports _ wireOrder.symbol events).exchange]
    exact h
  unfold acknowledgePlace? bookDeltaEvent?
  dsimp only
  obtain ⟨snapshot, hsnapshot⟩ := Option.isSome_iff_exists.mp
    (bookSnapshot?_isSome hexchange wireOrder.symbol _)
  rw [hsnapshot, Option.map_some, Option.bind_some]
  split
  · rfl
  · rw [Option.isSome_map]
    exact orderStatusForPlace?_isSome hfills hsum

/-- On the grid the checked match is that of exact arithmetic. -/
theorem matchInBook?_grid [Rounding] (hD : Grid D) {b : OrderBook} {order : Order}
    (hb : b.All (Order.OnGrid D)) (horder : order.OnGrid D) :
    matchInBook? fuel b order = @matchInBook? Rounding.exact fuel b order := by
  unfold matchInBook? matchOrder?
  rw [(cascade_grid hD fuel (Exchange.all_linkOco hb order) horder).1]

/-- The checked match returns what the match does, where its walk is in range. -/
theorem matchInBook?_eq [Rounding] (hD : Grid D) {b : OrderBook} {order : Order}
    (hb : b.All (Order.OnGrid D)) (horder : order.OnGrid D) (hsized : b.All Order.Sized)
    (hfits : Fits fuel (linkOco b order) order) :
    matchInBook? fuel b order = some (matchInBook fuel b order) := by
  rw [matchInBook?_grid hD hb horder, (Exchange.matchInBook_grid hD hb horder).1]
  -- the check of a fill-or-kill order holds the only sum that is made before the match
  have hcheck := (preCheck?_isSome_iff (Exchange.all_linkOco hsized order)
    ⟨horder.positive, hfits.shows⟩).mpr hfits.walk
  have hmatched : (@matchInBook? Rounding.exact fuel b order).isSome = true := by
    unfold matchInBook? matchOrder?
    rw [Option.isSome_map]
    exact hcheck
  obtain ⟨matched, hmatched⟩ := Option.isSome_iff_exists.mp hmatched
  rw [hmatched]
  exact congrArg some (matchOrder?_exact hmatched).symm

/-- Placing an order adds nothing up out of range where its match keeps in range. -/
theorem placeOrder?_isSome [Rounding] (hD : Grid D) {requestId : Uuid} {order : EngineOrder}
    (h : st.exchange.InRange) (hx : st.exchange.OnGrid D)
    (hfits : st.RequestFits fuel (.place requestId order))
    (hgrid : PlacedOnGrid D [.place requestId order]) :
    (st.placeOrder? fuel requestId order).isSome = true := by
  unfold placeOrder?
  cases hvalid : validateWireOrder requestId order with
  | some rejected => rfl
  | none =>
    have horder := hgrid requestId order List.mem_cons_self hvalid
    dsimp only
    split_ifs with hhalted
    · rfl
    · split
      · rfl
      · next st₁ happ =>
        obtain ⟨hdisk, hexchange, _⟩ := appendCommand_ok happ
        have hcall := hfits hvalid hhalted hdisk
        have hbook : st₁.bookOf order.symbol = st.bookOf order.symbol := by
          rw [← bookOf_exchange, hexchange]
          rfl
        have hmatched : matchInBook? fuel (st.bookOf order.symbol) (toCoreOrder order) =
            some (matchInBook fuel (st.bookOf order.symbol) (toCoreOrder order)) :=
          matchInBook?_eq hD (hx.bookOf order.symbol) horder (h order.symbol).1 hcall
        rw [hbook, hmatched, Option.bind_some]
        cases hmatch : matchInBook fuel (st.bookOf order.symbol) (toCoreOrder order) with
        | none => rfl
        | some r =>
          obtain ⟨book, events⟩ := r
          obtain ⟨⟨hall, hlevels⟩, hfills, hsum⟩ := h.matchInBook hD hx horder hcall hmatch
          -- what is left to add up is the published book and the fills of the order
          dsimp only
          split
          · rfl
          · rw [Option.isSome_map]
            refine acknowledgePlace?_isSome ?_ hfills hsum
            have hbooks : st₁.books.insert order.symbol book =
                st.books.insert order.symbol book := by
              rw [show st₁.books = st.books from congrArg Exchange.books hexchange]
            exact h.insert hall hlevels hbooks

/-- One request of a run. A request that fails leaves the state as the failure left it. -/
def requestStep [Rounding] (fuel : ℕ) (st : EngineState) (req : EngineRequest) :
    Option EngineState :=
  (st.handleRequest fuel req).map Prod.snd

/-- A request that keeps its match in range leaves the exchange in range. -/
theorem requestStep_inRange [Rounding] (hD : Grid D) {req : EngineRequest}
    (h : st.exchange.InRange ∧ st.exchange.OnGrid D) (hfits : st.RequestFits fuel req)
    (hgrid : PlacedOnGrid D [req]) (hstep : st.requestStep fuel req = some st') :
    st'.exchange.InRange ∧ st'.exchange.OnGrid D := by
  obtain ⟨r, hreq, rfl⟩ := Option.map_eq_some_iff.mp hstep
  exact handleRequest_inRange hD h hfits hgrid hreq

end EngineState

/-! ### Runs in range and out of it -/

/-- A limit order to sell of the largest quantity there is. -/
def largestOffer (id : Uuid) : EngineOrder := wireLimit id 10 .sell 100 maxDecimal .cancelTaker

/-- A small offer and the largest one at a worse price; an order that must be filled by the first
takes it, and once the other is cancelled there is room for the largest offer again. -/
def roomyRun : List EngineRequest :=
  [.place 0 (wireLimit 1 10 .sell 99 (10 ^ 28) .cancelTaker), .place 1 (largestOffer 2),
    .place 2 { wireLimit 3 11 .buy 100 (10 ^ 28) .cancelTaker with orderType := .fok },
    .cancel 3 "BTCUSDT" 2, .place 4 (largestOffer 4)]

/-- The quantities are whole numbers. -/
theorem roomyRun_onGrid : PlacedOnGrid (decimalsOf 28) roomyRun := by
  have hone : (10 ^ 28 : Decimal) ∈ decimalsOf 28 := ⟨1, by decide, by decide⟩
  have hlargest : maxDecimal ∈ decimalsOf 28 := ⟨maxMantissa, le_refl _, by decide⟩
  intro requestId order hmem _
  simp only [roomyRun, List.mem_cons, List.not_mem_nil, or_false, EngineRequest.place.injEq,
    reduceCtorEq, false_or] at hmem
  rcases hmem with ⟨_, rfl⟩ | ⟨_, rfl⟩ | ⟨_, rfl⟩ | ⟨_, rfl⟩
  · exact ⟨by decide, hone, by rintro _ ⟨⟩⟩
  · exact ⟨by decide, hlargest, by rintro _ ⟨⟩⟩
  · exact ⟨by decide, hone, by rintro _ ⟨⟩⟩
  · exact ⟨by decide, hlargest, by rintro _ ⟨⟩⟩

end CryptoCex.Server
