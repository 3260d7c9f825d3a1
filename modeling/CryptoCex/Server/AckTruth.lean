import CryptoCex.Server.Acks
import CryptoCex.Server.OnGrid

/-!
# Acknowledgements in every run

`ack_truthful_iff`: in every run with restarts, the acknowledgement of a placed order says what
became of the order exactly when its call is legible. The status compares a sum of fills with a
quantity, so the theorem is about quantities on a grid: the sums of the fills of an order are what
its quantity is short of what is left (`Drawn`), and rounding leaves them alone.
-/

namespace CryptoCex.Server

open CryptoCex.Core CryptoCex.Core.OrderBook Loop
open Proto (EngineOrder EngineRequest EngineResponse OrderStatus SequencedEngineEvent TradeFill)

/-! ## What an order takes -/

/-- Taken one after the other from a quantity, they leave it on the grid. -/
def Drawn (D : Set Decimal) (quantity : Decimal) (taken : List Decimal) : Prop :=
  ∀ first, first <+: taken → quantity - first.sum ∈ D

section Drawn

variable {D : Set Decimal} {q x : Decimal} {taken : List Decimal} {id : Uuid}
  {events events' : List EngineEvent}

/-- Nothing is taken by an order that is no taker. -/
theorem takenBy_eq_nil (h : ∀ f, EngineEvent.fill f ∈ events → f.takerOrderId ≠ id) :
    takenBy id events = [] := by
  refine List.filterMap_eq_nil_iff.mpr ?_
  intro e he
  cases e with
  | fill f => exact if_neg (h f he)
  | rested | cancelled | stopTriggered => rfl

theorem takenBy_of_unfilled (h : ∀ f, EngineEvent.fill f ∉ events) (id : Uuid) :
    takenBy id events = [] :=
  takenBy_eq_nil fun f hf => absurd hf (h f)

theorem drawn_nil (hq : q ∈ D) : Drawn D q [] := by
  intro first hfirst
  rw [List.prefix_nil.mp hfirst, List.sum_nil, Int.sub_zero]
  exact hq

/-- One more quantity is drawn if what is left is on the grid. -/
theorem Drawn.concat (h : Drawn D q taken) (hx : q - (taken.sum + x) ∈ D) :
    Drawn D q (taken ++ [x]) := by
  intro first hfirst
  rcases List.prefix_concat_iff.mp hfirst with rfl | hfirst
  · rwa [List.sum_append, List.sum_singleton]
  · exact h first hfirst

/-- A sum of what is drawn from a quantity on the grid is not rounded. -/
theorem Drawn.sum_eq [Rounding] (hD : Grid D) (hq : q ∈ D) (h : Drawn D q taken) :
    Decimal.sum taken = taken.sum := by
  unfold Decimal.sum
  induction taken using List.reverseRecOn with
  | nil => rfl
  | append_singleton taken x ih =>
    have hpart : Drawn D q taken := fun first hfirst =>
      h first (hfirst.trans (List.prefix_append taken [x]))
    have hleft := h _ (List.prefix_refl _)
    have hsum : q - (q - (taken ++ [x]).sum) = (taken ++ [x]).sum := by lia
    have hround := hD.round_sub q hq _ hleft
    rw [hsum] at hround
    rw [List.foldl_append, ih hpart, List.foldl_cons, List.foldl_nil, Decimal.add]
    rwa [List.sum_append, List.sum_singleton] at hround ⊢

end Drawn

/-! ## What an order takes in its pass -/

section Pass

variable {D : Set Decimal} [Rounding] (hD : Grid D) {b b' : OrderBook} {taker : Order} {fuel : ℕ}
  {events : List EngineEvent}

/-- The fills so far leave the quantity on the grid, and at least what the taker has left. -/
structure Draws (D : Set Decimal) (taker : Order) (s : MatchState) : Prop where
  onGrid : s.OnGrid D
  same : s.taker.id = taker.id
  drawn : Drawn D taker.remaining (takenBy taker.id s.events)
  left : s.taker.remaining ≤ taker.remaining - (takenBy taker.id s.events).sum

omit [Rounding] in
/-- A turn that trades nothing draws nothing. -/
theorem Draws.of_unfilled {s s' : MatchState} (h : Draws D taker s) (hgrid : s'.OnGrid D)
    (hsame : s'.taker.id = s.taker.id) {new : List EngineEvent} (hnew : ∀ f, .fill f ∉ new)
    (hevents : s'.events = s.events ++ new) (hleft : s'.taker.remaining ≤ s.taker.remaining) :
    Draws D taker s' := by
  have htaken : takenBy taker.id s'.events = takenBy taker.id s.events := by
    rw [hevents, takenBy_append, takenBy_of_unfilled hnew, List.append_nil]
  refine ⟨hgrid, hsame.trans h.same, ?_, ?_⟩
  · rw [htaken]
    exact h.drawn
  · rw [htaken]
    exact hleft.trans h.left

include hD

/-- A trade draws what the taker gives for it. -/
theorem Draws.trade {s s' : MatchState} {m : Order} {price : Decimal} (h : Draws D taker s)
    (hm : m.OnGrid D) (hgrid : s'.OnGrid D) {new : List EngineEvent} (hnew : ∀ f, .fill f ∉ new)
    (htaker : s'.taker =
      s.taker.withRemaining (s.taker.remaining - (fillOf s.taker m price).quantity))
    (hevents : s'.events = s.events ++ [.fill (fillOf s.taker m price)] ++ new) :
    Draws D taker s' := by
  have hqty := fillOf_quantity_mem h.onGrid.remaining hm price
  have hle := fillOf_quantity_le_taker s.taker m price
  have hleft := h.left
  have hfill : takenBy taker.id [.fill (fillOf s.taker m price)] =
      [(fillOf s.taker m price).quantity] := by
    have hid : (fillOf s.taker m price).takerOrderId = taker.id := h.same
    simp [takenBy, hid]
  -- the fill is one more draw
  have htaken : takenBy taker.id s'.events =
      takenBy taker.id s.events ++ [(fillOf s.taker m price).quantity] := by
    rw [hevents, takenBy_append, takenBy_append, takenBy_of_unfilled hnew, List.append_nil, hfill]
  -- what is left lies on the grid again, so the subtraction was exact
  have hrest := hD.sub_mem _ (h.drawn _ (List.prefix_refl _)) _ hqty (hle.trans hleft)
  refine ⟨hgrid, ?_, ?_, ?_⟩
  · rw [htaker]
    exact h.same
  · rw [htaken]
    refine h.drawn.concat ?_
    rwa [Int.sub_sub] at hrest
  · rw [htaken, htaker, List.sum_append, List.sum_singleton, Order.remaining_withRemaining]
    lia

/-- A turn draws its fill from what is left of the taker. -/
theorem draws_of_turn {s : MatchState} {t : Turn MatchState (MatchState × MatchExit)}
    (hspec : TurnSpec s t) (h : Draws D taker s) : Draws D taker (stateAfter t) := by
  have hgrid := hspec.onGrid hD h.onGrid
  have hnonneg := h.onGrid.nonneg
  cases hspec with
  | exhausted => exact h
  | cancelTaker => exact h.of_unfilled hgrid rfl (by simp) rfl (le_refl _)
  | cancelMaker => exact h.of_unfilled hgrid rfl (by simp) rfl (le_refl _)
  | decrementTaker => exact h.of_unfilled hgrid rfl (by simp) rfl hnonneg
  -- the taker loses what the maker had left, and trades nothing
  | @decrementMaker price m rest hm =>
    have hpos := (h.onGrid.book.all m hm.mem_pool).positive
    refine h.of_unfilled hgrid rfl (by simp) rfl ?_
    simp only [stateAfter, Order.remaining_withRemaining]
    lia
  | decrementBoth => exact h.of_unfilled hgrid rfl (by simp) rfl hnonneg
  -- the two turns that trade
  | @fillPart price m rest hm =>
    refine h.trade hD (h.onGrid.book.all m hm.mem_pool) hgrid (fun _ => List.not_mem_nil) rfl ?_
    rw [List.append_nil]
    rfl
  | @fillWhole price m rest hm =>
    exact h.trade hD (h.onGrid.book.all m hm.mem_pool) hgrid (fill_notMem_oco _ _) rfl rfl

/-- The fills of its own pass draw on an order. -/
theorem runMatchingLoop_drawn (hb : b.All (Order.OnGrid D)) (ht : taker.OnGrid D)
    {r : OrderBook × List EngineEvent × List Order}
    (hrun : @runMatchingLoop Rounding.exact fuel b taker = some r) :
    Drawn D taker.remaining (takenBy taker.id r.2.1) := by
  have hstart : Draws D taker (b.enterLoop taker) := by
    refine ⟨onGrid_enterLoop hb ht, rfl, drawn_nil ht.remaining, ?_⟩
    exact (Int.sub_zero _).ge
  have hturn : ∀ t u, Draws D taker t → @matchTurn Rounding.exact t = some u →
      Draws D taker (stateAfter u) := fun t u ht hu =>
    draws_of_turn hD (turnSpec_of_eq ht.onGrid.book.noEmpty hu) ht
  unfold runMatchingLoop at hrun
  cases hloop : loop (@matchTurn Rounding.exact) fuel (b.enterLoop taker) with
  | none =>
    rw [hloop] at hrun
    cases hrun
  | some out =>
    rw [hloop] at hrun
    cases hrun
    obtain ⟨s, exit⟩ := out
    have hs : Draws D taker s :=
      loop_invariant (Draws D taker) (fun r => Draws D taker r.1) hstart
        (fun t t' ht hnext => hturn t _ ht hnext) (fun t r ht hdone => hturn t _ ht hdone) hloop
    cases exit with
    | takerConsumed => exact hs.drawn
    | exhausted =>
      obtain ⟨_, hoco⟩ := within_ite_maybeCancelOco
        (s.book.finalizeTaker s.taker s.hadFills).1 s.taker.id
        (takerTerminal s.taker (s.book.finalizeTaker s.taker s.hadFills).2)
      have hfinal := fill_notMem_finalize s.book s.taker s.hadFills
      -- after the loop nothing is filled
      have htaken : takenBy taker.id (OrderBook.afterLoop s .exhausted).2.1 =
          takenBy taker.id s.events := by
        simp only [OrderBook.afterLoop, takenBy_append, takenBy_of_unfilled hfinal,
          takenBy_of_unfilled hoco, List.append_nil]
      rw [htaken]
      exact hs.drawn

/-- The fills of its whole call draw on an order: later passes trade as other takers. -/
theorem matchOrder_drawn (hsound : b.Sound) (htaker : taker.Admissible)
    (hfresh : ∀ o ∈ b.pool, o.id ≠ taker.id) (hb : b.All (Order.OnGrid D)) (ht : taker.OnGrid D)
    (hcall : @matchOrder Rounding.exact fuel b taker = some (b', events)) :
    Drawn D taker.remaining (takenBy taker.id events) := by
  have hspec := matchOrder_spec htaker hcall
  generalize hr : (b', events) = r at hspec
  cases hspec with
  | rejected reject hpre =>
    cases hr
    have hnone : takenBy taker.id [reject] = [] := by
      rcases preCheck_eq_some hpre with ⟨_, rfl⟩ | ⟨_, rfl⟩
      · rfl
      · rfl
    rw [hnone]
    exact drawn_nil ht.remaining
  | registered =>
    cases hr
    exact drawn_nil ht.remaining
  | matched _ hactive hloop =>
    have hready : taker.Ready := ⟨htaker.positive, hactive, htaker.priced⟩
    -- what comes after the first pass names other takers
    obtain ⟨c₁, m, own, hit, later, hrun, _, _, _, _, _, _, htold, _⟩ :=
      callTold_of_cascade hsound hready hfresh hloop
    subst hr
    have htaken : takenBy taker.id events = takenBy taker.id own := by
      have hsplit : events = own ++ later := htold.split
      have hlater : takenBy taker.id later = [] := takenBy_eq_nil htold.others
      rw [hsplit, takenBy_append, hlater, List.append_nil]
    rw [htaken]
    exact runMatchingLoop_drawn hD hb ht hrun

/-- The status is read off a sum that is not rounded. -/
theorem orderStatusForPlace_grid {id : Uuid} {q : Decimal} (hq : q ∈ D)
    (h : Drawn D q (takenBy id events)) :
    orderStatusForPlace id q events = @orderStatusForPlace Rounding.exact id q events := by
  rw [orderStatusForPlace_of_sum, h.sum_eq hD hq, @orderStatusForPlace_of_sum Rounding.exact,
    Decimal.sum_exact]

end Pass

/-! ## Reachable states -/

namespace EngineState

variable {st st' init : EngineState}

/-- What every run with restarts keeps: the command log places admissible orders on the grid
under distinct ids, and the books hold orders of the log. -/
structure Grounded (D : Set Decimal) (past : List EngineOp) (st : EngineState) : Prop where
  whole : st.Whole
  ids : ∀ w ∈ Exchange.placedOrders st.commands, w.id ∈ [] ++ placedIds (requestsOf past)
  placeable : Placeable st.commands
  orders : ∀ o ∈ Exchange.placedOrders st.commands, o.OnGrid D
  known : st.exchange.Known (Exchange.placedOrders st.commands)
  books : st.exchange.OnGrid D

variable {D : Set Decimal}

/-- An id that was not placed is in no placement of the log. -/
theorem Grounded.fresh {past : List EngineOp} {x : Uuid} (h : Grounded D past st)
    (hfresh : x ∉ placedIds (requestsOf past)) :
    x ∉ (Exchange.placedOrders st.commands).map (·.id) := by
  intro hmem
  rcases List.mem_map.mp hmem with ⟨w, hw, rfl⟩
  exact hfresh (h.ids w hw)

/-- What is asked of the next step: a placed order has an id of its own and is on the grid. -/
def Enters (D : Set Decimal) (past : List EngineOp) (op : EngineOp) : Prop :=
  ∀ requestId order, op = .request (.place requestId order) →
    order.id ∉ placedIds (requestsOf past) ∧
      (validateWireOrder requestId order = none → (toCoreOrder order).OnGrid D)

/-- Every operation keeps the engine grounded. -/
theorem Grounded.step [Rounding] (hD : Grid D) {past : List EngineOp} {op : EngineOp}
    (h : Grounded D past st) (henters : Enters D past op) (hstep : st.step fuel op = some st') :
    Grounded D (past ++ [op]) st' := by
  cases op with
  | request req =>
    rcases step_request hstep with ⟨result, hhandle⟩
    rcases handleRequest_logs hhandle with ⟨new, hext, _⟩
    have hids := handleRequest_logged_ids h.ids hhandle
    rw [← show requestsOf (past ++ [.request req]) = requestsOf past ++ [req] from
      requestsOf_append ..] at hids
    cases handleRequest_effect hhandle with
    | @place requestId order hvalid _ _ hlogged hplace =>
      obtain ⟨hunused, hgrid⟩ := henters requestId order rfl
      have hnew := h.fresh hunused
      have hadm := admissible_of_valid hvalid
      have hkept := hplace.known_of_grid hD h.books h.known (by
        rintro _ ⟨⟩
        exact ⟨hgrid hvalid, hadm, hnew⟩)
      refine ⟨h.whole.extends hext, hids, ?_, ?_, ?_, hkept.2⟩
      · rw [hlogged]
        exact h.placeable.place hvalid hnew
      · rw [hlogged, Exchange.placedOrders_append]
        intro o ho
        rcases List.mem_append.mp ho with ho | ho
        · exact h.orders o ho
        · rw [List.mem_singleton.mp ho]
          exact hgrid hvalid
      · rw [hlogged, Exchange.placedOrders_append]
        exact hkept.1
    | cancels ids _ hdoes =>
      have horders : Exchange.placedOrders st'.commands = Exchange.placedOrders st.commands := by
        rw [hdoes.logged, Exchange.placedOrders_append, Exchange.placedOrders_cancels,
          List.append_nil]
      have hkept := hdoes.steps.known_of_cancels hD h.books h.known
      refine ⟨h.whole.extends hext, hids, ⟨?_, ?_⟩, ?_, ?_, hkept.2⟩
      · rw [horders]
        exact h.placeable.unique
      · rw [horders]
        exact h.placeable.admissible
      · rw [horders]
        exact h.orders
      · rw [horders]
        exact hkept.1
  | restart =>
    rcases reopen_spec h.whole hstep with ⟨hcommands, hlog, _, hreplay⟩
    -- what replay rebuilds is sound whatever was there before the restart
    have hreplayed : Exchange.Replayed fuel st.commandWal.entries st'.exchange := hreplay
    have hkept := hreplayed.known_of_grid hD h.placeable h.orders
    refine ⟨?_, ?_, ?_, ?_, ?_, hkept.2⟩
    · rw [Whole, hlog]
      exact h.whole
    · rw [hcommands, requestsOf_append]
      exact fun w hw => by simpa [requestsOf] using h.ids w hw
    · rw [hcommands]
      exact h.placeable
    · rw [hcommands]
      exact h.orders
    · rw [hcommands]
      exact hkept.1

/-- So does every run. -/
theorem grounded_of_runOps [Rounding] (hD : Grid D) {idSource : Stream' Uuid}
    {clock : Stream' String} {disk : Stream' Bool} {snapshotDepth : ℕ}
    (hopen : EngineState.open fuel [] [] idSource clock disk snapshotDepth = some init)
    {ops : List EngineOp} (hfresh : (placedIds (requestsOf ops)).Nodup)
    (hgrid : PlacedOnGrid D (requestsOf ops)) (hrun : init.runOps fuel ops = some st) :
    Grounded D ops st := by
  refine runOps_invariant (Grounded D) (fun past _ op => Enters D past op)
    (fun past mid op mid' _ hinv hok hstep => hinv.step hD hok hstep) ?_ ?_ hrun
  · -- at the start nothing has been placed
    have hcommands : init.commands = [] := by
      cases hopen
      rfl
    refine ⟨whole_open hopen, ?_, ?_, ?_, ?_, ?_⟩
    · simp [hcommands, Exchange.placedOrders]
    · rw [hcommands]
      exact ⟨List.nodup_nil, by simp [Exchange.placedOrders]⟩
    · simp [hcommands, Exchange.placedOrders]
    · rw [hcommands, exchange_open hopen]
      exact Exchange.known_empty
    · rw [exchange_open hopen]
      exact Exchange.onGrid_empty D
  · -- each placement of the run is fresh and on the grid
    rintro l op l' mid rfl _ requestId order rfl
    rw [requestsOf_append] at hfresh hgrid
    refine ⟨fresh_of_nodup hfresh (requestsOf l) _ (requestsOf l') rfl requestId order rfl, ?_⟩
    exact hgrid requestId order (List.mem_append_right _ List.mem_cons_self)

/-! ## Acknowledgements -/

/-- The acknowledgement of a placed order is truthful if and only if the order is a stop or
the events of its call tell what becomes of it. -/
theorem ack_truthful_iff [Rounding] (hD : Grid D) {idSource : Stream' Uuid}
    {clock : Stream' String} {disk : Stream' Bool} {snapshotDepth : ℕ}
    (hopen : EngineState.open fuel [] [] idSource clock disk snapshotDepth = some init)
    {ops : List EngineOp} {requestId ackId orderId : Uuid} {order : EngineOrder}
    (hfresh : (placedIds (requestsOf (ops ++ [.request (.place requestId order)]))).Nodup)
    (hgrid : PlacedOnGrid D (requestsOf (ops ++ [.request (.place requestId order)])))
    (hrun : init.runOps fuel ops = some st) {bundle : ResponseBundle} {status : OrderStatus}
    {fills : List TradeFill} {seq : ℕ}
    (h : st.handleRequest fuel (.place requestId order) = some (.ok bundle, st'))
    (hack : bundle.response = .ack ackId (.order orderId status fills seq)) :
    Truthful status order.quantity ((fillsNaming order.id bundle.events).map (·.quantity))
        (order.id ∈ (st'.bookOf order.symbol).live.map (·.id)) ↔
      ((toCoreOrder order).orderType.isStop = false →
        Legible fuel (linkOco (st.bookOf order.symbol) (toCoreOrder order))
          (toCoreOrder order)) := by
  rw [requestsOf_append] at hfresh hgrid
  have hgrounded := grounded_of_runOps hD hopen (nodup_past hfresh rfl)
    (hgrid.mono (List.subset_append_left _ _)) hrun
  have hnew : order.id ∉ placedIds (requestsOf ops) :=
    fresh_of_nodup hfresh (requestsOf ops) _ [] rfl requestId order rfl
  rcases placeOrder_acknowledged h hack with
    ⟨book, events, hvalid, hmatch, haccepted, rfl, hbooks, hfills⟩
  have horder : (toCoreOrder order).OnGrid D :=
    hgrid requestId order (List.mem_append_right _ List.mem_cons_self) hvalid
  have hbook : st'.bookOf order.symbol = book := by
    rw [bookOf_insert hbooks, if_pos rfl]
  rw [hfills, hbook]
  have hsound : (linkOco (st.bookOf order.symbol) (toCoreOrder order)).Sound :=
    Exchange.sound_linkOco (hgrounded.known.bookOf order.symbol).1 _
  have hunused : ∀ o ∈ (linkOco (st.bookOf order.symbol) (toCoreOrder order)).pool,
      o.id ≠ (toCoreOrder order).id := hgrounded.known.fresh_linkOco (hgrounded.fresh hnew)
  have hbookOf : (st.bookOf order.symbol).All (Order.OnGrid D) :=
    hgrounded.books.bookOf order.symbol
  have hall := Exchange.all_linkOco hbookOf (toCoreOrder order)
  -- from here on the call is one of exact arithmetic
  have hadm := admissible_of_valid hvalid
  rw [(Exchange.matchInBook_grid hD hbookOf horder).1] at hmatch
  have hdrawn := matchOrder_drawn hD hsound hadm hunused hall horder hmatch
  have hstatus : orderStatusForPlace order.id order.quantity events =
      @orderStatusForPlace Rounding.exact order.id order.quantity events :=
    orderStatusForPlace_grid hD horder.remaining hdrawn
  rw [hstatus]
  exact status_truthful_iff hsound hadm hunused rfl hmatch haccepted

/-- What an acknowledged placement reports: the status, the quantities of the fills that
name the order, and whether it is live. -/
def ackView (id : Uuid) (symbol : String) :
    Except ServerError ResponseBundle × EngineState → Option (OrderStatus × List Decimal × Bool)
  | (.ok bundle, st) =>
    match bundle.response with
    | .ack _ (.order _ status _ _) => some (status, (fillsNaming id bundle.events).map (·.quantity),
        decide (id ∈ (st.bookOf symbol).live.map (·.id)))
    | _ => none
  | (.error _, _) => none

theorem ackView_eq_some {id : Uuid} {symbol : String} {status : OrderStatus} {qs : List Decimal}
    {live : Bool} {r : Except ServerError ResponseBundle × EngineState}
    (h : ackView id symbol r = some (status, qs, live)) :
    ∃ bundle ackId orderId fills seq, r.1 = .ok bundle ∧
      bundle.response = .ack ackId (.order orderId status fills seq) ∧
      (fillsNaming id bundle.events).map (·.quantity) = qs ∧
      (live = true ↔ id ∈ (r.2.bookOf symbol).live.map (·.id)) := by
  unfold ackView at h
  split at h
  · next bundle st =>
    split at h
    · next ackId orderId status' fills seq hresponse =>
      cases h
      exact ⟨bundle, ackId, orderId, fills, seq, rfl, hresponse, rfl, by simp⟩
    · cases h
  · cases h

/-- Order 3 meets order 1 of its own user and loses 2, then trades the other 3 with order 2:
it is reported as filled. -/
theorem worn_order_reported_filled : ∃ st bundle st' ackId orderId status fills seq,
    emptyEngine.runOps 10 [.request (.place 0 (wireLimit 1 10 .sell 100 2 .decrement)),
        .request (.place 0 (wireLimit 2 11 .sell 100 3 .decrement))] = some st ∧
      st.handleRequest 10 (.place 0 (wireLimit 3 10 .buy 100 5 .decrement)) =
        some (.ok bundle, st') ∧
      bundle.response = .ack ackId (.order orderId status fills seq) ∧
      ¬ Truthful status 5 ((fillsNaming 3 bundle.events).map (·.quantity))
        (3 ∈ (st'.bookOf "BTCUSDT").live.map (·.id)) := by
  have hview : ((emptyEngine.runOps 10 [
      .request (.place 0 (wireLimit 1 10 .sell 100 2 .decrement)),
      .request (.place 0 (wireLimit 2 11 .sell 100 3 .decrement))]).bind fun st =>
        (st.handleRequest 10 (.place 0 (wireLimit 3 10 .buy 100 5 .decrement))).bind
          (ackView 3 "BTCUSDT")) = some (.filled, [3], false) := by
    decide +kernel
  rcases Option.bind_eq_some_iff.mp hview with ⟨st, hrun, hrest⟩
  rcases Option.bind_eq_some_iff.mp hrest with ⟨⟨result, st'⟩, hhandle, hack⟩
  rcases ackView_eq_some hack with ⟨bundle, ackId, orderId, fills, seq, rfl, hresponse, hqs, _⟩
  refine ⟨st, bundle, st', ackId, orderId, .filled, fills, seq, hrun, hhandle, hresponse, ?_⟩
  intro htruthful
  rw [hqs] at htruthful
  exact absurd (htruthful.filled.mp rfl) (by decide)

/-- The theorem on an order that trades and rests, with mantissas of 96 bits. -/
theorem resting_order_reported_partial : ∃ st bundle st' ackId orderId fills seq,
    @runOps Rounding.mantissa96 10 emptyEngine
        [.request (.place 0 (wireLimit 1 10 .sell 100 5 .decrement)), .restart] = some st ∧
      @handleRequest Rounding.mantissa96 10 st (.place 0 (wireLimit 2 11 .buy 100 7 .decrement)) =
        some (.ok bundle, st') ∧
      bundle.response = .ack ackId (.order orderId .partiallyFilled fills seq) ∧
      Truthful .partiallyFilled 7 ((fillsNaming 2 bundle.events).map (·.quantity))
        (2 ∈ (st'.bookOf "BTCUSDT").live.map (·.id)) ∧
      Legible 10 (linkOco (st.bookOf "BTCUSDT")
        (toCoreOrder (wireLimit 2 11 .buy 100 7 .decrement)))
        (toCoreOrder (wireLimit 2 11 .buy 100 7 .decrement)) := by
  have hview : ((@runOps Rounding.mantissa96 10 emptyEngine [
      .request (.place 0 (wireLimit 1 10 .sell 100 5 .decrement)), .restart]).bind fun st =>
        (@handleRequest Rounding.mantissa96 10 st
          (.place 0 (wireLimit 2 11 .buy 100 7 .decrement))).bind (ackView 2 "BTCUSDT")) =
        some (.partiallyFilled, [5], true) := by
    decide +kernel
  rcases Option.bind_eq_some_iff.mp hview with ⟨st, hrun, hrest⟩
  rcases Option.bind_eq_some_iff.mp hrest with ⟨⟨result, st'⟩, hhandle, hack⟩
  rcases ackView_eq_some hack with ⟨bundle, ackId, orderId, fills, seq, rfl, hresponse, hqs, hlive⟩
  -- five of seven are filled and the rest is live
  have htruthful : Truthful .partiallyFilled 7 ((fillsNaming 2 bundle.events).map (·.quantity))
      (2 ∈ (st'.bookOf "BTCUSDT").live.map (·.id)) := by
    rw [hqs, ← hlive]
    exact ⟨by decide, by decide, fun _ => by decide, by decide⟩
  refine ⟨st, bundle, st', ackId, orderId, fills, seq, hrun, hhandle, hresponse, htruthful, ?_⟩
  have hgrid : PlacedOnGrid (decimalsOf 0) (requestsOf
      ([.request (.place 0 (wireLimit 1 10 .sell 100 5 .decrement)), .restart] ++
        [.request (.place 0 (wireLimit 2 11 .buy 100 7 .decrement))])) := by
    intro requestId order hmem _
    simp only [List.cons_append, List.nil_append, requestsOf, List.mem_cons, List.not_mem_nil,
      or_false, EngineRequest.place.injEq] at hmem
    rcases hmem with ⟨-, rfl⟩ | ⟨-, rfl⟩
    · exact ⟨by decide, ⟨5, by decide, rfl⟩, by simp [toCoreOrder, wireLimit]⟩
    · exact ⟨by decide, ⟨7, by decide, rfl⟩, by simp [toCoreOrder, wireLimit]⟩
  let _ : Rounding := Rounding.mantissa96
  exact (ack_truthful_iff (grid_decimalsOf (Nat.zero_le 28)) (emptyEngine_open 10) (by decide)
    hgrid hrun hhandle hresponse).mp htruthful rfl

end EngineState

end CryptoCex.Server
