import CryptoCex.Server.Acks

/-!
# Orders that leave no trace

What the engine does with an order it declines. Most declined orders never reach a book:
they fail the admission checks, their market is halted, the command log cannot be written
or the pre-check rejects them. An order that reaches its book can still come to nothing
(`Vanishes`), whether the client is then told of a rejection or of a cancellation.

`Untouched` says that an order is in no book and in no fill. Handling a request keeps this
of every order that the request does not place, and of the placed order if it is declined
(`Untouched.handleRequest`). The fills are those of the books: the fills of an order that
is rejected after its match are never logged.
-/

namespace CryptoCex.Server

open CryptoCex.Core CryptoCex.Core.OrderBook Loop
open Proto (EngineOrder EngineRequest)

/-- The engine, in this state, makes nothing of the order. -/
inductive Declines (st : EngineState) (requestId : Uuid) (order : EngineOrder) : Prop where
  /-- It fails the admission checks. -/
  | invalid (h : validateWireOrder requestId order ≠ none)
  /-- Its market is halted. -/
  | halted (h : order.symbol ∈ st.haltedSymbols)
  /-- The command log cannot be written. -/
  | unlogged (h : st.disk.head = false)
  /-- The pre-check of a fill-or-kill or post-only order fails. -/
  | prechecked (h : (st.bookOf order.symbol).preCheck (toCoreOrder order) ≠ none)
  /-- It neither trades nor rests. -/
  | vanishes (hactive : (toCoreOrder order).orderType.isStop = false)
      (h : Vanishes (EngineState.linkOco (st.bookOf order.symbol) (toCoreOrder order))
        (toCoreOrder order))

/-- The fills among the events. -/
def fillsIn (events : List EngineEvent) : List Fill :=
  events.filterMap fun e => match e with
    | .fill f => some f
    | _ => none

/-- The fills of a log are those among its events. -/
theorem mem_fillsIn {events : List EngineEvent} {f : Fill} :
    f ∈ fillsIn events ↔ EngineEvent.fill f ∈ events := by
  rw [fillsIn, List.mem_filterMap]
  constructor
  · rintro ⟨e, he, hf⟩
    cases e with
    | fill g =>
      cases hf
      exact he
    | rested | cancelled | stopTriggered => cases hf
  · intro he
    exact ⟨_, he, rfl⟩

/-- Neither side of the fill is the order. -/
def Spares (x : Uuid) (f : Fill) : Prop := f.takerOrderId ≠ x ∧ f.makerOrderId ≠ x

/-- A log that does not name an order spares it. -/
theorem spares_of_unnamed {x : Uuid} {events : List EngineEvent} {f : Fill}
    (h : x ∉ named events) (hf : EngineEvent.fill f ∈ events) : Spares x f := by
  constructor
  · rintro rfl
    exact h (List.mem_flatMap.mpr ⟨_, hf, by simp [EngineEvent.names]⟩)
  · rintro rfl
    exact h (List.mem_flatMap.mpr ⟨_, hf, by simp [EngineEvent.names]⟩)

/-! ## One call -/

section Call

variable {b b' : OrderBook} {taker : Order} {fuel : ℕ} {events : List EngineEvent}

/-- A taker that the pre-check rejects or that vanishes is in no fill of its call, and not
in the book after it. -/
theorem matchOrder_declined (hb : b.Sound) (htaker : taker.Admissible)
    (hfresh : ∀ o ∈ b.pool, o.id ≠ taker.id)
    (hdeclined : b.preCheck taker ≠ none ∨ taker.orderType.isStop = false ∧ Vanishes b taker)
    (hcall : b.matchOrder fuel taker = some (b', events)) :
    taker.id ∉ b'.toPool.ids ∧ ∀ f, EngineEvent.fill f ∈ events → Spares taker.id f := by
  have hspec := matchOrder_spec htaker hcall
  generalize hr : (b', events) = r at hspec
  cases hspec with
  | rejected reject hpre =>
    cases hr
    constructor
    · intro hmem
      rcases Multiset.mem_map.mp hmem with ⟨o, ho, hid⟩
      exact hfresh o ho hid
    · intro f hf
      rcases preCheck_eq_some hpre with ⟨_, rfl⟩ | ⟨_, rfl⟩ <;> cases List.mem_singleton.mp hf
  | registered stops hpre hstop hins =>
    rcases hdeclined with hdeclined | ⟨hactive, _⟩
    · exact absurd hpre hdeclined
    · rw [hstop] at hactive
      cases hactive
  | matched hpre hactive hloop =>
    subst hr
    have hready : taker.Ready := ⟨htaker.positive, hactive, htaker.priced⟩
    have hwalk := (hdeclined.resolve_left fun hne => hne hpre).2
    rcases callTold_of_cascade hb hready hfresh hloop with
      ⟨c₁, _, own, hit, later, hrun, _, _, _, _, _, _, htold, _, hquiet, hgone⟩
    rcases hwalk.pass ⟨hb.book, hready, hfresh⟩ hrun with ⟨huntraded, hhit, hnowhere⟩
    refine ⟨(hgone hnowhere).1, ?_⟩
    intro f hf
    -- nothing was traded, so that nothing was triggered and the call ends with the pass
    have hevents : events = own := by
      rw [show events = own ++ later from htold.split, hquiet hhit, List.append_nil]
    rw [hevents] at hf
    exact absurd hf (fill_notMem_of_untraded huntraded f)

end Call

/-! ## One request -/

namespace EngineState

variable {fuel : ℕ} {st st' : EngineState}

/-- The fills that handling a request makes in the books. -/
def fillsMade (fuel : ℕ) (st : EngineState) : EngineRequest → List Fill
  | .place requestId order =>
    if validateWireOrder requestId order = none ∧ order.symbol ∉ st.haltedSymbols ∧
        st.disk.head = true then
      match matchInBook fuel (st.bookOf order.symbol) (toCoreOrder order) with
      | some (_, events) => fillsIn events
      | none => []
    else []
  | _ => []

/-- Only a placement that gets to its book makes fills. -/
theorem mem_fillsMade {req : EngineRequest} {f : Fill} (h : f ∈ st.fillsMade fuel req) :
    ∃ requestId order book events, req = .place requestId order ∧
      validateWireOrder requestId order = none ∧ order.symbol ∉ st.haltedSymbols ∧
      st.disk.head = true ∧
      matchInBook fuel (st.bookOf order.symbol) (toCoreOrder order) = some (book, events) ∧
      EngineEvent.fill f ∈ events := by
  cases req with
  | place requestId order =>
    dsimp only [fillsMade] at h
    split_ifs at h with hreaches
    · rcases hreaches with ⟨hvalid, htrading, hdisk⟩
      cases hmatch : matchInBook fuel (st.bookOf order.symbol) (toCoreOrder order) with
      | none =>
        rw [hmatch] at h
        cases h
      | some r =>
        rw [hmatch] at h
        exact ⟨requestId, order, r.1, r.2, rfl, hvalid, htrading, hdisk, hmatch, mem_fillsIn.mp h⟩
    · cases h
  | cancel | cancelAll | haltMarket | resumeMarket | snapshot | ping => cases h

/-- The book that an order with a fresh id is matched in. -/
theorem KnownAfter.linked {past : List EngineRequest} {requestId : Uuid} {order : EngineOrder}
    (hknown : KnownAfter past st) (hfresh : Fresh past (.place requestId order)) :
    (linkOco (st.bookOf order.symbol) (toCoreOrder order)).Sound ∧
      ∀ o ∈ (linkOco (st.bookOf order.symbol) (toCoreOrder order)).pool,
        o.id ≠ (toCoreOrder order).id :=
  ⟨Exchange.sound_linkOco (hknown.bookOf order.symbol).1 _,
    hknown.fresh_linkOco (hfresh.toCoreOrder rfl)⟩

/-- The match of a declined order that gets to its book. -/
theorem matchInBook_declined {past : List EngineRequest} {requestId : Uuid} {order : EngineOrder}
    {book : OrderBook} {events : List EngineEvent} (hknown : KnownAfter past st)
    (hfresh : Fresh past (.place requestId order)) (hdeclined : Declines st requestId order)
    (hvalid : validateWireOrder requestId order = none)
    (htrading : order.symbol ∉ st.haltedSymbols) (hdisk : st.disk.head = true)
    (hmatch : matchInBook fuel (st.bookOf order.symbol) (toCoreOrder order) =
      some (book, events)) :
    order.id ∉ book.toPool.ids ∧ ∀ f, EngineEvent.fill f ∈ events → Spares order.id f := by
  rcases hknown.linked hfresh with ⟨hsound, hnew⟩
  have hwhy : (linkOco (st.bookOf order.symbol) (toCoreOrder order)).preCheck
      (toCoreOrder order) ≠ none ∨ (toCoreOrder order).orderType.isStop = false ∧
        Vanishes (linkOco (st.bookOf order.symbol) (toCoreOrder order)) (toCoreOrder order) := by
    cases hdeclined with
    | invalid h => exact absurd hvalid h
    | halted h => exact absurd h htrading
    | unlogged h =>
      rw [hdisk] at h
      cases h
    | prechecked h =>
      refine .inl ?_
      rw [preCheck_linkOco]
      exact h
    | vanishes hactive h => exact .inr ⟨hactive, h⟩
  have hend := matchOrder_declined hsound (admissible_of_valid hvalid) hnew hwhy hmatch
  -- the core order keeps the id of the wire order
  exact hend

/-- The order is in no book, and in none of the fills. -/
structure Untouched (x : Uuid) (st : EngineState) (fills : List Fill) : Prop where
  absent : ∀ symbol, x ∉ (st.bookOf symbol).toPool.ids
  unfilled : ∀ f ∈ fills, Spares x f

theorem untouched_empty (x : Uuid) (h : st.exchange = Exchange.empty) : Untouched x st [] where
  absent := by
    intro symbol
    rw [← bookOf_exchange, h, ids_toPool]
    exact List.not_mem_nil
  unfilled := by simp

/-- What is not in a book and not placed does not get into a book. -/
theorem absent_of_handleRequest {past : List EngineRequest} {req : EngineRequest} {x : Uuid}
    {result : Except ServerError ResponseBundle} (hknown : KnownAfter past st)
    (hfresh : Fresh past req) (habsent : ∀ symbol, x ∉ (st.bookOf symbol).toPool.ids)
    (hdeclined : ∀ requestId order, req = .place requestId order → order.id = x →
      Declines st requestId order)
    (h : st.handleRequest fuel req = some (result, st')) (symbol : String) :
    x ∉ (st'.bookOf symbol).toPool.ids := by
  have heffect := handleRequest_effect h
  cases heffect with
  | @place requestId order hvalid htrading hdisk _ hstep =>
    have hcmd : ∀ o, WalCommand.placeOrder (toCoreOrder order) = .placeOrder o →
        o.Admissible ∧ o.id ∉ ((placements past).map toCoreOrder).map (·.id) := by
      rintro _ ⟨⟩
      exact ⟨admissible_of_valid hvalid, hfresh.toCoreOrder rfl⟩
    intro hmem
    rcases hstep.mem_ids hknown hcmd hmem with hold | ⟨_, ⟨⟩, rfl, rfl⟩
    · exact habsent symbol hold
    · -- the placed order: it is declined
      rcases hstep.place_book with ⟨book, events, hbooks, hmatch⟩
      have hbook := Exchange.bookOf_insert hbooks (toCoreOrder order).symbol
      rw [if_pos rfl] at hbook
      have hout := (matchInBook_declined hknown hfresh (hdeclined _ _ rfl rfl) hvalid
        htrading hdisk hmatch).1
      rw [← bookOf_exchange, hbook] at hmem
      exact hout hmem
  | cancels ids _ hdoes =>
    have hinv := hdoes.steps.cancels_invariant
      (fun y => y.Known ((placements past).map toCoreOrder) ∧ x ∉ (y.bookOf symbol).toPool.ids)
      ?_ ⟨hknown, habsent symbol⟩
    · exact hinv.2
    · rintro y orderId z ⟨hy, hout⟩ hstep
      refine ⟨hstep.known_cancel hy, ?_⟩
      intro hmem
      rcases hstep.mem_ids hy (by rintro _ ⟨⟩) hmem with hold | ⟨_, ⟨⟩, _⟩
      exact hout hold

/-- A request leaves an order untouched that it does not place, or that is declined. -/
theorem Untouched.handleRequest {past : List EngineRequest} {req : EngineRequest} {x : Uuid}
    {fills : List Fill} {result : Except ServerError ResponseBundle} (hx : Untouched x st fills)
    (hknown : KnownAfter past st) (hfresh : Fresh past req)
    (hdeclined : ∀ requestId order, req = .place requestId order → order.id = x →
      Declines st requestId order)
    (h : st.handleRequest fuel req = some (result, st')) :
    Untouched x st' (fills ++ st.fillsMade fuel req) where
  absent := absent_of_handleRequest hknown hfresh hx.absent hdeclined h
  unfilled := by
    intro f hf
    rcases List.mem_append.mp hf with hf | hf
    · exact hx.unfilled f hf
    · rcases mem_fillsMade hf with
        ⟨requestId, order, book, events, rfl, hvalid, htrading, hdisk, hmatch, hfill⟩
      by_cases hid : order.id = x
      · have hspares := (matchInBook_declined hknown hfresh (hdeclined _ _ rfl hid) hvalid
          htrading hdisk hmatch).2 f hfill
        rw [hid] at hspares
        exact hspares
      · rcases hknown.linked hfresh with ⟨hsound, hnew⟩
        have hout : x ∉ (linkOco (st.bookOf order.symbol) (toCoreOrder order)).toPool.ids := by
          rw [Exchange.ids_linkOco]
          exact hx.absent order.symbol
        exact spares_of_unnamed (matchOrder_unnamed hsound (admissible_of_valid hvalid) hnew
          (Ne.symm hid) hout hmatch) hfill

end EngineState

end CryptoCex.Server
