import CryptoCex.Server.Acks
import CryptoCex.Server.OpenTable

/-!
# Orders that are gone

An order that was placed and is in no book is gone for good, since ids are used once
(`Departed.step`). The answers of the engine tell of orders that are gone: the one whose cancel is
acknowledged, those in the acknowledgement of a cancel-all, and an order whose placement is
acknowledged with another status than that of a resting order. That last status is read off the
events of the match, and it can be wrong about the order's trades, but not about this
(`status_of_live`).
-/

namespace CryptoCex.Server

open CryptoCex.Core CryptoCex.Core.OrderBook Loop
open Proto (EngineOrder EngineRequest OrderStatus TradeFill)

/-- A live order is reported as resting. -/
theorem status_of_live {b b' : OrderBook} {taker : Order} {fuel : ℕ} {events : List EngineEvent}
    (hb : b.Sound) (htaker : taker.Admissible) (hfresh : ∀ o ∈ b.pool, o.id ≠ taker.id)
    (hcall : b.matchOrder fuel taker = some (b', events))
    (haccepted : ∀ e ∈ events, ¬ e.Kills taker.id) (hlive : taker.id ∈ b'.toPool.ids)
    (quantity : Decimal) : orderStatusForPlace taker.id quantity events = .new ∨
      orderStatusForPlace taker.id quantity events = .partiallyFilled := by
  have hrested : ∃ left, EngineEvent.rested taker.id left ∈ events := by
    have hspec := matchOrder_spec htaker hcall
    generalize hr : (b', events) = r at hspec
    cases hspec with
    | rejected reject hpre =>
      cases hr
      refine absurd ?_ (haccepted reject List.mem_cons_self)
      rcases preCheck_eq_some hpre with ⟨_, rfl⟩ | ⟨_, rfl⟩
      · exact .inl rfl
      · exact .inr rfl
    | registered stops _ hstop hins =>
      cases hr
      exact ⟨_, List.mem_singleton_self _⟩
    | matched _ hactive hloop =>
      subst hr
      have hready : taker.Ready := ⟨htaker.positive, hactive, htaker.priced⟩
      rcases callTold_of_cascade hb hready hfresh hloop with
        ⟨c₁, m, own, hit, later, hrun, _, _, _, _, _, _, htold, _, _, hgoneLater⟩
      -- what its own pass does not leave in the book is not there later
      have hthere : taker.id ∈ c₁.book.toPool.ids := by
        by_contra hgone
        exact (hgoneLater hgone).1 hlive
      cases ended_of_pass ⟨hb.book, hready, hfresh⟩ hrun with
      | usedUp _ _ _ _ _ _ hnowhere =>
        exact (hnowhere (Multiset.mem_add.mpr (.inr hthere))).elim
      | cancelled _ _ _ _ _ hnowhere =>
        exact (hnowhere (Multiset.mem_add.mpr (.inr hthere))).elim
      | rested left _ _ _ _ _ _ _ hrested => exact ⟨left, htold.rested_iff.mpr hrested⟩
  rcases hrested with ⟨left, hmem⟩
  rw [status_of_rested hmem]
  split_ifs
  · exact .inr rfl
  · exact .inl rfl

namespace EngineState

variable {fuel : ℕ} {st st' : EngineState} {past : List EngineRequest} {req : EngineRequest}
  {x : Uuid}

/-- The order was placed and is in no book. -/
structure Departed (past : List EngineRequest) (st : EngineState) (x : Uuid) : Prop where
  placed : x ∈ placedIds past
  gone : ∀ symbol, x ∉ (st.bookOf symbol).toPool.ids

theorem placedIds_append (past past' : List EngineRequest) :
    placedIds (past ++ past') = placedIds past ++ placedIds past' := by
  rw [placedIds, placements_append, List.map_append]
  rfl

/-- No request brings it back. -/
theorem Departed.step (hx : Departed past st x) (h : Tended past st) (hfresh : Fresh past req)
    (hdisplays : Displays req) {result : Except ServerError ResponseBundle}
    (hhandle : st.handleRequest fuel req = some (result, st')) :
    Departed (past ++ [req]) st' x := by
  refine ⟨?_, ?_⟩
  · rw [placedIds_append]
    exact List.mem_append_left _ hx.placed
  · intro symbol hid
    rcases mem_ids_iff.mp hid with ⟨o, ho, rfl⟩
    rcases h.live_cases hfresh hdisplays hhandle (mem_live_iff.mpr ho) with
      ⟨o', ho', hsame, _⟩ | ⟨requestId, order, rfl, hsame, _⟩
    · exact hx.gone symbol (mem_ids_iff.mpr ⟨o', mem_live_iff.mp ho', hsame⟩)
    · exact hfresh requestId order rfl (hsame ▸ hx.placed)

/-- An acknowledged order that is not reported as resting is gone. -/
theorem Tended.departed_of_place (h : Tended past st) {requestId ackId orderId : Uuid}
    {order : EngineOrder} {bundle : ResponseBundle} {status : OrderStatus}
    {fills : List TradeFill} {seq : ℕ} (hfresh : Fresh past (.place requestId order))
    (hdisplays : Displays (.place requestId order))
    (hhandle : st.handleRequest fuel (.place requestId order) = some (.ok bundle, st'))
    (hack : bundle.response = .ack ackId (.order orderId status fills seq))
    (hstatus : ¬ (status = .new ∨ status = .partiallyFilled)) :
    Departed (past ++ [.place requestId order]) st' order.id := by
  have hnext := h.step hfresh hdisplays hhandle
  have hplaced : order ∈ placements (past ++ [.place requestId order]) := by
    rw [placements_append]
    exact List.mem_append_right _ List.mem_cons_self
  refine ⟨List.mem_map_of_mem hplaced, ?_⟩
  intro symbol hid
  rcases placeOrder_acknowledged hhandle hack with
    ⟨book, events, hvalid, hmatch, haccepted, rfl, hbooks, _⟩
  have hunused : ∀ o ∈ (linkOco (st.bookOf order.symbol) (toCoreOrder order)).pool,
      o.id ≠ (toCoreOrder order).id :=
    h.known.fresh_linkOco (hfresh.toCoreOrder rfl)
  rw [bookOf_insert hbooks] at hid
  split_ifs at hid
  · refine hstatus (status_of_live ?_ (admissible_of_valid hvalid) hunused hmatch haccepted hid _)
    exact Exchange.sound_linkOco (h.known.bookOf order.symbol).1 _
  · -- it cannot be in the book of another symbol
    rcases mem_ids_iff.mp hid with ⟨o, ho, hsame⟩
    rcases h.descends_of_live (mem_live_iff.mpr ho) with ⟨w, hw, hwid, _⟩
    exact hfresh requestId order rfl (hsame ▸ hwid ▸ List.mem_map_of_mem hw)

/-- The order of an acknowledged cancel is gone. -/
theorem Tended.departed_of_cancel (h : Tended past st) {requestId ackId orderId ackedId : Uuid}
    {symbol : String} {bundle : ResponseBundle} {status : OrderStatus} {seq : ℕ}
    (hcancel : st.cancelOrder requestId symbol orderId = (.ok bundle, st'))
    (hack : bundle.response = .ack ackId (.cancel ackedId status seq)) :
    Departed (past ++ [.cancel requestId symbol orderId]) st' orderId := by
  unfold cancelOrder at hcancel
  cases hentry : st.openOrders.find? orderId with
  | none =>
    rw [hentry] at hcancel
    cases hcancel
    cases hack
  | some entry =>
    rw [hentry] at hcancel
    dsimp only at hcancel
    split_ifs at hcancel with hsymbol
    · cases hcancel
      cases hack
    · rcases cancelKnownOrder_cases hentry with ⟨_, mid, hknown, _⟩ |
        ⟨_, events, mid, hknown, _, _, ⟨_, rfl, _⟩ | ⟨book, hbook, rfl, hbooks, _⟩⟩
      · rw [hknown] at hcancel
        cases hcancel
      · -- without a book there is nothing to acknowledge
        rw [hknown] at hcancel
        cases hcancel
        cases hack
      · rw [hknown] at hcancel
        dsimp only at hcancel
        split_ifs at hcancel
        · cases hcancel
          cases hack
        · split at hcancel
          · cases hcancel
          · next hsequence =>
            cases hcancel
            have hafter : ∀ s, st'.bookOf s = mid.bookOf s := by
              intro s
              rw [← bookOf_exchange, (reports_of_sequenceEvents hsequence).exchange, bookOf_exchange]
            refine ⟨?_, ?_⟩
            · rcases h.owned.table orderId entry hentry with ⟨w, hw, hid, _⟩
              rw [placedIds_append, ← hid]
              rcases List.mem_map.mp hw with ⟨wire, hwire, rfl⟩
              exact List.mem_append_left _ (List.mem_map_of_mem hwire)
            · intro s hid
              rw [hafter, bookOf_insert hbooks] at hid
              split_ifs at hid with hs
              · -- its own book
                have hconsistent := (h.known.book entry.symbol book hbook).book
                rcases mem_ids_iff.mp hid with ⟨o, ho, hsame⟩
                exact (((hconsistent.cancelOrder_spec orderId).pool o).mp ho).2 (.inl hsame)
              · -- the table says in which book it is
                rcases mem_ids_iff.mp hid with ⟨o, ho, rfl⟩
                rcases h.lists (mem_live_iff.mpr ho) with ⟨entry', hentry', _, hin, _⟩
                rw [hentry] at hentry'
                cases hentry'
                exact hs hin.symm

/-- The orders that an acknowledged cancel-all reports are gone. -/
theorem Tended.departed_of_cancelAll (h : Tended past st) {requestId userId ackId : Uuid}
    {symbol : Option String} {bundle : ResponseBundle} {orderIds : List Uuid} {seq : ℕ}
    (hcancel : st.cancelAll requestId userId symbol = (.ok bundle, st'))
    (hack : bundle.response = .ack ackId (.cancelAll orderIds seq)) (hx : x ∈ orderIds) :
    Departed (past ++ [.cancelAll requestId userId symbol]) st' x := by
  rcases cancelAll_takesOut h.known h.owned (unique_placed h.unique) hcancel with
    ⟨orderIds', seq', hresponse, _, htakes⟩
  rw [hack] at hresponse
  cases hresponse
  refine ⟨?_, ?_⟩
  · rcases htakes.live x hx with ⟨s, hid⟩
    rcases mem_ids_iff.mp hid with ⟨o, ho, rfl⟩
    rcases h.descends_of_live (mem_live_iff.mpr ho) with ⟨w, hw, hwid, _⟩
    rw [placedIds_append, ← hwid]
    exact List.mem_append_left _ (List.mem_map_of_mem hw)
  · intro s hid
    rcases mem_ids_iff.mp hid with ⟨o, ho, rfl⟩
    exact of_decide_eq_true (((htakes.books s).mem_pool_iff o).mp ho).2 hx

end EngineState

end CryptoCex.Server
