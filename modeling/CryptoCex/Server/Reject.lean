import CryptoCex.Server.Mirror

/-!
# What a rejection leaves

A request answered with a rejection should leave the engine as it was. Three
kinds of request break this, and no others (`reject_unchanged_iff`): an order
rejected by the pre-checks after its OCO link was registered, a fill-or-kill
order rejected after it was matched, and the cancel of an order that is in the
table but no longer live, when the book still holds an OCO link of it.
-/

namespace CryptoCex.Server

open CryptoCex.Core CryptoCex.Core.OrderBook Loop
open Proto (EngineOrder EngineRequest RejectResponse)

/-- The books hold the same resting orders, stops and OCO links. -/
def SameBook (b b' : OrderBook) : Prop :=
  b'.bids = b.bids ∧ b'.asks = b.asks ∧ b'.stops = b.stops ∧ b'.ocoLinks = b.ocoLinks

theorem SameBook.refl (b : OrderBook) : SameBook b b := ⟨rfl, rfl, rfl, rfl⟩

/-- The books, the table of live orders and the event log are as before; a
missing book counts as an empty one. -/
structure Unchanged (st st' : EngineState) : Prop where
  books : ∀ symbol, SameBook (st.bookOf symbol) (st'.bookOf symbol)
  openOrders : st'.openOrders = st.openOrders
  eventLog : st'.eventLog = st.eventLog

/-- The requests whose rejection changes the engine. -/
inductive RejectChanges (st : EngineState) : EngineRequest → Prop where
  /-- The pre-checks reject an order whose OCO link is not yet registered. -/
  | linked {requestId : Uuid} {order : EngineOrder} {linkedId : Uuid}
      (hvalid : validateWireOrder requestId order = none)
      (htrading : order.symbol ∉ st.haltedSymbols)
      (hpre : (st.bookOf order.symbol).preCheck (toCoreOrder order) ≠ none)
      (hlink : order.ocoLinkedId = some linkedId)
      (hnew : ¬ ((st.bookOf order.symbol).ocoLinks.find? order.id = some linkedId ∧
        (st.bookOf order.symbol).ocoLinks.find? linkedId = some order.id)) :
      RejectChanges st (.place requestId order)
  /-- A fill-or-kill order passes the pre-check and is killed by the match. -/
  | killed {requestId : Uuid} {order : EngineOrder}
      (hvalid : validateWireOrder requestId order = none)
      (htrading : order.symbol ∉ st.haltedSymbols)
      (hkilled : KilledLate
        (EngineState.linkOco (st.bookOf order.symbol) (toCoreOrder order)) (toCoreOrder order)) :
      RejectChanges st (.place requestId order)
  /-- The order is in the table, but neither it nor its OCO sibling is live. -/
  | stale {requestId : Uuid} {symbol : String} {orderId : Uuid} {entry : OpenOrder}
      {book : OrderBook} {linkedId : Uuid}
      (hentry : st.openOrders.find? orderId = some entry) (hsymbol : entry.symbol = symbol)
      (hbook : st.books.find? symbol = some book)
      (hlink : book.ocoLinks.find? orderId = some linkedId)
      (hgone : orderId ∉ book.live.map (·.id)) (hgone' : linkedId ∉ book.live.map (·.id)) :
      RejectChanges st (.cancel requestId symbol orderId)

variable {fuel : ℕ} {st st' : EngineState} {bundle : ResponseBundle} {requestId : Uuid}

/-! ## Placing -/

/-- What `place_order` does when no append fails. -/
inductive Placed (fuel : ℕ) (st : EngineState) (requestId : Uuid) (order : EngineOrder)
    (bundle : ResponseBundle) (st' : EngineState) : Prop where
  | refused (rejected : RejectResponse) (hresponse : bundle.response = .reject rejected)
      (hsame : st' = st) (hwhy : ¬ (validateWireOrder requestId order = none ∧
        order.symbol ∉ st.haltedSymbols))
  | rejected {book : OrderBook} {events : List EngineEvent} (rejected : RejectResponse)
      (hvalid : validateWireOrder requestId order = none)
      (htrading : order.symbol ∉ st.haltedSymbols)
      (hmatch : EngineState.matchInBook fuel (st.bookOf order.symbol) (toCoreOrder order) =
        some (book, events))
      (hkills : ∃ e ∈ events, e.Kills order.id)
      (hresponse : bundle.response = .reject rejected)
      (hbooks : st'.books = st.books.insert order.symbol book)
      (hopen : st'.openOrders = st.openOrders) (hlog : st'.eventLog = st.eventLog)
  | accepted {book : OrderBook} {events : List EngineEvent}
      (hvalid : validateWireOrder requestId order = none)
      (htrading : order.symbol ∉ st.haltedSymbols)
      (hmatch : EngineState.matchInBook fuel (st.bookOf order.symbol) (toCoreOrder order) =
        some (book, events))
      (hkills : ∀ e ∈ events, ¬ e.Kills order.id)
      (hresponse : ∀ rejected, bundle.response ≠ .reject rejected)

/-- The acknowledgement of an order is no rejection. -/
theorem acknowledgePlace_response {order : EngineOrder} {core : Order} {events : List EngineEvent}
    (h : st.acknowledgePlace requestId order core events = (.ok bundle, st')) :
    ∀ rejected, bundle.response ≠ .reject rejected := by
  unfold EngineState.acknowledgePlace at h
  dsimp only at h
  split at h
  · cases h
  · cases h
    intro rejected hresponse
    cases hresponse

/-- A placement is refused before it is logged, rejected after its match, or accepted. -/
theorem placeOrder_placed {order : EngineOrder}
    (h : st.placeOrder fuel requestId order = some (.ok bundle, st')) :
    Placed fuel st requestId order bundle st' := by
  unfold EngineState.placeOrder at h
  split at h
  · -- the checks refuse it
    next rejected hvalid =>
    cases h
    refine .refused rejected rfl rfl ?_
    rintro ⟨hnone, _⟩
    rw [hvalid] at hnone
    cases hnone
  · next hvalid =>
    dsimp only at h
    split_ifs at h with hhalted
    · cases h
      exact .refused _ rfl rfl (fun hok => hok.2 hhalted)
    · have happend := st.exchange_appendCommand (.placeOrder (toCoreOrder order))
      have hlog := st.eventLog_appendCommand (.placeOrder (toCoreOrder order))
      split at h
      · cases h
      · next st₁ happ =>
        rw [happ] at happend hlog
        have hbooks : st₁.books = st.books := congrArg Exchange.books happend
        have hbook : st₁.bookOf order.symbol = st.bookOf order.symbol := by
          rw [EngineState.bookOf, hbooks]
          rfl
        rw [hbook] at h
        split at h
        · cases h
        · next book events hmatch =>
          split at h
          · -- the match has killed it
            next rejected hrejected =>
            cases h
            have hkills := exists_kills_of_preReject (hrejected ▸ Option.some_ne_none rejected)
            exact .rejected rejected hvalid hhalted hmatch hkills rfl
              (congrArg (OrdMap.insert · order.symbol book) hbooks)
              (congrArg Exchange.openOrders happend) hlog
          · next haccepted =>
            exact .accepted hvalid hhalted hmatch (immediatePreReject_eq_none.mp haccepted)
              (acknowledgePlace_response (Option.some.inj h))

/-- Only the book of one symbol can have changed. -/
theorem unchanged_iff {symbol : String} {book : OrderBook}
    (hbooks : st'.books = st.books.insert symbol book) (hopen : st'.openOrders = st.openOrders)
    (hlog : st'.eventLog = st.eventLog) :
    Unchanged st st' ↔ SameBook (st.bookOf symbol) book := by
  constructor
  · intro h
    have hsame := h.books symbol
    rwa [EngineState.bookOf_insert hbooks, if_pos rfl] at hsame
  · intro h
    refine ⟨?_, hopen, hlog⟩
    intro symbol'
    rw [EngineState.bookOf_insert hbooks]
    split_ifs with heq
    · rw [heq]
      exact h
    · exact SameBook.refl _

theorem preCheck_linkOco (b : OrderBook) (order taker : Order) :
    (EngineState.linkOco b order).preCheck taker = b.preCheck taker := by
  unfold EngineState.linkOco
  split <;> rfl

/-- Registering a link that is there changes nothing. -/
theorem registerOco_eq_iff (b : OrderBook) (legA legB : Uuid) :
    (b.registerOco legA legB).ocoLinks = b.ocoLinks ↔
      b.ocoLinks.find? legA = some legB ∧ b.ocoLinks.find? legB = some legA := by
  -- the second link is written over the first if the legs are the same
  have hfind : ∀ k, (b.registerOco legA legB).ocoLinks.find? k =
      if k = legB then some legA else if k = legA then some legB else b.ocoLinks.find? k := by
    intro k
    simp only [registerOco, OrdMap.find?_insert]
  constructor
  · intro h
    rw [h] at hfind
    have hA := hfind legA
    have hB := hfind legB
    rw [if_pos rfl] at hB
    refine ⟨?_, hB⟩
    by_cases heq : legA = legB
    · rw [heq]
      exact heq ▸ hB
    · rwa [if_neg heq, if_pos rfl] at hA
  · rintro ⟨hA, hB⟩
    refine OrdMap.ext_find? fun k => ?_
    rw [hfind]
    split_ifs with h h'
    · rw [h, hB]
    · rw [h', hA]
    · rfl

/-- Registering an OCO pair changes the book unless it was registered already. -/
theorem sameBook_linkOco {b : OrderBook} {order : Order} :
    SameBook b (EngineState.linkOco b order) ↔ ∀ linkedId, order.ocoLinkedId = some linkedId →
      b.ocoLinks.find? order.id = some linkedId ∧ b.ocoLinks.find? linkedId = some order.id := by
  unfold EngineState.linkOco
  cases hlink : order.ocoLinkedId with
  | none => simp [SameBook]
  | some linkedId =>
    constructor
    · rintro ⟨_, _, _, hlinks⟩ _ ⟨⟩
      exact (registerOco_eq_iff b order.id linkedId).mp hlinks
    · intro h
      exact ⟨rfl, rfl, rfl, (registerOco_eq_iff b order.id linkedId).mpr (h linkedId rfl)⟩

/-- A book from which a resting order is gone is not the same. -/
theorem not_sameBook_of_gone {b b' : OrderBook} {side : Side} {m : Order} (hm : m ∈ b.resting side)
    (hgone : m.id ∉ b'.toPool.ids) : ¬ SameBook b b' := by
  rintro ⟨hbids, hasks, _, _⟩
  have hlevels : b'.levels side = b.levels side := by
    cases side with
    | buy => exact hbids
    | sell => exact hasks
  have hm' : m ∈ b'.resting side := by
    rw [resting, hlevels]
    exact hm
  rcases mem_resting.mp hm' with ⟨price, hq⟩
  exact hgone (Multiset.mem_map_of_mem _ (mem_pool_of_mem_queue hq))

/-- The rejection of a placed order. -/
theorem place_unchanged_iff {past : List EngineRequest} {order : EngineOrder}
    (hknown : st.KnownAfter past) (hfresh : order.id ∉ EngineState.placedIds past)
    (h : Placed fuel st requestId order bundle st') :
    (∀ rejected, bundle.response = .reject rejected → Unchanged st st') ↔
      ¬ RejectChanges st (.place requestId order) := by
  rcases hknown.bookOf order.symbol with ⟨hsound, horigin⟩
  have hsound' := Exchange.sound_linkOco hsound (toCoreOrder order)
  have hnew : ∀ o ∈ (EngineState.linkOco (st.bookOf order.symbol) (toCoreOrder order)).pool,
      o.id ≠ (toCoreOrder order).id := by
    intro o ho hid
    rw [Exchange.pool_linkOco] at ho
    rcases (horigin o ho).2 with ⟨w, hw, hwid, _⟩
    rcases List.mem_map.mp hw with ⟨wire, hwire, rfl⟩
    exact hfresh (List.mem_map.mpr ⟨wire, hwire, hwid.trans hid⟩)
  -- an order the pre-checks reject
  have hprechecked : ∀ {book events reject}, (st.bookOf order.symbol).preCheck (toCoreOrder order) =
      some reject → EngineState.matchInBook fuel (st.bookOf order.symbol) (toCoreOrder order) =
      some (book, events) → book = EngineState.linkOco (st.bookOf order.symbol)
        (toCoreOrder order) ∧ events = [reject] ∧ reject.Kills order.id := by
    intro book events reject hpre hmatch
    rw [← preCheck_linkOco _ (toCoreOrder order)] at hpre
    rw [EngineState.matchInBook, matchOrder, hpre] at hmatch
    cases hmatch
    refine ⟨rfl, rfl, ?_⟩
    rcases preCheck_eq_some hpre with ⟨_, rfl⟩ | ⟨_, rfl⟩
    · exact Or.inl rfl
    · exact Or.inr rfl
  cases h with
  | refused rejected _ hsame hwhy =>
    subst hsame
    refine ⟨?_, fun _ _ _ => ⟨fun _ => SameBook.refl _, rfl, rfl⟩⟩
    rintro _ (⟨hvalid, htrading⟩ | ⟨hvalid, htrading⟩)
    · exact hwhy ⟨hvalid, htrading⟩
    · exact hwhy ⟨hvalid, htrading⟩
  | @rejected book events rejected hvalid htrading hmatch hkills hresponse hbooks hopen hlog =>
    have hadm := EngineState.admissible_of_valid hvalid
    have hproperty : (∀ rejected, bundle.response = .reject rejected → Unchanged st st') ↔
        SameBook (st.bookOf order.symbol) book := by
      rw [← unchanged_iff hbooks hopen hlog]
      exact ⟨fun h => h rejected hresponse, fun h _ _ => h⟩
    rw [hproperty]
    cases hpre : (st.bookOf order.symbol).preCheck (toCoreOrder order) with
    | some reject =>
      rcases hprechecked hpre hmatch with ⟨rfl, _, _⟩
      rw [sameBook_linkOco]
      constructor
      · rintro hlinks (⟨_, _, _, hlink, hno⟩ | ⟨_, _, hkilled⟩)
        · exact hno (hlinks _ hlink)
        · have hnone := hkilled.1
          rw [preCheck_linkOco, hpre] at hnone
          cases hnone
      · intro hno linkedId hlink
        by_contra hmissing
        exact hno (.linked hvalid htrading (hpre ▸ Option.some_ne_none reject) hlink hmissing)
    | none =>
      rcases hkills with ⟨e, he, hkill⟩
      have hpre' : (EngineState.linkOco (st.bookOf order.symbol) (toCoreOrder order)).preCheck
          (toCoreOrder order) = none := by rw [preCheck_linkOco, hpre]
      rcases matchOrder_kills hsound' hadm hnew hpre' hmatch he hkill with ⟨_, hkilled⟩
      rcases (hkilled.changes hsound' hadm hnew hmatch).1 with ⟨m, hm, hgone⟩
      have hm' : m ∈ (st.bookOf order.symbol).resting (toCoreOrder order).side.opposite := by
        unfold EngineState.linkOco at hm
        split at hm
        · exact hm
        · exact hm
      refine ⟨fun hsame => absurd hsame (not_sameBook_of_gone hm' hgone), ?_⟩
      intro hno
      exact absurd (RejectChanges.killed hvalid htrading hkilled) hno
  | @accepted book events hvalid htrading hmatch hkills hresponse =>
    have hadm := EngineState.admissible_of_valid hvalid
    refine ⟨?_, fun _ rejected hrejected => absurd hrejected (hresponse rejected)⟩
    rintro _ (⟨_, _, hpre, _, _⟩ | ⟨_, _, hkilled⟩)
    · rcases Option.ne_none_iff_exists'.mp hpre with ⟨reject, hreject⟩
      rcases hprechecked hreject hmatch with ⟨_, rfl, hkill⟩
      exact hkills reject List.mem_cons_self hkill
    · exact hkills _ (hkilled.changes hsound' hadm hnew hmatch).2 (Or.inl rfl)

/-! ## Cancelling -/

section Book

variable {b : OrderBook} {id linkedId : Uuid} {reason : CancelReason}

theorem mem_live_ids : id ∈ b.live.map (·.id) ↔ ∃ o ∈ b.pool, o.id = id := by
  rw [pool_eq_coe_live, List.mem_map]
  rfl

/-- The cancel of an order that is not live finds nothing. -/
theorem cancelOrderInternal_of_gone (hb : b.Consistent) (hgone : id ∉ b.live.map (·.id)) :
    b.cancelOrderInternal id reason = (b, []) := by
  rw [mem_live_ids] at hgone
  have hspec := hb.cancels id reason
  generalize b.cancelOrderInternal id reason = r at hspec
  cases hspec with
  | none => rfl
  | resting _ o hid _ hresting =>
    exact absurd ⟨o, mem_pool.mpr (Or.inl (hresting ▸ Multiset.mem_cons_self _ _)), hid⟩ hgone
  | stop _ o hid _ _ hstops =>
    exact absurd ⟨o, mem_pool.mpr (Or.inr (hstops ▸ Multiset.mem_cons_self _ _)), hid⟩ hgone

/-- A cancel that finds nothing was of an order that is not live. -/
theorem gone_of_cancelOrderInternal (hb : b.Consistent)
    (h : (b.cancelOrderInternal id reason).2 = []) : id ∉ b.live.map (·.id) := by
  rw [mem_live_ids]
  have hspec := hb.cancels id reason
  generalize b.cancelOrderInternal id reason = r at hspec h
  cases hspec with
  | none hid =>
    rintro ⟨o, ho, heq⟩
    exact hid o ho heq
  | resting => cases h
  | stop => cases h

/-- When neither leg is live, a cancel only drops the link. -/
theorem cancelOrder_of_gone (hb : b.Consistent) (hlink : b.ocoLinks.find? id = some linkedId)
    (hgone : id ∉ b.live.map (·.id)) (hgone' : linkedId ∉ b.live.map (·.id)) :
    b.cancelOrder id = (b.unlink id linkedId, []) := by
  have hb' : (b.unlink id linkedId).Consistent := consistent_unlink.mpr hb
  have hfirst : (b.unlink id linkedId).cancelOrderInternal id .adminCancel =
      (b.unlink id linkedId, []) := cancelOrderInternal_of_gone hb' hgone
  have hsecond : (b.unlink id linkedId).cancelOrderInternal linkedId .oco =
      (b.unlink id linkedId, []) := cancelOrderInternal_of_gone hb' hgone'
  unfold unlink at hfirst hsecond ⊢
  simp only [cancelOrder, hlink, hfirst, hsecond, List.append_nil]

/-- A cancel without events changed nothing, or dropped the link of two legs of
which neither is live. -/
theorem cancelOrder_nothing (hb : b.Consistent) (h : (b.cancelOrder id).2 = []) :
    (b.ocoLinks.find? id = none ∧ b.cancelOrder id = (b, [])) ∨
      ∃ linkedId, b.ocoLinks.find? id = some linkedId ∧ id ∉ b.live.map (·.id) ∧
        linkedId ∉ b.live.map (·.id) := by
  cases hlink : b.ocoLinks.find? id with
  -- the order is on its own
  | none =>
    have heq : b.cancelOrder id = b.cancelOrderInternal id .adminCancel := by
      simp only [cancelOrder, hlink]
    rw [heq] at h ⊢
    exact Or.inl ⟨rfl, cancelOrderInternal_of_gone hb (gone_of_cancelOrderInternal hb h)⟩
  -- both legs are cancelled, and nothing is said about either
  | some linkedId =>
    have hb' : (b.unlink id linkedId).Consistent := consistent_unlink.mpr hb
    have heq : (b.cancelOrder id).2 =
        ((b.unlink id linkedId).cancelOrderInternal id .adminCancel).2 ++
          (((b.unlink id linkedId).cancelOrderInternal id .adminCancel).1.cancelOrderInternal
            linkedId .oco).2 := by
      simp only [cancelOrder, hlink, unlink]
    rw [heq, List.append_eq_nil_iff] at h
    have hgone := gone_of_cancelOrderInternal hb' h.1
    have hsecond := h.2
    rw [cancelOrderInternal_of_gone hb' hgone] at hsecond
    have hgone' := gone_of_cancelOrderInternal hb' hsecond
    exact Or.inr ⟨linkedId, rfl, hgone, hgone'⟩

/-- Removing a link changes the book. -/
theorem not_sameBook_unlink (hlink : b.ocoLinks.find? id = some linkedId) :
    ¬ SameBook b (b.unlink id linkedId) := by
  rintro ⟨_, _, _, hlinks⟩
  have hfind : (b.unlink id linkedId).ocoLinks.find? id = none := by
    simp only [unlink, OrdMap.find?_erase]
    split_ifs <;> rfl
  rw [hlinks, hlink] at hfind
  cases hfind

end Book

/-- What `cancel_order` does when no append fails. -/
inductive CancelHandled (st : EngineState) (symbol : String) (orderId : Uuid)
    (bundle : ResponseBundle) (st' : EngineState) : Prop where
  | unchanged (hchange : Unchanged st st') (hwhy : ∀ entry book,
      st.openOrders.find? orderId = some entry → entry.symbol = symbol →
        st.books.find? symbol ≠ some book)
  | nothing {entry : OpenOrder} {book : OrderBook} (rejected : RejectResponse)
      (hresponse : bundle.response = .reject rejected)
      (hentry : st.openOrders.find? orderId = some entry) (hsymbol : entry.symbol = symbol)
      (hbook : st.books.find? symbol = some book) (hnone : (book.cancelOrder orderId).2 = [])
      (hbooks : st'.books = st.books.insert symbol (book.cancelOrder orderId).1)
      (hopen : st'.openOrders = st.openOrders) (hlog : st'.eventLog = st.eventLog)
  | cancelled {book : OrderBook} (hbook : st.books.find? symbol = some book)
      (hsome : (book.cancelOrder orderId).2 ≠ [])
      (hresponse : ∀ rejected, bundle.response ≠ .reject rejected)

theorem Unchanged.of_exchange (hexchange : st'.exchange = st.exchange)
    (hlog : st'.eventLog = st.eventLog) : Unchanged st st' where
  books := by
    intro symbol
    rw [← EngineState.bookOf_exchange st', hexchange]
    exact SameBook.refl _
  openOrders := congrArg Exchange.openOrders hexchange
  eventLog := hlog

/-- A cancel changes nothing, finds nothing to cancel, or cancels. -/
theorem cancelOrder_handled {symbol : String} {orderId : Uuid}
    (h : st.cancelOrder requestId symbol orderId = (.ok bundle, st')) :
    CancelHandled st symbol orderId bundle st' := by
  unfold EngineState.cancelOrder at h
  cases hentry : st.openOrders.find? orderId with
  | none =>
    rw [hentry] at h
    cases h
    refine .unchanged (.of_exchange rfl rfl) ?_
    intro entry book hfind
    rw [hentry] at hfind
    cases hfind
  | some entry =>
    rw [hentry] at h
    dsimp only at h
    split_ifs at h with hsymbol
    · cases h
      refine .unchanged (.of_exchange rfl rfl) ?_
      intro entry' book hfind hsame
      rw [hentry] at hfind
      cases hfind
      exact absurd hsame hsymbol
    · rw [not_not] at hsymbol
      unfold EngineState.cancelKnownOrder at h
      rw [hentry] at h
      dsimp only at h
      have happend := st.exchange_appendCommand (.cancelOrder orderId)
      have hlog := st.eventLog_appendCommand (.cancelOrder orderId)
      rcases happ : st.appendCommand (.cancelOrder orderId) with ⟨result, st₁⟩
      rw [happ] at h happend hlog
      have hbooks : st₁.books = st.books := congrArg Exchange.books happend
      have hopen : st₁.openOrders = st.openOrders := congrArg Exchange.openOrders happend
      cases result with
      | error e => cases h
      | ok entry' =>
        dsimp only at h
        rw [hsymbol, hbooks, hopen] at h
        cases hbook : st.books.find? symbol with
        | none =>
          rw [hbook] at h
          cases h
          refine .unchanged (.of_exchange happend hlog) ?_
          intro _ book _ _ hfind
          rw [hbook] at hfind
          cases hfind
        | some book =>
          rw [hbook] at h
          dsimp only at h
          cases hevents : (book.cancelOrder orderId).2 with
          -- the table lists it, but it is gone from the book
          | nil =>
            rw [hevents] at h
            cases h
            exact .nothing _ rfl hentry hsymbol hbook hevents rfl rfl hlog
          | cons e es =>
            have hsome : (book.cancelOrder orderId).2 ≠ [] := by
              rw [hevents]
              exact List.cons_ne_nil e es
            rw [hevents] at h
            simp only [List.isEmpty_cons, Bool.false_eq_true, if_false] at h
            split at h
            · cases h
            · cases h
              exact .cancelled hbook hsome (fun _ hresponse => by cases hresponse)

/-- The rejection of a cancel. -/
theorem cancel_unchanged_iff {symbol : String} {orderId : Uuid}
    (hsound : ∀ b, st.books.find? symbol = some b → b.Sound)
    (h : CancelHandled st symbol orderId bundle st') :
    (∀ rejected, bundle.response = .reject rejected → Unchanged st st') ↔
      ¬ RejectChanges st (.cancel requestId symbol orderId) := by
  cases h with
  -- an error before the book is touched
  | unchanged hchange hwhy =>
    refine ⟨?_, fun _ _ _ => hchange⟩
    rintro _ (_ | _ | ⟨hentry, hsymbol, hbook⟩)
    exact hwhy _ _ hentry hsymbol hbook
  -- the order is gone, but a link of it may still be unlinked
  | @nothing entry book rejected hresponse hentry hsymbol hbook hnone hbooks hopen hlog =>
    have hproperty : (∀ rejected, bundle.response = .reject rejected → Unchanged st st') ↔
        SameBook book (book.cancelOrder orderId).1 := by
      have hiff := unchanged_iff hbooks hopen hlog
      rw [show st.bookOf symbol = book by rw [EngineState.bookOf, hbook]; rfl] at hiff
      rw [← hiff]
      exact ⟨fun h => h rejected hresponse, fun h _ _ => h⟩
    rw [hproperty]
    rcases cancelOrder_nothing (hsound book hbook).book hnone with
      ⟨hlink, heq⟩ | ⟨linkedId, hlink, hgone, hgone'⟩
    · rw [heq]
      refine ⟨?_, fun _ => SameBook.refl book⟩
      rintro _ (_ | _ | ⟨_, _, hbook', hlink', _⟩)
      rw [hbook] at hbook'
      cases hbook'
      rw [hlink] at hlink'
      cases hlink'
    · rw [cancelOrder_of_gone (hsound book hbook).book hlink hgone hgone']
      refine ⟨fun hsame => absurd hsame (not_sameBook_unlink hlink), ?_⟩
      intro hno
      exact absurd (RejectChanges.stale hentry hsymbol hbook hlink hgone hgone') hno
  -- something was cancelled, so the response is no rejection
  | @cancelled book hbook hsome hresponse =>
    refine ⟨?_, fun _ rejected hrejected => absurd hrejected (hresponse rejected)⟩
    rintro _ (_ | _ | ⟨_, _, hbook', hlink, hgone, hgone'⟩)
    rw [hbook] at hbook'
    cases hbook'
    rw [cancelOrder_of_gone (hsound book hbook).book hlink hgone hgone'] at hsome
    exact hsome rfl

/-! ## Every request -/

/-- A cancel-all is not rejected. -/
theorem cancelAll_response {userId : Uuid} {symbol : Option String}
    (h : st.cancelAll requestId userId symbol = (.ok bundle, st')) :
    ∀ rejected, bundle.response ≠ .reject rejected := by
  unfold EngineState.cancelAll at h
  dsimp only at h
  split at h
  · cases h
  · split at h
    · cases h
    · cases h
      intro rejected hresponse
      cases hresponse

/-- Nor is a halt or a resumption. -/
theorem marketStatusResponse_response {symbol : String} {status : Proto.MarketStatus}
    (h : st.marketStatusResponse requestId symbol status = (.ok bundle, st')) :
    ∀ rejected, bundle.response ≠ .reject rejected := by
  unfold EngineState.marketStatusResponse at h
  split at h
  · cases h
  · cases h
    intro rejected hresponse
    cases hresponse

/-- In every reachable state, a rejection leaves the engine unchanged exactly for
the requests that are of none of the three kinds. -/
theorem reject_unchanged_iff {idSource : Stream' Uuid} {clock : Stream' String}
    {disk : Stream' Bool} {snapshotDepth : ℕ} {init : EngineState}
    (hinit : EngineState.open fuel [] [] idSource clock disk snapshotDepth = some init)
    (reqs : List EngineRequest) (hrun : init.runRequests fuel reqs = some st)
    {req : EngineRequest} (hfresh : (EngineState.placedIds (reqs ++ [req])).Nodup)
    (h : st.handleRequest fuel req = some (.ok bundle, st')) :
    (∀ rejected, bundle.response = .reject rejected → Unchanged st st') ↔
      ¬ RejectChanges st req := by
  have hpast : (EngineState.placedIds reqs).Nodup := by
    rw [EngineState.placedIds, EngineState.placements_append, List.map_append] at hfresh
    exact (List.nodup_append.mp hfresh).1
  have hknown := EngineState.knownAfter_of_runRequests (EngineState.exchange_open hinit) hpast hrun
  -- a request that is neither a placement nor a cancel is not rejected
  have hnever : (∀ rejected, bundle.response ≠ .reject rejected) → (¬ RejectChanges st req) →
      ((∀ rejected, bundle.response = .reject rejected → Unchanged st st') ↔
        ¬ RejectChanges st req) := by
    intro hresponse hno
    exact ⟨fun _ => hno, fun _ rejected hrejected => absurd hrejected (hresponse rejected)⟩
  cases req with
  | place requestId order =>
    exact place_unchanged_iff hknown
      (EngineState.fresh_of_nodup hfresh reqs _ [] rfl requestId order rfl) (placeOrder_placed h)
  | cancel requestId symbol orderId =>
    exact cancel_unchanged_iff (hknown.book symbol) (cancelOrder_handled (Option.some.inj h))
  | cancelAll requestId userId symbol =>
    exact hnever (cancelAll_response (Option.some.inj h)) (by rintro ⟨⟩)
  | haltMarket requestId symbol =>
    exact hnever (marketStatusResponse_response (Option.some.inj h)) (by rintro ⟨⟩)
  | resumeMarket requestId symbol =>
    exact hnever (marketStatusResponse_response (Option.some.inj h)) (by rintro ⟨⟩)
  | snapshot requestId symbol depth =>
    cases h
    exact hnever (by rintro _ ⟨⟩) (by rintro ⟨⟩)
  | ping requestId =>
    cases h
    exact hnever (by rintro _ ⟨⟩) (by rintro ⟨⟩)

/-- The fill-or-kill order of the two runs below. -/
def wireFok (id userId : Uuid) (price quantity : Decimal) : EngineOrder :=
  { wireLimit id userId .buy price quantity .cancelMaker with orderType := .fok }

def isReject : Proto.EngineResponse → Bool
  | .reject _ => true
  | _ => false

/-- What the runs below show of a handled request. -/
def rejectView (st : EngineState) (r : Except ServerError ResponseBundle × EngineState) :
    Bool × List Uuid × List Uuid :=
  ((match r.1 with
    | .ok bundle => isReject bundle.response
    | .error _ => false),
    (st.bookOf "BTCUSDT").live.map (·.id), (r.2.bookOf "BTCUSDT").live.map (·.id))

theorem reject_of_rejectView {req : EngineRequest} {ids ids' : List Uuid}
    (h : (st.handleRequest fuel req).map (rejectView st) = some (true, ids, ids')) :
    ∃ bundle st' rejected, st.handleRequest fuel req = some (.ok bundle, st') ∧
      bundle.response = .reject rejected ∧ (st.bookOf "BTCUSDT").live.map (·.id) = ids ∧
      (st'.bookOf "BTCUSDT").live.map (·.id) = ids' := by
  rcases Option.map_eq_some_iff.mp h with ⟨⟨result, st'⟩, hhandle, hview⟩
  simp only [rejectView, Prod.mk.injEq] at hview
  cases result with
  | error e => cases hview.1
  | ok bundle =>
    rcases bundle with ⟨response, events⟩
    cases response with
    | reject rejected => exact ⟨_, st', rejected, hhandle, rfl, hview.2⟩
    | ack => cases hview.1
    | pong => cases hview.1
    | event => cases hview.1

/-- The pre-check counts 5 of another user and 5 of the taker's own. The order
trades the first 5, cancels the taker's own order and is then rejected: the book
is empty. -/
theorem reject_after_trade :
    ∃ st bundle st' rejected,
      emptyEngine.runRequests 10 [.place 0 (wireLimit 1 10 .sell 100 5 .cancelTaker),
        .place 0 (wireLimit 2 11 .sell 101 5 .cancelTaker)] = some st ∧
      st.handleRequest 10 (.place 0 (wireFok 3 11 101 10)) = some (.ok bundle, st') ∧
      bundle.response = .reject rejected ∧ ¬ Unchanged st st' := by
  have hcheck : ((emptyEngine.runRequests 10
      [.place 0 (wireLimit 1 10 .sell 100 5 .cancelTaker),
        .place 0 (wireLimit 2 11 .sell 101 5 .cancelTaker)]).bind fun st =>
      (st.handleRequest 10 (.place 0 (wireFok 3 11 101 10))).map (rejectView st)) =
      some (true, [1, 2], []) := by
    decide +kernel
  rcases Option.bind_eq_some_iff.mp hcheck with ⟨st, hrun, hview⟩
  rcases reject_of_rejectView hview with ⟨bundle, st', rejected, hhandle, hreject, hids, hids'⟩
  refine ⟨st, bundle, st', rejected, hrun, hhandle, hreject, ?_⟩
  intro hsame
  rcases hsame.books "BTCUSDT" with ⟨hbids, hasks, hstops, _⟩
  rw [live, resting, resting, levels, levels, hbids, hasks, hstops] at hids'
  exact absurd (hids.symm.trans hids') (by decide)

/-- The theorem on a fill-or-kill order the pre-check rejects. -/
theorem reject_of_fok_unchanged :
    ∃ st bundle st' rejected,
      emptyEngine.runRequests 10 [.place 0 (wireLimit 1 10 .sell 100 5 .cancelTaker)] = some st ∧
      st.handleRequest 10 (.place 0 (wireFok 3 11 101 10)) = some (.ok bundle, st') ∧
      bundle.response = .reject rejected ∧ Unchanged st st' := by
  have hcheck : ((emptyEngine.runRequests 10
      [.place 0 (wireLimit 1 10 .sell 100 5 .cancelTaker)]).bind fun st =>
      (st.handleRequest 10 (.place 0 (wireFok 3 11 101 10))).map fun r =>
        (rejectView st r, ((st.bookOf "BTCUSDT").preCheck
          (toCoreOrder (wireFok 3 11 101 10))).isSome)) =
      some ((true, [1], [1]), true) := by
    decide +kernel
  rcases Option.bind_eq_some_iff.mp hcheck with ⟨st, hrun, hmap⟩
  rcases Option.map_eq_some_iff.mp hmap with ⟨r, hr, hboth⟩
  rw [Prod.mk.injEq] at hboth
  have hview : (st.handleRequest 10 (.place 0 (wireFok 3 11 101 10))).map (rejectView st) =
      some (true, [1], [1]) := by
    rw [hr, Option.map_some, hboth.1]
  rcases reject_of_rejectView hview with ⟨bundle, st', rejected, hhandle, hreject, _, _⟩
  refine ⟨st, bundle, st', rejected, hrun, hhandle, hreject, ?_⟩
  refine (reject_unchanged_iff (emptyEngine_open 10) _ hrun (by decide) hhandle).mpr ?_
    rejected hreject
  -- the order names no sibling, and the pre-check has rejected it
  rintro (⟨_, _, _, hlink, _⟩ | ⟨_, _, hkilled⟩)
  · cases hlink
  · have hpre := hkilled.1
    rw [preCheck_linkOco] at hpre
    have hsome := hboth.2
    rw [show (wireFok 3 11 101 10).symbol = "BTCUSDT" from rfl] at hpre
    rw [hpre] at hsome
    cases hsome

end CryptoCex.Server
