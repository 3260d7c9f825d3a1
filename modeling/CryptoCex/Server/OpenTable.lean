import CryptoCex.Server.Admission
import CryptoCex.Server.CancelAll
import CryptoCex.Server.Recovery

/-!
# The table of live orders in every run

The live table skips the events of a match that is answered with a rejection. It then lists orders
that are gone and shows more than is left, but it never misses a live order: what is live after
such a match was live before (`Exchange.Step.tabled_place`). So the table covers the books in
every state of every run, whatever the disk does (`openOrders_cover_books`).

This is what `cancel_all` rests on, which goes through the table: once it is acknowledged there is
no live order in scope (`cancelAll_complete`), although it may take out foreign orders too.
-/

namespace CryptoCex.Server

open CryptoCex.Core CryptoCex.Core.OrderBook
open Proto (EngineOrder EngineRequest)

/-! ## One step -/

/-- What is left of an order is covered as the order was. -/
theorem kept_covers (m : OpenOrders) (id : Uuid) :
    Kept fun o => o.Sized ∧ (o.id = id ∨ Covers m o) where
  sized := fun _ h => h.1
  shrink := by
    rintro o r ⟨hsized, hid | hcovers⟩ hpos hle
    · exact ⟨⟨hpos, hsized.display⟩, .inl hid⟩
    · exact ⟨⟨hpos, hsized.display⟩, .inr (hcovers.mono hle)⟩
  convert := by
    rintro o ⟨hsized, hid | hcovers⟩
    · exact ⟨kept_sized.convert o hsized, .inl hid⟩
    · exact ⟨kept_sized.convert o hsized, .inr hcovers⟩

namespace Exchange

variable {fuel : ℕ} {x y : Exchange} {placed : List Order}

/-- All live orders of the exchange have the property. -/
def All (K : Order → Prop) (x : Exchange) : Prop :=
  ∀ symbol b, x.books.find? symbol = some b → b.All K

theorem all_empty (K : Order → Prop) : empty.All K := by
  intro symbol b h
  cases h

theorem All.mono {K K' : Order → Prop} (h : x.All K) (himp : ∀ o, K o → K' o) : x.All K' :=
  fun symbol b hb => ⟨(h symbol b hb).noEmpty, fun o ho => himp o ((h symbol b hb).all o ho)⟩

theorem All.bookOf {K : Order → Prop} (h : x.All K) (symbol : String) :
    (x.bookOf symbol).All K := by
  unfold Exchange.bookOf
  cases hbook : x.books.find? symbol with
  | none => exact all_new K
  | some b => exact h symbol b hbook

/-- Registering an OCO pair changes no order. -/
theorem All.linkOco {K : Order → Prop} (h : x.All K) (symbol : String) (order : Order) :
    (EngineState.linkOco (x.bookOf symbol) order).All K := by
  have hbook := h.bookOf symbol
  unfold EngineState.linkOco
  split
  · exact hbook
  · exact ⟨hbook.noEmpty, hbook.all⟩

theorem All.insert {K : Order → Prop} (h : x.All K) {symbol : String} {b : OrderBook}
    (hb : b.All K) {openOrders : OpenOrders} :
    Exchange.All K ⟨x.books.insert symbol b, openOrders⟩ := by
  intro symbol' b' hfind
  rw [OrdMap.find?_insert] at hfind
  split_ifs at hfind
  · cases hfind
    exact hb
  · exact h symbol' b' hfind

/-- A property that orders keep as they shrink holds of all live orders if it holds of those that
are placed. -/
theorem Step.all {K : Order → Prop} (hK : Kept K) {cmd : WalCommand} (h : Step fuel x cmd y)
    (hself : ∀ order, cmd = .placeOrder order → K order) (hall : x.All K) : y.All K := by
  cases h with
  | @placed requestId order book events hmatch =>
    exact hall.insert (matchOrder_all hK (hall.linkOco _ order) (hself order rfl) hmatch).1
  | @rejected requestId order book events hmatch =>
    exact hall.insert (matchOrder_all hK (hall.linkOco _ order) (hself order rfl) hmatch).1
  | @cancelled orderId entry book hentry hbook =>
    exact hall.insert ((within_cancelOrder book orderId).all (hall _ _ hbook))
  | bookless => exact hall

/-- The table covers the books, whose orders show a positive quantity. -/
structure Tabled (x : Exchange) : Prop where
  covered : x.Covered
  sized : x.All Order.Sized

theorem tabled_empty : empty.Tabled where
  covered := covered_empty
  sized := all_empty _

/-- A cancel keeps the table in order. -/
theorem Step.tabled_cancel {orderId : Uuid} (h : Step fuel x (.cancelOrder orderId) y)
    (hknown : Known placed x) (hunique : (placed.map (·.id)).Nodup) (hx : x.Tabled) :
    y.Tabled := by
  have hcmd : ∀ order, WalCommand.cancelOrder orderId = .placeOrder order →
      order.Admissible ∧ order.id ∉ placed.map (·.id) := by
    rintro order ⟨⟩
  refine ⟨?_, h.all kept_sized (by rintro order ⟨⟩) hx.sized⟩
  cases h with
  | @cancelled _ entry book hentry hbook =>
    have hreplay : ReplayStep fuel x (.cancelOrder orderId)
        ⟨x.books.insert entry.symbol (book.cancelOrder orderId).1,
          applyOpenOrderUpdates x.openOrders none (book.cancelOrder orderId).2⟩ :=
      .cancelled hentry hbook
    exact hreplay.covered hknown hunique hcmd hx.covered
  | bookless => exact hx.covered

/-- What a match leaves, if its order was fresh. -/
theorem Step.tabled_place {order : Order} (h : Step fuel x (.placeOrder order) y)
    (hknown : Known placed x) (hunique : (placed.map (·.id)).Nodup) (hadm : order.Admissible)
    (hsized : order.Sized) (hfresh : order.id ∉ placed.map (·.id)) (hx : x.Tabled) :
    y.Tabled := by
  refine ⟨?_, h.all kept_sized (by rintro _ ⟨⟩; exact hsized) hx.sized⟩
  cases h with
  | @placed requestId _ book events hmatch haccepted =>
    have hreplay : ReplayStep fuel x (.placeOrder order)
        ⟨x.books.insert order.symbol book,
          applyOpenOrderUpdates x.openOrders (some order) events⟩ := .placed hmatch
    refine hreplay.covered hknown hunique ?_ hx.covered
    rintro _ ⟨⟩
    exact ⟨hadm, hfresh⟩
  | @rejected requestId _ book events hmatch hrejected =>
    -- the order itself is gone, and what is left was covered before
    rcases exists_kills_of_preReject hrejected with ⟨e, he, hkill⟩
    have hgone := hknown.killed_gone hadm hfresh hmatch he hkill
    have hcovers : (EngineState.linkOco (x.bookOf order.symbol) order).All
        fun o => o.Sized ∧ (o.id = order.id ∨ Covers x.openOrders o) := by
      have hlinked := hx.sized.linkOco order.symbol order
      refine ⟨hlinked.noEmpty, ?_⟩
      intro o ho
      refine ⟨hlinked.all o ho, .inr ?_⟩
      rw [pool_linkOco] at ho
      exact hx.covered.bookOf order.symbol o ho
    have hbook := (matchOrder_all (kept_covers x.openOrders order.id) hcovers
      ⟨hsized, .inl rfl⟩ hmatch).1
    refine hx.covered.insert ?_ fun _ _ _ _ _ _ => rfl
    intro o ho
    rcases (hbook.all o ho).2 with hid | hcovers
    · exact (hgone (hid ▸ mem_ids_of_mem_live ho)).elim
    · exact hcovers

end Exchange

/-! ## Every run -/

namespace EngineState

variable {fuel : ℕ} {st st' init : EngineState}

/-- The order of a placement shows a positive quantity, if it shows less than all of it. -/
def Displays (req : EngineRequest) : Prop :=
  ∀ requestId order, req = .place requestId order → order.orderType ≠ .iceberg →
    ∀ d, order.displayQty = some d → 0 < d

/-- The same for a request. -/
theorem handleRequest_all {K : Order → Prop} (hK : Kept K) {req : EngineRequest}
    {result : Except ServerError ResponseBundle}
    (hhandle : st.handleRequest fuel req = some (result, st'))
    (hself : ∀ requestId order, req = .place requestId order →
      validateWireOrder requestId order = none → K (toCoreOrder order))
    (h : st.exchange.All K) : st'.exchange.All K := by
  have heffect := handleRequest_effect hhandle
  cases heffect with
  | @place requestId order hvalid htrading hdisk hlogged hstep =>
    refine hstep.all hK ?_ h
    rintro _ ⟨⟩
    exact hself requestId order rfl hvalid
  | cancels ids _ hdoes =>
    refine hdoes.steps.cancels_invariant (·.All K) ?_ h
    rintro x orderId y hx hstep
    exact hstep.all hK (by rintro order ⟨⟩) hx

/-- Every request keeps the table in order. -/
theorem handleRequest_tabled {past : List EngineRequest} {req : EngineRequest}
    {result : Except ServerError ResponseBundle} (hknown : st.KnownAfter past)
    (hunique : (placedIds past).Nodup) (hfresh : Fresh past req) (hdisplays : Displays req)
    (h : st.exchange.Tabled) (hhandle : st.handleRequest fuel req = some (result, st')) :
    st'.exchange.Tabled := by
  have heffect := handleRequest_effect hhandle
  cases heffect with
  | @place requestId order hvalid htrading hdisk hlogged hstep =>
    have hadmitted : Admitted order := ⟨⟨requestId, hvalid⟩, hdisplays requestId order rfl⟩
    exact hstep.tabled_place hknown (unique_placed hunique) (admissible_of_valid hvalid)
      hadmitted.sized (hfresh.toCoreOrder rfl) h
  | cancels ids _ hdoes =>
    refine (hdoes.steps.cancels_invariant (fun x => x.Known _ ∧ x.Tabled) ?_ ⟨hknown, h⟩).2
    rintro x orderId y ⟨hx, hx'⟩ hstep
    exact ⟨hstep.known_cancel hx, hstep.tabled_cancel hx (unique_placed hunique) hx'⟩

/-- The order was placed by one of these requests; it has at most as much left as was placed. -/
def Descends (past : List EngineRequest) (o : Order) : Prop :=
  ∃ w ∈ placements past, w.id = o.id ∧ w.userId = o.userId ∧ toCoreSide w.side = o.side ∧
    w.price = o.price ∧ w.quantity = o.quantity ∧ o.remaining ≤ w.quantity

/-- An order keeps what it was placed with when it shrinks. -/
theorem kept_descends (past : List EngineRequest) :
    Kept fun o => o.Sized ∧ Descends past o where
  sized := fun _ h => h.1
  shrink := by
    rintro o r ⟨hsized, w, hw, hid, huser, hside, hprice, hquantity, hle⟩ hpos hr
    exact ⟨⟨hpos, hsized.display⟩, w, hw, hid, huser, hside, hprice, hquantity, hr.trans hle⟩
  convert := by
    rintro o ⟨hsized, hdescends⟩
    exact ⟨kept_sized.convert o hsized, hdescends⟩

theorem Descends.mono {past past' : List EngineRequest} {o : Order} (h : Descends past o)
    (hsub : placements past ⊆ placements past') : Descends past' o := by
  rcases h with ⟨w, hw, h⟩
  exact ⟨w, hsub hw, h⟩

theorem placements_subset (past : List EngineRequest) (req : EngineRequest) :
    placements past ⊆ placements (past ++ [req]) := by
  rw [placements_append]
  exact List.subset_append_left _ _

/-- What is known of the exchange after these requests. -/
structure Tended (past : List EngineRequest) (st : EngineState) : Prop where
  known : st.KnownAfter past
  owned : st.exchange.Owned ((placements past).map toCoreOrder)
  tabled : st.exchange.Tabled
  descends : st.exchange.All fun o => o.Sized ∧ Descends past o
  unique : (placedIds past).Nodup

theorem tended_of_empty (h : st.exchange = Exchange.empty) : Tended [] st where
  known := by
    unfold KnownAfter
    rw [h]
    exact Exchange.known_empty
  owned := h ▸ Exchange.owned_empty
  tabled := h ▸ Exchange.tabled_empty
  descends := h ▸ Exchange.all_empty _
  unique := List.nodup_nil

variable {past : List EngineRequest} {req : EngineRequest}

/-- Every request keeps the table and the books tended. -/
theorem Tended.step (h : Tended past st) (hfresh : Fresh past req) (hdisplays : Displays req)
    {result : Except ServerError ResponseBundle}
    (hhandle : st.handleRequest fuel req = some (result, st')) : Tended (past ++ [req]) st' where
  known := handleRequest_known h.known hfresh hhandle
  owned := handleRequest_owned h.known h.owned hfresh hhandle
  tabled := handleRequest_tabled h.known h.unique hfresh hdisplays h.tabled hhandle
  descends := by
    refine handleRequest_all (kept_descends _) hhandle ?_ (h.descends.mono ?_)
    · rintro requestId order rfl hvalid
      have hadmitted : Admitted order := ⟨⟨requestId, hvalid⟩, hdisplays requestId order rfl⟩
      refine ⟨hadmitted.sized, order, ?_, rfl, rfl, rfl, rfl, rfl, le_refl _⟩
      rw [placements_append]
      exact List.mem_append_right _ List.mem_cons_self
    · rintro o ⟨hsized, hdescends⟩
      exact ⟨hsized, hdescends.mono (placements_subset past req)⟩
  unique := nodup_placedIds_append h.unique hfresh

/-- So does every run. -/
theorem tended_of_runRequests (hinit : init.exchange = Exchange.empty)
    {reqs : List EngineRequest} (hfresh : (placedIds reqs).Nodup)
    (hdisplays : ∀ req ∈ reqs, Displays req) (hrun : init.runRequests fuel reqs = some st) :
    Tended reqs st := by
  refine runRequests_invariant Tended (fun past _ req => Fresh past req ∧ Displays req) ?_
    (tended_of_empty hinit) ?_ hrun
  · rintro past mid req result mid' h ⟨hreq, hdisplays⟩ hhandle
    exact h.step hreq hdisplays hhandle
  · rintro l req l' mid rfl _
    exact ⟨fresh_of_nodup hfresh l req l' rfl, hdisplays req (by simp)⟩

theorem Tended.descends_of_live (h : Tended past st) {symbol : String} {o : Order}
    (ho : o ∈ (st.bookOf symbol).live) : Descends past o :=
  ((h.descends.bookOf symbol).all o (mem_live_iff.mp ho)).2

/-- Only one order was placed under an id. -/
theorem Tended.placement_eq (h : Tended past st) {w w' : EngineOrder} (hw : w ∈ placements past)
    (hw' : w' ∈ placements past) (hid : w.id = w'.id) : w = w' :=
  List.inj_on_of_nodup_map h.unique hw hw' hid

/-- A live order was live before the request or is the one it places. -/
theorem Tended.live_cases (h : Tended past st) (hfresh : Fresh past req)
    (hdisplays : Displays req) {result : Except ServerError ResponseBundle}
    (hhandle : st.handleRequest fuel req = some (result, st')) {symbol : String} {o : Order}
    (ho : o ∈ (st'.bookOf symbol).live) :
    (∃ o' ∈ (st.bookOf symbol).live, o'.id = o.id ∧ o'.userId = o.userId) ∨
      ∃ requestId order, req = .place requestId order ∧ order.id = o.id ∧
        order.userId = o.userId ∧ order.symbol = symbol ∧ symbol ∉ st.haltedSymbols := by
  have hnext := h.step hfresh hdisplays hhandle
  have hid : o.id ∈ (st'.bookOf symbol).toPool.ids := mem_ids_iff.mpr ⟨o, mem_live_iff.mp ho, rfl⟩
  rcases hnext.descends_of_live ho with ⟨w, hw, hwid, hwuser, _⟩
  -- an order that was live before belongs to the user who placed it
  have hold : o.id ∈ (st.bookOf symbol).toPool.ids →
      ∃ o' ∈ (st.bookOf symbol).live, o'.id = o.id ∧ o'.userId = o.userId := by
    intro hbefore
    rcases mem_ids_iff.mp hbefore with ⟨o', ho', hid'⟩
    have hlive := mem_live_iff.mpr ho'
    rcases h.descends_of_live hlive with ⟨w', hw', hwid', hwuser', _⟩
    have hsame : w' = w :=
      hnext.placement_eq (placements_subset past req hw') hw (hwid'.trans (hid'.trans hwid.symm))
    exact ⟨o', hlive, hid', hwuser'.symm.trans (hsame ▸ hwuser)⟩
  have heffect := handleRequest_effect hhandle
  cases heffect with
  | @place requestId order hvalid htrading hdisk hlogged hstep =>
    have hcmd : ∀ order', WalCommand.placeOrder (toCoreOrder order) = .placeOrder order' →
        order'.Admissible ∧ order'.id ∉ ((placements past).map toCoreOrder).map (·.id) := by
      rintro _ ⟨⟩
      exact ⟨admissible_of_valid hvalid, hfresh.toCoreOrder rfl⟩
    rcases hstep.mem_ids h.known hcmd hid with hbefore | ⟨_, ⟨⟩, hself, hsymbol⟩
    · exact .inl (hold hbefore)
    · refine .inr ⟨requestId, order, rfl, hself.symm, ?_, hsymbol.symm, hsymbol ▸ htrading⟩
      have hplaced : order ∈ placements (past ++ [.place requestId order]) := by
        rw [placements_append]
        exact List.mem_append_right _ List.mem_cons_self
      rw [← hwuser, hnext.placement_eq hplaced hw (hself.symm.trans hwid.symm)]
  | cancels ids _ hdoes =>
    -- cancels bring no order
    refine .inl (hold ?_)
    refine (hdoes.steps.cancels_invariant (fun x => x.Known _ ∧
      ∀ id, id ∈ (x.bookOf symbol).toPool.ids → id ∈ (st.bookOf symbol).toPool.ids) ?_
      ⟨h.known, fun _ hmem => hmem⟩).2 o.id hid
    rintro x orderId y ⟨hx, hsub⟩ hstep
    refine ⟨hstep.known_cancel hx, ?_⟩
    intro id hmem
    rcases hstep.mem_ids hx (by rintro order ⟨⟩) hmem with hbefore | ⟨_, ⟨⟩, _⟩
    exact hsub id hbefore

/-- The table lists a live order. -/
theorem Tended.lists (h : Tended past st) {symbol : String} {o : Order}
    (ho : o ∈ (st.bookOf symbol).live) : ∃ e, st.openOrders.find? o.id = some e ∧
      e.userId = o.userId ∧ e.symbol = symbol ∧ o.remaining ≤ e.remaining := by
  have hpool := mem_live_iff.mp ho
  rcases h.tabled.covered.bookOf symbol o hpool with ⟨e, hfind, huser, hsymbol, hle⟩
  exact ⟨e, hfind, huser, hsymbol.trans ((h.known.bookOf symbol).2 o hpool).1, hle⟩

/-- A live order in scope is one of those that `cancel_all` goes through. -/
theorem Tended.mem_targets (h : Tended past st) {userId : Uuid} {symbol : Option String}
    {s : String} {o : Order} (ho : o ∈ (st.bookOf s).live) (hscope : InScope userId symbol o) :
    o.id ∈ st.targets userId symbol s := by
  rcases h.lists ho with ⟨e, hfind, huser, hsymbol, _⟩
  refine List.mem_filter.mpr ⟨mem_ordersToCancel.mpr ⟨e, hfind, huser.trans hscope.1, ?_⟩, ?_⟩
  · intro t ht
    rw [hscope.2 t ht, hsymbol]
    exact ((h.known.bookOf s).2 o (mem_live_iff.mp ho)).1
  · simp [hfind, hsymbol]

/-- What `cancel_all` acknowledges leaves no live order in scope. -/
theorem Tended.none_in_scope (h : Tended past st) {requestId userId : Uuid}
    {symbol : Option String} {bundle : ResponseBundle}
    (hcancel : st.cancelAll requestId userId symbol = (.ok bundle, st')) {s : String} {o : Order}
    (ho : o ∈ (st'.bookOf s).live) : ¬ InScope userId symbol o := by
  intro hscope
  rcases cancelAll_takesOut h.known h.owned (unique_placed h.unique) hcancel with
    ⟨orderIds, _, _, _, htakes⟩
  rcases ((htakes.books s).mem_pool_iff o).mp (mem_live_iff.mp ho) with ⟨hbefore, hkept⟩
  refine of_decide_eq_true hkept ?_
  have hid : o.id ∈ (st.bookOf s).toPool.ids := mem_ids_iff.mpr ⟨o, hbefore, rfl⟩
  exact (htakes.mem_iff s o.id hid).mpr (.inl (h.mem_targets (mem_live_iff.mpr hbefore) hscope))

section Runs

variable {idSource : Stream' Uuid} {clock : Stream' String} {disk : Stream' Bool}
  {snapshotDepth : ℕ} {reqs : List EngineRequest}

/-- In every run from empty logs, of fresh order ids and of orders that show a positive quantity,
the table of live orders lists every live order, with no less than it has left. -/
theorem openOrders_cover_books
    (hinit : EngineState.open fuel [] [] idSource clock disk snapshotDepth = some init)
    (hfresh : (placedIds reqs).Nodup) (hdisplays : ∀ req ∈ reqs, Displays req)
    (hrun : init.runRequests fuel reqs = some st) :
    ∀ symbol, ∀ o ∈ (st.bookOf symbol).live, ∃ e, st.openOrders.find? o.id = some e ∧
      e.userId = o.userId ∧ e.symbol = symbol ∧ o.remaining ≤ e.remaining := by
  have h : Tended reqs st := tended_of_runRequests (exchange_open hinit) hfresh hdisplays hrun
  intro symbol o ho
  exact h.lists ho

/-- The requests of `staleEntry` are fresh, and their orders show all of their quantity. -/
theorem staleEntry_fresh : (placedIds staleEntry).Nodup ∧ ∀ req ∈ staleEntry, Displays req := by
  refine ⟨by decide, ?_⟩
  intro req hreq requestId order horder _ d hd
  have hnone : ∀ req ∈ staleEntry, ∀ requestId order, req = .place requestId order →
      order.displayQty = none := by
    simp [staleEntry, wireLimit, wireFok]
  rw [hnone req hreq requestId order horder] at hd
  cases hd

/-- The table still covers the book when it lists order 1, which is gone. -/
theorem staleEntry_covered : ∃ st, emptyEngine.runRequests 10 staleEntry = some st ∧
    ∀ symbol, ∀ o ∈ (st.bookOf symbol).live, ∃ e, st.openOrders.find? o.id = some e ∧
      e.userId = o.userId ∧ e.symbol = symbol ∧ o.remaining ≤ e.remaining := by
  have hruns : (emptyEngine.runRequests 10 staleEntry).isSome := by decide +kernel
  rcases Option.isSome_iff_exists.mp hruns with ⟨st, hrun⟩
  exact ⟨st, hrun, openOrders_cover_books (emptyEngine_open 10) staleEntry_fresh.1
    staleEntry_fresh.2 hrun⟩

/-- After every such run an acknowledged `cancel_all` leaves no live order of the user in scope. A
reused id could: the table then lists one of two orders. -/
theorem cancelAll_complete
    (hinit : EngineState.open fuel [] [] idSource clock disk snapshotDepth = some init)
    (hfresh : (placedIds reqs).Nodup) (hdisplays : ∀ req ∈ reqs, Displays req)
    (hrun : init.runRequests fuel reqs = some st) {requestId userId : Uuid}
    {symbol : Option String} {bundle : ResponseBundle}
    (hcancel : st.handleRequest fuel (.cancelAll requestId userId symbol) =
      some (.ok bundle, st')) :
    ∀ s, ∀ o ∈ (st'.bookOf s).live, ¬ InScope userId symbol o := by
  have h : Tended reqs st := tended_of_runRequests (exchange_open hinit) hfresh hdisplays hrun
  intro s o ho
  exact h.none_in_scope (Option.some.inj hcancel) ho

/-- User 11 cancels all orders on a book whose table lists orders that are gone. -/
theorem staleEntry_cancelled : ∃ st bundle st',
    emptyEngine.runRequests 10 staleEntry = some st ∧
      st.handleRequest 10 (.cancelAll 0 11 (some "BTCUSDT")) = some (.ok bundle, st') ∧
      ∀ s, ∀ o ∈ (st'.bookOf s).live, ¬ InScope 11 (some "BTCUSDT") o := by
  have hacknowledged : ((emptyEngine.runRequests 10 staleEntry).bind fun st =>
      (st.handleRequest 10 (.cancelAll 0 11 (some "BTCUSDT"))).map fun r => r.1.isOk) =
        some true := by
    decide +kernel
  rcases Option.bind_eq_some_iff.mp hacknowledged with ⟨st, hrun, hmap⟩
  rcases Option.map_eq_some_iff.mp hmap with ⟨⟨result, st'⟩, hhandle, hok⟩
  cases result with
  | error => cases hok
  | ok bundle =>
    exact ⟨st, bundle, st', hrun, hhandle, cancelAll_complete (emptyEngine_open 10)
      staleEntry_fresh.1 staleEntry_fresh.2 hrun hhandle⟩

end Runs

end EngineState

end CryptoCex.Server
