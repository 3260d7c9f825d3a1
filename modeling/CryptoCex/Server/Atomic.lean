import CryptoCex.Core.Cancel
import CryptoCex.Server.Recovery
import CryptoCex.Server.Reject

/-!
# What a failed append leaves

A request makes its appends one after the other, with changes of the books and the table
in between, and returns at the first append that fails. Nothing is rolled back. A failed
request leaves the engine as it was exactly if nothing had been done before the failing
append (`failed_unchanged_iff`): the first append failed; or the match of a placed order
changed neither its book nor the table and the first event could not be logged; or every
order `cancel_all` got to before the failure was no longer live and had no OCO link.
-/

namespace CryptoCex.Server

open CryptoCex.Core CryptoCex.Core.OrderBook
open Proto (EngineOrder EngineRequest SequencedEngineEvent)

/-! ## Books only lose by cancels -/

/-- The second book holds no order and no OCO link that the first one does not. -/
structure Dwindles (b b' : OrderBook) : Prop where
  ids : ∀ x ∈ b'.toPool.ids, x ∈ b.toPool.ids
  links : ∀ k v, b'.ocoLinks.find? k = some v → b.ocoLinks.find? k = some v

namespace Dwindles

variable {b b' b'' : OrderBook}

theorem refl (b : OrderBook) : Dwindles b b := ⟨fun _ h => h, fun _ _ h => h⟩

theorem trans (h : Dwindles b b') (h' : Dwindles b' b'') : Dwindles b b'' :=
  ⟨fun x hx => h.ids x (h'.ids x hx), fun k v hv => h.links k v (h'.links k v hv)⟩

theorem cancelOrder (hb : b.Consistent) (id : Uuid) : Dwindles b (b.cancelOrder id).1 := by
  have hspec := hb.cancelOrder_spec id
  refine ⟨?_, ?_⟩
  · intro x hx
    rcases mem_ids_iff.mp hx with ⟨o, ho, rfl⟩
    exact mem_ids_iff.mpr ⟨o, ((hspec.pool o).mp ho).1, rfl⟩
  · intro k v hfind
    rw [hspec.links, linksWithout] at hfind
    split at hfind
    · exact hfind
    · simp only [OrdMap.find?_erase] at hfind
      split_ifs at hfind
      exact hfind

end Dwindles

/-- Neither the order nor an OCO link of it is in the book. -/
def Gone (b : OrderBook) (id : Uuid) : Prop :=
  id ∉ b.live.map (·.id) ∧ b.ocoLinks.find? id = none

/-- Cancelling an order that is gone changes nothing. -/
theorem cancelOrder_of_Gone {b : OrderBook} {id : Uuid} (hb : b.Consistent) (h : Gone b id) :
    b.cancelOrder id = (b, []) := by
  have heq : b.cancelOrder id = b.cancelOrderInternal id .adminCancel := by
    simp only [cancelOrder, h.2]
  rw [heq]
  exact cancelOrderInternal_of_gone hb h.1

/-- A cancel that changed something is not undone by books losing more. -/
theorem gone_of_sameBook {b b' : OrderBook} {id : Uuid} (hb : b.Consistent)
    (hlater : Dwindles (b.cancelOrder id).1 b') (hsame : SameBook b b') : Gone b id := by
  have hspec := hb.cancelOrder_spec id
  rcases hsame with ⟨hbids, hasks, hstops, hlinks⟩
  have hlive : b'.live = b.live := by
    rw [live, live, resting, resting, resting, resting, levels, levels, levels, levels, hbids,
      hasks, hstops]
  refine ⟨?_, ?_⟩
  · intro hmem
    rw [← hlive, mem_live_ids] at hmem
    rcases mem_ids_iff.mp (hlater.ids id (mem_ids_iff.mpr hmem)) with ⟨o, ho, hid⟩
    exact ((hspec.pool o).mp ho).2 (Or.inl hid)
  · cases hlink : b.ocoLinks.find? id with
    | none => rfl
    | some linkedId =>
      have hkept := hlater.links id linkedId (hlinks ▸ hlink)
      rw [hspec.links, linksWithout, hlink] at hkept
      simp only [OrdMap.find?_erase] at hkept
      split_ifs at hkept

namespace Exchange

variable {fuel : ℕ} {x y : Exchange} {placed : List Order}

/-- A cancel brings no order to a book. -/
theorem Step.dwindles {orderId : Uuid} (h : Step fuel x (.cancelOrder orderId) y)
    (hknown : Known placed x) (symbol : String) :
    Dwindles (x.bookOf symbol) (y.bookOf symbol) := by
  cases h with
  | @cancelled _ entry book hentry hbook =>
    let y : Exchange := {
      books := x.books.insert entry.symbol (book.cancelOrder orderId).1
      openOrders := applyOpenOrderUpdates x.openOrders none (book.cancelOrder orderId).2 }
    have hbooks : y.books = x.books.insert entry.symbol (book.cancelOrder orderId).1 := rfl
    show Dwindles (x.bookOf symbol) (y.bookOf symbol)
    rw [bookOf_insert hbooks]
    split
    · next heq =>
      rw [heq, bookOf, hbook]
      exact .cancelOrder (hknown.book _ book hbook).1 orderId
    · exact .refl _
  | bookless => exact .refl _

/-- Nor do many. -/
theorem Steps.dwindles {ids : List Uuid} (h : Steps fuel x (ids.map .cancelOrder) y)
    (hknown : Known placed x) (symbol : String) :
    Dwindles (x.bookOf symbol) (y.bookOf symbol) := by
  have hinv : Known placed y ∧ ∀ symbol, Dwindles (x.bookOf symbol) (y.bookOf symbol) := by
    refine h.cancels_invariant
      (fun z => Known placed z ∧ ∀ symbol, Dwindles (x.bookOf symbol) (z.bookOf symbol)) ?_
      ⟨hknown, fun _ => .refl _⟩
    rintro z orderId z' ⟨hz, hdwindles⟩ hstep
    exact ⟨hstep.known_cancel hz, fun symbol => (hdwindles symbol).trans (hstep.dwindles hz symbol)⟩
  exact hinv.2 symbol

end Exchange

/-! ## Failed requests -/

/-- The order is in the table, but its book knows neither it nor an OCO link of it. -/
def EngineState.Stale (st : EngineState) (id : Uuid) : Prop :=
  ∀ entry book, st.openOrders.find? id = some entry →
    st.books.find? entry.symbol = some book → Gone book id

/-- The append that fails comes before any change. -/
inductive FailsBeforeEffect (fuel : ℕ) (st : EngineState) : EngineRequest → Prop where
  /-- It is the first one. -/
  | first {req : EngineRequest} (hdisk : st.disk.head = false) : FailsBeforeEffect fuel st req
  /-- It is that of the first event, and the match changed nothing. -/
  | matched {requestId : Uuid} {order : EngineOrder} {book : OrderBook} {events : List EngineEvent}
      (hmatch : EngineState.matchInBook fuel (st.bookOf order.symbol) (toCoreOrder order) =
        some (book, events))
      (hbook : SameBook (st.bookOf order.symbol) book)
      (htable : applyOpenOrderUpdates st.openOrders (some (toCoreOrder order)) events =
        st.openOrders)
      (hdisk : st.disk.tail.head = false) : FailsBeforeEffect fuel st (.place requestId order)
  /-- It is that of a cancel, and the orders before it are stale. -/
  | stale {requestId userId : Uuid} {symbol : Option String} {done : List Uuid} {id : Uuid}
      {rest : List Uuid} (hids : st.ordersToCancel userId symbol = done ++ id :: rest)
      (hstale : ∀ x ∈ done, st.Stale x) (hdisk : (st.disk.drop done.length).head = false) :
      FailsBeforeEffect fuel st (.cancelAll requestId userId symbol)

namespace EngineState

variable {fuel : ℕ} {st st' : EngineState} {error : ServerError}

/-- A failed append leaves the state as it is. -/
theorem appendCommand_failed (hdisk : st.disk.head = false) (command : WalCommand) :
    ∃ st', st.appendCommand command = (.error .io, st') ∧ st'.exchange = st.exchange ∧
      st'.eventLog = st.eventLog := by
  refine ⟨(st.appendCommand command).2, ?_, rfl, rfl⟩
  simp only [appendCommand, Wal.append, hdisk, Bool.false_eq_true, if_false]

/-- One that succeeds changes the command log only. -/
theorem appendCommand_succeeded (hdisk : st.disk.head = true) (command : WalCommand) :
    ∃ st', st.appendCommand command = (.ok (), st') ∧ st'.exchange = st.exchange ∧
      st'.eventLog = st.eventLog ∧ st'.disk = st.disk.tail := by
  refine ⟨(st.appendCommand command).2, ?_, rfl, rfl, rfl⟩
  simp only [appendCommand, Wal.append, hdisk, if_true]

/-- When the first event cannot be logged the log stays as it is, and only then. -/
theorem sequenceEvents_failed {event : Proto.EngineEvent} {events : List Proto.EngineEvent}
    (h : st.sequenceEvents (event :: events) = (.error error, st')) :
    st'.eventLog = st.eventLog ↔ st.disk.head = false := by
  constructor
  · intro hlog
    rcases sequenceEvents_extends h with ⟨new, hext, _, _, hfirst⟩
    by_contra hdisk
    have hmem := hfirst (Bool.eq_true_of_not_eq_false hdisk) event rfl
    have hentries := hext.entries
    rw [hlog] at hentries
    rw [List.self_eq_append_right.mp hentries] at hmem
    cases hmem
  · intro hdisk
    simp only [sequenceEvents, EventLog.appendNext, hdisk, Bool.false_eq_true, if_false] at h
    cases h
    rfl

/-! ### Placing -/

/-- If the events cannot be appended, the book is changed all the same. -/
theorem acknowledgePlace_failed {requestId : Uuid} {wireOrder : EngineOrder} {order : Order}
    {coreEvents : List EngineEvent}
    (h : st.acknowledgePlace requestId wireOrder order coreEvents = (.error error, st')) :
    st'.books = st.books ∧
      st'.openOrders = applyOpenOrderUpdates st.openOrders (some order) coreEvents ∧
      (st'.eventLog = st.eventLog ↔ st.disk.head = false) := by
  have hreports := acknowledgePlace_reports st requestId wireOrder order coreEvents
  rw [h] at hreports
  refine ⟨congrArg Exchange.books hreports.exchange, congrArg Exchange.openOrders hreports.exchange,
    ?_⟩
  unfold acknowledgePlace at h
  have hports := toWireCoreEvents_ports { st with
    openOrders := applyOpenOrderUpdates st.openOrders (some order) coreEvents } wireOrder.symbol
    coreEvents
  dsimp only at h
  split at h
  · next e st₁ hsequence =>
    cases h
    have hfailed := sequenceEvents_failed hsequence
    rw [hports.1, hports.2.1] at hfailed
    exact hfailed
  · cases h

/-- A placement that failed: at the command, or at an event after its match. -/
theorem placeOrder_failed {requestId : Uuid} {order : EngineOrder}
    (h : st.placeOrder fuel requestId order = some (.error error, st')) :
    (st.disk.head = false ∧ Unchanged st st') ∨
      st.disk.head = true ∧ ∃ book events,
        matchInBook fuel (st.bookOf order.symbol) (toCoreOrder order) = some (book, events) ∧
        st'.books = st.books.insert order.symbol book ∧
        st'.openOrders = applyOpenOrderUpdates st.openOrders (some (toCoreOrder order)) events ∧
        (st'.eventLog = st.eventLog ↔ st.disk.tail.head = false) := by
  unfold placeOrder at h
  split at h
  · cases h
  · dsimp only at h
    split at h
    · cases h
    · cases hdisk : st.disk.head with
      -- the command was not appended, and nothing has happened
      | false =>
        rcases appendCommand_failed hdisk (.placeOrder (toCoreOrder order)) with
          ⟨st₁, happend, hexchange, hlog⟩
        rw [happend] at h
        cases h
        exact .inl ⟨rfl, .of_exchange hexchange hlog⟩
      | true =>
        rcases appendCommand_succeeded hdisk (.placeOrder (toCoreOrder order)) with
          ⟨st₁, happend, hexchange, hlog, hdisk₁⟩
        have hbooks : st₁.books = st.books := congrArg Exchange.books hexchange
        have hopen : st₁.openOrders = st.openOrders := congrArg Exchange.openOrders hexchange
        have hbook : st₁.bookOf order.symbol = st.bookOf order.symbol := by
          rw [EngineState.bookOf, EngineState.bookOf, hbooks]
        rw [happend] at h
        dsimp only at h
        rw [hbook] at h
        split at h
        · cases h
        · next book events hmatch =>
          split at h
          · cases h
          · -- the command was, and the order was matched, before an event could not be appended
            rcases acknowledgePlace_failed (Option.some.inj h) with ⟨hbooks', hopen', hlog'⟩
            dsimp only at hbooks' hopen' hlog'
            rw [hbooks] at hbooks'
            rw [hopen] at hopen'
            rw [hlog, hdisk₁] at hlog'
            exact .inr ⟨rfl, book, events, hmatch, hbooks', hopen', hlog'⟩

/-- A failed placement leaves the state unchanged exactly when it fails before its effect. -/
theorem placeOrder_unchanged_iff {requestId : Uuid} {order : EngineOrder}
    (h : st.placeOrder fuel requestId order = some (.error error, st')) :
    Unchanged st st' ↔ FailsBeforeEffect fuel st (.place requestId order) := by
  rcases placeOrder_failed h with ⟨hdisk, hunchanged⟩ |
    ⟨hdisk, book, events, hmatch, hbooks, hopen, hlog⟩
  · exact ⟨fun _ => .first hdisk, fun _ => hunchanged⟩
  · have hsymbol : st'.bookOf order.symbol = book := by
      rw [bookOf_insert hbooks, if_pos rfl]
    constructor
    · -- the book of the symbol tells what the match did
      intro hunchanged
      refine .matched hmatch ?_ (hopen.symm.trans hunchanged.openOrders)
        (hlog.mp hunchanged.eventLog)
      have hsame := hunchanged.books order.symbol
      rw [hsymbol] at hsame
      exact hsame
    · intro hfails
      cases hfails with
      | first hfalse =>
        rw [hdisk] at hfalse
        cases hfalse
      | matched hmatch' hsame htable hdisk' =>
        rw [hmatch] at hmatch'
        cases hmatch'
        exact (unchanged_iff hbooks (hopen.trans htable) (hlog.mpr hdisk')).mpr hsame

/-! ### Cancels -/

/-- A cancel of an order of the table: its command cannot be logged, or it is done. -/
theorem cancelKnownOrder_cases {orderId : Uuid} {entry : OpenOrder}
    (hentry : st.openOrders.find? orderId = some entry) :
    (st.disk.head = false ∧ ∃ st', st.cancelKnownOrder orderId = (.error .io, st') ∧
      st'.exchange = st.exchange ∧ st'.eventLog = st.eventLog) ∨
    (st.disk.head = true ∧ ∃ events st', st.cancelKnownOrder orderId = (.ok events, st') ∧
      st'.eventLog = st.eventLog ∧ st'.disk = st.disk.tail ∧
      ((st.books.find? entry.symbol = none ∧ events = [] ∧ st'.exchange = st.exchange) ∨
        ∃ book, st.books.find? entry.symbol = some book ∧ events = (book.cancelOrder orderId).2 ∧
          st'.books = st.books.insert entry.symbol (book.cancelOrder orderId).1 ∧
          st'.openOrders = applyOpenOrderUpdates st.openOrders none events)) := by
  cases hdisk : st.disk.head with
  | false =>
    rcases appendCommand_failed hdisk (.cancelOrder orderId) with ⟨st₁, happend, hsame, hlog⟩
    refine .inl ⟨rfl, st₁, ?_, hsame, hlog⟩
    simp only [cancelKnownOrder, hentry, happend]
  | true =>
    rcases appendCommand_succeeded hdisk (.cancelOrder orderId) with
      ⟨st₁, happend, hexchange, hlog, hdisk₁⟩
    have hbooks : st₁.books = st.books := congrArg Exchange.books hexchange
    have hopen : st₁.openOrders = st.openOrders := congrArg Exchange.openOrders hexchange
    refine .inr ⟨rfl, ?_⟩
    cases hbook : st.books.find? entry.symbol with
    -- without a book the command is logged and nothing else happens
    | none =>
      refine ⟨[], st₁, ?_, hlog, hdisk₁, .inl ⟨rfl, rfl, hexchange⟩⟩
      simp only [cancelKnownOrder, hentry, happend, hbooks, hbook]
    | some book =>
      refine ⟨(book.cancelOrder orderId).2, { st₁ with
        books := st.books.insert entry.symbol (book.cancelOrder orderId).1
        openOrders := applyOpenOrderUpdates st.openOrders none (book.cancelOrder orderId).2 }, ?_,
        hlog, hdisk₁, .inr ⟨book, rfl, rfl, rfl, rfl⟩⟩
      simp only [cancelKnownOrder, hentry, happend, hbooks, hbook, hopen]

theorem bookOf_of_find? {symbol : String} {book : OrderBook}
    (h : st.books.find? symbol = some book) : st.bookOf symbol = book := by
  rw [EngineState.bookOf, h, Option.getD_some]

theorem exchange_eq (hbooks : st'.books = st.books) (hopen : st'.openOrders = st.openOrders) :
    st'.exchange = st.exchange := by
  rw [exchange, exchange, hbooks, hopen]

theorem KnownAfter.of_exchange {past : List EngineRequest} (h : st.KnownAfter past)
    (hexchange : st'.exchange = st.exchange) : st'.KnownAfter past := by
  unfold KnownAfter at h ⊢
  rw [hexchange]
  exact h

theorem stale_of_exchange (hexchange : st'.exchange = st.exchange) (id : Uuid) :
    st'.Stale id ↔ st.Stale id := by
  have hbooks : st'.books = st.books := congrArg Exchange.books hexchange
  have hopen : st'.openOrders = st.openOrders := congrArg Exchange.openOrders hexchange
  simp only [Stale, hopen, hbooks]

/-- A cancel that told something has changed its book. -/
theorem cancelOrder_unchanged_iff {past : List EngineRequest} {requestId : Uuid}
    {symbol : String} {orderId : Uuid} (hknown : st.KnownAfter past)
    (h : st.cancelOrder requestId symbol orderId = (.error error, st')) :
    Unchanged st st' ↔ FailsBeforeEffect fuel st (.cancel requestId symbol orderId) := by
  have hiff : FailsBeforeEffect fuel st (.cancel requestId symbol orderId) ↔
      st.disk.head = false := by
    refine ⟨?_, .first⟩
    intro hfails
    cases hfails with
    | first hdisk => exact hdisk
  rw [hiff]
  unfold cancelOrder at h
  split at h
  · cases h
  · next entry hentry =>
    split at h
    · cases h
    · rcases cancelKnownOrder_cases hentry with ⟨hdisk, st₁, hcancel, hexchange, hlog⟩ |
        ⟨hdisk, events, st₁, hcancel, _, _, heffect⟩
      · rw [hcancel] at h
        cases h
        exact ⟨fun _ => hdisk, fun _ => .of_exchange hexchange hlog⟩
      · rw [hcancel] at h
        simp only at h
        split at h
        · cases h
        · next hevents =>
          -- an event is left to log, so the book lost an order
          refine ⟨?_, fun hfalse => absurd (hdisk.symm.trans hfalse) (by decide)⟩
          intro hunchanged
          rcases heffect with ⟨_, hnil, _⟩ | ⟨book, hbook, rfl, hbooks, _⟩
          · rw [hnil] at hevents
            exact absurd rfl hevents
          · have hsound := hknown.book entry.symbol book hbook
            have hreports : Reports st₁ st' := by
              split at h
              · next hsequence =>
                cases h
                exact reports_of_sequenceEvents hsequence
              · cases h
            have hbooks' : st'.books = st.books.insert entry.symbol (book.cancelOrder orderId).1 :=
              (congrArg Exchange.books hreports.exchange).trans hbooks
            have hsame := hunchanged.books entry.symbol
            rw [bookOf_insert hbooks', if_pos rfl, bookOf_of_find? hbook] at hsame
            have hgone := gone_of_sameBook hsound.1 (.refl _) hsame
            rw [cancelOrder_of_Gone hsound.1 hgone] at hevents
            exact absurd rfl hevents

/-- The loop of `cancel_all` leaves the books as they were only if it found nothing to
cancel or stops behind stale orders. -/
theorem cancelEach_unchanged {past : List EngineRequest} {locals : CancelAllLocals}
    {ids : List Uuid} {result : Except ServerError CancelAllLocals} (hknown : st.KnownAfter past)
    (hids : ∀ id ∈ ids, ∃ entry, st.openOrders.find? id = some entry)
    (h : st.cancelEach locals ids = (result, st'))
    (hsame : ∀ symbol, SameBook (st.bookOf symbol) (st'.bookOf symbol)) :
    result = .ok locals ∨ ∃ done id rest, ids = done ++ id :: rest ∧ (∀ x ∈ done, st.Stale x) ∧
      (st.disk.drop done.length).head = false := by
  induction ids generalizing st with
  | nil =>
    cases h
    exact .inl rfl
  | cons id ids ih =>
    rcases hids id List.mem_cons_self with ⟨entry, hentry⟩
    simp only [cancelEach, hentry] at h
    rcases cancelKnownOrder_cases hentry with ⟨hdisk, _⟩ |
      ⟨_, events, mid, hcancel, _, hdisk, heffect⟩
    · exact .inr ⟨[], id, ids, rfl, by simp, hdisk⟩
    · rw [hcancel] at h
      simp only at h
      -- the rest of the loop only takes orders out
      have hlater : ∀ symbol, Dwindles (mid.bookOf symbol) (st'.bookOf symbol) := by
        have hmid : mid.KnownAfter past := by
          rcases cancelKnownOrder_does 0 st id with ⟨done, _, hdoes⟩
          rw [hcancel] at hdoes
          exact hdoes.steps.cancels_invariant _ (fun _ _ _ hx hstep => hstep.known_cancel hx) hknown
        have hloop : ∃ locals', mid.cancelEach locals' ids = (result, st') := by
          split at h <;> exact ⟨_, h⟩
        rcases hloop with ⟨locals', hloop⟩
        rcases cancelEach_does 0 mid locals' ids with ⟨done, _, hdoes⟩
        rw [hloop] at hdoes
        exact hdoes.steps.dwindles hmid
      have hstale : st.Stale id ∧ events = [] ∧ mid.exchange = st.exchange := by
        rcases heffect with ⟨hnone, hnil, hexchange⟩ | ⟨book, hbook, hevents, hbooks, hopen⟩
        · refine ⟨?_, hnil, hexchange⟩
          intro entry' book hentry' hbook
          rw [hentry] at hentry'
          cases hentry'
          rw [hnone] at hbook
          cases hbook
        · have hsound := hknown.book entry.symbol book hbook
          have hdwindles := hlater entry.symbol
          have hsame := hsame entry.symbol
          rw [bookOf_insert hbooks, if_pos rfl] at hdwindles
          rw [bookOf_of_find? hbook] at hsame
          have hgone := gone_of_sameBook hsound.1 hdwindles hsame
          have hnothing := cancelOrder_of_Gone hsound.1 hgone
          rw [hnothing] at hevents hbooks
          refine ⟨?_, hevents, ?_⟩
          · intro entry' book' hentry' hbook'
            rw [hentry] at hentry'
            cases hentry'
            rw [hbook] at hbook'
            cases hbook'
            exact hgone
          · rw [hevents] at hopen
            rw [OrdMap.insert_of_find?_eq_some hbook] at hbooks
            exact exchange_eq hbooks hopen
      rcases hstale with ⟨hstale, rfl, hexchange⟩
      have hopen : mid.openOrders = st.openOrders := congrArg Exchange.openOrders hexchange
      have hbookOf : ∀ symbol, mid.bookOf symbol = st.bookOf symbol := by
        intro symbol
        rw [← bookOf_exchange, hexchange, bookOf_exchange]
      simp only [List.isEmpty_nil, if_true] at h
      have hmidIds : ∀ x ∈ ids, ∃ entry, mid.openOrders.find? x = some entry := by
        intro x hx
        rw [hopen]
        exact hids x (List.mem_cons_of_mem _ hx)
      have hmidSame : ∀ symbol, SameBook (mid.bookOf symbol) (st'.bookOf symbol) := by
        intro symbol
        rw [hbookOf]
        exact hsame symbol
      rcases ih (hknown.of_exchange hexchange) hmidIds h hmidSame with hok |
        ⟨done, id', rest, hsplit, hdone, hfails⟩
      · exact .inl hok
      refine .inr ⟨id :: done, id', rest, by rw [hsplit]; rfl, ?_, ?_⟩
      · intro x hx
        rcases List.mem_cons.mp hx with rfl | hx
        · exact hstale
        · exact (stale_of_exchange hexchange x).mp (hdone x hx)
      · rw [hdisk] at hfails
        exact hfails

/-- Behind stale orders, the loop of `cancel_all` stops with nothing changed. -/
theorem cancelEach_stale {past : List EngineRequest} {locals : CancelAllLocals}
    {done rest : List Uuid} {id : Uuid} (hknown : st.KnownAfter past)
    (hids : ∀ x ∈ done ++ id :: rest, ∃ entry, st.openOrders.find? x = some entry)
    (hstale : ∀ x ∈ done, st.Stale x) (hdisk : (st.disk.drop done.length).head = false) :
    ∃ st', st.cancelEach locals (done ++ id :: rest) = (.error .io, st') ∧
      st'.exchange = st.exchange ∧ st'.eventLog = st.eventLog := by
  induction done generalizing st with
  -- the disk fails at this id
  | nil =>
    rcases hids id (by simp) with ⟨entry, hentry⟩
    rcases cancelKnownOrder_cases hentry with ⟨_, st₁, hcancel, hexchange, hlog⟩ | ⟨htrue, _⟩
    · refine ⟨st₁, ?_, hexchange, hlog⟩
      simp only [List.nil_append, cancelEach, hentry, hcancel]
    · have hfalse : st.disk.head = false := hdisk
      rw [htrue] at hfalse
      cases hfalse
  | cons x done ih =>
    rcases hids x (by simp) with ⟨entry, hentry⟩
    rcases cancelKnownOrder_cases hentry with ⟨_, st₁, hcancel, hexchange, hlog⟩ |
      ⟨_, events, mid, hcancel, hlog, hmidDisk, heffect⟩
    · refine ⟨st₁, ?_, hexchange, hlog⟩
      simp only [List.cons_append, cancelEach, hentry, hcancel]
    · -- the earlier ids are of orders that are gone already
      have hnothing : events = [] ∧ mid.exchange = st.exchange := by
        rcases heffect with ⟨_, hnil, hexchange⟩ | ⟨book, hbook, hevents, hbooks, hopen⟩
        · exact ⟨hnil, hexchange⟩
        · have hgone := hstale x List.mem_cons_self entry book hentry hbook
          rw [cancelOrder_of_Gone (hknown.book _ book hbook).1 hgone] at hevents hbooks
          rw [hevents] at hopen
          rw [OrdMap.insert_of_find?_eq_some hbook] at hbooks
          exact ⟨hevents, exchange_eq hbooks hopen⟩
      rcases hnothing with ⟨rfl, hexchange⟩
      have hopen : mid.openOrders = st.openOrders := congrArg Exchange.openOrders hexchange
      have hmidIds : ∀ x ∈ done ++ id :: rest, ∃ entry, mid.openOrders.find? x = some entry := by
        intro y hy
        rw [hopen]
        exact hids y (List.mem_cons_of_mem _ hy)
      have hmidStale : ∀ y ∈ done, mid.Stale y := by
        intro y hy
        exact (stale_of_exchange hexchange y).mpr (hstale y (List.mem_cons_of_mem _ hy))
      rcases ih (hknown.of_exchange hexchange) hmidIds hmidStale (by rw [hmidDisk]; exact hdisk) with
        ⟨st₁, hloop, hexchange₁, hlog₁⟩
      refine ⟨st₁, ?_, hexchange₁.trans hexchange, hlog₁.trans hlog⟩
      simp only [List.cons_append, cancelEach, hentry, hcancel, List.isEmpty_nil, if_true]
      exact hloop

theorem mem_ordersToCancel {userId : Uuid} {symbol : Option String} {id : Uuid} :
    id ∈ st.ordersToCancel userId symbol ↔ ∃ entry, st.openOrders.find? id = some entry ∧
      entry.userId = userId ∧ ∀ s, symbol = some s → s = entry.symbol := by
  simp only [ordersToCancel, List.mem_map, List.mem_filter, decide_eq_true_eq, Prod.exists,
    OrdMap.find?_eq_some, and_assoc]
  constructor
  · rintro ⟨_, entry, hmem, huser, hsymbol, rfl⟩
    refine ⟨entry, hmem, huser, ?_⟩
    rintro s rfl
    exact of_decide_eq_true hsymbol
  · rintro ⟨entry, hmem, huser, hsymbol⟩
    refine ⟨id, entry, hmem, huser, ?_, rfl⟩
    cases symbol with
    | none => rfl
    | some s => exact decide_eq_true (hsymbol s rfl)

theorem cancelAll_unchanged_iff {past : List EngineRequest} {requestId userId : Uuid}
    {symbol : Option String} (hknown : st.KnownAfter past)
    (h : st.cancelAll requestId userId symbol = (.error error, st')) :
    Unchanged st st' ↔ FailsBeforeEffect fuel st (.cancelAll requestId userId symbol) := by
  have hids : ∀ id ∈ st.ordersToCancel userId symbol, ∃ entry,
      st.openOrders.find? id = some entry := by
    intro id hid
    rcases mem_ordersToCancel.mp hid with ⟨entry, hentry, _⟩
    exact ⟨entry, hentry⟩
  unfold cancelAll at h
  dsimp only at h
  constructor
  · intro hunchanged
    split at h
    · next hloop =>
      cases h
      rcases cancelEach_unchanged hknown hids hloop hunchanged.books with hok |
        ⟨done, id, rest, hsplit, hstale, hdisk⟩
      · cases hok
      · exact .stale hsplit hstale hdisk
    · next locals st₁ hloop =>
      -- the loop went through; had it found nothing, there would be no event to log
      have hreports : Reports st₁ st' := by
        split at h
        · next hsequence =>
          cases h
          exact reports_of_sequenceEvents hsequence
        · cases h
      have hsame : ∀ symbol, SameBook (st.bookOf symbol) (st₁.bookOf symbol) := by
        intro symbol
        rw [← bookOf_exchange st₁, ← hreports.exchange, bookOf_exchange]
        exact hunchanged.books symbol
      rcases cancelEach_unchanged hknown hids hloop hsame with hok |
        ⟨done, id, rest, hsplit, hstale, hdisk⟩
      · cases hok
        cases h
      · exact .stale hsplit hstale hdisk
  · intro hfails
    have hsplit : st.ordersToCancel userId symbol = [] ∨ ∃ done id rest,
        st.ordersToCancel userId symbol = done ++ id :: rest ∧ (∀ x ∈ done, st.Stale x) ∧
          (st.disk.drop done.length).head = false := by
      cases hfails with
      | first hdisk =>
        cases hlist : st.ordersToCancel userId symbol with
        | nil => exact .inl rfl
        | cons id rest => exact .inr ⟨[], id, rest, rfl, by simp, hdisk⟩
      | stale hlist hstale hdisk => exact .inr ⟨_, _, _, hlist, hstale, hdisk⟩
    rcases hsplit with hnil | ⟨done, id, rest, hlist, hstale, hdisk⟩
    · rw [hnil] at h
      cases h
    · rw [hlist] at h hids
      rcases cancelEach_stale hknown hids hstale hdisk with ⟨st₁, hloop, hexchange, hlog⟩
      rw [hloop] at h
      cases h
      exact .of_exchange hexchange hlog

/-! ### All requests -/

theorem marketStatusResponse_unchanged (st : EngineState) {mid : EngineState} {requestId : Uuid}
    {symbol : String}
    {status : Proto.MarketStatus}
    (h : mid.marketStatusResponse requestId symbol status = (.error error, st'))
    (hexchange : mid.exchange = st.exchange) (hlog : mid.eventLog = st.eventLog)
    (hdisk : mid.disk = st.disk) :
    st.disk.head = false ∧ Unchanged st st' := by
  unfold marketStatusResponse at h
  split at h
  · next hsequence =>
    cases h
    have hreports := reports_of_sequenceEvents hsequence
    have hfails : mid.disk.head = false := by
      by_contra htrue
      have htrue := Bool.eq_true_of_not_eq_false htrue
      simp only [sequenceEvents, EventLog.appendNext, htrue, if_true] at hsequence
      cases hsequence
    refine ⟨hdisk ▸ hfails, .of_exchange (hreports.exchange.trans hexchange) ?_⟩
    exact ((sequenceEvents_failed hsequence).mpr hfails).trans hlog
  · cases h

end EngineState

end CryptoCex.Server
