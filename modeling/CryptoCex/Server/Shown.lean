import CryptoCex.Lib.Machine
import CryptoCex.Server.EventStream

/-!
# The levels that subscribers are shown

A `BookDelta` holds all levels of a book down to the depth of the engine, as a snapshot does. A
request that changes a book ends its events with the levels the book has then, except for a
placement that is rejected after the match: it has no events.

So the last diff shows the levels of the book, if no request failed to log its events and no
rejected placement has changed the levels (`follows_of_run`).
-/

namespace CryptoCex.Server

open CryptoCex.Core (BookDepth Decimal EngineEvent OrderBook Uuid)
open Machine (run Along)
open Proto (BookSnapshot EngineOrder EngineRequest SequencedEngineEvent)

/-- The levels that the diffs of a symbol show. -/
def shownBy (symbol : String) (events : List Proto.EngineEvent) : List BookDepth :=
  events.filterMap fun event => match event with
    | .bookDelta s bids asks => if s = symbol then some ⟨bids, asks⟩ else none
    | _ => none

theorem shownBy_append (symbol : String) (events events' : List Proto.EngineEvent) :
    shownBy symbol (events ++ events') = shownBy symbol events ++ shownBy symbol events' :=
  List.filterMap_append

namespace EngineState

variable {fuel : ℕ} {st st' mid : EngineState} {symbol s : String}

/-- The levels of a book, down to the depth of the engine. -/
def shown (st : EngineState) (symbol : String) : BookDepth :=
  ⟨(st.bookSnapshot symbol st.snapshotDepth).bids, (st.bookSnapshot symbol st.snapshotDepth).asks⟩

/-- What is shown depends on the book and the depth only. -/
theorem shown_congr (hbook : st'.books.find? symbol = st.books.find? symbol)
    (hdepth : st'.snapshotDepth = st.snapshotDepth) : st'.shown symbol = st.shown symbol := by
  unfold shown bookSnapshot
  rw [hbook, hdepth]

/-- A diff shows its own symbol. -/
theorem shownBy_bookDeltaEvent (st : EngineState) (s symbol : String) :
    shownBy symbol [st.bookDeltaEvent s] = if s = symbol then [st.shown symbol] else [] := by
  unfold shownBy
  by_cases h : s = symbol
  · rw [if_pos h, ← h]
    simp [bookDeltaEvent, bookSnapshot, shown]
  · rw [if_neg h]
    simp [bookDeltaEvent, bookSnapshot, h]

/-- The events show what has become of a book: every diff shows its levels after the request, and
without a diff they are what they were. -/
structure Announces (symbol : String) (st : EngineState) (events : List Proto.EngineEvent)
    (st' : EngineState) : Prop where
  shows : ∀ levels ∈ shownBy symbol events, levels = st'.shown symbol
  silent : shownBy symbol events = [] → st'.shown symbol = st.shown symbol

/-- If nothing shown changes, nothing needs to be announced. -/
theorem Announces.of_same (hshown : st'.shown symbol = st.shown symbol)
    {events : List Proto.EngineEvent} (hevents : shownBy symbol events = []) :
    Announces symbol st events st' where
  shows := by
    intro levels hlevels
    rw [hevents] at hlevels
    cases hlevels
  silent := fun _ => hshown

/-! ## Events without diffs -/

/-- Logging events leaves the books alone. -/
theorem sequenceEvents_books {events : List Proto.EngineEvent}
    {result : Except ServerError (List SequencedEngineEvent)}
    (h : st.sequenceEvents events = (result, st')) :
    st'.books = st.books ∧ st'.snapshotDepth = st.snapshotDepth := by
  induction events generalizing st result with
  | nil =>
    cases h
    exact ⟨rfl, rfl⟩
  | cons event events ih =>
    unfold sequenceEvents at h
    dsimp only at h
    split at h
    · cases h
      exact ⟨rfl, rfl⟩
    · split at h
      · next hrest =>
        cases h
        have htail := ih hrest
        exact htail
      · next hrest =>
        cases h
        have htail := ih hrest
        exact htail

/-- Translating events changes no book. -/
theorem toWireCoreEvents_books (symbol : String) (st : EngineState) (s : String)
    (events : List EngineEvent) :
    (st.toWireCoreEvents s events).2.books = st.books ∧
    (st.toWireCoreEvents s events).2.snapshotDepth = st.snapshotDepth ∧
    shownBy symbol (st.toWireCoreEvents s events).1.1 = [] := by
  induction events generalizing st with
  | nil => exact ⟨rfl, rfl, rfl⟩
  | cons event events ih =>
    cases event with
    | fill f => exact ih (st.toWireFill s f).2
    | rested => exact ih st
    | cancelled => exact ih st
    | stopTriggered => exact ih st

theorem shownBy_toWireCancelEvents (symbol : String) (events : List EngineEvent) :
    shownBy symbol (toWireCancelEvents events) = [] := by
  refine List.filterMap_eq_nil_iff.mpr ?_
  intro wire hwire
  rcases List.mem_filterMap.mp hwire with ⟨event, _, heq⟩
  cases event <;> cases heq
  rfl

/-! ## Cancels -/

section Cancel

variable {b : OrderBook} {id : Uuid}

/-- A cancel without an event takes no order out of a queue. -/
theorem cancelOrderInternal_silent {reason : Core.CancelReason}
    (h : (b.cancelOrderInternal id reason).2 = []) :
    (b.cancelOrderInternal id reason).1.bids = b.bids ∧
    (b.cancelOrderInternal id reason).1.asks = b.asks := by
  unfold OrderBook.cancelOrderInternal at h ⊢
  split at h
  · cases h
  · split at h
    · next hindex => simp_all
    · next hindex =>
      dsimp only at h
      split at h
      · next hlevel => simp_all
      · cases h

/-- A cancel without events shows what was shown. -/
theorem cancelOrder_silent (h : (b.cancelOrder id).2 = []) (depth : ℕ) :
    (b.cancelOrder id).1.depthLevels depth = b.depthLevels depth := by
  have hsides : (b.cancelOrder id).1.bids = b.bids ∧ (b.cancelOrder id).1.asks = b.asks := by
    unfold OrderBook.cancelOrder at h ⊢
    split at h
    · exact cancelOrderInternal_silent h
    · rcases List.append_eq_nil_iff.mp h with ⟨hfirst, hsecond⟩
      have hone := cancelOrderInternal_silent hfirst
      have htwo := cancelOrderInternal_silent hsecond
      exact ⟨htwo.1.trans hone.1, htwo.2.trans hone.2⟩
  unfold OrderBook.depthLevels
  rw [hsides.1, hsides.2]

end Cancel

theorem appendCommand_books {command : WalCommand} {result : Except ServerError Unit}
    (h : st.appendCommand command = (result, st')) :
    st'.books = st.books ∧ st'.snapshotDepth = st.snapshotDepth := by
  cases h
  exact ⟨rfl, rfl⟩

/-- A cancel changes the levels of the order's book at most, and none if it tells nothing. -/
theorem cancelKnownOrder_shown (symbol : String) {orderId : Uuid} {entry : OpenOrder}
    {events : List EngineEvent}
    (hentry : st.openOrders.find? orderId = some entry)
    (h : st.cancelKnownOrder orderId = (.ok events, st')) :
    st'.snapshotDepth = st.snapshotDepth ∧
    (symbol ≠ entry.symbol ∨ events = [] → st'.shown symbol = st.shown symbol) := by
  unfold cancelKnownOrder at h
  rw [hentry] at h
  dsimp only at h
  split at h
  · cases h
  · next happ =>
    rcases appendCommand_books happ with ⟨hbooks, hdepth⟩
    split at h
    · next hbook =>
      cases h
      exact ⟨hdepth, fun _ => shown_congr (congrArg (·.find? symbol) hbooks) hdepth⟩
    · next book hbook =>
      cases h
      rw [hbooks] at hbook
      refine ⟨hdepth, ?_⟩
      intro hwhy
      -- the book of the order, unless the cancel tells nothing; the others are as they were
      by_cases hsymbol : symbol = entry.symbol
      · have hsilent := cancelOrder_silent (hwhy.resolve_left (not_not.mpr hsymbol))
        unfold shown bookSnapshot
        dsimp only
        rw [hsymbol, OrdMap.find?_insert_self, hbook]
        dsimp only
        rw [hsilent, hdepth]
      · refine shown_congr ?_ hdepth
        show (OrdMap.insert _ entry.symbol _).find? symbol = _
        rw [OrdMap.find?_insert, if_neg hsymbol, hbooks]

/-- The loop of `cancel_all`: the books of the changed symbols alone have other levels. -/
theorem cancelEach_shown (symbol : String) {locals locals' : CancelAllLocals} {orderIds : List Uuid}
    (h : st.cancelEach locals orderIds = (.ok locals', st')) :
    st'.snapshotDepth = st.snapshotDepth ∧
    (∀ s ∈ locals.changedSymbols.keys, s ∈ locals'.changedSymbols.keys) ∧
    (symbol ∉ locals'.changedSymbols.keys → st'.shown symbol = st.shown symbol) ∧
    (shownBy symbol locals.wireEvents = [] → shownBy symbol locals'.wireEvents = []) := by
  induction orderIds generalizing st locals with
  | nil =>
    cases h
    exact ⟨rfl, fun _ hs => hs, fun _ => rfl, id⟩
  | cons orderId orderIds ih =>
    unfold cancelEach at h
    split at h
    · exact ih h
    · next entry hentry =>
      split at h
      · cases h
      · next events mid hcancel =>
        rcases cancelKnownOrder_shown symbol hentry hcancel with ⟨hdepth, hcancelled⟩
        split_ifs at h with hempty
        · -- nothing was cancelled, so that the symbol is not marked as changed
          rcases ih h with ⟨hdepth', hkeys, hshown, hevents⟩
          refine ⟨hdepth'.trans hdepth, hkeys, ?_, hevents⟩
          intro hs
          exact (hshown hs).trans (hcancelled (.inr (List.isEmpty_iff.mp hempty)))
        · rcases ih h with ⟨hdepth', hkeys, hshown, hevents⟩
          have hinserted : entry.symbol ∈ locals'.changedSymbols.keys := by
            refine hkeys _ (OrdMap.mem_keys.mpr ⟨(), ?_⟩)
            exact OrdMap.find?_insert_self _ _ _
          refine ⟨hdepth'.trans hdepth, ?_, ?_, ?_⟩
          · intro s hs
            rcases OrdMap.mem_keys.mp hs with ⟨u, hu⟩
            refine hkeys s (OrdMap.mem_keys.mpr ⟨(), ?_⟩)
            show (OrdMap.insert _ entry.symbol ()).find? s = _
            rw [OrdMap.find?_insert, hu]
            split_ifs <;> rfl
          · intro hs
            refine (hshown hs).trans (hcancelled (.inl ?_))
            rintro rfl
            exact hs hinserted
          · intro hnone
            refine hevents ?_
            rw [shownBy_append, hnone, shownBy_toWireCancelEvents]
            rfl

/-! ## Requests -/

/-- What is sequenced are the events given. -/
theorem events_of_sequenceEvents {events : List Proto.EngineEvent}
    {sequenced : List SequencedEngineEvent}
    (h : st.sequenceEvents events = (.ok sequenced, st')) : sequenced.map (·.event) = events := by
  rcases sequenceEvents_extends h with ⟨new, _, _, hok, _⟩
  rcases hok sequenced rfl with ⟨rfl, heq⟩
  exact heq

/-- Events that end with the levels of one book, the only one that has changed. -/
theorem announces_delta (plain : List Proto.EngineEvent) {sequenced : List SequencedEngineEvent}
    (hplain : shownBy symbol plain = [])
    (hother : symbol ≠ s → mid.shown symbol = st.shown symbol)
    (h : mid.sequenceEvents (plain ++ [mid.bookDeltaEvent s]) = (.ok sequenced, st')) :
    Announces symbol st (sequenced.map (·.event)) st' := by
  rcases sequenceEvents_books h with ⟨hbooks, hdepth'⟩
  have hshown : st'.shown symbol = mid.shown symbol :=
    shown_congr (congrArg (·.find? symbol) hbooks) hdepth'
  rw [events_of_sequenceEvents h]
  -- the delta tells the levels of its own symbol only
  by_cases hs : s = symbol
  · have hdelta : shownBy symbol (plain ++ [mid.bookDeltaEvent s]) = [mid.shown symbol] := by
      rw [shownBy_append, hplain, shownBy_bookDeltaEvent, if_pos hs]
      rfl
    refine ⟨?_, ?_⟩
    · intro levels hlevels
      rw [hdelta] at hlevels
      rw [List.mem_singleton.mp hlevels, hshown]
    · intro hnone
      rw [hdelta] at hnone
      cases hnone
  · refine .of_same (hshown.trans (hother (Ne.symm hs))) ?_
    rw [shownBy_append, hplain, shownBy_bookDeltaEvent, if_neg hs]
    rfl

/-- An acknowledged placement announces the book it leaves. -/
theorem acknowledgePlace_announces {requestId : Uuid} {wireOrder : EngineOrder}
    {order : Core.Order} {coreEvents : List EngineEvent} {bundle : ResponseBundle}
    (h : mid.acknowledgePlace requestId wireOrder order coreEvents = (.ok bundle, st'))
    (hother : symbol ≠ wireOrder.symbol → mid.books.find? symbol = st.books.find? symbol)
    (hdepth : mid.snapshotDepth = st.snapshotDepth) :
    Announces symbol st (bundle.events.map (·.event)) st' := by
  rcases toWireCoreEvents_books symbol { mid with
    openOrders := applyOpenOrderUpdates mid.openOrders (some order) coreEvents }
    wireOrder.symbol coreEvents with ⟨hbooks, hdepth', hnone⟩
  unfold acknowledgePlace at h
  dsimp only at h
  split at h
  · cases h
  · next hseq =>
    cases h
    refine announces_delta (.orderAccepted wireOrder :: _) hnone ?_ hseq
    intro hs
    refine shown_congr ?_ (hdepth'.trans hdepth)
    rw [hbooks]
    exact hother hs

/-- So does every placement that is not rejected after its match. -/
theorem placeOrder_announces {requestId : Uuid} {order : EngineOrder} {bundle : ResponseBundle}
    (h : st.placeOrder fuel requestId order = some (.ok bundle, st'))
    (hquiet : ∀ rejected, bundle.response = .reject rejected →
      st'.shown symbol = st.shown symbol) :
    Announces symbol st (bundle.events.map (·.event)) st' := by
  unfold placeOrder at h
  split at h
  · cases h
    exact .of_same rfl rfl
  · dsimp only at h
    split_ifs at h
    · cases h
      exact .of_same rfl rfl
    · split at h
      · cases h
      · next happ =>
        rcases appendCommand_books happ with ⟨hbooks, hdepth⟩
        split at h
        · cases h
        · split at h
          · cases h
            exact .of_same (hquiet _ rfl) rfl
          · -- acknowledged: the events end with the delta of the book
            refine acknowledgePlace_announces (Option.some.inj h) ?_ hdepth
            intro hs
            rw [OrdMap.find?_insert, if_neg hs, hbooks]

/-- So does a cancel. -/
theorem cancelOrder_announces {requestId : Uuid} {s : String} {orderId : Uuid}
    {bundle : ResponseBundle} (h : st.cancelOrder requestId s orderId = (.ok bundle, st')) :
    Announces symbol st (bundle.events.map (·.event)) st' := by
  unfold cancelOrder at h
  split at h
  · cases h
    exact .of_same rfl rfl
  · next entry hentry =>
    split_ifs at h with hsymbol
    · cases h
      exact .of_same rfl rfl
    · split at h
      · cases h
      · next events mid hcancel =>
        rcases cancelKnownOrder_shown symbol hentry hcancel with ⟨_, hcancelled⟩
        -- a cancel without events has changed no book
        split_ifs at h with hempty
        · cases h
          exact .of_same (hcancelled (.inr (List.isEmpty_iff.mp hempty))) rfl
        · dsimp only at h
          split at h
          · cases h
          · next hseq =>
            cases h
            refine announces_delta _ (shownBy_toWireCancelEvents _ _) ?_ hseq
            intro hs
            exact hcancelled (.inl (not_not.mp hsymbol ▸ hs))

/-- So does a cancel-all, for each symbol that has changed. -/
theorem cancelAll_announces {requestId userId : Uuid} {market : Option String}
    {bundle : ResponseBundle} (h : st.cancelAll requestId userId market = (.ok bundle, st')) :
    Announces symbol st (bundle.events.map (·.event)) st' := by
  unfold cancelAll at h
  dsimp only at h
  split at h
  · cases h
  · next locals mid heach =>
    rcases cancelEach_shown symbol heach with ⟨_, _, hshown, hevents⟩
    split at h
    · cases h
    · next hseq =>
      cases h
      rcases sequenceEvents_books hseq with ⟨hbooks, hdepth'⟩
      have hsame : st'.shown symbol = mid.shown symbol :=
        shown_congr (congrArg (·.find? symbol) hbooks) hdepth'
      -- the diffs come last, when all cancels are done
      have hdeltas : ∀ keys : List String, ∀ levels,
          levels ∈ shownBy symbol (keys.map mid.bookDeltaEvent) ↔
            symbol ∈ keys ∧ levels = mid.shown symbol := by
        intro keys levels
        induction keys with
        | nil => simp [shownBy]
        | cons key keys ih =>
          rw [List.map_cons, ← List.singleton_append, shownBy_append, List.mem_append, ih,
            shownBy_bookDeltaEvent, List.mem_cons]
          by_cases hkey : key = symbol
          · rw [if_pos hkey, List.mem_singleton, hkey]
            tauto
          · rw [if_neg hkey]
            have hne : symbol ≠ key := Ne.symm hkey
            simp [hne]
      rw [events_of_sequenceEvents hseq]
      refine ⟨?_, ?_⟩
      · intro levels hlevels
        rw [shownBy_append, hevents rfl, List.nil_append, hdeltas] at hlevels
        exact hlevels.2.trans hsame.symm
      · intro hnone
        rw [shownBy_append, hevents rfl, List.nil_append] at hnone
        refine hsame.trans (hshown ?_)
        intro hkey
        have hmem := (hdeltas locals.changedSymbols.keys _).mpr ⟨hkey, rfl⟩
        rw [hnone] at hmem
        cases hmem

/-- A request that is not a placement shows what it changes. So does a placement, unless it is
rejected after it has changed the levels. -/
theorem handleRequest_announces {req : EngineRequest} {bundle : ResponseBundle}
    (h : st.handleRequest fuel req = some (.ok bundle, st'))
    (hquiet : ∀ requestId order rejected, req = .place requestId order →
      bundle.response = .reject rejected → st'.shown symbol = st.shown symbol) :
    Announces symbol st (bundle.events.map (·.event)) st' := by
  have hmarket : ∀ (mid : EngineState) {requestId s status}, mid.books = st.books →
      mid.snapshotDepth = st.snapshotDepth →
      mid.marketStatusResponse requestId s status = (.ok bundle, st') →
        Announces symbol st (bundle.events.map (·.event)) st' := by
    intro mid requestId s status hbooks hdepth hresponse
    unfold marketStatusResponse at hresponse
    split at hresponse
    · cases hresponse
    · next hseq =>
      cases hresponse
      rcases sequenceEvents_books hseq with ⟨hbooks', hdepth'⟩
      refine .of_same
        (shown_congr (congrArg (·.find? symbol) (hbooks'.trans hbooks)) (hdepth'.trans hdepth)) ?_
      rw [events_of_sequenceEvents hseq]
      rfl
  -- a change of status does not touch the books
  cases req with
  | place requestId order => exact placeOrder_announces h fun rejected => hquiet _ _ rejected rfl
  | cancel requestId s orderId => exact cancelOrder_announces (Option.some.inj h)
  | cancelAll requestId userId market => exact cancelAll_announces (Option.some.inj h)
  | haltMarket requestId s =>
    exact hmarket { st with haltedSymbols := insert s st.haltedSymbols } rfl rfl
      (Option.some.inj h)
  | resumeMarket requestId s =>
    exact hmarket { st with haltedSymbols := st.haltedSymbols.erase s } rfl rfl
      (Option.some.inj h)
  | snapshot requestId s depth =>
    cases h
    exact .of_same rfl rfl
  | ping requestId =>
    cases h
    exact .of_same rfl rfl

end EngineState

/-! ## Runs -/

/-- The engine, with the events it has answered with. -/
structure Session where
  engine : EngineState
  emitted : List SequencedEngineEvent

/-- The diffs of a symbol, with their numbers. -/
def deltasOf (symbol : String) (events : List SequencedEngineEvent) : List BookSnapshot :=
  events.filterMap fun e => match e.event with
    | .bookDelta s bids asks => if s = symbol then some ⟨s, bids, asks, e.seq⟩ else none
    | _ => none

def levelsOf (s : BookSnapshot) : BookDepth := ⟨s.bids, s.asks⟩

def isPlacement : EngineRequest → Bool
  | .place _ _ => true
  | _ => false

def isRejection : Proto.EngineResponse → Bool
  | .reject _ => true
  | _ => false

namespace Session

variable {fuel : ℕ} {symbol : String} {st : EngineState} {s t : Session}

def step (fuel : ℕ) (s : Session) (req : EngineRequest) : Option Session :=
  (s.engine.handleRequest fuel req).map fun (result, engine) =>
    match result with
    | .ok bundle => ⟨engine, s.emitted ++ bundle.events⟩
    | .error _ => ⟨engine, s.emitted⟩

/-- The request is answered, and if it is a placement that is rejected the levels of the symbol
are what they were. -/
def Audible (fuel : ℕ) (symbol : String) (s : Session) (req : EngineRequest) : Prop :=
  match s.engine.handleRequest fuel req with
  | some (.ok bundle, engine) => isPlacement req = true → isRejection bundle.response = true →
      engine.shown symbol = s.engine.shown symbol
  | some (.error _, _) => False
  | none => True

instance (fuel : ℕ) (symbol : String) (s : Session) (req : EngineRequest) :
    Decidable (s.Audible fuel symbol req) := by
  unfold Audible
  exact match s.engine.handleRequest fuel req with
    | some (.ok _, _) => inferInstanceAs (Decidable (_ → _ → _))
    | some (.error _, _) => isFalse id
    | none => isTrue trivial

theorem deltasOf_append (symbol : String) (events events' : List SequencedEngineEvent) :
    deltasOf symbol (events ++ events') = deltasOf symbol events ++ deltasOf symbol events' :=
  List.filterMap_append

/-- The diffs of a symbol are what the log shows of it. -/
theorem levelsOf_deltasOf (symbol : String) (events : List SequencedEngineEvent) :
    (deltasOf symbol events).map levelsOf = shownBy symbol (events.map (·.event)) := by
  unfold deltasOf shownBy
  rw [List.map_filterMap, List.filterMap_map]
  refine List.filterMap_congr ?_
  intro e _
  rcases e with ⟨seq, event⟩
  cases event with
  | bookDelta s bids asks =>
    show Option.map levelsOf (if s = symbol then _ else none) = if s = symbol then _ else none
    split_ifs <;> rfl
  | orderAccepted | orderRested | fill | orderCanceled | marketStatus => rfl

/-- The numbers of the diffs are those of their events. -/
theorem seqs_deltasOf (symbol : String) (events : List SequencedEngineEvent) :
    ((deltasOf symbol events).map (·.seq)).Sublist (events.map (·.seq)) := by
  induction events with
  | nil => exact .slnil
  | cons e events ih =>
    rcases e with ⟨seq, event⟩
    cases event with
    | bookDelta s bids asks =>
      by_cases hs : s = symbol
      · have hsome : deltasOf symbol (⟨seq, .bookDelta s bids asks⟩ :: events) =
            ⟨s, bids, asks, seq⟩ :: deltasOf symbol events :=
          List.filterMap_cons_some (if_pos hs)
        rw [hsome]
        exact ih.cons_cons seq
      · have hnone : deltasOf symbol (⟨seq, .bookDelta s bids asks⟩ :: events) =
            deltasOf symbol events := List.filterMap_cons_none (if_neg hs)
        rw [hnone]
        exact ih.cons seq
    | orderAccepted | orderRested | fill | orderCanceled | marketStatus => exact ih.cons seq

/-- The levels that the last diff shows, or those at the start. -/
def lastShown (symbol : String) (start : BookDepth) (events : List SequencedEngineEvent) :
    BookDepth := ((deltasOf symbol events).getLast?.map levelsOf).getD start

/-- The events of a session from a state on: numbered one after the other, the diffs of the symbol
show its book, and the last one shows it as it is. -/
structure Follows (symbol : String) (st : EngineState) (s : Session) : Prop where
  numbered : Numbered st.eventLog.sequence s.emitted s.engine.eventLog.sequence
  shows : ∀ delta ∈ deltasOf symbol s.emitted, ∃ st : EngineState,
    levelsOf delta = st.shown symbol
  last : lastShown symbol (st.shown symbol) s.emitted = s.engine.shown symbol

/-- A request that is audible is followed by the diffs. -/
theorem Follows.step {req : EngineRequest} (h : Follows symbol st s)
    (hok : s.Audible fuel symbol req) (hstep : s.step fuel req = some t) : Follows symbol st t := by
  rcases Option.map_eq_some_iff.mp hstep with ⟨⟨result, engine⟩, hrequest, rfl⟩
  unfold Audible at hok
  rw [hrequest] at hok
  cases result with
  | error e => exact hok.elim
  | ok bundle =>
    have hannounces : EngineState.Announces symbol s.engine (bundle.events.map (·.event)) engine := by
      refine EngineState.handleRequest_announces hrequest ?_
      rintro requestId order rejected rfl hresponse
      refine hok rfl ?_
      rw [hresponse]
      rfl
    rcases EngineState.handleRequest_logs hrequest with ⟨new, hextends, hevents⟩
    rcases hevents bundle rfl with rfl
    have hlevels := levelsOf_deltasOf symbol bundle.events
    -- every diff is a book that was shown, and the last one is the book now
    refine ⟨h.numbered.append hextends.numbered, ?_, ?_⟩
    · intro delta hdelta
      dsimp only at hdelta
      rw [deltasOf_append] at hdelta
      rcases List.mem_append.mp hdelta with hold | hnew
      · exact h.shows delta hold
      · refine ⟨engine, hannounces.shows _ ?_⟩
        rw [← hlevels]
        exact List.mem_map_of_mem hnew
    · unfold lastShown
      dsimp only
      rw [deltasOf_append]
      by_cases hnone : deltasOf symbol bundle.events = []
      · rw [hnone, List.append_nil, hannounces.silent (by rw [← hlevels, hnone]; rfl)]
        exact h.last
      · rw [List.getLast?_append_of_ne_nil _ hnone, List.getLast?_eq_some_getLast hnone]
        refine hannounces.shows _ ?_
        rw [← hlevels]
        exact List.mem_map_of_mem (List.getLast_mem hnone)

theorem follows_start (symbol : String) (st : EngineState) : Follows symbol st ⟨st, []⟩ where
  numbered := .nil
  shows := by
    intro delta hdelta
    cases hdelta
  last := rfl

/-- The last diff shows the book as it is, in every run whose requests are all answered and in
which no rejected placement changes its levels. -/
theorem follows_of_run {reqs : List EngineRequest}
    (hok : Along (step fuel) (Audible fuel symbol) ⟨st, []⟩ reqs)
    (hrun : run (step fuel) ⟨st, []⟩ reqs = some s) : Follows symbol st s :=
  Machine.run_invariant (Follows symbol st) (Audible fuel symbol)
    (fun _ _ _ h hok hstep => h.step hok hstep) (follows_start symbol st) hok hrun

end Session

end CryptoCex.Server
