import CryptoCex.Server.Atomic
import CryptoCex.Server.Shown
import Mathlib.Data.Stream.Init

/-!
# Ids and appends

A fill on the wire draws the id of its trade from the id source. The fills of a match that is
rejected, or whose events are not appended, draw ids as well, so the log has some of the ids that
were drawn, in the order they were drawn in (`DrawnFrom`).

On a disk that takes every append (`Healthy`) every placement is answered.
-/

namespace CryptoCex.Server

open CryptoCex.Core (EngineEvent Uuid)
open Proto (EngineOrder EngineRequest SequencedEngineEvent)

/-- The ids of the trades among the events. -/
def tradeIds (events : List Proto.EngineEvent) : List Uuid :=
  events.filterMap fun e => match e with
    | .fill f => some f.tradeId
    | _ => none

theorem tradeIds_append (events events' : List Proto.EngineEvent) :
    tradeIds (events ++ events') = tradeIds events ++ tradeIds events' := List.filterMap_append

theorem tradeIds_sublist {events events' : List Proto.EngineEvent} (h : events <+: events') :
    (tradeIds events).Sublist (tradeIds events') := h.sublist.filterMap _

/-- The trade ids of a log are those of its fills. -/
theorem mem_tradeIds {events : List Proto.EngineEvent} {f : Proto.TradeFill}
    (h : .fill f ∈ events) : f.tradeId ∈ tradeIds events := List.mem_filterMap.mpr ⟨_, h, rfl⟩

theorem take_append_take_drop {α : Type*} (s : Stream' α) (m n : ℕ) :
    s.take m ++ (s.drop m).take n = s.take (m + n) := by
  induction m generalizing s with
  | zero => simp
  | succ m ih =>
    rw [Stream'.take_succ, Nat.succ_add, Stream'.take_succ, Stream'.drop_succ, List.cons_append, ih]

theorem take_eq_map {α : Type*} (s : Stream' α) (n : ℕ) : s.take n = (List.range n).map s.get := by
  induction n with
  | zero => rfl
  | succ n ih =>
    rw [Stream'.take_succ', ih, List.range_succ, List.map_append]
    rfl

namespace EngineState

variable {fuel : ℕ} {st st' mid : EngineState}

/-- The step drew this many ids, and took what it needed from the disk. -/
structure Uses (ids : ℕ) (st st' : EngineState) : Prop where
  ids : st'.idSource = st.idSource.drop ids
  disk : ∃ n, st'.disk = st.disk.drop n

theorem Uses.refl (st : EngineState) : Uses 0 st st := ⟨rfl, 0, rfl⟩

/-- Two parts use what both use. -/
theorem Uses.trans {m n : ℕ} (h : Uses m st mid) (h' : Uses n mid st') : Uses (m + n) st st' := by
  rcases h with ⟨hids, k, hdisk⟩
  rcases h' with ⟨hids', k', hdisk'⟩
  refine ⟨?_, k + k', ?_⟩
  · rw [hids', hids, Stream'.drop_drop]
  · rw [hdisk', hdisk, Stream'.drop_drop]

/-- Logging events draws no id. -/
theorem sequenceEvents_uses {events : List Proto.EngineEvent}
    {result : Except ServerError (List SequencedEngineEvent)}
    (h : st.sequenceEvents events = (result, st')) : Uses 0 st st' := by
  induction events generalizing st result with
  | nil =>
    cases h
    exact .refl _
  | cons event events ih =>
    unfold sequenceEvents at h
    dsimp only at h
    -- the append fails, or the rest is logged after it
    generalize st.eventLog.appendNext st.disk.head event = appended at h
    rcases appended with ⟨_ | sequenced, log⟩
    · cases h
      exact ⟨rfl, 1, rfl⟩
    · have hfirst : Uses 0 st { st with eventLog := log, disk := st.disk.tail } := ⟨rfl, 1, rfl⟩
      dsimp only at h
      split at h
      · next hrest =>
        cases h
        exact hfirst.trans (ih hrest)
      · next hrest =>
        cases h
        exact hfirst.trans (ih hrest)

/-- Nor does appending a command. -/
theorem appendCommand_uses {command : WalCommand} {result : Except ServerError Unit}
    (h : st.appendCommand command = (result, st')) : Uses 0 st st' := by
  cases h
  exact ⟨rfl, 1, rfl⟩

/-- Translating events draws one id for each fill. -/
theorem toWireCoreEvents_uses (st : EngineState) (symbol : String) (events : List EngineEvent) :
    ∃ n, Uses n st (st.toWireCoreEvents symbol events).2 ∧
      tradeIds (st.toWireCoreEvents symbol events).1.1 = st.idSource.take n := by
  induction events generalizing st with
  | nil => exact ⟨0, .refl _, rfl⟩
  | cons event events ih =>
    cases event with
    | fill f =>
      rcases ih (st.toWireFill symbol f).2 with ⟨n, huses, hids⟩
      have hfirst : Uses 1 st (st.toWireFill symbol f).2 := ⟨rfl, 0, rfl⟩
      refine ⟨1 + n, hfirst.trans huses, ?_⟩
      rw [Nat.add_comm, Stream'.take_succ]
      exact congrArg (st.idSource.head :: ·) hids
    | rested => exact ih st
    | cancelled => exact ih st
    | stopTriggered => exact ih st

/-- A cancel draws none. -/
theorem cancelKnownOrder_uses {orderId : Uuid} {result : Except ServerError (List EngineEvent)}
    (h : st.cancelKnownOrder orderId = (result, st')) : Uses 0 st st' := by
  unfold cancelKnownOrder at h
  split at h
  · cases h
    exact .refl _
  · split at h
    · next happ =>
      cases h
      exact appendCommand_uses happ
    · next happ =>
      have huses := appendCommand_uses happ
      split at h
      · cases h
        exact huses
      · cases h
        exact ⟨huses.ids, huses.disk⟩

/-- Nor do many. -/
theorem cancelEach_uses {locals : CancelAllLocals} {orderIds : List Uuid}
    {result : Except ServerError CancelAllLocals}
    (h : st.cancelEach locals orderIds = (result, st')) : Uses 0 st st' := by
  induction orderIds generalizing st locals with
  | nil =>
    cases h
    exact .refl _
  | cons orderId orderIds ih =>
    unfold cancelEach at h
    split at h
    · exact ih h
    · split at h
      · next hcancel =>
        cases h
        exact cancelKnownOrder_uses hcancel
      · next hcancel =>
        have huses := cancelKnownOrder_uses hcancel
        split_ifs at h
        · exact huses.trans (ih h)
        · exact huses.trans (ih h)

/-- The step drew ids, and the trades it logged have some of them. -/
def Draws (st st' : EngineState) : Prop :=
  ∃ n new, Uses n st st' ∧ st'.eventLog.entries = st.eventLog.entries ++ new ∧
    (tradeIds (new.map (·.event))).Sublist (st.idSource.take n)

theorem Draws.nothing (h : Uses 0 st st') (hlog : st'.eventLog = st.eventLog) : Draws st st' :=
  ⟨0, [], h, by rw [hlog, List.append_nil], List.Sublist.slnil⟩

/-- If the ids of the events were drawn, so are those of the log. -/
theorem draws_of_sequenceEvents {events : List Proto.EngineEvent} {n : ℕ}
    {result : Except ServerError (List SequencedEngineEvent)} (h : Uses n st mid)
    (hlog : mid.eventLog = st.eventLog) (hids : tradeIds events = st.idSource.take n)
    (hseq : mid.sequenceEvents events = (result, st')) : Draws st st' := by
  rcases sequenceEvents_extends hseq with ⟨new, hext, hprefix, _⟩
  refine ⟨n, new, h.trans (sequenceEvents_uses hseq), by rw [hext.entries, hlog], ?_⟩
  rw [← hids]
  exact tradeIds_sublist hprefix

theorem tradeIds_toWireCancelEvents (events : List EngineEvent) :
    tradeIds (toWireCancelEvents events) = [] := by
  refine List.filterMap_eq_nil_iff.mpr ?_
  intro e he
  rcases List.mem_filterMap.mp he with ⟨core, _, heq⟩
  cases core with
  | cancelled => cases heq; rfl
  | fill | rested | stopTriggered => cases heq

theorem tradeIds_bookDeltas (st : EngineState) (symbols : List String) :
    tradeIds (symbols.map st.bookDeltaEvent) = [] := by
  refine List.filterMap_eq_nil_iff.mpr ?_
  intro e he
  rcases List.mem_map.mp he with ⟨symbol, _, rfl⟩
  rfl

theorem tradeIds_cancelEach {locals locals' : CancelAllLocals} {orderIds : List Uuid}
    (h : st.cancelEach locals orderIds = (.ok locals', st'))
    (hnone : tradeIds locals.wireEvents = []) : tradeIds locals'.wireEvents = [] := by
  induction orderIds generalizing st locals with
  | nil =>
    cases h
    exact hnone
  | cons orderId orderIds ih =>
    unfold cancelEach at h
    split at h
    · exact ih h hnone
    · split at h
      · cases h
      · split_ifs at h
        · exact ih h hnone
        · refine ih h ?_
          rw [tradeIds_append, hnone, tradeIds_toWireCancelEvents, List.append_nil]

theorem marketStatusResponse_draws {requestId : Uuid} {symbol : String}
    {status : Proto.MarketStatus} {result : Except ServerError ResponseBundle}
    (h : Uses 0 st mid) (hlog : mid.eventLog = st.eventLog)
    (hstatus : mid.marketStatusResponse requestId symbol status = (result, st')) :
    Draws st st' := by
  have hids : tradeIds [.marketStatus symbol status] = st.idSource.take 0 := rfl
  unfold marketStatusResponse at hstatus
  split at hstatus
  · next hseq =>
    cases hstatus
    exact draws_of_sequenceEvents h hlog hids hseq
  · next hseq =>
    cases hstatus
    exact draws_of_sequenceEvents h hlog hids hseq

/-- The trade ids of a placement are drawn as they are used. -/
theorem placeOrder_draws {requestId : Uuid} {order : EngineOrder}
    {result : Except ServerError ResponseBundle}
    (h : st.placeOrder fuel requestId order = some (result, st')) : Draws st st' := by
  unfold placeOrder at h
  split at h
  · cases h
    exact .nothing (.refl _) rfl
  · dsimp only at h
    split_ifs at h
    · cases h
      exact .nothing (.refl _) rfl
    · split at h
      · next happ =>
        cases h
        exact .nothing (appendCommand_uses happ) (appendCommand_eventLog happ).1
      · next st₁ happ =>
        have huses := appendCommand_uses happ
        have hlog := (appendCommand_eventLog happ).1
        split at h
        · cases h
        · next book events _ =>
          split at h
          · cases h
            exact .nothing ⟨huses.ids, huses.disk⟩ hlog
          · have h := Option.some.inj h
            unfold acknowledgePlace at h
            dsimp only at h
            -- accepted: the ids are drawn when the events are translated
            generalize hst : { st₁ with
              books := st₁.books.insert order.symbol book
              openOrders := applyOpenOrderUpdates st₁.openOrders (some (toCoreOrder order))
                events } = st₂ at h
            have huses₂ : Uses 0 st st₂ := hst ▸ ⟨huses.ids, huses.disk⟩
            have hports := toWireCoreEvents_ports st₂ order.symbol events
            rcases toWireCoreEvents_uses st₂ order.symbol events with ⟨n, hwire, hids⟩
            generalize st₂.toWireCoreEvents order.symbol events = wired at *
            rcases wired with ⟨⟨wireEvents, fills⟩, mid⟩
            have hlog₂ : mid.eventLog = st.eventLog := by
              rw [hports.1, ← hst]
              exact hlog
            have hids₂ : tradeIds (.orderAccepted order ::
                (wireEvents ++ [mid.bookDeltaEvent order.symbol])) = st.idSource.take (0 + n) := by
              change tradeIds (wireEvents ++ [mid.bookDeltaEvent order.symbol]) = _
              rw [tradeIds_append, hids, huses₂.ids, Nat.zero_add]
              exact List.append_nil _
            dsimp only at h
            split at h
            · next hseq =>
              cases h
              exact draws_of_sequenceEvents (huses₂.trans hwire) hlog₂ hids₂ hseq
            · next hseq =>
              cases h
              exact draws_of_sequenceEvents (huses₂.trans hwire) hlog₂ hids₂ hseq

/-- So are those of every request. -/
theorem handleRequest_draws {req : EngineRequest} {result : Except ServerError ResponseBundle}
    (h : st.handleRequest fuel req = some (result, st')) : Draws st st' := by
  cases req with
  | place requestId order => exact placeOrder_draws h
  -- cancels make no trades
  | cancel requestId symbol orderId =>
    have h : st.cancelOrder requestId symbol orderId = (result, st') := Option.some.inj h
    unfold cancelOrder at h
    split at h
    · cases h
      exact .nothing (.refl _) rfl
    · split_ifs at h
      · cases h
        exact .nothing (.refl _) rfl
      · split at h
        · next hcancel =>
          cases h
          exact .nothing (cancelKnownOrder_uses hcancel) (cancelKnownOrder_eventLog hcancel).1
        · next events mid hcancel =>
          have huses := cancelKnownOrder_uses hcancel
          have hlog := (cancelKnownOrder_eventLog hcancel).1
          have hids : tradeIds (toWireCancelEvents events ++ [symbol].map mid.bookDeltaEvent) =
              st.idSource.take 0 := by
            rw [tradeIds_append, tradeIds_toWireCancelEvents, tradeIds_bookDeltas]
            rfl
          split_ifs at h
          · cases h
            exact .nothing huses hlog
          · dsimp only at h
            split at h
            · next hseq =>
              cases h
              exact draws_of_sequenceEvents huses hlog hids hseq
            · next hseq =>
              cases h
              exact draws_of_sequenceEvents huses hlog hids hseq
  | cancelAll requestId userId symbol =>
    have h : st.cancelAll requestId userId symbol = (result, st') := Option.some.inj h
    unfold cancelAll at h
    dsimp only at h
    split at h
    · next heach =>
      cases h
      exact .nothing (cancelEach_uses heach) (cancelEach_eventLog heach).1
    · next locals mid heach =>
      have huses := cancelEach_uses heach
      have hlog := (cancelEach_eventLog heach).1
      have hids : tradeIds (locals.wireEvents ++
          locals.changedSymbols.keys.map mid.bookDeltaEvent) = st.idSource.take 0 := by
        rw [tradeIds_append, tradeIds_cancelEach heach rfl, tradeIds_bookDeltas]
        rfl
      split at h
      · next hseq =>
        cases h
        exact draws_of_sequenceEvents huses hlog hids hseq
      · next hseq =>
        cases h
        exact draws_of_sequenceEvents huses hlog hids hseq
  | haltMarket requestId symbol =>
    have huses : Uses 0 st { st with haltedSymbols := insert symbol st.haltedSymbols } :=
      ⟨rfl, 0, rfl⟩
    exact marketStatusResponse_draws huses rfl (Option.some.inj h)
  | resumeMarket requestId symbol =>
    have huses : Uses 0 st { st with haltedSymbols := st.haltedSymbols.erase symbol } :=
      ⟨rfl, 0, rfl⟩
    exact marketStatusResponse_draws huses rfl (Option.some.inj h)
  | snapshot | ping =>
    cases h
    exact .nothing (.refl _) rfl

/-! ## Runs -/

/-- The ids the engine may still draw, and those of the trades in its log. -/
def DrawnFrom (source : Stream' Uuid) (st : EngineState) : Prop :=
  ∃ n, st.idSource = source.drop n ∧
    (tradeIds (st.eventLog.entries.map (·.event))).Sublist (source.take n)

/-- The log goes on with ids from the source. -/
theorem DrawnFrom.step {source : Stream' Uuid} (h : DrawnFrom source st) (hdraws : Draws st st') :
    DrawnFrom source st' := by
  rcases h with ⟨n, hids, hlog⟩
  rcases hdraws with ⟨m, new, huses, hentries, hnew⟩
  refine ⟨n + m, ?_, ?_⟩
  · rw [huses.ids, hids, Stream'.drop_drop]
  · rw [hentries, List.map_append, tradeIds_append, ← take_append_take_drop]
    rw [hids] at hnew
    exact hlog.append hnew

/-- If the source repeats no id, no two trades of the log have the same. -/
theorem DrawnFrom.nodup {source : Stream' Uuid} (h : DrawnFrom source st)
    (hsource : Function.Injective source.get) :
    (tradeIds (st.eventLog.entries.map (·.event))).Nodup := by
  rcases h with ⟨n, _, hlog⟩
  refine hlog.nodup ?_
  rw [take_eq_map]
  exact List.nodup_range.map hsource

/-! ## A disk that takes every append -/

def Healthy (st : EngineState) : Prop := ∀ n, st.disk.get n = true

/-- A disk that takes every append does so after any of them. -/
theorem Healthy.uses {n : ℕ} (h : Healthy st) (huses : Uses n st st') : Healthy st' := by
  rcases huses.disk with ⟨k, hdisk⟩
  intro n
  rw [hdisk, Stream'.get_drop]
  exact h (k + n)

theorem Healthy.draws (h : Healthy st) (hdraws : Draws st st') : Healthy st' := by
  rcases hdraws with ⟨n, new, huses, _⟩
  exact h.uses huses

/-- On such a disk a command is appended. -/
theorem Healthy.appendCommand (h : Healthy st) {command : WalCommand}
    {result : Except ServerError Unit} (happ : st.appendCommand command = (result, st')) :
    result = .ok () := by
  rcases appendCommand_succeeded (h 0) command with ⟨mid, hok, _⟩
  rw [happ] at hok
  exact (Prod.mk.inj hok).1

/-- And so are events, while there are numbers left. -/
theorem Healthy.sequenceEvents (h : Healthy st) {events : List Proto.EngineEvent}
    {result : Except ServerError (List SequencedEngineEvent)}
    (hseq : st.sequenceEvents events = (result, st')) : ∃ sequenced, result = .ok sequenced := by
  induction events generalizing st st' result with
  | nil =>
    cases hseq
    exact ⟨[], rfl⟩
  | cons event events ih =>
    have hhead : st.disk.head = true := h 0
    unfold EngineState.sequenceEvents at hseq
    simp only [EventLog.appendNext, hhead, if_true] at hseq
    split at hseq
    · next hrest =>
      have hbehind := fun n => h (n + 1)
      rcases ih (by exact hbehind) hrest with ⟨_, ⟨⟩⟩
    · cases hseq
      exact ⟨_, rfl⟩

/-- So that no placement fails halfway. -/
theorem Healthy.placeOrder (h : Healthy st) {requestId : Uuid} {order : EngineOrder}
    {result : Except ServerError ResponseBundle}
    (hplace : st.placeOrder fuel requestId order = some (result, st')) :
    ∃ bundle, result = .ok bundle := by
  unfold EngineState.placeOrder at hplace
  split at hplace
  · cases hplace
    exact ⟨_, rfl⟩
  · dsimp only at hplace
    split_ifs at hplace
    · cases hplace
      exact ⟨_, rfl⟩
    · split at hplace
      · -- no append fails
        next happ => cases h.appendCommand happ
      · next st₁ happ =>
        have hst₁ := h.uses (appendCommand_uses happ)
        split at hplace
        · cases hplace
        · next book events _ =>
          split at hplace
          · cases hplace
            exact ⟨_, rfl⟩
          · have hplace := Option.some.inj hplace
            unfold acknowledgePlace at hplace
            dsimp only at hplace
            generalize hst : { st₁ with
              books := st₁.books.insert order.symbol book
              openOrders := applyOpenOrderUpdates st₁.openOrders (some (toCoreOrder order))
                events } = st₂ at hplace
            have hst₂ : Healthy st₂ := hst ▸ hst₁
            rcases toWireCoreEvents_uses st₂ order.symbol events with ⟨n, hwire, _⟩
            split at hplace
            · -- nor those of the events, which use up no more than is left
              next hseq => rcases (hst₂.uses hwire).sequenceEvents hseq with ⟨_, ⟨⟩⟩
            · cases hplace
              exact ⟨_, rfl⟩

end EngineState

end CryptoCex.Server
