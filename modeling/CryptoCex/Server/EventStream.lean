import CryptoCex.Server.Exchange

/-!
# The events a request logs

Every event gets the number after the last one, so the event log is one numbered
sequence. `Logs` says what one request appends to it: the events of its response, and
when an append fails the events that were written before it.

The numbers are `u64` and saturate. While there are numbers left they are consecutive
(`Numbered.seq_eq`).
-/

namespace CryptoCex.Server

open CryptoCex.Core
open Proto (EngineOrder EngineRequest SequencedEngineEvent)

/-- Events that are numbered one after the other: `s` is the number before the first
of them and `s'` that of the last. -/
inductive Numbered : ℕ → List SequencedEngineEvent → ℕ → Prop where
  | nil {s : ℕ} : Numbered s [] s
  | cons {s s' : ℕ} {event : SequencedEngineEvent} {events : List SequencedEngineEvent}
      (hseq : event.seq = min u64Max (s + 1)) (hrest : Numbered event.seq events s') :
      Numbered s (event :: events) s'

namespace Numbered

variable {s s' s'' : ℕ} {events events' : List SequencedEngineEvent}

/-- Numbers go on where they stopped. -/
theorem append (h : Numbered s events s') (h' : Numbered s' events' s'') :
    Numbered s (events ++ events') s'' := by
  induction h with
  | nil => exact h'
  | cons hseq _ ih => exact .cons hseq (ih h')

/-- The numbers stay between the first and the last. -/
theorem bounds (h : Numbered s events s') (hs : s ≤ u64Max) :
    s ≤ s' ∧ s' ≤ u64Max ∧ ∀ event ∈ events, min u64Max (s + 1) ≤ event.seq ∧ event.seq ≤ s' := by
  induction h with
  | nil => exact ⟨le_refl _, hs, by simp⟩
  | @cons s s' event events hseq _ ih =>
    have hle : event.seq ≤ u64Max := by omega
    rcases ih hle with ⟨hfirst, hmax, hall⟩
    refine ⟨by omega, hmax, ?_⟩
    intro e he
    rcases List.mem_cons.mp he with rfl | he
    · exact ⟨by omega, hfirst⟩
    · rcases hall e he with ⟨hlow, hhigh⟩
      exact ⟨by omega, hhigh⟩

/-- Numbers do not fall as long as they have not run out. -/
theorem le (h : Numbered s events s') (hs : s' < u64Max) : s ≤ s' := by
  induction h with
  | nil => exact le_refl _
  | cons hseq _ ih =>
    have hfirst := ih hs
    omega

/-- While numbers are left, they increase. -/
theorem pairwise (h : Numbered s events s') (hs : s' < u64Max) :
    events.Pairwise fun a b => a.seq < b.seq := by
  induction h with
  | nil => exact List.Pairwise.nil
  | @cons s s' event events hseq hrest ih =>
    refine List.Pairwise.cons ?_ (ih hs)
    intro e he
    have hle : event.seq ≤ u64Max := by omega
    rcases hrest.bounds hle with ⟨hfirst, _, hall⟩
    have hlow := (hall e he).1
    omega

/-- The last number of a bundle is that of the log. -/
theorem lastSeq_eq (h : Numbered s events s') : lastSeqOrCurrent events s = s' := by
  induction h with
  | nil => rfl
  | @cons s s' event events hseq hrest ih =>
    cases events with
    | nil => exact ih
    | cons event' events =>
      rw [← ih]
      simp only [lastSeqOrCurrent, List.getLast?_cons_cons]
      cases hlast : (event' :: events).getLast? with
      | none => exact absurd hlast (by simp)
      | some last => rfl

end Numbered

/-- The log after these events were appended. -/
structure EventLog.Extends (log : EventLog) (new : List SequencedEngineEvent) (log' : EventLog) :
    Prop where
  entries : log'.entries = log.entries ++ new
  numbered : Numbered log.sequence new log'.sequence

namespace EventLog.Extends

variable {log log' log'' : EventLog} {new new' : List SequencedEngineEvent}

theorem refl (log : EventLog) : log.Extends [] log := ⟨(List.append_nil _).symm, .nil⟩

theorem trans (h : log.Extends new log') (h' : log'.Extends new' log'') :
    log.Extends (new ++ new') log'' where
  entries := by rw [h'.entries, h.entries, List.append_assoc]
  numbered := h.numbered.append h'.numbered

end EventLog.Extends

namespace EngineState

variable {fuel : ℕ} {st st' : EngineState}

/-- One append: the event is in the log if the disk took it. -/
theorem appendNext_extends (log : EventLog) (event : Proto.EngineEvent) :
    log.Extends [⟨min u64Max (log.sequence + 1), event⟩] (log.appendNext true event).2 :=
  ⟨rfl, .cons rfl .nil⟩

/-- What `sequence_events` appends: all events, or those before the first failure. -/
theorem sequenceEvents_extends {events : List Proto.EngineEvent}
    {result : Except ServerError (List SequencedEngineEvent)}
    (h : st.sequenceEvents events = (result, st')) :
    ∃ new, st.eventLog.Extends new st'.eventLog ∧ new.map (·.event) <+: events ∧
      (∀ sequenced, result = .ok sequenced → sequenced = new ∧ new.map (·.event) = events) ∧
      (st.disk.head = true → ∀ event ∈ events.head?, event ∈ new.map (·.event)) := by
  induction events generalizing st result with
  | nil =>
    cases h
    refine ⟨[], .refl _, List.nil_prefix, ?_, by simp⟩
    rintro _ ⟨⟩
    exact ⟨rfl, rfl⟩
  | cons event events ih =>
    unfold sequenceEvents at h
    cases hdisk : st.disk.head with
    -- the first append fails and the rest is not tried
    | false =>
      simp only [EventLog.appendNext, hdisk, if_neg Bool.false_ne_true] at h
      cases h
      exact ⟨[], .refl _, List.nil_prefix, by rintro _ ⟨⟩, by simp⟩
    -- the event is in, whatever becomes of the rest
    | true =>
      simp only [EventLog.appendNext, hdisk, if_true] at h
      have hfirst := appendNext_extends st.eventLog event
      split at h
      · next st₁ hrest =>
        cases h
        rcases ih hrest with ⟨new, hext, hprefix, _, _⟩
        refine ⟨_, hfirst.trans hext, ?_, by rintro _ ⟨⟩, by simp⟩
        exact List.cons_prefix_cons.mpr ⟨rfl, hprefix⟩
      · next rest st₁ hrest =>
        cases h
        rcases ih hrest with ⟨new, hext, hprefix, hok, _⟩
        rcases hok rest rfl with ⟨rfl, hall⟩
        refine ⟨_, hfirst.trans hext, List.cons_prefix_cons.mpr ⟨rfl, hprefix⟩, ?_, by simp⟩
        rintro _ ⟨⟩
        exact ⟨rfl, congrArg (event :: ·) hall⟩

/-- What a request appends to the event log: the events of its response, or when an
append failed those before it. -/
def Logs (st : EngineState) (result : Except ServerError ResponseBundle) (st' : EngineState) :
    Prop :=
  ∃ new, st.eventLog.Extends new st'.eventLog ∧
    ∀ bundle, result = .ok bundle → bundle.events = new

theorem Logs.nothing {result : Except ServerError ResponseBundle}
    (hlog : st'.eventLog = st.eventLog)
    (hevents : ∀ bundle, result = .ok bundle → bundle.events = []) : Logs st result st' :=
  ⟨[], hlog ▸ .refl _, hevents⟩

/-- The events of a response that were appended without a failure. -/
theorem logs_of_sequenceEvents {events : List Proto.EngineEvent}
    {result : Except ServerError (List SequencedEngineEvent)}
    {answer : Except ServerError ResponseBundle} {mid : EngineState}
    (hmid : mid.eventLog = st.eventLog) (h : mid.sequenceEvents events = (result, st'))
    (hanswer : ∀ bundle, answer = .ok bundle → ∃ sequenced, result = .ok sequenced ∧
      bundle.events = sequenced) : Logs st answer st' := by
  rcases sequenceEvents_extends h with ⟨new, hext, _, hok, _⟩
  rw [hmid] at hext
  refine ⟨new, hext, ?_⟩
  intro bundle hbundle
  rcases hanswer bundle hbundle with ⟨sequenced, hresult, hevents⟩
  rw [hevents, (hok sequenced hresult).1]

/-- The translation of core events uses ids and times only. -/
theorem toWireCoreEvents_ports (st : EngineState) (symbol : String) (events : List EngineEvent) :
    (st.toWireCoreEvents symbol events).2.eventLog = st.eventLog ∧
      (st.toWireCoreEvents symbol events).2.disk = st.disk ∧
      (st.toWireCoreEvents symbol events).2.haltedSymbols = st.haltedSymbols := by
  induction events generalizing st with
  | nil => exact ⟨rfl, rfl, rfl⟩
  | cons event events ih =>
    cases event with
    | fill f => exact ih (st.toWireFill symbol f).2
    | rested => exact ih st
    | cancelled => exact ih st
    | stopTriggered => exact ih st

/-- The events of an acknowledgement are numbered as they are logged. -/
theorem acknowledgePlace_logs [Rounding] {requestId : Uuid} {wireOrder : EngineOrder}
    {order : Order}
    {coreEvents : List EngineEvent} {result : Except ServerError ResponseBundle}
    (h : st.acknowledgePlace requestId wireOrder order coreEvents = (result, st')) :
    Logs st result st' := by
  have hports := toWireCoreEvents_ports { st with
    openOrders := applyOpenOrderUpdates st.openOrders (some order) coreEvents }
    wireOrder.symbol coreEvents
  unfold acknowledgePlace at h
  dsimp only at h
  split at h
  · next hseq =>
    cases h
    exact logs_of_sequenceEvents hports.1 hseq (by rintro _ ⟨⟩)
  · next hseq =>
    cases h
    refine logs_of_sequenceEvents hports.1 hseq ?_
    rintro _ ⟨⟩
    exact ⟨_, rfl, rfl⟩

theorem appendCommand_eventLog {command : WalCommand} {result : Except ServerError Unit}
    (h : st.appendCommand command = (result, st')) :
    st'.eventLog = st.eventLog ∧ st'.disk = st.disk.tail ∧
      st'.haltedSymbols = st.haltedSymbols := by
  have hlog := st.eventLog_appendCommand command
  have hdisk : (st.appendCommand command).2.disk = st.disk.tail := rfl
  have hhalted := st.haltedSymbols_appendCommand command
  rw [h] at hlog hdisk hhalted
  exact ⟨hlog, hdisk, hhalted⟩

/-- So are those of a placement. -/
theorem placeOrder_logs [Rounding] {requestId : Uuid} {order : EngineOrder}
    {result : Except ServerError ResponseBundle}
    (h : st.placeOrder fuel requestId order = some (result, st')) : Logs st result st' := by
  unfold placeOrder at h
  split at h
  · cases h
    exact .nothing rfl (by rintro _ ⟨⟩; rfl)
  · dsimp only at h
    split_ifs at h
    · cases h
      exact .nothing rfl (by rintro _ ⟨⟩; rfl)
    · split at h
      · -- the command could not be logged
        next happ =>
        cases h
        exact .nothing (appendCommand_eventLog happ).1 (by rintro _ ⟨⟩)
      · next happ =>
        have hlog := (appendCommand_eventLog happ).1
        split at h
        · cases h
        · -- matched: rejected without an event, or acknowledged
          next book coreEvents hmatch =>
          split at h
          · cases h
            exact .nothing hlog (by rintro _ ⟨⟩; rfl)
          · rcases acknowledgePlace_logs (Option.some.inj h) with ⟨new, hext, hevents⟩
            exact ⟨new, hlog ▸ hext, hevents⟩

theorem cancelKnownOrder_eventLog [Rounding] {orderId : Uuid}
    {result : Except ServerError (List EngineEvent)}
    (h : st.cancelKnownOrder orderId = (result, st')) :
    st'.eventLog = st.eventLog ∧ st'.haltedSymbols = st.haltedSymbols := by
  unfold cancelKnownOrder at h
  split at h
  · cases h
    exact ⟨rfl, rfl⟩
  · split at h
    · next happ =>
      cases h
      have hports := appendCommand_eventLog happ
      exact ⟨hports.1, hports.2.2⟩
    · next happ =>
      have hports := appendCommand_eventLog happ
      split at h
      · cases h
        exact ⟨hports.1, hports.2.2⟩
      · cases h
        exact ⟨hports.1, hports.2.2⟩

/-- So are those of a cancel. -/
theorem cancelOrder_logs [Rounding] {requestId : Uuid} {symbol : String} {orderId : Uuid}
    {result : Except ServerError ResponseBundle}
    (h : st.cancelOrder requestId symbol orderId = (result, st')) : Logs st result st' := by
  unfold cancelOrder at h
  split at h
  · cases h
    exact .nothing rfl (by rintro _ ⟨⟩; rfl)
  · split_ifs at h
    · cases h
      exact .nothing rfl (by rintro _ ⟨⟩; rfl)
    · split at h
      · -- the command could not be logged
        next hcancel =>
        cases h
        exact .nothing (cancelKnownOrder_eventLog hcancel).1 (by rintro _ ⟨⟩)
      · next hcancel =>
        have hlog := (cancelKnownOrder_eventLog hcancel).1
        split_ifs at h
        · cases h
          exact .nothing hlog (by rintro _ ⟨⟩; rfl)
        · dsimp only at h
          split at h
          · next hseq =>
            cases h
            exact logs_of_sequenceEvents hlog hseq (by rintro _ ⟨⟩)
          · next hseq =>
            cases h
            exact logs_of_sequenceEvents hlog hseq (by rintro _ ⟨⟩; exact ⟨_, rfl, rfl⟩)

theorem cancelEach_eventLog [Rounding] {locals : CancelAllLocals} {orderIds : List Uuid}
    {result : Except ServerError CancelAllLocals}
    (h : st.cancelEach locals orderIds = (result, st')) :
    st'.eventLog = st.eventLog ∧ st'.haltedSymbols = st.haltedSymbols := by
  induction orderIds generalizing st locals with
  | nil =>
    cases h
    exact ⟨rfl, rfl⟩
  | cons orderId orderIds ih =>
    unfold cancelEach at h
    split at h
    · exact ih h
    · split at h
      · -- the loop ends with the first command that cannot be logged
        next hcancel =>
        cases h
        exact cancelKnownOrder_eventLog hcancel
      · next hcancel =>
        have hports := cancelKnownOrder_eventLog hcancel
        split_ifs at h
        · have hrest := ih h
          exact ⟨hrest.1.trans hports.1, hrest.2.trans hports.2⟩
        · have hrest := ih h
          exact ⟨hrest.1.trans hports.1, hrest.2.trans hports.2⟩

/-- So are those of a cancel-all. -/
theorem cancelAll_logs [Rounding] {requestId userId : Uuid} {symbol : Option String}
    {result : Except ServerError ResponseBundle}
    (h : st.cancelAll requestId userId symbol = (result, st')) : Logs st result st' := by
  unfold cancelAll at h
  dsimp only at h
  split at h
  · next heach =>
    cases h
    exact .nothing (cancelEach_eventLog heach).1 (by rintro _ ⟨⟩)
  · next heach =>
    have hlog := (cancelEach_eventLog heach).1
    split at h
    · next hseq =>
      cases h
      exact logs_of_sequenceEvents hlog hseq (by rintro _ ⟨⟩)
    · next hseq =>
      cases h
      exact logs_of_sequenceEvents hlog hseq (by rintro _ ⟨⟩; exact ⟨_, rfl, rfl⟩)

/-- So is that of a halt or a resumption. -/
theorem marketStatusResponse_logs {mid : EngineState} {requestId : Uuid} {symbol : String}
    {status : Proto.MarketStatus} {result : Except ServerError ResponseBundle}
    (hmid : mid.eventLog = st.eventLog)
    (h : mid.marketStatusResponse requestId symbol status = (result, st')) :
    Logs st result st' := by
  unfold marketStatusResponse at h
  split at h
  · next hseq =>
    cases h
    exact logs_of_sequenceEvents hmid hseq (by rintro _ ⟨⟩)
  · next hseq =>
    cases h
    exact logs_of_sequenceEvents hmid hseq (by rintro _ ⟨⟩; exact ⟨_, rfl, rfl⟩)

/-- Every request appends the events of its response to the event log. -/
theorem handleRequest_logs [Rounding] {req : EngineRequest}
    {result : Except ServerError ResponseBundle}
    (h : st.handleRequest fuel req = some (result, st')) : Logs st result st' := by
  cases req with
  | place requestId order => exact placeOrder_logs h
  | cancel requestId symbol orderId => exact cancelOrder_logs (Option.some.inj h)
  | cancelAll requestId userId symbol => exact cancelAll_logs (Option.some.inj h)
  | haltMarket requestId symbol =>
    have hhalt : st.haltMarket requestId symbol = (result, st') := Option.some.inj h
    unfold haltMarket at hhalt
    refine marketStatusResponse_logs ?_ hhalt
    rfl
  | resumeMarket requestId symbol =>
    have hresume : st.resumeMarket requestId symbol = (result, st') := Option.some.inj h
    unfold resumeMarket at hresume
    refine marketStatusResponse_logs ?_ hresume
    rfl
  | snapshot requestId symbol depth =>
    cases h
    exact .nothing rfl (by rintro _ ⟨⟩; rfl)
  | ping requestId =>
    cases h
    exact .nothing rfl (by rintro _ ⟨⟩; rfl)

end EngineState

end CryptoCex.Server
