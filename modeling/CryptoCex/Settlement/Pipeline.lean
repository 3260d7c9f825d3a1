import CryptoCex.Lib.OrdMap
import CryptoCex.Server.Connections

/-!
# From the engine's events to settlement

The settlement service runs two tasks. The bridge (`bridge.rs`) is a client connection of
the engine: it reads the events forwarded to it and inserts them into the table
`engine_events`. The worker (`settlement.rs`) takes the unprocessed row with the smallest
number that no other transaction has locked, settles it and marks it processed, all in one
transaction.

An event on its way is lost when its request fails after logging it, when its connection
ends before the broadcast, when it is broadcast while the bridge is away, when the bridge
lags or ends with frames unread. Nothing asks for it again: the bridge resumes with what is
broadcast next, and the worker goes on with the numbers that are there
(`settlement_skips_lost_event`). In a run in which none of this happens, in which no bundle
overtakes another and one transaction is open at a time, events are processed in the order
of the log and without gaps (`settles_in_order`).

What settling an event does to orders, trades and balances is left out; a transaction ends
with a commit or is rolled back, whatever the reason.
-/

namespace CryptoCex.Settlement

open Broadcast Server
open Proto (SequencedEngineEvent)

/-- The largest `i64`, the range of the column `seq`. -/
def i64Max : ℕ := 2 ^ 63 - 1

/-- A row of `engine_events`; its number is the key. -/
structure EngineEventRow where
  event : Proto.EngineEvent
  /-- `processed_at` is set. -/
  processed : Bool
deriving DecidableEq, Repr

/-- The connected bridge. -/
structure EngineEventBridge where
  /-- Its connection at the engine. -/
  connection : ℕ
  /-- Number of forwarded frames it has read. -/
  read : ℕ
deriving DecidableEq, Repr

/-- The engine with its connections, the bridge and the database. -/
structure Pipeline where
  hub : Hub
  bridge : Option EngineEventBridge
  engineEvents : OrdMap ℕ EngineEventRow
  /-- Rows locked by the open transactions; each holds one. -/
  locked : List ℕ

/-- What happens in the pipeline. -/
inductive PipelineOp where
  /-- A step of a connection that is not the bridge's. -/
  | engine (op : HubOp)
  /-- `run_once` connects, and the engine accepts it as this connection. -/
  | connect (c : ℕ)
  /-- The engine forwards the next event to the bridge. -/
  | forward
  /-- The bridge reads a frame and persists its event. -/
  | persist
  /-- `run_once` ends with an error. -/
  | disconnect
  /-- A transaction of `process_next` begins with `fetch_next_event`. -/
  | fetch
  /-- The transaction that holds this row marks it processed and commits. -/
  | commit (seq : ℕ)
  | rollback (seq : ℕ)

namespace Pipeline

/-- The insert of `persist_event`, with `ON CONFLICT (seq) DO NOTHING`. -/
def insertEvent (table : OrdMap ℕ EngineEventRow) (event : SequencedEngineEvent) :
    OrdMap ℕ EngineEventRow :=
  match table.find? event.seq with
  | some _ => table
  | none => table.insert event.seq ⟨event.event, false⟩

/-- `fetch_next_event`: the first row by number that is neither processed nor locked. -/
def fetchNextEvent (p : Pipeline) : Option (ℕ × EngineEventRow) :=
  p.engineEvents.first? fun seq row => !row.processed && decide (seq ∉ p.locked)

/-- The update of `mark_processed` on the table of events. -/
def markProcessed (table : OrdMap ℕ EngineEventRow) (seq : ℕ) : OrdMap ℕ EngineEventRow :=
  match table.find? seq with
  | some row => table.insert seq { row with processed := true }
  | none => table

/-- One step; `none` where it is not enabled. -/
def step (fuel : ℕ) (p : Pipeline) : PipelineOp → Option Pipeline
  | .engine op =>
    if p.bridge.map EngineEventBridge.connection = some op.connection then none
    else (p.hub.step fuel op).map fun hub => { p with hub := hub }
  | .connect c =>
    match p.bridge with
    | some _ => none
    | none => (p.hub.step fuel (.accept c)).map fun hub => { p with hub := hub, bridge := some ⟨c, 0⟩ }
  | .forward =>
    match p.bridge with
    | some bridge =>
      (p.hub.step fuel (.deliver bridge.connection)).map fun hub => { p with hub := hub }
    | none => none
  | .persist =>
    match p.bridge with
    | some bridge =>
      match p.hub.connections bridge.connection with
      | some conn =>
        match conn.eventRx.received[bridge.read]? with
        | some event =>
          if event.seq ≤ i64Max then
            some { p with
              bridge := some { bridge with read := bridge.read + 1 }
              engineEvents := insertEvent p.engineEvents event }
          -- `SequenceOutOfRange` ends `run_once`
          else (p.hub.step fuel (.hangUp bridge.connection)).map fun hub =>
            { p with hub := hub, bridge := none }
        | none => none
      | none => none
    | none => none
  | .disconnect =>
    match p.bridge with
    | some bridge =>
      (p.hub.step fuel (.hangUp bridge.connection)).map fun hub =>
        { p with hub := hub, bridge := none }
    | none => none
  | .fetch => p.fetchNextEvent.map fun row => { p with locked := row.1 :: p.locked }
  | .commit seq =>
    if seq ∈ p.locked then
      some { p with
        engineEvents := markProcessed p.engineEvents seq
        locked := p.locked.erase seq }
    else none
  | .rollback seq => if seq ∈ p.locked then some { p with locked := p.locked.erase seq } else none

/-- The engine just opened, no bridge and an empty table. -/
def start (engine : EngineState) : Pipeline := ⟨Hub.start engine, none, OrdMap.empty, []⟩

/-- Settlement has processed the event with this number. -/
def Processed (p : Pipeline) (seq : ℕ) : Prop :=
  ∃ row, p.engineEvents.find? seq = some row ∧ row.processed = true

/-- Whatever is processed, all events of the engine's log before it are. -/
def SettledInOrder (p : Pipeline) : Prop :=
  ∀ seq, p.Processed seq → ∀ e ∈ p.hub.engine.eventLog.entries, e.seq < seq → p.Processed e.seq

variable {fuel : ℕ} {p p' : Pipeline}

/-! ## The table -/

/-- The number is in the table. -/
def Stored (p : Pipeline) (seq : ℕ) : Prop := ∃ row, p.engineEvents.find? seq = some row

/-- An event is inserted once for its number. -/
theorem find?_insertEvent (table : OrdMap ℕ EngineEventRow) (event : SequencedEngineEvent)
    (seq : ℕ) :
    (insertEvent table event).find? seq =
      if seq = event.seq then
        match table.find? event.seq with
        | some row => some row
        | none => some ⟨event.event, false⟩
      else table.find? seq := by
  unfold insertEvent
  cases hfind : table.find? event.seq with
  | some row =>
    by_cases heq : seq = event.seq
    · rw [if_pos heq, heq, hfind]
    · rw [if_neg heq]
  | none => rw [OrdMap.find?_insert]

theorem find?_markProcessed {table : OrdMap ℕ EngineEventRow} {seq : ℕ} {row : EngineEventRow}
    (h : table.find? seq = some row) (seq' : ℕ) :
    (markProcessed table seq).find? seq' =
      if seq' = seq then some { row with processed := true } else table.find? seq' := by
  simp only [markProcessed, h, OrdMap.find?_insert]

theorem stored_of_processed {seq : ℕ} (h : p.Processed seq) : p.Stored seq := by
  rcases h with ⟨row, hfind, _⟩
  exact ⟨row, hfind⟩

/-- The next event is the first one that is stored, open and not locked. -/
theorem fetchNextEvent_spec {seq : ℕ} {row : EngineEventRow}
    (h : p.fetchNextEvent = some (seq, row)) :
    p.Stored seq ∧ ∀ seq' < seq, p.Stored seq' → seq' ∉ p.locked → p.Processed seq' := by
  rcases OrdMap.first?_eq_some h with ⟨hfind, _, hbefore⟩
  refine ⟨⟨row, hfind⟩, ?_⟩
  rintro seq' hlt ⟨row', hfind'⟩ hlocked
  have hskipped := hbefore seq' row' hfind' hlt
  refine ⟨row', hfind', ?_⟩
  simpa [hlocked] using hskipped

/-! ## Delivery -/

/-- What was broadcast and is still on its way to the bridge. -/
def underway (p : Pipeline) : List SequencedEngineEvent :=
  match p.bridge with
  | none => []
  | some bridge =>
    match p.hub.connections bridge.connection with
    | some conn => conn.eventRx.received.drop bridge.read ++ p.hub.sent.drop conn.eventRx.next
    | none => []

/-- Of the events broadcast so far the first ones are in the table and the others are
underway. -/
structure Delivered (p : Pipeline) : Prop where
  ordered : p.hub.Ordered
  noneLost : p.hub.NoneLost
  /-- The bridge makes no requests. -/
  idle : ∀ bridge, p.bridge = some bridge → ∃ eventRx,
    p.hub.connections bridge.connection = some ⟨.reading, eventRx⟩ ∧
      bridge.read ≤ eventRx.received.length
  arrived : ∃ stored, p.hub.sent = stored ++ p.underway ∧
    ∀ seq, p.Stored seq ↔ ∃ e ∈ stored, e.seq = seq

/-- The step loses no event, lets none overtake another, and opens no transaction beside
another one. -/
structure Lossless (fuel : ℕ) (p : Pipeline) (op : PipelineOp) : Prop where
  keepsOrder : ∀ hop, op = .engine hop → p.hub.KeepsOrder hop
  losesNone : ∀ hop, op = .engine hop → p.hub.LosesNone fuel hop
  /-- Events are broadcast only while the bridge is connected. -/
  connected : ∀ c, op = .engine (.broadcast c) → p.hub.pending c ≠ [] → p.bridge ≠ none
  /-- The bridge does not lag. -/
  forward : op = .forward → ∀ bridge conn, p.bridge = some bridge →
    p.hub.connections bridge.connection = some conn →
      ¬ conn.eventRx.Lags eventChannelCapacity p.hub.sent
  /-- The number of the event fits the column. -/
  persist : op = .persist → ∀ event ∈ p.underway.head?, event.seq ≤ i64Max
  /-- The bridge leaves with everything read. -/
  disconnect : op = .disconnect → p.underway = []
  fetch : op = .fetch → p.locked = []

theorem underway_of_bridge (p : Pipeline) {bridge : EngineEventBridge} {conn : Connection}
    (hbridge : p.bridge = some bridge)
    (hconn : p.hub.connections bridge.connection = some conn) :
    p.underway =
      conn.eventRx.received.drop bridge.read ++ p.hub.sent.drop conn.eventRx.next := by
  simp only [underway, hbridge, hconn]

namespace Delivered

theorem start {engine : EngineState} (h : engine.eventLog = ⟨[], 0⟩) :
    Delivered (start engine) where
  ordered := .start (by simp [h])
  noneLost := .start (by simp [h])
  idle := by simp [Pipeline.start]
  arrived := ⟨[], rfl, by simp [Stored, Pipeline.start]⟩

/-- Only the numbers in the table matter. -/
theorem of_table {table : OrdMap ℕ EngineEventRow} {locked : List ℕ} (h : p.Delivered)
    (hkeys : ∀ seq, (∃ row, table.find? seq = some row) ↔ p.Stored seq) :
    Delivered { p with engineEvents := table, locked := locked } where
  ordered := h.ordered
  noneLost := h.noneLost
  idle := h.idle
  arrived := by
    rcases h.arrived with ⟨stored, hsent, hstored⟩
    exact ⟨stored, hsent, fun seq => (hkeys seq).trans (hstored seq)⟩

/-- What is in the table has no larger number than what is underway or waits. -/
theorem stored_le (h : p.Delivered) {seq : ℕ} (hseq : p.Stored seq) :
    (∀ e ∈ p.underway, seq ≤ e.seq) ∧ ∀ c, ∀ e ∈ p.hub.pending c, seq ≤ e.seq := by
  rcases h.arrived with ⟨stored, hsent, hstored⟩
  rcases (hstored seq).mp hseq with ⟨e₀, he₀, rfl⟩
  have hmem : e₀ ∈ p.hub.sent := by
    rw [hsent]
    exact List.mem_append_left _ he₀
  have hmax : e₀.seq ≤ u64Max := le_trans (h.ordered.sent_le e₀ hmem) h.ordered.sequence_le
  constructor
  · intro e he
    have hsorted := h.ordered.sent
    rw [hsent] at hsorted
    exact ((List.pairwise_append.mp hsorted).2.2 e₀ he₀ e he).le hmax
  · intro c e he
    exact (h.ordered.sent_pending c e₀ hmem e he).le hmax

/-- A step of another connection. -/
theorem engine {hop : HubOp} {hub : Hub} (h : p.Delivered)
    (hok : p.Lossless fuel (.engine hop))
    (hother : p.bridge.map EngineEventBridge.connection ≠ some hop.connection)
    (hstep : p.hub.step fuel hop = some hub) : Delivered { p with hub := hub } := by
  have hordered : hub.Ordered := h.ordered.step (hok.keepsOrder hop rfl) hstep
  have hnoneLost : hub.NoneLost := h.noneLost.step (hok.losesNone hop rfl) hstep
  have hconn : ∀ bridge, p.bridge = some bridge →
      hub.connections bridge.connection = p.hub.connections bridge.connection := by
    intro bridge hbridge
    refine Hub.step_connections hstep _ ?_
    intro heq
    rw [hbridge, Option.map_some, heq] at hother
    exact hother rfl
  refine ⟨hordered, hnoneLost, ?_, ?_⟩
  · intro bridge hbridge
    rw [show ({ p with hub := hub } : Pipeline).hub = hub from rfl, hconn bridge hbridge]
    exact h.idle bridge hbridge
  · rcases h.arrived with ⟨stored, hsent, hstored⟩
    refine ⟨stored, ?_, hstored⟩
    rcases Option.eq_none_or_eq_some p.bridge with hbridge | ⟨bridge, hbridge⟩
    · -- nothing is broadcast while the bridge is away
      have hnil : p.underway = [] := by simp only [underway, hbridge]
      have hnil' : ({ p with hub := hub } : Pipeline).underway = [] := by
        simp only [underway, hbridge]
      rw [hnil']
      rw [hnil] at hsent
      rcases Hub.step_sent hstep with hsame | ⟨c, event, rfl, hmem, _⟩
      · exact hsame.trans hsent
      · exact absurd hbridge (hok.connected c rfl (List.ne_nil_of_mem hmem))
    · rcases h.idle bridge hbridge with ⟨eventRx, hidle, _⟩
      have hidle' : hub.connections bridge.connection = some ⟨.reading, eventRx⟩ :=
        (hconn bridge hbridge).trans hidle
      have hunderway' : ({ p with hub := hub } : Pipeline).underway =
          eventRx.received.drop bridge.read ++ hub.sent.drop eventRx.next :=
        underway_of_bridge { p with hub := hub } hbridge hidle'
      rw [underway_of_bridge p hbridge hidle] at hsent
      rw [hunderway']
      rcases Hub.step_sent hstep with hsame | ⟨c, event, _, _, hgrown⟩
      · show hub.sent = _
        rw [hsame]
        exact hsent
      · have hnext : eventRx.next ≤ p.hub.sent.length := (h.ordered.inStep _ _ hidle).next_le
        show hub.sent = _
        rw [hgrown, List.drop_append_of_le_length hnext, ← List.append_assoc,
          ← List.append_assoc, List.append_assoc stored]
        exact congrArg (· ++ [event]) hsent

/-- The bridge subscribes: it will get what is broadcast from now on. -/
theorem connect {c : ℕ} {hub : Hub} (h : p.Delivered) (hbridge : p.bridge = none)
    (hstep : p.hub.step fuel (.accept c) = some hub) :
    Delivered { p with hub := hub, bridge := some ⟨c, 0⟩ } := by
  have hordered : hub.Ordered := h.ordered.step (by rintro _ ⟨⟩) hstep
  have hnoneLost : hub.NoneLost := h.noneLost.step ⟨by rintro _ _ _ _ ⟨⟩, by rintro _ ⟨⟩⟩ hstep
  rcases Hub.step_cases hstep with ⟨hnone⟩
  have hconn : (p.hub.setConnection c (some ⟨.reading, Receiver.subscribe p.hub.sent⟩)).connections
      c = some ⟨.reading, Receiver.subscribe p.hub.sent⟩ := by
    rw [Hub.setConnection_connections, if_pos rfl]
  refine ⟨hordered, hnoneLost, ?_, ?_⟩
  · intro bridge heq
    cases heq
    exact ⟨_, hconn, Nat.zero_le _⟩
  · rcases h.arrived with ⟨stored, hsent, hstored⟩
    refine ⟨stored, ?_, hstored⟩
    rw [underway_of_bridge _ rfl hconn]
    simp only [underway, hbridge] at hsent
    simpa [Receiver.subscribe] using hsent

/-- Forwarding keeps the events delivered in order. -/
theorem forward {bridge : EngineEventBridge} {hub : Hub} (h : p.Delivered)
    (hok : p.Lossless fuel .forward) (hbridge : p.bridge = some bridge)
    (hstep : p.hub.step fuel (.deliver bridge.connection) = some hub) :
    Delivered { p with hub := hub } := by
  have hordered : hub.Ordered := h.ordered.step (by rintro _ ⟨⟩) hstep
  have hnoneLost : hub.NoneLost := h.noneLost.step ⟨by rintro _ _ _ _ ⟨⟩, by rintro _ ⟨⟩⟩ hstep
  rcases h.idle bridge hbridge with ⟨eventRx, hidle, hread⟩
  have hlag := hok.forward rfl bridge _ hbridge hidle
  cases Hub.step_cases hstep with
  | @deliver _ phase rx eventRx' hconn hrecv =>
    rw [hidle] at hconn
    cases hconn
    have hconn' : (p.hub.setConnection bridge.connection (some ⟨.reading, eventRx'⟩)).connections
        bridge.connection = some ⟨.reading, eventRx'⟩ := by
      rw [Hub.setConnection_connections, if_pos rfl]
    have hread' : bridge.read ≤ eventRx'.received.length := by
      rcases Receiver.recv_cases hrecv with ⟨hlags, _⟩ | ⟨a, _, _, rfl⟩
      · exact absurd hlags hlag
      · rw [List.length_append]
        exact Nat.le_add_right_of_le hread
    -- the frame moves from the broadcast to what the bridge has received
    refine ⟨hordered, hnoneLost, ?_, ?_⟩
    · intro bridge' heq
      rw [show p.bridge = some bridge' from heq] at hbridge
      cases hbridge
      exact ⟨eventRx', hconn', hread'⟩
    · rcases h.arrived with ⟨stored, hsent, hstored⟩
      refine ⟨stored, ?_, hstored⟩
      have hkept := congrArg (List.drop bridge.read) (Receiver.recv_inOrder hlag hrecv)
      rw [List.drop_append_of_le_length hread', List.drop_append_of_le_length hread] at hkept
      rw [underway_of_bridge p hbridge hidle, ← hkept] at hsent
      simp only [underway, hbridge, hconn']
      exact hsent

/-- The bridge puts the next event into the table. -/
theorem persist {bridge : EngineEventBridge} {conn : Connection} {event : SequencedEngineEvent}
    (h : p.Delivered) (hbridge : p.bridge = some bridge)
    (hconn : p.hub.connections bridge.connection = some conn)
    (hframe : conn.eventRx.received[bridge.read]? = some event) :
    (∃ rest, p.underway = event :: rest) ∧
      Delivered { p with
        bridge := some { bridge with read := bridge.read + 1 }
        engineEvents := insertEvent p.engineEvents event } := by
  rcases List.getElem?_eq_some_iff.mp hframe with ⟨hlt, hval⟩
  have hunderway := underway_of_bridge p hbridge hconn
  rw [List.drop_eq_getElem_cons hlt, hval, List.cons_append] at hunderway
  refine ⟨⟨_, hunderway⟩, h.ordered, h.noneLost, ?_, ?_⟩
  · intro bridge' heq
    cases heq
    rcases h.idle bridge hbridge with ⟨eventRx, hidle, _⟩
    rw [hidle] at hconn
    cases hconn
    exact ⟨eventRx, hidle, hlt⟩
  · rcases h.arrived with ⟨stored, hsent, hstored⟩
    -- the first event underway is now the last one stored
    refine ⟨stored ++ [event], ?_, ?_⟩
    · rw [hunderway] at hsent
      simp only [underway, hconn, List.append_assoc, List.singleton_append]
      exact hsent
    · intro seq
      simp only [Stored, find?_insertEvent, List.mem_append, List.mem_singleton, or_and_right,
        exists_or, exists_eq_left]
      rw [← hstored seq]
      -- a row of its number may be there already, and then it stays
      by_cases heq : seq = event.seq
      · simp only [heq, if_true, or_true, iff_true]
        cases p.engineEvents.find? event.seq with
        | some row => exact ⟨row, rfl⟩
        | none => exact ⟨_, rfl⟩
      · rw [if_neg heq]
        exact ⟨.inl, fun hor => hor.resolve_right fun h' => heq h'.symm⟩

/-- So does a disconnect when nothing is underway. -/
theorem disconnect {bridge : EngineEventBridge} {hub : Hub} (h : p.Delivered)
    (hnil : p.underway = []) (hbridge : p.bridge = some bridge)
    (hstep : p.hub.step fuel (.hangUp bridge.connection) = some hub) :
    Delivered { p with hub := hub, bridge := none } := by
  rcases h.idle bridge hbridge with ⟨eventRx, hidle, _⟩
  have hordered : hub.Ordered := h.ordered.step (by rintro _ ⟨⟩) hstep
  have hnoneLost : hub.NoneLost := by
    refine h.noneLost.step ⟨by rintro _ _ _ _ ⟨⟩, ?_⟩ hstep
    intro c heq
    cases heq
    simp only [Hub.pending, hidle]
  rcases Hub.step_cases hstep with ⟨_⟩
  refine ⟨hordered, hnoneLost, by rintro _ ⟨⟩, ?_⟩
  rcases h.arrived with ⟨stored, hsent, hstored⟩
  refine ⟨stored, ?_, hstored⟩
  rw [hnil] at hsent
  exact hsent

end Delivered

/-! ## Processing -/

/-- Rows are processed in the order of their numbers, and so are those about to be. -/
structure Serial (p : Pipeline) : Prop where
  processed : ∀ seq, p.Processed seq → ∀ seq' < seq, p.Stored seq' → p.Processed seq'
  locked : ∀ seq ∈ p.locked, p.Stored seq ∧ ∀ seq' < seq, p.Stored seq' → p.Processed seq'

namespace Serial

theorem start (engine : EngineState) : Serial (start engine) where
  processed := by
    rintro seq ⟨row, hfind, _⟩
    cases hfind
  locked := by simp [Pipeline.start]

/-- Processing reads only the table and the locks. -/
theorem with_hub {hub : Hub} {bridge : Option EngineEventBridge} (h : p.Serial) :
    Serial { p with hub := hub, bridge := bridge } where
  processed := h.processed
  locked := h.locked

/-- An event is stored behind all others. -/
theorem insertEvent {event : SequencedEngineEvent} {bridge : Option EngineEventBridge}
    (h : p.Serial) (hlast : ∀ seq, p.Stored seq → seq ≤ event.seq) :
    Serial { p with bridge := bridge, engineEvents := insertEvent p.engineEvents event } := by
  cases hfind : p.engineEvents.find? event.seq with
  | some row =>
    have hsame : Pipeline.insertEvent p.engineEvents event = p.engineEvents := by
      simp only [Pipeline.insertEvent, hfind]
    rw [hsame]
    exact h.with_hub
  | none =>
    have hinsert : ∀ seq, (Pipeline.insertEvent p.engineEvents event).find? seq =
        if seq = event.seq then some ⟨event.event, false⟩ else p.engineEvents.find? seq := by
      intro seq
      rw [find?_insertEvent, hfind]
    -- the new row is not processed, and no row has a larger number
    have hold : ∀ seq, (∃ row, (Pipeline.insertEvent p.engineEvents event).find? seq = some row ∧
        row.processed = true) ↔ p.Processed seq := by
      intro seq
      simp only [hinsert, Processed]
      by_cases heq : seq = event.seq
      · rw [if_pos heq, heq, hfind]
        simp
      · rw [if_neg heq]
    have hkept : ∀ seq, p.Stored seq → ∀ seq' < seq,
        (∃ row, (Pipeline.insertEvent p.engineEvents event).find? seq' = some row) →
          p.Stored seq' := by
      intro seq hseq seq' hlt hstored
      have hle := hlast seq hseq
      simp only [hinsert, if_neg (show seq' ≠ event.seq by omega)] at hstored
      exact hstored
    refine ⟨?_, ?_⟩
    · intro seq hprocessed seq' hlt hstored
      have hprocessed := (hold seq).mp hprocessed
      exact (hold seq').mpr (h.processed seq hprocessed seq' hlt
        (hkept seq (stored_of_processed hprocessed) seq' hlt hstored))
    · intro seq hlocked
      rcases h.locked seq hlocked with ⟨hseq, hbefore⟩
      refine ⟨?_, ?_⟩
      · rcases hseq with ⟨row, hrow⟩
        refine ⟨row, ?_⟩
        show (Pipeline.insertEvent p.engineEvents event).find? seq = some row
        rw [hinsert, if_neg]
        · exact hrow
        · intro heq
          rw [heq, hfind] at hrow
          cases hrow
      · intro seq' hlt hstored
        exact (hold seq').mpr (hbefore seq' hlt (hkept seq hseq seq' hlt hstored))

/-- A fetch locks the one event it takes. -/
theorem fetch {row : ℕ × EngineEventRow} (h : p.Serial) (hnone : p.locked = [])
    (hfetch : p.fetchNextEvent = some row) : Serial { p with locked := row.1 :: p.locked } where
  processed := h.processed
  locked := by
    intro seq hseq
    rw [hnone] at hseq
    rw [List.mem_singleton.mp hseq]
    rcases fetchNextEvent_spec hfetch with ⟨hstored, hbefore⟩
    refine ⟨hstored, ?_⟩
    intro seq' hlt hstored'
    exact hbefore seq' hlt hstored' (by simp [hnone])

theorem unlock {seq : ℕ} (h : p.Serial) : Serial { p with locked := p.locked.erase seq } where
  processed := h.processed
  locked := fun seq' hseq' => h.locked seq' (List.mem_of_mem_erase hseq')

/-- The rows of the table after one was marked. -/
theorem stored_markProcessed {seq : ℕ} (hseq : p.Stored seq) (seq' : ℕ) :
    (∃ row, (markProcessed p.engineEvents seq).find? seq' = some row) ↔ p.Stored seq' := by
  rcases hseq with ⟨row, hrow⟩
  rw [find?_markProcessed hrow]
  by_cases heq : seq' = seq
  · simp [heq, Stored, hrow]
  · simp [heq, Stored]

/-- A commit marks it as processed. -/
theorem commit {seq : ℕ} (h : p.Serial) (hseq : seq ∈ p.locked) :
    Serial { p with
      engineEvents := markProcessed p.engineEvents seq
      locked := p.locked.erase seq } := by
  rcases h.locked seq hseq with ⟨hstored, hbefore⟩
  rcases hstored with ⟨row, hrow⟩
  -- the event that was locked is processed now, and no other
  have hmarked : ∀ seq', (∃ row', (markProcessed p.engineEvents seq).find? seq' = some row' ∧
      row'.processed = true) ↔ seq' = seq ∨ p.Processed seq' := by
    intro seq'
    rw [find?_markProcessed hrow]
    by_cases heq : seq' = seq
    · simp [heq]
    · simp [heq, Processed]
  refine ⟨?_, ?_⟩
  · -- what is processed has everything before it processed
    intro seq₁ hprocessed seq₂ hlt hstored₂
    have hbefore₂ : p.Stored seq₂ := (stored_markProcessed ⟨row, hrow⟩ seq₂).mp hstored₂
    rcases (hmarked seq₁).mp hprocessed with heq | hprocessed
    · rw [heq] at hlt
      exact (hmarked seq₂).mpr (.inr (hbefore seq₂ hlt hbefore₂))
    · exact (hmarked seq₂).mpr (.inr (h.processed seq₁ hprocessed seq₂ hlt hbefore₂))
  · -- so has what is locked elsewhere
    intro seq₁ hlocked
    rcases h.locked seq₁ (List.mem_of_mem_erase hlocked) with ⟨hstored₁, hbefore₁⟩
    refine ⟨(stored_markProcessed ⟨row, hrow⟩ seq₁).mpr hstored₁, ?_⟩
    intro seq₂ hlt hstored₂
    exact (hmarked seq₂).mpr (.inr (hbefore₁ seq₂ hlt
      ((stored_markProcessed ⟨row, hrow⟩ seq₂).mp hstored₂)))

end Serial

/-! ## Whole runs -/

/-- The step lemma: a step that loses nothing keeps delivery and processing in order. -/
theorem step_inOrder {op : PipelineOp} (hdelivered : p.Delivered) (hserial : p.Serial)
    (hok : p.Lossless fuel op) (hstep : p.step fuel op = some p') :
    p'.Delivered ∧ p'.Serial := by
  cases op with
  -- the engine or another connection
  | engine hop =>
    simp only [step] at hstep
    split at hstep
    · cases hstep
    · next hother =>
      rcases Option.map_eq_some_iff.mp hstep with ⟨hub, hhub, rfl⟩
      exact ⟨hdelivered.engine hok hother hhub, hserial.with_hub⟩
  | connect c =>
    simp only [step] at hstep
    split at hstep
    · cases hstep
    · next hbridge =>
      rcases Option.map_eq_some_iff.mp hstep with ⟨hub, hhub, rfl⟩
      exact ⟨hdelivered.connect hbridge hhub, hserial.with_hub⟩
  | forward =>
    simp only [step] at hstep
    split at hstep
    · next bridge hbridge =>
      rcases Option.map_eq_some_iff.mp hstep with ⟨hub, hhub, rfl⟩
      exact ⟨hdelivered.forward hok hbridge hhub, hserial.with_hub⟩
    · cases hstep
  -- the bridge inserts the next event it has read
  | persist =>
    simp only [step] at hstep
    split at hstep
    · next bridge hbridge =>
      split at hstep
      · next conn hconn =>
        split at hstep
        · next event hframe =>
          rcases hdelivered.persist hbridge hconn hframe with ⟨⟨rest, hunderway⟩, hpersisted⟩
          have hrange : event.seq ≤ i64Max := hok.persist rfl event (by simp [hunderway])
          rw [if_pos hrange] at hstep
          cases hstep
          refine ⟨hpersisted, hserial.insertEvent ?_⟩
          intro seq hseq
          exact (hdelivered.stored_le hseq).1 event (by simp [hunderway])
        · cases hstep
      · cases hstep
    · cases hstep
  | disconnect =>
    simp only [step] at hstep
    split at hstep
    · next bridge hbridge =>
      rcases Option.map_eq_some_iff.mp hstep with ⟨hub, hhub, rfl⟩
      exact ⟨hdelivered.disconnect (hok.disconnect rfl) hbridge hhub, hserial.with_hub⟩
    · cases hstep
  -- settlement takes an event only when it has none
  | fetch =>
    rcases Option.map_eq_some_iff.mp hstep with ⟨row, hfetch, rfl⟩
    exact ⟨hdelivered.of_table fun _ => Iff.rfl, hserial.fetch (hok.fetch rfl) hfetch⟩
  | commit seq =>
    simp only [step] at hstep
    split at hstep
    · next hseq =>
      cases hstep
      refine ⟨hdelivered.of_table ?_, hserial.commit hseq⟩
      exact Serial.stored_markProcessed (hserial.locked seq hseq).1
    · cases hstep
  | rollback seq =>
    simp only [step] at hstep
    split at hstep
    · cases hstep
      exact ⟨hdelivered.of_table fun _ => Iff.rfl, hserial.unlock⟩
    · cases hstep

/-- What is delivered in order and settled one by one is settled in order. -/
theorem settledInOrder_of_delivered (hdelivered : p.Delivered) (hserial : p.Serial) :
    p.SettledInOrder := by
  intro seq hprocessed e he hlt
  have hstored := stored_of_processed hprocessed
  rcases hdelivered.stored_le hstored with ⟨hunderway, hpending⟩
  rcases hdelivered.noneLost e he with hsent | ⟨c, hwaits⟩
  · rcases hdelivered.arrived with ⟨stored, hsplit, hiff⟩
    rw [hsplit] at hsent
    rcases List.mem_append.mp hsent with htable | hlate
    · exact hserial.processed seq hprocessed e.seq hlt ((hiff e.seq).mpr ⟨e, htable, rfl⟩)
    · exact absurd (hunderway e hlate) (by omega)
  · exact absurd (hpending c e hwaits) (by omega)

/-- In every run in which no event is lost or overtaken on its way and one transaction is
open at a time, settlement processes the engine's events in order and without gaps. -/
theorem settles_in_order {engine : EngineState} (hengine : engine.eventLog = ⟨[], 0⟩)
    {ops : List PipelineOp} (hok : Machine.Along (step fuel) (Lossless fuel) (start engine) ops)
    (hrun : Machine.run (step fuel) (start engine) ops = some p) : p.SettledInOrder := by
  have hinv : p.Delivered ∧ p.Serial := by
    refine Machine.run_invariant (fun p => p.Delivered ∧ p.Serial) (Lossless fuel) ?_
      ⟨.start hengine, .start engine⟩ hok hrun
    intro mid op mid' hmid hstep_ok hstep
    exact step_inOrder hmid.1 hmid.2 hstep_ok hstep
  exact settledInOrder_of_delivered hinv.1 hinv.2

/-- An order is accepted while the bridge is away. After the bridge has connected another
order fills it, and the first event of the second order is processed. -/
def lossyRun : List PipelineOp :=
  [.engine (.accept 1),
    .engine (.request 1 (.place 0 (wireLimit 1 10 .sell 100 5 .cancelTaker))),
    .engine (.broadcast 1), .engine (.broadcast 1), .engine (.broadcast 1),
    .engine (.broadcast 1), .connect 0,
    .engine (.request 1 (.place 0 (wireLimit 2 11 .buy 100 5 .cancelTaker))),
    .engine (.broadcast 1), .forward, .persist, .fetch, .commit 4]

theorem settlement_skips_lost_event : ¬ ∀ ops p,
    Machine.run (step 10) (start emptyEngine) ops = some p → p.SettledInOrder := by
  intro hall
  -- the table has event 4, the log of the engine begins with event 1
  have hview : ((Machine.run (step 10) (start emptyEngine) lossyRun).map fun p =>
      (p.engineEvents.entries.map fun row => (row.1, row.2.processed),
        p.hub.engine.eventLog.entries.head?.map (·.seq))) = some ([(4, true)], some 1) := by
    decide +kernel
  rcases Option.map_eq_some_iff.mp hview with ⟨p, hrun, hpair⟩
  rcases Prod.mk.inj hpair with ⟨htable, hlog⟩
  have hrow : ∀ seq, p.Processed seq ↔ seq = 4 := by
    intro seq
    have hmem : p.Processed seq ↔
        (seq, true) ∈ p.engineEvents.entries.map fun row => (row.1, row.2.processed) := by
      simp [Processed, OrdMap.find?_eq_some]
    rw [hmem, htable]
    simp
  rcases Option.map_eq_some_iff.mp hlog with ⟨e, he, hseq⟩
  have hfirst := hall _ p hrun 4 ((hrow 4).mpr rfl) e (List.mem_of_head? he) (by omega)
  rw [hrow, hseq] at hfirst
  exact absurd hfirst (by decide)

/-- `Lossless` as a test, for runs of the first `n` connections. -/
def checkLossless (n fuel : ℕ) (p : Pipeline) (op : PipelineOp) : Bool :=
  p.bridge.all (fun bridge => decide (bridge.connection < n)) &&
    match op with
    | .engine hop =>
      p.hub.checkTurn n hop &&
        match hop with
        | .request _ req =>
          match p.hub.engine.handleRequest fuel req with
          | some (.error _, _) => false
          | _ => true
        | .broadcast _ => p.bridge.isSome
        | .hangUp c => (p.hub.pending c).isEmpty
        | _ => true
    | .connect c => decide (c < n)
    | .forward =>
      match p.bridge.bind fun bridge => p.hub.connections bridge.connection with
      | some conn => !decide (conn.eventRx.Lags eventChannelCapacity p.hub.sent)
      | none => true
    | .persist => p.underway.all fun event => decide (event.seq ≤ i64Max)
    | .disconnect => p.underway.isEmpty
    | .fetch => p.locked.isEmpty
    | .commit _ | .rollback _ => true

/-- The check decides that a step loses nothing. -/
theorem checkLossless_sound {n : ℕ} (op : PipelineOp)
    (hcheck : p.checkLossless n fuel op = true) (hnone : ∀ c ≥ n, p.hub.connections c = none) :
    p.Lossless fuel op := by
  rcases Bool.and_eq_true_iff.mp hcheck with ⟨_, hop⟩
  refine ⟨?_, ?_, ?_, ?_, ?_, ?_, ?_⟩
  · -- what the hub does keeps the order
    rintro hop' rfl
    have hturn : p.hub.InTurn hop' :=
      Hub.inTurn_of_checkTurn hop' hnone (Bool.and_eq_true_iff.mp hop).1
    exact hturn.keepsOrder
  · -- no request fails halfway, and no connection leaves something unsent
    rintro hop' rfl
    have hrest := (Bool.and_eq_true_iff.mp hop).2
    refine ⟨?_, ?_⟩
    · rintro c req error engine rfl hhandle
      simp only [hhandle] at hrest
      cases hrest
    · rintro c rfl
      exact List.isEmpty_iff.mp hrest
  · -- nothing is broadcast while the bridge is away
    rintro c rfl _ hbridge
    have hrest := (Bool.and_eq_true_iff.mp hop).2
    simp only [hbridge, Option.isSome_none] at hrest
    cases hrest
  · -- the bridge does not lag, and what it stores, leaves and fetches is as it should be
    rintro rfl bridge conn hbridge hconn
    simp only [hbridge, Option.bind_some, hconn] at hop
    simpa using hop
  · rintro rfl event hevent
    exact of_decide_eq_true (List.all_eq_true.mp hop event (List.mem_of_head? hevent))
  · rintro rfl
    exact List.isEmpty_iff.mp hop
  · rintro rfl
    exact List.isEmpty_iff.mp hop

/-- And no connection beyond the bound is opened. -/
theorem checkLossless_bounded {n : ℕ} (op : PipelineOp)
    (hcheck : p.checkLossless n fuel op = true) (hnone : ∀ c ≥ n, p.hub.connections c = none)
    (hstep : p.step fuel op = some p') : ∀ c ≥ n, p'.hub.connections c = none := by
  rcases Bool.and_eq_true_iff.mp hcheck with ⟨hbridges, hop⟩
  -- a step of the hub is on a connection below the bound
  have hkeep : ∀ hop hub, p.hub.step fuel hop = some hub → hop.connection < n →
      ∀ c ≥ n, hub.connections c = none := by
    intro hop hub hhub hlt c hc
    rw [Hub.step_connections hhub c (by omega)]
    exact hnone c hc
  have hbridge_lt : ∀ bridge, p.bridge = some bridge → bridge.connection < n := by
    intro bridge hbridge
    simpa [hbridge] using hbridges
  cases op with
  | engine hop' =>
    simp only [step] at hstep
    split at hstep
    · cases hstep
    · rcases Option.map_eq_some_iff.mp hstep with ⟨hub, hhub, rfl⟩
      have hturn := (Bool.and_eq_true_iff.mp hop).1
      exact hkeep hop' hub hhub (of_decide_eq_true (Bool.and_eq_true_iff.mp hturn).1)
  | connect c =>
    simp only [step] at hstep
    split at hstep
    · cases hstep
    · rcases Option.map_eq_some_iff.mp hstep with ⟨hub, hhub, rfl⟩
      exact hkeep _ hub hhub (of_decide_eq_true hop)
  | forward | disconnect =>
    simp only [step] at hstep
    split at hstep
    · next bridge hbridge =>
      rcases Option.map_eq_some_iff.mp hstep with ⟨hub, hhub, rfl⟩
      exact hkeep _ hub hhub (hbridge_lt bridge hbridge)
    · cases hstep
  | persist =>
    simp only [step] at hstep
    split at hstep
    · next bridge hbridge =>
      split at hstep
      · split at hstep
        · split at hstep
          · cases hstep
            exact hnone
          · rcases Option.map_eq_some_iff.mp hstep with ⟨hub, hhub, rfl⟩
            exact hkeep _ hub hhub (hbridge_lt bridge hbridge)
        · cases hstep
      · cases hstep
    · cases hstep
  | fetch =>
    rcases Option.map_eq_some_iff.mp hstep with ⟨row, _, rfl⟩
    exact hnone
  | commit seq | rollback seq =>
    simp only [step] at hstep
    split at hstep
    · cases hstep
      exact hnone
    · cases hstep

/-- The same orders with the bridge connected first; the events of the first order are
processed, and then the bridge leaves with nothing unread. -/
def losslessRun : List PipelineOp :=
  [.connect 0, .engine (.accept 1),
    .engine (.request 1 (.place 0 (wireLimit 1 10 .sell 100 5 .cancelTaker))),
    .engine (.broadcast 1), .engine (.broadcast 1), .forward, .persist, .fetch, .commit 1,
    .engine (.broadcast 1), .engine (.broadcast 1), .forward, .persist, .forward, .persist,
    .disconnect, .fetch, .rollback 2, .fetch, .commit 2]

/-- The run theorem on a run in which nothing is lost. -/
theorem lossless_run_settles : ∃ p,
    Machine.run (step 10) (start emptyEngine) losslessRun = some p ∧ p.SettledInOrder := by
  have hsome : (Machine.run (step 10) (start emptyEngine) losslessRun).isSome := by
    decide +kernel
  rcases Option.isSome_iff_exists.mp hsome with ⟨p, hrun⟩
  refine ⟨p, hrun, settles_in_order rfl ?_ hrun⟩
  have hcheck : Machine.checkAlong (step 10) (checkLossless 2 10) (start emptyEngine)
      losslessRun = true := by
    decide +kernel
  refine Machine.along_of_checkAlong (fun p => ∀ c ≥ 2, p.hub.connections c = none) ?_
    (fun _ _ => rfl) hcheck
  intro mid op hnone hok
  exact ⟨checkLossless_sound op hok hnone, fun _ => checkLossless_bounded op hok hnone⟩

end Pipeline

end CryptoCex.Settlement
