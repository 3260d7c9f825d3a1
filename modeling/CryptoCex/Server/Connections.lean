import CryptoCex.Lib.Broadcast
import CryptoCex.Lib.Machine
import CryptoCex.Server.EventStream

/-!
# Client connections and the event broadcast

`handle_connection` of `server.rs`. Each client connection is a task of its own: it
subscribes to the broadcast channel, then handles requests one after the other. The state
lock is taken twice for a request, once to handle it and once to broadcast its events,
with the response sent in between, so steps of other connections can fall between the two.
A second task forwards what the channel delivers to the client.

The order of the broadcasts is not the order of the event numbers: a connection that
handled its request second can be the first to broadcast (`broadcast_overtakes`). Numbers
arrive in order in every run in which no bundle is broadcast while one with smaller
numbers is waiting (`subscribers_in_order`).
-/

namespace CryptoCex.Server

open Broadcast
open Proto (EngineOrder EngineRequest SequencedEngineEvent)

/-- `EVENT_CHANNEL_CAPACITY` -/
def eventChannelCapacity : ℕ := 1024

/-- Where the request loop of a connection stands. -/
inductive Phase where
  /-- Waits for the next request. -/
  | reading
  /-- A request was handled; these events of it are not broadcast yet. -/
  | handled (events : List SequencedEngineEvent)
  /-- Left with an error. The task that forwards events goes on. -/
  | stopped

/-- One client connection: its request loop and its subscription. -/
structure Connection where
  phase : Phase
  eventRx : Receiver SequencedEngineEvent

/-- The engine, its broadcast channel and the connections. -/
structure Hub where
  engine : EngineState
  /-- Everything sent to the broadcast channel. -/
  sent : List SequencedEngineEvent
  connections : ℕ → Option Connection
  /-- The connection that is broadcasting, with the state lock held. -/
  holder : Option ℕ

/-- A step of a connection, which is named by its number. -/
inductive HubOp where
  | accept (c : ℕ)
  | request (c : ℕ) (req : EngineRequest)
  | broadcast (c : ℕ)
  | deliver (c : ℕ)
  | hangUp (c : ℕ)

/-- The connection whose step it is. -/
def HubOp.connection : HubOp → ℕ
  | .accept c | .request c _ | .broadcast c | .deliver c | .hangUp c => c

namespace Hub

/-- The server right after the engine was opened. -/
def start (engine : EngineState) : Hub := ⟨engine, [], fun _ => none, none⟩

def setConnection (hub : Hub) (c : ℕ) (conn : Option Connection) : Hub :=
  { hub with connections := Function.update hub.connections c conn }

/-- One step; `none` where it is not enabled. -/
def step (fuel : ℕ) (hub : Hub) : HubOp → Option Hub
  | .accept c =>
    match hub.connections c with
    | some _ => none
    | none =>
      if hub.holder = none then
        some (hub.setConnection c (some ⟨.reading, Receiver.subscribe hub.sent⟩))
      else none
  | .request c req =>
    match hub.connections c with
    | some ⟨.reading, eventRx⟩ =>
      if hub.holder = none then
        match hub.engine.handleRequest fuel req with
        | some (.ok bundle, engine) =>
          some ({ hub with engine := engine }.setConnection c
            (some ⟨.handled bundle.events, eventRx⟩))
        | some (.error _, engine) =>
          some ({ hub with engine := engine }.setConnection c (some ⟨.stopped, eventRx⟩))
        | none => none
      else none
    | _ => none
  | .broadcast c =>
    match hub.connections c with
    | some ⟨.handled events, eventRx⟩ =>
      -- The loop over the events runs under the lock, and other connections may receive
      -- while it does: one event goes out in a step, and the lock is given back at the end.
      if hub.holder = none ∨ hub.holder = some c then
        match events with
        | event :: events =>
          some ({ hub with sent := hub.sent ++ [event], holder := some c }.setConnection c
            (some ⟨.handled events, eventRx⟩))
        | [] =>
          some ({ hub with holder := none }.setConnection c (some ⟨.reading, eventRx⟩))
      else none
    | _ => none
  | .deliver c =>
    match hub.connections c with
    | some ⟨phase, eventRx⟩ =>
      match eventRx.recv eventChannelCapacity hub.sent with
      | some eventRx => some (hub.setConnection c (some ⟨phase, eventRx⟩))
      | none => none
    | none => none
  | .hangUp c =>
    -- With a request handled and not broadcast, this is the response that cannot be sent.
    match hub.connections c with
    | some _ => if hub.holder = some c then none else some (hub.setConnection c none)
    | none => none

/-- The events a connection has still to broadcast. -/
def pending (hub : Hub) (c : ℕ) : List SequencedEngineEvent :=
  match hub.connections c with
  | some ⟨.handled events, _⟩ => events
  | _ => []

variable {fuel : ℕ} {hub hub' : Hub}

@[simp] theorem setConnection_engine (c : ℕ) (conn : Option Connection) :
    (hub.setConnection c conn).engine = hub.engine := rfl

@[simp] theorem setConnection_sent (c : ℕ) (conn : Option Connection) :
    (hub.setConnection c conn).sent = hub.sent := rfl

@[simp] theorem setConnection_holder (c : ℕ) (conn : Option Connection) :
    (hub.setConnection c conn).holder = hub.holder := rfl

@[simp] theorem setConnection_connections (c c' : ℕ) (conn : Option Connection) :
    (hub.setConnection c conn).connections c' = if c' = c then conn else hub.connections c' := by
  simp only [setConnection, Function.update_apply]

/-- What a step does, one constructor for each way to take it. -/
inductive Step (fuel : ℕ) (hub : Hub) : HubOp → Hub → Prop where
  | accept {c : ℕ} (hnone : hub.connections c = none) :
      Step fuel hub (.accept c)
        (hub.setConnection c (some ⟨.reading, Receiver.subscribe hub.sent⟩))
  | handle {c : ℕ} {req : EngineRequest} {eventRx : Receiver SequencedEngineEvent}
      {bundle : ResponseBundle} {engine : EngineState}
      (hconn : hub.connections c = some ⟨.reading, eventRx⟩)
      (hhandle : hub.engine.handleRequest fuel req = some (.ok bundle, engine)) :
      Step fuel hub (.request c req)
        ({ hub with engine := engine }.setConnection c (some ⟨.handled bundle.events, eventRx⟩))
  | fail {c : ℕ} {req : EngineRequest} {eventRx : Receiver SequencedEngineEvent}
      {error : ServerError} {engine : EngineState}
      (hconn : hub.connections c = some ⟨.reading, eventRx⟩)
      (hhandle : hub.engine.handleRequest fuel req = some (.error error, engine)) :
      Step fuel hub (.request c req)
        ({ hub with engine := engine }.setConnection c (some ⟨.stopped, eventRx⟩))
  | send {c : ℕ} {event : SequencedEngineEvent} {events : List SequencedEngineEvent}
      {eventRx : Receiver SequencedEngineEvent}
      (hconn : hub.connections c = some ⟨.handled (event :: events), eventRx⟩) :
      Step fuel hub (.broadcast c)
        ({ hub with sent := hub.sent ++ [event], holder := some c }.setConnection c
          (some ⟨.handled events, eventRx⟩))
  | release {c : ℕ} {eventRx : Receiver SequencedEngineEvent}
      (hconn : hub.connections c = some ⟨.handled [], eventRx⟩) :
      Step fuel hub (.broadcast c)
        ({ hub with holder := none }.setConnection c (some ⟨.reading, eventRx⟩))
  | deliver {c : ℕ} {phase : Phase} {eventRx eventRx' : Receiver SequencedEngineEvent}
      (hconn : hub.connections c = some ⟨phase, eventRx⟩)
      (hrecv : eventRx.recv eventChannelCapacity hub.sent = some eventRx') :
      Step fuel hub (.deliver c) (hub.setConnection c (some ⟨phase, eventRx'⟩))
  | hangUp {c : ℕ} {conn : Connection} (hconn : hub.connections c = some conn) :
      Step fuel hub (.hangUp c) (hub.setConnection c none)

/-- What a step of the hub that succeeds did. -/
theorem step_cases {op : HubOp} (h : hub.step fuel op = some hub') : Step fuel hub op hub' := by
  cases op with
  | accept c =>
    simp only [step] at h
    split at h
    · cases h
    · next hnone =>
      split at h
      · cases h
        exact .accept hnone
      · cases h
  | request c req =>
    simp only [step] at h
    split at h
    · next eventRx hconn =>
      split at h
      · split at h
        · -- the response goes out now, the events with the steps that follow
          next bundle engine hhandle =>
          cases h
          exact .handle hconn hhandle
        · next error engine hhandle =>
          cases h
          exact .fail hconn hhandle
        · cases h
      · cases h
    · cases h
  | broadcast c =>
    simp only [step] at h
    split at h
    · next events eventRx hconn =>
      split at h
      · cases events with
        -- one event a step, under the lock of the sender
        | cons event events =>
          cases h
          exact .send hconn
        | nil =>
          cases h
          exact .release hconn
      · cases h
    · cases h
  | deliver c =>
    simp only [step] at h
    split at h
    · next phase eventRx hconn =>
      split at h
      · next eventRx' hrecv =>
        cases h
        exact .deliver hconn hrecv
      · cases h
    · cases h
  | hangUp c =>
    simp only [step] at h
    split at h
    · next conn hconn =>
      split at h
      · cases h
      · cases h
        exact .hangUp hconn
    · cases h

/-- A step changes only its own connection. -/
theorem step_connections {op : HubOp} (h : hub.step fuel op = some hub') (c : ℕ)
    (hc : c ≠ op.connection) : hub'.connections c = hub.connections c := by
  cases step_cases h <;> exact (setConnection_connections _ _ _).trans (if_neg hc)

/-- What a handler has not sent yet is pending. -/
theorem pending_of_handled {c : ℕ} {events : List SequencedEngineEvent}
    {eventRx : Receiver SequencedEngineEvent}
    (h : hub.connections c = some ⟨.handled events, eventRx⟩) : hub.pending c = events := by
  simp only [pending, h]

/-- What a connection has to broadcast after another one was changed, or after its own
change. -/
theorem pending_setConnection (c c' : ℕ) (conn : Option Connection) :
    (hub.setConnection c conn).pending c' = if c' = c then
      (match conn with
        | some ⟨.handled events, _⟩ => events
        | _ => [])
      else hub.pending c' := by
  unfold pending
  rw [setConnection_connections]
  by_cases heq : c' = c
  · rw [if_pos heq, if_pos heq]
  · rw [if_neg heq, if_neg heq]

/-! ## The order of the event numbers -/

/-- The number of `b` comes after that of `a`, or the numbers have run out. -/
def Precedes (a b : SequencedEngineEvent) : Prop := a.seq < b.seq ∨ u64Max ≤ b.seq

/-- What is broadcast, what waits and what will be logged follow one another; between
the bundles of two connections either order is possible. -/
structure Ordered (hub : Hub) : Prop where
  sequence_le : hub.engine.eventLog.sequence ≤ u64Max
  sent_le : ∀ e ∈ hub.sent, e.seq ≤ hub.engine.eventLog.sequence
  pending_le : ∀ c, ∀ e ∈ hub.pending c, e.seq ≤ hub.engine.eventLog.sequence
  sent : hub.sent.Pairwise Precedes
  pending : ∀ c, (hub.pending c).Pairwise Precedes
  sent_pending : ∀ c, ∀ a ∈ hub.sent, ∀ b ∈ hub.pending c, Precedes a b
  pending_pending : ∀ c c', c ≠ c' → ∀ a ∈ hub.pending c, ∀ b ∈ hub.pending c',
    Precedes a b ∨ Precedes b a
  inStep : ∀ c conn, hub.connections c = some conn → conn.eventRx.InStep hub.sent

/-- The step broadcasts no event past one with a smaller number. -/
def KeepsOrder (hub : Hub) (op : HubOp) : Prop :=
  ∀ c, op = .broadcast c → ∀ c', ∀ a ∈ hub.pending c, ∀ b ∈ hub.pending c', c ≠ c' →
    a.seq ≤ b.seq

theorem Precedes.le {a b : SequencedEngineEvent} (h : Precedes a b) (ha : a.seq ≤ u64Max) :
    a.seq ≤ b.seq := by
  rcases h with hlt | hmax
  · exact le_of_lt hlt
  · exact le_trans ha hmax

/-- New events come after everything numbered before. -/
theorem precedes_of_numbered {s s' : ℕ} {events : List SequencedEngineEvent}
    (h : Numbered s events s') (hs : s ≤ u64Max) :
    events.Pairwise Precedes ∧
      ∀ a : SequencedEngineEvent, a.seq ≤ s → ∀ b ∈ events, Precedes a b := by
  induction h with
  | nil => exact ⟨.nil, by simp⟩
  | @cons s s' event events hseq hrest ih =>
    have hle : event.seq ≤ u64Max := by omega
    rcases ih hle with ⟨hsorted, hafter⟩
    refine ⟨hsorted.cons (hafter event (le_refl _)), ?_⟩
    intro a ha b hb
    have hb' := ((Numbered.cons hseq hrest).bounds hs).2.2 b hb
    unfold Precedes
    omega

namespace Ordered

theorem start {engine : EngineState} (hseq : engine.eventLog.sequence ≤ u64Max) :
    Ordered (start engine) where
  sequence_le := hseq
  sent_le := by simp [Hub.start]
  pending_le := by simp [Hub.start, Hub.pending]
  sent := .nil
  pending := fun _ => .nil
  sent_pending := by simp [Hub.start]
  pending_pending := by simp [Hub.start, Hub.pending]
  inStep := by simp [Hub.start]

/-- The order does not depend on who holds the lock, nor on the engine's books. -/
theorem with_engine {engine : EngineState} {holder : Option ℕ} (h : hub.Ordered)
    (hle : hub.engine.eventLog.sequence ≤ engine.eventLog.sequence)
    (hmax : engine.eventLog.sequence ≤ u64Max) :
    Ordered { hub with engine := engine, holder := holder } where
  sequence_le := hmax
  sent_le := fun e he => le_trans (h.sent_le e he) hle
  pending_le := fun c e he => le_trans (h.pending_le c e he) hle
  sent := h.sent
  pending := h.pending
  sent_pending := h.sent_pending
  pending_pending := h.pending_pending
  inStep := h.inStep

/-- One connection gets something else to broadcast. -/
theorem setConnection (h : hub.Ordered) {c : ℕ} {conn : Option Connection}
    (hle : ∀ e ∈ (hub.setConnection c conn).pending c, e.seq ≤ hub.engine.eventLog.sequence)
    (hsorted : ((hub.setConnection c conn).pending c).Pairwise Precedes)
    (hsent : ∀ a ∈ hub.sent, ∀ b ∈ (hub.setConnection c conn).pending c, Precedes a b)
    (hother : ∀ c' ≠ c, ∀ a ∈ hub.pending c', ∀ b ∈ (hub.setConnection c conn).pending c,
      Precedes a b ∨ Precedes b a)
    (hin : ∀ conn', conn = some conn' → conn'.eventRx.InStep hub.sent) :
    (hub.setConnection c conn).Ordered := by
  have hkeep : ∀ c' ≠ c, (hub.setConnection c conn).pending c' = hub.pending c' := by
    intro c' hne
    rw [pending_setConnection, if_neg hne]
  refine ⟨h.sequence_le, h.sent_le, ?_, h.sent, ?_, ?_, ?_, ?_⟩
  · intro c' e he
    by_cases heq : c' = c
    · exact hle e (heq ▸ he)
    · exact h.pending_le c' e (hkeep c' heq ▸ he)
  · intro c'
    by_cases heq : c' = c
    · exact heq ▸ hsorted
    · exact hkeep c' heq ▸ h.pending c'
  · intro c' a ha b hb
    by_cases heq : c' = c
    · exact hsent a ha b (heq ▸ hb)
    · exact h.sent_pending c' a ha b (hkeep c' heq ▸ hb)
  · -- of two connections at most one is the one that has changed
    intro c₁ c₂ hne a ha b hb
    by_cases heq₁ : c₁ = c
    · have hne₂ : c₂ ≠ c := fun heq => hne (heq₁.trans heq.symm)
      exact (hother c₂ hne₂ b (hkeep c₂ hne₂ ▸ hb) a (heq₁ ▸ ha)).symm
    · by_cases heq₂ : c₂ = c
      · exact hother c₁ heq₁ a (hkeep c₁ heq₁ ▸ ha) b (heq₂ ▸ hb)
      · exact h.pending_pending c₁ c₂ hne a (hkeep c₁ heq₁ ▸ ha) b (hkeep c₂ heq₂ ▸ hb)
  · intro c' conn' hconn
    rw [setConnection_connections] at hconn
    split at hconn
    · exact hin conn' hconn
    · exact h.inStep c' conn' hconn

/-- A connection that has no more to broadcast than before. -/
theorem shrink (h : hub.Ordered) {c : ℕ} {conn : Option Connection}
    (hsub : ((hub.setConnection c conn).pending c).Sublist (hub.pending c))
    (hin : ∀ conn', conn = some conn' → conn'.eventRx.InStep hub.sent) :
    (hub.setConnection c conn).Ordered := by
  refine h.setConnection ?_ ((h.pending c).sublist hsub) ?_ ?_ hin
  · exact fun e he => h.pending_le c e (hsub.subset he)
  · exact fun a ha b hb => h.sent_pending c a ha b (hsub.subset hb)
  · exact fun c' hne a ha b hb => h.pending_pending c' c hne a ha b (hsub.subset hb)

/-- An event is sent that nothing else has to wait behind. -/
theorem send {event : SequencedEngineEvent} {holder : Option ℕ} (h : hub.Ordered)
    (hle : event.seq ≤ hub.engine.eventLog.sequence)
    (hsent : ∀ a ∈ hub.sent, Precedes a event)
    (hpending : ∀ c, ∀ b ∈ hub.pending c, Precedes event b) :
    Ordered { hub with sent := hub.sent ++ [event], holder := holder } where
  sequence_le := h.sequence_le
  sent_le := by
    intro e he
    rcases List.mem_append.mp he with he | he
    · exact h.sent_le e he
    · rw [List.mem_singleton.mp he]
      exact hle
  pending_le := h.pending_le
  -- the new event comes last
  sent := by
    refine List.pairwise_append.mpr ⟨h.sent, List.pairwise_singleton _ _, ?_⟩
    intro a ha b hb
    rw [List.mem_singleton.mp hb]
    exact hsent a ha
  pending := h.pending
  -- what waits comes after it
  sent_pending := by
    intro c a ha b hb
    rcases List.mem_append.mp ha with ha | ha
    · exact h.sent_pending c a ha b hb
    · rw [List.mem_singleton.mp ha]
      exact hpending c b hb
  pending_pending := h.pending_pending
  inStep := fun c conn hconn => (h.inStep c conn hconn).send [event]

/-- The step lemma: a step that lets nothing overtake keeps the order. -/
theorem step {op : HubOp} (h : hub.Ordered) (hkeeps : hub.KeepsOrder op)
    (hstep : hub.step fuel op = some hub') : hub'.Ordered := by
  rcases step_cases hstep with hnone | ⟨hconn, hhandle⟩ | ⟨hconn, hhandle⟩ | hconn | hconn |
    ⟨hconn, hrecv⟩ | hconn
  · refine h.shrink ?_ ?_
    · simp only [pending_setConnection, if_true, List.nil_sublist]
    · intro conn' heq
      cases heq
      exact .subscribe _
  · -- the events of the bundle are numbered after everything else
    next c req eventRx bundle engine =>
    rcases EngineState.handleRequest_logs hhandle with ⟨new, hext, hbundle⟩
    rcases hext.numbered.bounds h.sequence_le with ⟨hle, hmax, hall⟩
    rcases precedes_of_numbered hext.numbered h.sequence_le with ⟨hsorted, hafter⟩
    have hnew : bundle.events = new := hbundle bundle rfl
    have hengine : Ordered { hub with engine := engine } := h.with_engine hle hmax
    refine hengine.setConnection ?_ ?_ ?_ ?_ ?_
    · intro e he
      simp only [pending_setConnection, if_true, hnew] at he
      exact (hall e he).2
    · simp only [pending_setConnection, if_true, hnew]
      exact hsorted
    · intro a ha b hb
      simp only [pending_setConnection, if_true, hnew] at hb
      exact hafter a (h.sent_le a ha) b hb
    · intro c' hne a ha b hb
      simp only [pending_setConnection, if_true, hnew] at hb
      exact .inl (hafter a (h.pending_le c' a ha) b hb)
    · intro conn' heq
      cases heq
      have hin := h.inStep c _ hconn
      exact hin
  · next c req eventRx error engine =>
    rcases EngineState.handleRequest_logs hhandle with ⟨new, hext, _⟩
    rcases hext.numbered.bounds h.sequence_le with ⟨hle, hmax, _⟩
    have hengine : Ordered { hub with engine := engine } := h.with_engine hle hmax
    refine hengine.shrink ?_ ?_
    · simp only [pending_setConnection, if_true, List.nil_sublist]
    · intro conn' heq
      cases heq
      have hin := h.inStep c _ hconn
      exact hin
  · next c event events eventRx =>
    have hpending := pending_of_handled hconn
    have hmem : event ∈ hub.pending c := by
      rw [hpending]
      exact List.mem_cons_self
    have hrest : (hub.setConnection c (some ⟨.handled events, eventRx⟩)).Ordered := by
      refine h.shrink ?_ ?_
      · simp only [pending_setConnection, if_true, hpending]
        exact List.sublist_cons_self _ _
      · intro conn' heq
        cases heq
        have hin := h.inStep c _ hconn
        exact hin
    refine hrest.send (h.pending_le c event hmem) (fun a ha => h.sent_pending c a ha event hmem) ?_
    intro c' b hb
    rw [pending_setConnection] at hb
    split at hb
    · have hsorted := h.pending c
      rw [hpending] at hsorted
      exact List.rel_of_pairwise_cons hsorted hb
    · next hne =>
      have hle := hkeeps c rfl c' event hmem b hb (Ne.symm hne)
      rcases h.pending_pending c c' (Ne.symm hne) event hmem b hb with hbefore | hlt | hmax
      · exact hbefore
      · omega
      · exact .inr (le_trans hmax hle)
  · next c eventRx =>
    suffices hshrunk : (hub.setConnection c (some ⟨.reading, eventRx⟩)).Ordered from
      hshrunk.with_engine (le_refl _) h.sequence_le
    refine h.shrink ?_ ?_
    · simp only [pending_setConnection, if_true, List.nil_sublist]
    · intro conn' heq
      cases heq
      have hin := h.inStep c _ hconn
      exact hin
  · next c phase eventRx eventRx' =>
    refine h.shrink ?_ ?_
    · simp only [pending_setConnection, if_true]
      unfold Hub.pending
      rw [hconn]
      cases phase <;> exact List.Sublist.refl _
    · intro conn' heq
      cases heq
      exact (h.inStep c _ hconn).recv hrecv
  · refine h.shrink ?_ ?_
    · simp only [pending_setConnection, if_true, List.nil_sublist]
    · intro conn' heq
      cases heq

end Ordered

/-- Every logged event was sent to the channel or waits to be. -/
def NoneLost (hub : Hub) : Prop :=
  ∀ e ∈ hub.engine.eventLog.entries, e ∈ hub.sent ∨ ∃ c, e ∈ hub.pending c

/-- The step loses no event: a request that fails has logged none, and no connection ends
between handling a request and broadcasting its events. -/
structure LosesNone (fuel : ℕ) (hub : Hub) (op : HubOp) : Prop where
  request : ∀ c req error engine, op = .request c req →
    hub.engine.handleRequest fuel req = some (.error error, engine) →
      engine.eventLog.entries = hub.engine.eventLog.entries
  hangUp : ∀ c, op = .hangUp c → hub.pending c = []

theorem NoneLost.start {engine : EngineState} (h : engine.eventLog.entries = []) :
    NoneLost (start engine) := by
  intro e he
  rw [show (Hub.start engine).engine = engine from rfl, h] at he
  exact absurd he List.not_mem_nil

/-- What waited still does, unless it was the changed connection that had it. -/
theorem pending_or_self (c : ℕ) (conn : Option Connection) {e : SequencedEngineEvent}
    (h : ∃ c', e ∈ hub.pending c') :
    (∃ c', e ∈ (hub.setConnection c conn).pending c') ∨ e ∈ hub.pending c := by
  rcases h with ⟨c', he⟩
  by_cases heq : c' = c
  · exact .inr (heq ▸ he)
  · refine .inl ⟨c', ?_⟩
    rw [pending_setConnection, if_neg heq]
    exact he

/-- A step that loses none leaves none lost. -/
theorem NoneLost.step {op : HubOp} (h : hub.NoneLost) (hloses : hub.LosesNone fuel op)
    (hstep : hub.step fuel op = some hub') : hub'.NoneLost := by
  -- changing a connection that has nothing to broadcast
  have hidle : ∀ c conn, hub.pending c = [] → (hub.setConnection c conn).NoneLost := by
    intro c conn hnil e he
    rcases h e he with hsent | hpending
    · exact .inl hsent
    · rcases pending_or_self c conn hpending with hkept | hlost
      · exact .inr hkept
      · rw [hnil] at hlost
        exact absurd hlost List.not_mem_nil
  rcases step_cases hstep with hnone | ⟨hconn, hhandle⟩ | ⟨hconn, hhandle⟩ | hconn | hconn |
    ⟨hconn, hrecv⟩ | hconn
  · exact hidle _ _ (by simp only [Hub.pending, hnone])
  · next c req eventRx bundle engine =>
    have hnil : hub.pending c = [] := by simp only [Hub.pending, hconn]
    rcases EngineState.handleRequest_logs hhandle with ⟨new, hext, hbundle⟩
    intro e he
    have he : e ∈ engine.eventLog.entries := he
    rw [hext.entries] at he
    rcases List.mem_append.mp he with hold | hnew
    · exact hidle c _ hnil e hold
    · refine .inr ⟨c, ?_⟩
      simp only [pending_setConnection, if_true]
      rw [hbundle bundle rfl]
      exact hnew
  · next c req eventRx error engine =>
    have hnil : hub.pending c = [] := by simp only [Hub.pending, hconn]
    intro e he
    have he : e ∈ engine.eventLog.entries := he
    rw [hloses.request c req error engine rfl hhandle] at he
    exact hidle c _ hnil e he
  · next c event events eventRx =>
    intro e he
    rcases h e he with hsent | hpending
    · exact .inl (List.mem_append_left _ hsent)
    · rcases pending_or_self c (some ⟨.handled events, eventRx⟩) hpending with hkept | hself
      · exact .inr hkept
      · -- the event that is sent, or one of those behind it
        rw [pending_of_handled hconn] at hself
        rcases List.mem_cons.mp hself with heq | hbehind
        · exact .inl (List.mem_append_right _ (List.mem_singleton.mpr heq))
        · refine .inr ⟨c, ?_⟩
          simp only [pending_setConnection, if_true]
          exact hbehind
  · exact hidle _ _ (pending_of_handled hconn)
  · next c phase eventRx eventRx' =>
    intro e he
    rcases h e he with hsent | ⟨c', hpending⟩
    · exact .inl hsent
    · refine .inr ⟨c', ?_⟩
      rw [pending_setConnection]
      split
      · next heq =>
        rw [heq] at hpending
        unfold Hub.pending at hpending
        rw [hconn] at hpending
        cases phase <;> exact hpending
      · exact hpending
  · exact hidle _ _ (hloses.hangUp _ rfl)

/-- Every subscriber that never lagged got its events under increasing numbers. -/
def SubscribersInOrder (hub : Hub) : Prop :=
  ∀ c conn, hub.connections c = some conn → conn.eventRx.skipped = 0 →
    conn.eventRx.received.Pairwise fun a b => a.seq < b.seq

/-- The step lets no waiting event be overtaken, and sends only while there are event
numbers left. -/
structure InTurn (hub : Hub) (op : HubOp) : Prop where
  keepsOrder : hub.KeepsOrder op
  numbered : ∀ c, op = .broadcast c → hub.pending c ≠ [] →
    hub.engine.eventLog.sequence < u64Max

/-- A step sends nothing, or the next event of the connection that broadcasts. -/
theorem step_sent {op : HubOp} (h : hub.step fuel op = some hub') :
    hub'.sent = hub.sent ∨ ∃ c event, op = .broadcast c ∧ event ∈ hub.pending c ∧
      hub'.sent = hub.sent ++ [event] := by
  cases step_cases h with
  | @send c event events eventRx hconn =>
    refine .inr ⟨c, event, rfl, ?_, rfl⟩
    rw [pending_of_handled hconn]
    exact List.mem_cons_self
  | accept | handle | fail | release | deliver | hangUp => exact .inl rfl

/-- In every run of the connections whose steps all take their turn, subscribers get the
events in order. -/
theorem subscribers_in_order {engine : EngineState}
    (hseq : engine.eventLog.sequence ≤ u64Max) {ops : List HubOp}
    (hrun : Machine.run (step fuel) (start engine) ops = some hub)
    (hturn : Machine.Along (step fuel) InTurn (start engine) ops) :
    hub.SubscribersInOrder := by
  have hinv : hub.Ordered ∧ ∀ e ∈ hub.sent, e.seq < u64Max := by
    refine Machine.run_invariant (fun hub => hub.Ordered ∧ ∀ e ∈ hub.sent, e.seq < u64Max)
      InTurn ?_ ⟨.start hseq, by simp [start]⟩ hturn hrun
    rintro mid op mid' ⟨hordered, hleft⟩ hok hstep
    refine ⟨hordered.step hok.keepsOrder hstep, ?_⟩
    rcases step_sent hstep with hsent | ⟨c, event, rfl, hmem, hsent⟩
    · rw [hsent]
      exact hleft
    · intro e he
      rw [hsent] at he
      rcases List.mem_append.mp he with he | he
      · exact hleft e he
      · -- its number is at most that of the log, and numbers are left there
        rw [List.mem_singleton.mp he]
        exact lt_of_le_of_lt (hordered.pending_le c event hmem)
          (hok.numbered c rfl (List.ne_nil_of_mem hmem))
  rcases hinv with ⟨hordered, hleft⟩
  intro c conn hconn _
  have hsub : conn.eventRx.received.Sublist hub.sent :=
    (hordered.inStep c conn hconn).sublist.trans (List.take_sublist _ _)
  have hsorted : conn.eventRx.received.Pairwise Precedes := hordered.sent.sublist hsub
  refine hsorted.imp_of_mem ?_
  intro a b _ hb hbefore
  have hbound := hleft b (hsub.subset hb)
  rcases hbefore with hlt | hmax
  · exact hlt
  · omega

/-- Two connections halt a market each; the second is the first to broadcast, and both
events are forwarded to the first. -/
def overtakingRun : List HubOp :=
  [.accept 0, .accept 1, .request 0 (.haltMarket 0 "BTCUSDT"),
    .request 1 (.haltMarket 1 "ETHUSDT"), .broadcast 1, .broadcast 1, .broadcast 0, .broadcast 0,
    .deliver 0, .deliver 0]

/-- Events of two handlers can be sent in the other order than they were numbered. -/
theorem broadcast_overtakes : ¬ ∀ ops hub,
    Machine.run (step 10) (start emptyEngine) ops = some hub → hub.SubscribersInOrder := by
  intro hall
  have hview : ((Machine.run (step 10) (start emptyEngine) overtakingRun).bind fun hub =>
      (hub.connections 0).map fun conn =>
        (conn.eventRx.skipped, conn.eventRx.received.map (·.seq))) = some (0, [2, 1]) := by
    decide +kernel
  rcases Option.bind_eq_some_iff.mp hview with ⟨hub, hrun, hconn⟩
  rcases Option.map_eq_some_iff.mp hconn with ⟨conn, hconn, hpair⟩
  rcases Prod.mk.inj hpair with ⟨hskipped, hreceived⟩
  have hsorted := List.pairwise_map.mpr (hall _ hub hrun 0 conn hconn hskipped)
  rw [hreceived] at hsorted
  exact absurd hsorted (by decide)

/-- Two connections halt a market each and broadcast one after the other. -/
def orderlyRun : List HubOp :=
  [.accept 0, .accept 1, .request 0 (.haltMarket 0 "BTCUSDT"),
    .request 1 (.haltMarket 1 "ETHUSDT"), .broadcast 0, .broadcast 0, .broadcast 1, .broadcast 1,
    .deliver 0, .deliver 0]

/-- `InTurn` as a test, for runs of the first `n` connections. -/
def checkTurn (n : ℕ) (hub : Hub) (op : HubOp) : Bool :=
  decide (op.connection < n) &&
    match op with
    | .broadcast c =>
      decide (∀ c' < n, ∀ a ∈ hub.pending c, ∀ b ∈ hub.pending c', c ≠ c' → a.seq ≤ b.seq) &&
        decide (hub.engine.eventLog.sequence < u64Max)
    | _ => true

theorem inTurn_of_checkTurn {n : ℕ} (op : HubOp) (hnone : ∀ c ≥ n, hub.connections c = none)
    (hcheck : hub.checkTurn n op = true) : hub.InTurn op := by
  rcases Bool.and_eq_true_iff.mp hcheck with ⟨_, hturn⟩
  refine ⟨?_, ?_⟩
  · rintro c rfl c' a ha b hb hne
    rcases Bool.and_eq_true_iff.mp hturn with ⟨horder, _⟩
    by_cases hc : c' < n
    · exact of_decide_eq_true horder c' hc a ha b hb hne
    · have hnil : hub.pending c' = [] := by simp only [pending, hnone c' (by omega)]
      rw [hnil] at hb
      exact absurd hb List.not_mem_nil
  · rintro c rfl _
    exact of_decide_eq_true (Bool.and_eq_true_iff.mp hturn).2

/-- The run theorem on two connections that broadcast in the order of their requests. -/
theorem orderly_run_in_order : ∃ hub,
    Machine.run (step 10) (start emptyEngine) orderlyRun = some hub ∧ hub.SubscribersInOrder := by
  have hsome : (Machine.run (step 10) (start emptyEngine) orderlyRun).isSome := by decide +kernel
  rcases Option.isSome_iff_exists.mp hsome with ⟨hub, hrun⟩
  refine ⟨hub, hrun, subscribers_in_order (Nat.zero_le _) hrun ?_⟩
  have hcheck : Machine.checkAlong (step 10) (checkTurn 2) (start emptyEngine) orderlyRun =
      true := by
    decide +kernel
  refine Machine.along_of_checkAlong (fun hub => ∀ c ≥ 2, hub.connections c = none) ?_
    (fun _ _ => rfl) hcheck
  intro mid op hnone hok
  refine ⟨inTurn_of_checkTurn op hnone hok, ?_⟩
  intro mid' hstep c hc
  have hlt : op.connection < 2 := of_decide_eq_true (Bool.and_eq_true_iff.mp hok).1
  rw [step_connections hstep c (by omega)]
  exact hnone c hc

end Hub

end CryptoCex.Server
