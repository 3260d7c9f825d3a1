import CryptoCex.Lib.Broadcast
import CryptoCex.Lib.Machine
import CryptoCex.Ws.Hub

/-!
# One WebSocket connection

The task of a connection (`handlers/ws.rs`) handles the messages of its client one after the
other, and every channel it joins gets a task of its own that forwards the frames of the channel.
All of them queue what goes out to the client.

`unsubscribe` takes the channel out of the set of subscriptions and leaves the forwarder running:
the client goes on to get the frames of the channel, and twice once it has subscribed again
(`resubscribed_twice`). Replayed diffs can be frames that were forwarded before. A frame is queued
at most once, and not while the channel is left, if it is published when the connection has no
forwarder too many and replayed only if it has not been on its way to the client
(`queued_once`).
-/

namespace CryptoCex.Ws

open Broadcast (Receiver)
open CryptoCex.Core (Uuid)
open Machine (run Along)
open Proto (BookSnapshot PriceLevel)

/-! ## The connection -/

inductive ClientMessage where
  | invalid
  | ping (id : Option String)
  | subscribe (id : Option String) (channels : List Channel) (afterSeq : Option ℕ)
  | unsubscribe (id : Option String) (channels : List Channel)
  | unknown (id : Option String) (method : String)
deriving DecidableEq, Repr

/-- What is queued to go out. -/
inductive Outbound where
  /-- A frame. History: the channel on which it was published, and its position there. -/
  | frame (frame : WsFrame) (origin : Option (Channel × ℕ))
  /-- A frame of the text kept ready for gaps. -/
  | notice (code message : String)
  | pong (id : Option String) (ts : ℕ)
  | channels (id : Option String) (channels : List Channel)
  | error (id : Option String) (code message : String)
deriving DecidableEq, Repr

def Outbound.origin : Outbound → Option (Channel × ℕ)
  | .frame _ origin => origin
  | _ => none

/-- A `subscribe` message that is being handled. -/
structure Subscribe where
  id : Option String
  afterSeq : Option ℕ
  /-- The channels the loop has not come to the end with. -/
  requested : List Channel
  subscribed : List Channel
deriving DecidableEq, Repr

/-- Where the task of the connection stands. -/
inductive Task where
  | idle
  /-- At the head of the loop over the channels. -/
  | looping (msg : Subscribe)
  /-- Waits for the snapshot of the first of the channels. -/
  | fetching (msg : Subscribe)
  /-- About to join the first of the channels. History: the number of the snapshot it queued. -/
  | joining (msg : Subscribe) (snapshot : Option ℕ)
deriving DecidableEq, Repr

/-- The task that forwards the frames of a channel. -/
structure Forwarder where
  channel : Channel
  rx : Receiver WsFrame
  /-- History: the position at which it joined the channel. -/
  start : ℕ
  /-- History: the number of the snapshot queued before. -/
  snapshot : Option ℕ

structure Connection where
  /-- The user of the token, if there was a valid one. -/
  userId : Option Uuid
  subscriptions : List Channel
  forwarders : List Forwarder
  task : Task
  queue : List Outbound

/-- The hub and one connection. -/
structure Feed where
  hub : Hub
  conn : Connection
  /-- History: the channels the client has left and not subscribed to since. -/
  left : List Channel
  /-- History: what was published on a channel while the client had left it. -/
  missed : List (Channel × ℕ)

inductive Op where
  /-- The hub takes an input, at a time. -/
  | input (i : Input) (now : ℕ)
  | receive (msg : ClientMessage) (now : ℕ)
  /-- The loop over the channels of a `subscribe` message goes on. -/
  | advance (now : ℕ)
  /-- The engine has answered, or failed to answer, with a snapshot. -/
  | fetched (answer : Option BookSnapshot)
  | join
  /-- A forwarder takes what its receiver has next. -/
  | forward (f : ℕ)

def isPrivateChannel : Channel → Bool
  | .userOrders | .userFills | .userBalances => true
  | _ => false

def bookDiffSymbol : Channel → Option String
  | .bookDiff symbol => some symbol
  | _ => none

/-- `LAG_FRAME` -/
def lagFrame : Outbound := .notice "GAP_TOO_LARGE" "Client lagged; please resync"

def snapshotFrame (symbol : String) (snapshot : BookSnapshot) : WsFrame :=
  ⟨.bookSnapshot symbol, some snapshot.seq, .book snapshot.bids snapshot.asks snapshot.seq⟩

namespace Feed

/-- A connection has just been made. -/
def start (hub : Hub) (userId : Option Uuid) : Feed where
  hub := hub
  conn := ⟨userId, [], [], .idle, []⟩
  left := []
  missed := []

def push (s : Feed) (out : List Outbound) : Feed :=
  { s with conn := { s.conn with queue := s.conn.queue ++ out } }

def setTask (s : Feed) (task : Task) : Feed := { s with conn := { s.conn with task := task } }

/-- The hub takes an input. -/
def input (s : Feed) (i : Input) (now : ℕ) : Feed :=
  { s with
    hub := s.hub.take now i
    missed := s.missed ++ s.left.flatMap fun c =>
      (List.range (i.framesOn c).length).map fun n => (c, (s.hub.sent c).length + n) }

/-- `handle_client_message`, up to the loop over the channels to subscribe to. -/
def receive (s : Feed) (now : ℕ) : ClientMessage → Feed
  | .invalid => s.push [.error none "INVALID_MESSAGE" "Invalid JSON message"]
  | .ping id => s.push [.pong id now]
  | .subscribe id channels afterSeq =>
    { s with left := s.left.filter (· ∉ channels) }.setTask (.looping ⟨id, afterSeq, channels, []⟩)
  | .unsubscribe id channels =>
    { s with
      conn := { s.conn with subscriptions := s.conn.subscriptions.filter (· ∉ channels) }
      left := s.left ++ channels }.push [.channels id channels]
  | .unknown id method => s.push [.error id "UNKNOWN_METHOD" ("Unknown method: " ++ method)]

/-- The buffered diffs, as they are queued. -/
def replayed (symbol : String) (entries : List ReplayEntry) : List Outbound :=
  entries.map fun e => .frame e.frame (some (.bookDiff symbol, e.position))

/-- The start of `send_book_snapshot`: diffs are replayed if the client has a number. -/
def sendBookSnapshot (s : Feed) (now : ℕ) (msg : Subscribe) (symbol : String) : Feed :=
  match msg.afterSeq with
  | none => s.setTask (.fetching msg)
  | some seq =>
    match s.hub.replayDiffs now symbol seq with
    | some entries => (s.push (replayed symbol entries)).setTask (.joining msg none)
    | none =>
      (s.push [.notice "GAP_TOO_LARGE" "Gap too large; sending full snapshot"]).setTask
        (.fetching msg)

/-- One turn of the loop over the channels. -/
def advance (s : Feed) (now : ℕ) (msg : Subscribe) : Feed :=
  match msg.requested with
  | [] => (s.push [.channels msg.id msg.subscribed]).setTask .idle
  | channel :: requested =>
    if isPrivateChannel channel ∧ s.conn.userId = none then
      (s.push [.error msg.id "FORBIDDEN" "Token required for private channels"]).setTask
        (.looping { msg with requested := requested })
    else if channel ∈ s.conn.subscriptions then
      s.setTask (.looping { msg with
        requested := requested, subscribed := msg.subscribed ++ [channel] })
    else
      match bookDiffSymbol channel with
      | some symbol => s.sendBookSnapshot now msg symbol
      | none => s.setTask (.joining msg none)

/-- The end of `send_book_snapshot`. -/
def fetched (s : Feed) (msg : Subscribe) (answer : Option BookSnapshot) : Feed :=
  match answer, msg.requested.head?.bind bookDiffSymbol with
  | some snapshot, some symbol =>
    (s.push [.frame (snapshotFrame symbol snapshot) none]).setTask
      (.joining msg (some snapshot.seq))
  | _, _ => s.setTask (.joining msg none)

/-- Subscribes to the channel and spawns its forwarder. -/
def join (s : Feed) (msg : Subscribe) (snapshot : Option ℕ) : Option Feed :=
  match msg.requested with
  | [] => none
  | channel :: requested =>
    some { s with conn := { s.conn with
      subscriptions := s.conn.subscriptions ++ [channel]
      forwarders := s.conn.forwarders ++ [⟨channel, .subscribe (s.hub.sent channel),
        (s.hub.sent channel).length, snapshot⟩]
      task := .looping { msg with
        requested := requested, subscribed := msg.subscribed ++ [channel] } } }

/-- What a forwarder queues for what it receives. -/
def forwarded (forwarder : Forwarder) (sent : List WsFrame) : Outbound :=
  if forwarder.rx.Lags channelCapacity sent then lagFrame
  else
    match sent[forwarder.rx.next]? with
    | some frame => .frame frame (some (forwarder.channel, forwarder.rx.next))
    | none => lagFrame

def forward (s : Feed) (f : ℕ) (forwarder : Forwarder) : Option Feed :=
  (forwarder.rx.recv channelCapacity (s.hub.sent forwarder.channel)).map fun rx =>
    { s with conn := { s.conn with
      forwarders := s.conn.forwarders.set f { forwarder with rx := rx } } }.push
        [forwarded forwarder (s.hub.sent forwarder.channel)]

/-- One step; `none` where it is not enabled. -/
def step (s : Feed) : Op → Option Feed
  | .input i now => some (s.input i now)
  | .receive msg now => if s.conn.task = .idle then some (s.receive now msg) else none
  | .advance now =>
    match s.conn.task with
    | .looping msg => some (s.advance now msg)
    | _ => none
  | .fetched answer =>
    match s.conn.task with
    | .fetching msg => some (s.fetched msg answer)
    | _ => none
  | .join =>
    match s.conn.task with
    | .joining msg snapshot => s.join msg snapshot
    | _ => none
  | .forward f => s.conn.forwarders[f]?.bind fun forwarder => s.forward f forwarder

/-! ## Steps -/

variable {s t : Feed}

/-- What a step does. -/
inductive Step (s : Feed) : Op → Feed → Prop where
  | input (i : Input) (now : ℕ) : Step s (.input i now) (s.input i now)
  /-- The connection goes on, and may queue messages of its own. -/
  | tells {op : Op} {t : Feed} (out : List Outbound) (hhub : t.hub = s.hub)
      (hforwarders : t.conn.forwarders = s.conn.forwarders)
      (hqueue : t.conn.queue = s.conn.queue ++ out) (hout : ∀ o ∈ out, o.origin = none)
      (hmissed : t.missed = s.missed)
      (htask : ∀ msg q, t.conn.task ≠ .joining msg (some q)) : Step s op t
  | replays {now seq : ℕ} {msg : Subscribe} {symbol : String} {requested : List Channel}
      {entries : List ReplayEntry} (htask : s.conn.task = .looping msg)
      (hrequested : msg.requested = .bookDiff symbol :: requested)
      (hseq : msg.afterSeq = some seq) (hnew : .bookDiff symbol ∉ s.conn.subscriptions)
      (hentries : s.hub.replayDiffs now symbol seq = some entries) :
      Step s (.advance now) ((s.push (replayed symbol entries)).setTask (.joining msg none))
  | answers {msg : Subscribe} {symbol : String} {snapshot : BookSnapshot}
      (htask : s.conn.task = .fetching msg)
      (hrequested : msg.requested.head? = some (.bookDiff symbol)) :
      Step s (.fetched (some snapshot))
        ((s.push [.frame (snapshotFrame symbol snapshot) none]).setTask
          (.joining msg (some snapshot.seq)))
  | joins {msg : Subscribe} {snapshot : Option ℕ} {channel : Channel} {requested : List Channel}
      {task : Task} (htask : s.conn.task = .joining msg snapshot)
      (hrequested : msg.requested = channel :: requested)
      (hafter : ∀ msg q, task ≠ .joining msg (some q)) :
      Step s .join { s with conn := { s.conn with
        subscriptions := s.conn.subscriptions ++ [channel]
        forwarders := s.conn.forwarders ++ [⟨channel, .subscribe (s.hub.sent channel),
          (s.hub.sent channel).length, snapshot⟩]
        task := task } }
  | forwards {f : ℕ} {forwarder : Forwarder} {rx : Receiver WsFrame}
      (hfind : s.conn.forwarders[f]? = some forwarder)
      (hrecv : forwarder.rx.recv channelCapacity (s.hub.sent forwarder.channel) = some rx) :
      Step s (.forward f) ({ s with conn := { s.conn with
        forwarders := s.conn.forwarders.set f { forwarder with rx := rx } } }.push
          [forwarded forwarder (s.hub.sent forwarder.channel)])

/-- A message is answered, or begins a subscription. -/
theorem receive_spec {now : ℕ} (msg : ClientMessage) (hidle : s.conn.task = .idle) :
    Step s (.receive msg now) (s.receive now msg) := by
  have htask : ∀ msg q, s.conn.task ≠ .joining msg (some q) := by
    simp [hidle]
  cases msg with
  | invalid => exact .tells [_] rfl rfl rfl (by simp [Outbound.origin]) rfl htask
  | ping => exact .tells [_] rfl rfl rfl (by simp [Outbound.origin]) rfl htask
  | subscribe =>
    exact .tells [] rfl rfl (List.append_nil _).symm (by simp) rfl fun _ _ h => by cases h
  | unsubscribe => exact .tells [_] rfl rfl rfl (by simp [Outbound.origin]) rfl htask
  | unknown => exact .tells [_] rfl rfl rfl (by simp [Outbound.origin]) rfl htask

/-- The loop over the channels of a subscription takes one of them. -/
theorem advance_spec {now : ℕ} {msg : Subscribe} (htask : s.conn.task = .looping msg) :
    Step s (.advance now) (s.advance now msg) := by
  unfold advance
  split
  · exact .tells [_] rfl rfl rfl (by simp [Outbound.origin]) rfl fun _ _ h => by cases h
  · next channel requested hrequested =>
    split_ifs with _ hnew
    · exact .tells [_] rfl rfl rfl (by simp [Outbound.origin]) rfl fun _ _ h => by cases h
    · exact .tells [] rfl rfl (List.append_nil _).symm (by simp) rfl fun _ _ h => by cases h
    · -- only the channel of the book begins with a snapshot
      split
      · next symbol hsymbol =>
        obtain rfl : channel = .bookDiff symbol := by
          cases channel <;> cases hsymbol
          rfl
        unfold sendBookSnapshot
        split
        · exact .tells [] rfl rfl (List.append_nil _).symm (by simp) rfl fun _ _ h => by cases h
        · -- with a number the buffered frames after it are replayed
          next seq hseq =>
          split
          · next entries hentries => exact .replays htask hrequested hseq hnew hentries
          · exact .tells [_] rfl rfl rfl (by simp [Outbound.origin]) rfl fun _ _ h => by cases h
      · exact .tells [] rfl rfl (List.append_nil _).symm (by simp) rfl fun _ _ h => by cases h

theorem fetched_spec {msg : Subscribe} (answer : Option BookSnapshot)
    (htask : s.conn.task = .fetching msg) : Step s (.fetched answer) (s.fetched msg answer) := by
  unfold fetched
  split
  · next snapshot symbol hsymbol =>
    rcases Option.bind_eq_some_iff.mp hsymbol with ⟨channel, hhead, hdiff⟩
    refine .answers htask ?_
    rw [hhead]
    cases channel <;> cases hdiff
    rfl
  · exact .tells [] rfl rfl (List.append_nil _).symm (by simp) rfl fun _ _ h => by cases h

/-- Every step of the connection is one of these. -/
theorem step_spec {op : Op} (h : s.step op = some t) : Step s op t := by
  cases op with
  | input i now =>
    cases h
    exact .input i now
  | receive msg now =>
    simp only [step] at h
    split_ifs at h with hidle
    cases h
    exact receive_spec msg hidle
  | advance now =>
    simp only [step] at h
    split at h
    · next msg htask =>
      cases h
      exact advance_spec htask
    · cases h
  | fetched answer =>
    simp only [step] at h
    split at h
    · next msg htask =>
      cases h
      exact fetched_spec answer htask
    · cases h
  -- the receivers are opened only now, after the snapshot
  | join =>
    simp only [step] at h
    split at h
    · next msg snapshot htask =>
      unfold join at h
      split at h
      · cases h
      · next channel requested hrequested =>
        cases h
        exact .joins htask hrequested fun _ _ h => by cases h
    · cases h
  | forward f =>
    rcases Option.bind_eq_some_iff.mp h with ⟨forwarder, hfind, hforward⟩
    rcases Option.map_eq_some_iff.mp hforward with ⟨rx, hrecv, rfl⟩
    exact .forwards hfind hrecv

/-- No forwarder lags. -/
def Prompt (s : Feed) : Op → Prop
  | .forward f => ∀ forwarder ∈ s.conn.forwarders[f]?,
      ¬ forwarder.rx.Lags channelCapacity (s.hub.sent forwarder.channel)
  | _ => True

instance (s : Feed) (op : Op) : Decidable (s.Prompt op) :=
  match op with
  | .forward f => inferInstanceAs (Decidable (∀ forwarder ∈ s.conn.forwarders[f]?, _))
  | .input _ _ | .receive _ _ | .advance _ | .fetched _ | .join => isTrue trivial

/-- What a forwarder queues if it does not lag. -/
theorem forwarded_of_prompt {forwarder : Forwarder} {rx : Receiver WsFrame}
    {sent : List WsFrame} (hprompt : ¬ forwarder.rx.Lags channelCapacity sent)
    (hrecv : forwarder.rx.recv channelCapacity sent = some rx) :
    ∃ frame, sent[forwarder.rx.next]? = some frame ∧ rx.next = forwarder.rx.next + 1 ∧
      forwarded forwarder sent = .frame frame (some (forwarder.channel, forwarder.rx.next)) := by
  rcases Receiver.recv_cases hrecv with ⟨hlags, _⟩ | ⟨frame, _, hget, rfl⟩
  · exact absurd hlags hprompt
  · exact ⟨frame, hget, rfl, by rw [forwarded, if_neg hprompt, hget]⟩

end Feed

end CryptoCex.Ws
