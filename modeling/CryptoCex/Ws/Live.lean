import CryptoCex.Server.Exchange
import CryptoCex.Lib.Tasks
import CryptoCex.Ws.Feed

/-!
# Snapshot and diffs of a book

A client that subscribes to the diffs of a book is sent a snapshot first. The connection asks the
engine for it, queues it and joins the channel then. Meanwhile the events of the engine take their
own way to the hub. A diff that is newer than the snapshot and reaches the hub before the
connection has joined goes to nobody (`delta_before_join`).

Otherwise nothing is missing: if the hub has published no diff that is newer than the snapshot
when the connection joins, then every newer one that the engine emits is on its way to the hub,
before the forwarder, or queued behind the snapshot (`no_gap`).
-/

namespace CryptoCex.Ws

open Broadcast (Receiver)
open CryptoCex.Core (Uuid)
open Machine (run Along)
open Proto (BookSnapshot EngineRequest PriceLevel SequencedEngineEvent)
open Server (EngineState ResponseBundle)

/-- The engine, the events on their way to the hub, and the hub with one connection. -/
structure Live where
  engine : EngineState
  inFlight : List SequencedEngineEvent
  /-- The snapshot on its way to the connection. -/
  answer : Option BookSnapshot
  feed : Feed
  /-- History: all events of the engine. -/
  emitted : List SequencedEngineEvent

inductive LiveOp where
  /-- The engine handles a request of any client, and its events set out. -/
  | request (req : EngineRequest)
  /-- The event at this position reaches the hub; they need not keep their order. -/
  | dispatch (i now : ℕ)
  /-- The engine handles the snapshot request of the connection. -/
  | snapshot (requestId : Uuid)
  /-- The connection goes on with the snapshot, or without one after an error. -/
  | fetched (ok : Bool)
  /-- Any other step of the hub and the connection. -/
  | feed (op : Op)

/-- The depth that `send_book_snapshot` asks for. -/
def snapshotRequestDepth : ℕ := 100

/-- The steps of the hub and the connection that do not involve the engine. -/
def Op.isLocal : Op → Bool
  | .input (.event _) _ | .fetched _ => false
  | _ => true

namespace Live

def start (engine : EngineState) (feed : Feed) : Live := ⟨engine, [], none, feed, []⟩

/-- The engine answers a snapshot request for the book of a channel. -/
def snapshotOf (fuel : ℕ) (upper : String → String) (engine : EngineState) (requestId : Uuid)
    (symbol : String) : Option BookSnapshot :=
  match engine.handleRequest fuel (.snapshot requestId (upper symbol) snapshotRequestDepth) with
  | some (.ok ⟨.ack _ (.snapshot snapshot), _⟩, _) => some snapshot
  | _ => none

/-- One step; `none` where it is not enabled. -/
def step (fuel : ℕ) (upper : String → String) (s : Live) : LiveOp → Option Live
  | .request req =>
    (s.engine.handleRequest fuel req).map fun (result, engine) =>
      match result with
      | .ok bundle =>
        { s with
          engine := engine
          inFlight := s.inFlight ++ bundle.events
          emitted := s.emitted ++ bundle.events }
      | .error _ => { s with engine := engine }
  | .dispatch i now =>
    s.inFlight[i]?.bind fun e =>
      (s.feed.step (.input (.event e) now)).map fun feed =>
        { s with inFlight := s.inFlight.eraseIdx i, feed := feed }
  | .snapshot requestId =>
    match s.feed.conn.task, s.answer with
    | .fetching msg, none =>
      (msg.requested.head?.bind bookDiffSymbol).bind fun symbol =>
        (snapshotOf fuel upper s.engine requestId symbol).map fun snapshot =>
          { s with answer := some snapshot }
    | _, _ => none
  | .fetched ok =>
    let answer := if ok then s.answer else none
    if ok ∧ s.answer = none then none
    else (s.feed.step (.fetched answer)).map fun feed => { s with feed := feed, answer := none }
  | .feed op =>
    if op.isLocal then (s.feed.step op).map fun feed => { s with feed := feed } else none

end Live

/-- The frame of a diff. -/
def diffFrame (symbol : String) (bids asks : List PriceLevel) (seq : ℕ) : WsFrame :=
  ⟨.bookDiff symbol, some seq, .book bids asks seq⟩

/-! ## No gap -/

/-- The forwarder follows on a snapshot: every newer diff of the book that the engine has emitted
is on its way to the hub, before the forwarder, or queued behind the snapshot. -/
def Live.NoGap (s : Live) (f : Forwarder) : Prop :=
  ∀ symbol q, f.channel = .bookDiff symbol → f.snapshot = some q →
    ∃ snapshot pre post, snapshot.seq = q ∧
      s.feed.conn.queue = pre ++ .frame (snapshotFrame symbol snapshot) none :: post ∧
      ∀ e ∈ s.emitted, ∀ bids asks, e.event = .bookDelta symbol bids asks → q < e.seq →
        e ∈ s.inFlight ∨ ∃ n,
          (s.feed.hub.sent f.channel)[n]? = some (diffFrame symbol bids asks e.seq) ∧
          (f.rx.next ≤ n ∨
            .frame (diffFrame symbol bids asks e.seq) (some (f.channel, n)) ∈ post)

/-- The channel about to be joined, with the number of the snapshot that is queued. -/
def Task.joins : Task → Option (Channel × ℕ)
  | .joining msg (some q) => msg.requested.head?.map fun channel => (channel, q)
  | _ => none

/-- The connection joins the diffs of a book before a diff that is newer than the snapshot it has
queued is published. -/
def Feed.JoinsInTime (s : Feed) : Op → Prop
  | .join => ∀ p ∈ s.conn.task.joins, ∀ frame ∈ s.hub.sent p.1, ∀ seq ∈ frame.seq, seq ≤ p.2
  | _ => True

/-- The condition on a run. -/
def Live.Timely (s : Live) : LiveOp → Prop
  | .feed op => s.feed.Prompt op ∧ s.feed.JoinsInTime op
  | _ => True

instance (s : Feed) (op : Op) : Decidable (s.JoinsInTime op) :=
  match op with
  | .join => inferInstanceAs (Decidable (∀ p ∈ s.conn.task.joins, ∀ frame ∈ s.hub.sent p.1, _))
  | .input _ _ | .receive _ _ | .advance _ | .fetched _ | .forward _ => isTrue trivial

instance (s : Live) (op : LiveOp) : Decidable (s.Timely op) :=
  match op with
  | .feed _ => inferInstanceAs (Decidable (_ ∧ _))
  | .request _ | .dispatch _ _ | .snapshot _ | .fetched _ => isTrue trivial

namespace Feed

variable {s t : Feed} {f : Forwarder} {op : Op}

/-- What a forwarder of a book with a snapshot has done: the snapshot is queued, behind it
everything the forwarder took, and what was published before it joined is not newer. -/
structure Follows (s : Feed) (f : Forwarder) (symbol : String) (q : ℕ) : Prop where
  older : ∀ n < f.start, ∀ frame, (s.hub.sent f.channel)[n]? = some frame →
    ∀ seq ∈ frame.seq, seq ≤ q
  queued : ∃ snapshot pre post, snapshot.seq = q ∧
    s.conn.queue = pre ++ .frame (snapshotFrame symbol snapshot) none :: post ∧
    ∀ n, f.start ≤ n → n < f.rx.next → ∀ frame, (s.hub.sent f.channel)[n]? = some frame →
      .frame frame (some (f.channel, n)) ∈ post

/-- Where the forwarders and a connection about to join stand. -/
structure Tracked (s : Feed) : Prop where
  next_le : ∀ f ∈ s.conn.forwarders, f.rx.next ≤ (s.hub.sent f.channel).length
  joining : ∀ msg q, s.conn.task = .joining msg (some q) → ∃ symbol snapshot pre post,
    msg.requested.head? = some (.bookDiff symbol) ∧ snapshot.seq = q ∧
    s.conn.queue = pre ++ .frame (snapshotFrame symbol snapshot) none :: post
  follows : ∀ f ∈ s.conn.forwarders, ∀ symbol q, f.channel = .bookDiff symbol →
    f.snapshot = some q → s.Follows f symbol q
  start_le : ∀ f ∈ s.conn.forwarders, f.start ≤ f.rx.next

/-- A connection that nobody has used yet. -/
theorem tracked_start (hub : Hub) (userId : Option Uuid) : Tracked (start hub userId) where
  next_le := by
    intro f hf
    cases hf
  joining := by
    intro msg q htask
    cases htask
  follows := by
    intro f hf
    cases hf
  start_le := by
    intro f hf
    cases hf

/-- More is published and queued. -/
theorem Follows.grow {symbol : String} {q : ℕ} (h : s.Follows f symbol q) {l : List WsFrame}
    {o : List Outbound} (hnext : f.rx.next ≤ (s.hub.sent f.channel).length)
    (hstart : f.start ≤ f.rx.next)
    (hsent : t.hub.sent f.channel = s.hub.sent f.channel ++ l)
    (hqueue : t.conn.queue = s.conn.queue ++ o) : t.Follows f symbol q := by
  have hold : ∀ n < f.rx.next, (t.hub.sent f.channel)[n]? = (s.hub.sent f.channel)[n]? := by
    intro n hn
    rw [hsent, List.getElem?_append_left (by omega)]
  constructor
  · intro n hn frame hframe
    rw [hold n (by omega)] at hframe
    exact h.older n hn frame hframe
  · rcases h.queued with ⟨snapshot, pre, post, hseq, hsplit, hpost⟩
    refine ⟨snapshot, pre, post ++ o, hseq, ?_, ?_⟩
    · rw [hqueue, hsplit, List.append_assoc, List.cons_append]
    · intro n hle hlt frame hframe
      rw [hold n hlt] at hframe
      exact List.mem_append_left _ (hpost n hle hlt frame hframe)

/-- The forwarder takes a frame. -/
theorem Follows.take {symbol : String} {q : ℕ} {frame : WsFrame} {rx : Receiver WsFrame}
    (h : s.Follows f symbol q) (hhub : t.hub = s.hub)
    (hget : (s.hub.sent f.channel)[f.rx.next]? = some frame) (hrx : rx.next = f.rx.next + 1)
    (hqueue : t.conn.queue = s.conn.queue ++ [.frame frame (some (f.channel, f.rx.next))]) :
    t.Follows { f with rx := rx } symbol q := by
  constructor
  · rw [hhub]
    exact h.older
  · rcases h.queued with ⟨snapshot, pre, post, hseq, hsplit, hpost⟩
    refine ⟨snapshot, pre, post ++ [.frame frame (some (f.channel, f.rx.next))], hseq, ?_, ?_⟩
    · rw [hqueue, hsplit, List.append_assoc, List.cons_append]
    · intro n hle hlt frame' hframe'
      rw [hhub] at hframe'
      change n < rx.next at hlt
      rw [hrx] at hlt
      rcases Nat.lt_succ_iff_lt_or_eq.mp hlt with hbefore | rfl
      · exact List.mem_append_left _ (hpost n hle hbefore frame' hframe')
      · rw [hget] at hframe'
        cases hframe'
        exact List.mem_append_right _ (List.mem_singleton.mpr rfl)

/-- The snapshot of a join stays in the queue while more is queued. -/
theorem Tracked.joining_append (h : Tracked s) {out : List Outbound} {msg : Subscribe} {q : ℕ}
    (htask : s.conn.task = .joining msg (some q)) :
    ∃ symbol snapshot pre post, msg.requested.head? = some (.bookDiff symbol) ∧
      snapshot.seq = q ∧
      s.conn.queue ++ out = pre ++ .frame (snapshotFrame symbol snapshot) none :: post := by
  rcases h.joining msg q htask with ⟨symbol, snapshot, pre, post, hhead, hseq, hsplit⟩
  refine ⟨symbol, snapshot, pre, post ++ out, hhead, hseq, ?_⟩
  rw [hsplit, List.append_assoc, List.cons_append]

/-- The connection queues more, and its forwarders stay where they are. -/
theorem Tracked.of_queue (h : Tracked s) {out : List Outbound} (hhub : t.hub = s.hub)
    (hforwarders : t.conn.forwarders = s.conn.forwarders)
    (hqueue : t.conn.queue = s.conn.queue ++ out)
    (hjoining : ∀ msg q, t.conn.task = .joining msg (some q) → ∃ symbol snapshot pre post,
      msg.requested.head? = some (.bookDiff symbol) ∧ snapshot.seq = q ∧
      t.conn.queue = pre ++ .frame (snapshotFrame symbol snapshot) none :: post) : Tracked t where
  next_le := by
    rw [hforwarders, hhub]
    exact h.next_le
  joining := hjoining
  follows := by
    intro f hf symbol q hchannel hsnapshot
    rw [hforwarders] at hf
    refine (h.follows f hf symbol q hchannel hsnapshot).grow (l := []) (h.next_le f hf)
      (h.start_le f hf) ?_ hqueue
    rw [hhub, List.append_nil]
  start_le := by
    rw [hforwarders]
    exact h.start_le

/-- A step keeps the forwarders where they stand. -/
theorem Tracked.step (h : Tracked s) (hprompt : s.Prompt op) (hintime : s.JoinsInTime op)
    (hstep : s.step op = some t) : Tracked t := by
  have hspec := step_spec hstep
  cases hspec with
  | input i now =>
    have hsent : ∀ c, (s.input i now).hub.sent c = s.hub.sent c ++ i.framesOn c := by
      intro c
      exact s.hub.sent_take now i c
    refine ⟨?_, h.joining, ?_, h.start_le⟩
    · intro f hf
      rw [hsent, List.length_append]
      exact Nat.le_add_right_of_le (h.next_le f hf)
    · intro f hf symbol q hchannel hsnapshot
      exact (h.follows f hf symbol q hchannel hsnapshot).grow (o := []) (h.next_le f hf)
        (h.start_le f hf) (hsent f.channel) (List.append_nil _).symm
  | tells out hhub hforwarders hqueue _ _ htask =>
    refine h.of_queue hhub hforwarders hqueue ?_
    intro msg q htask'
    exact absurd htask' (htask msg q)
  | replays =>
    refine h.of_queue rfl rfl rfl ?_
    intro msg q htask
    cases htask
  | @answers msg symbol snapshot htask hrequested =>
    refine h.of_queue rfl rfl rfl ?_
    rintro _ _ ⟨⟩
    exact ⟨symbol, snapshot, s.conn.queue, [], hrequested, rfl, rfl⟩
  | @joins msg snapshot channel requested task htask hrequested hafter =>
    refine ⟨?_, ?_, ?_, ?_⟩
    · intro f hf
      rcases List.mem_append.mp hf with hold | hnew
      · exact h.next_le f hold
      · cases List.mem_singleton.mp hnew
        exact Nat.le_refl _
    · intro msg q htask
      exact absurd htask (hafter msg q)
    · intro f hf symbol q hchannel hsnapshot
      rcases List.mem_append.mp hf with hold | hnew
      · exact (h.follows f hold symbol q hchannel hsnapshot).grow (l := []) (o := [])
          (h.next_le f hold) (h.start_le f hold) (List.append_nil _).symm (List.append_nil _).symm
      · -- the new forwarder has taken nothing yet
        cases List.mem_singleton.mp hnew
        obtain rfl : channel = .bookDiff symbol := hchannel
        obtain rfl : snapshot = some q := hsnapshot
        rcases h.joining msg q htask with ⟨symbol', answer, pre, post, hhead, hseq, hsplit⟩
        rw [hrequested] at hhead
        cases hhead
        refine ⟨?_, answer, pre, post, hseq, hsplit, ?_⟩
        · intro n _ frame hframe
          refine hintime (.bookDiff symbol, q) ?_ frame (List.mem_of_getElem? hframe)
          rw [htask]
          simp [Task.joins, hrequested]
        · intro n hle hlt
          exact absurd hle (Nat.not_le.mpr hlt)
    · intro f hf
      rcases List.mem_append.mp hf with hold | hnew
      · exact h.start_le f hold
      · cases List.mem_singleton.mp hnew
        exact Nat.le_refl _
  | @forwards i forwarder rx hfind hrecv =>
    have hmem := List.mem_of_getElem? hfind
    have hbefore := h.next_le forwarder hmem
    rcases forwarded_of_prompt (hprompt forwarder hfind) hrecv with ⟨frame, hget, hnext, hout⟩
    rw [hout]
    have hlt : rx.next ≤ (s.hub.sent forwarder.channel).length := by
      rw [hnext]
      exact (List.getElem?_eq_some_iff.mp hget).1
    refine ⟨Tasks.forall_set h.next_le hlt, ?_, ?_, ?_⟩
    · intro msg q htask
      exact h.joining_append htask
    · refine Tasks.forall_set ?_ ?_
      · intro f hf symbol q hchannel hsnapshot
        exact (h.follows f hf symbol q hchannel hsnapshot).grow (l := []) (h.next_le f hf)
          (h.start_le f hf) (List.append_nil _).symm rfl
      · intro symbol q hchannel hsnapshot
        exact (h.follows forwarder hmem symbol q hchannel hsnapshot).take rfl hget hnext rfl
    · refine Tasks.forall_set h.start_le ?_
      rw [hnext]
      exact Nat.le_succ_of_le (h.start_le forwarder hmem)

end Feed

/-! ## Runs -/

namespace Live

variable {fuel : ℕ} {upper : String → String} {s t : Live} {op : LiveOp}

/-- A step changes the feed by one of its steps, or not at all. An event leaves its place among
those in flight only when the hub takes it. -/
structure Moves (s : Live) (op : LiveOp) (t : Live) : Prop where
  feed : t.feed = s.feed ∨ ∃ o, s.feed.step o = some t.feed ∧ (op = .feed o ∨
    (∃ e now, o = .input (.event e) now) ∨ ∃ answer, o = .fetched answer)
  events : ∀ e ∈ t.emitted, e ∈ t.inFlight ∨
    e ∈ s.emitted ∧ (e ∈ s.inFlight → ∃ now, s.feed.step (.input (.event e) now) = some t.feed)

/-- Every step of the three parties moves the feed and the events so. -/
theorem step_moves (h : s.step fuel upper op = some t) : Moves s op t := by
  have hkept : ∀ {u : Live}, u.emitted = s.emitted → u.inFlight = s.inFlight →
      ∀ e ∈ u.emitted, e ∈ u.inFlight ∨ e ∈ s.emitted ∧ (e ∈ s.inFlight →
        ∃ now, s.feed.step (.input (.event e) now) = some u.feed) := by
    intro u hemitted hflight e he
    rw [hemitted] at he
    by_cases hmem : e ∈ s.inFlight
    · exact .inl (hflight ▸ hmem)
    · exact .inr ⟨he, fun hin => absurd hin hmem⟩
  cases op with
  | request req =>
    rcases Option.map_eq_some_iff.mp h with ⟨⟨result, engine⟩, hhandle, heq⟩
    cases result with
    | error => exact heq ▸ ⟨.inl rfl, hkept rfl rfl⟩
    | ok bundle =>
      obtain rfl := heq
      refine ⟨.inl rfl, ?_⟩
      intro e he
      rcases List.mem_append.mp he with hold | hnew
      · by_cases hmem : e ∈ s.inFlight
        · exact .inl (List.mem_append_left _ hmem)
        · exact .inr ⟨hold, fun hin => absurd hin hmem⟩
      · exact .inl (List.mem_append_right _ hnew)
  | dispatch i now =>
    rcases Option.bind_eq_some_iff.mp h with ⟨e₀, hfind, hmap⟩
    rcases Option.map_eq_some_iff.mp hmap with ⟨feed, hfeed, rfl⟩
    refine ⟨.inr ⟨_, hfeed, .inr (.inl ⟨e₀, now, rfl⟩)⟩, ?_⟩
    intro e he
    by_cases hmem : e ∈ s.inFlight.eraseIdx i
    · exact .inl hmem
    · refine .inr ⟨he, ?_⟩
      intro hin
      -- the event that is gone is the one the hub took
      rcases List.mem_iff_getElem?.mp hin with ⟨j, hj⟩
      by_cases heq : j = i
      · subst heq
        rw [hfind] at hj
        cases hj
        exact ⟨now, hfeed⟩
      · exact absurd (List.mem_eraseIdx_iff_getElem?.mpr ⟨j, heq, hj⟩) hmem
  | snapshot requestId =>
    simp only [step] at h
    split at h
    · rcases Option.bind_eq_some_iff.mp h with ⟨symbol, _, hmap⟩
      rcases Option.map_eq_some_iff.mp hmap with ⟨snapshot, _, rfl⟩
      exact ⟨.inl rfl, hkept rfl rfl⟩
    · cases h
  | fetched ok =>
    simp only [step] at h
    split at h
    · cases h
    · rcases Option.map_eq_some_iff.mp h with ⟨feed, hfeed, rfl⟩
      exact ⟨.inr ⟨_, hfeed, .inr (.inr ⟨_, rfl⟩)⟩, hkept rfl rfl⟩
  | feed o =>
    simp only [step] at h
    split at h
    · rcases Option.map_eq_some_iff.mp h with ⟨feed, hfeed, rfl⟩
      exact ⟨.inr ⟨o, hfeed, .inl rfl⟩, hkept rfl rfl⟩
    · cases h

/-- The connection is tracked, and events that are not in flight are published. -/
structure Sound (s : Live) : Prop where
  tracked : s.feed.Tracked
  published : ∀ e ∈ s.emitted, e ∈ s.inFlight ∨
    ∀ frame ∈ eventFrames e, frame ∈ s.feed.hub.sent frame.channel

/-- What was published stays published. -/
theorem sent_subset {s t : Feed} {o : Op} (h : s.step o = some t) (c : Channel) :
    s.hub.sent c ⊆ t.hub.sent c := by
  have hspec := Feed.step_spec h
  cases hspec with
  | input i now =>
    show s.hub.sent c ⊆ (s.hub.take now i).sent c
    rw [Hub.sent_take]
    exact List.subset_append_left _ _
  | tells out hhub => exact hhub ▸ List.Subset.refl _
  | replays | answers | joins | forwards => exact List.Subset.refl _

/-- One step keeps an event in flight or published. -/
theorem Sound.step (h : Sound s) (hok : s.Timely op) (hstep : s.step fuel upper op = some t) :
    Sound t := by
  have hmoves := step_moves hstep
  constructor
  · -- the connection moves by itself, by an event that is taken, or by a snapshot
    rcases hmoves.feed with hsame | ⟨o, hfeed, horigin⟩
    · rw [hsame]
      exact h.tracked
    · refine h.tracked.step ?_ ?_ hfeed
      · rcases horigin with rfl | ⟨e, now, rfl⟩ | ⟨answer, rfl⟩
        · exact hok.1
        · trivial
        · trivial
      · rcases horigin with rfl | ⟨e, now, rfl⟩ | ⟨answer, rfl⟩
        · exact hok.2
        · trivial
        · trivial
  · -- an event leaves the flight when the hub takes it, and then its frames are sent
    have hkept : ∀ c, s.feed.hub.sent c ⊆ t.feed.hub.sent c := by
      intro c
      rcases hmoves.feed with hsame | ⟨o, hfeed, _⟩
      · rw [hsame]
        exact List.Subset.refl _
      · exact sent_subset hfeed c
    intro e he
    rcases hmoves.events e he with hflight | ⟨hold, htaken⟩
    · exact .inl hflight
    · refine .inr ?_
      intro frame hframe
      rcases h.published e hold with hin | hsent
      · rcases htaken hin with ⟨now, hfeed⟩
        have hafter : s.feed.input (.event e) now = t.feed := Option.some.inj hfeed
        rw [← hafter]
        show frame ∈ (s.feed.hub.take now (.event e)).sent frame.channel
        rw [Hub.sent_take]
        exact List.mem_append_right _ (List.mem_filter.mpr ⟨hframe, decide_eq_true rfl⟩)
      · exact hkept _ (hsent frame hframe)

/-- No forwarder misses a delta after its snapshot. -/
theorem Sound.noGap (h : Sound s) {f : Forwarder} (hf : f ∈ s.feed.conn.forwarders) :
    s.NoGap f := by
  intro symbol q hchannel hsnapshot
  have hfollows := h.tracked.follows f hf symbol q hchannel hsnapshot
  rcases hfollows.queued with ⟨snapshot, pre, post, hseq, hsplit, hpost⟩
  refine ⟨snapshot, pre, post, hseq, hsplit, ?_⟩
  intro e he bids asks hdelta hnewer
  rcases h.published e he with hflight | hsent
  · exact .inl hflight
  · have hframe : diffFrame symbol bids asks e.seq ∈ s.feed.hub.sent f.channel := by
      rw [hchannel]
      refine hsent (diffFrame symbol bids asks e.seq) ?_
      rw [eventFrames, hdelta]
      exact List.mem_singleton.mpr rfl
    rcases List.mem_iff_getElem?.mp hframe with ⟨n, hn⟩
    refine .inr ⟨n, hn, ?_⟩
    -- it was not published before the forwarder joined
    have hstart : f.start ≤ n := by
      by_contra hlt
      exact absurd (hfollows.older n (not_le.mp hlt) _ hn e.seq rfl) (not_le.mpr hnewer)
    rcases Nat.lt_or_ge n f.rx.next with hbefore | hafter
    · exact .inr (hpost n hstart hbefore _ hn)
    · exact .inl hafter

/-- In every run in which no forwarder lags, and the connection joins the diffs of a book before a
newer one than its snapshot is published, no diff that is newer than the snapshot is missing. -/
theorem no_gap {engine : EngineState} {hub : Hub} {userId : Option Uuid} {ops : List LiveOp}
    (hok : Along (step fuel upper) Timely (start engine (.start hub userId)) ops)
    (hrun : run (step fuel upper) (start engine (.start hub userId)) ops = some s) :
    ∀ f ∈ s.feed.conn.forwarders, s.NoGap f := by
  have hsound : Sound s := by
    refine Machine.run_invariant Sound Timely ?_ ⟨Feed.tracked_start hub userId, ?_⟩ hok hrun
    · intro mid op mid' hmid htimely hstep
      exact hmid.step htimely hstep
    · intro e he
      cases he
  exact fun f hf => hsound.noGap hf

/-! ## An order while a client subscribes -/

/-- The client subscribes to the diffs of BTCUSDT, and the engine answers with a snapshot. -/
def subscribeDiffs : List LiveOp :=
  [.feed (.receive (.subscribe (some "ws-1") [.bookDiff "BTCUSDT"] none) 0), .feed (.advance 0),
    .snapshot 1]

/-- An order comes to rest in the book, and its events reach the hub. -/
def restOrder : List LiveOp :=
  [.request (.place 2 (Server.wireLimit 1 10 .sell 100 5 .cancelTaker)), .dispatch 0 0,
    .dispatch 0 0, .dispatch 0 0]

/-- The diff that shows the order. -/
def orderDelta : SequencedEngineEvent := ⟨3, .bookDelta "BTCUSDT" [] [(100, 5)]⟩

/-- What the runs below show. -/
structure DiffView where
  emitted : Bool
  forwarders : List (Channel × ℕ × Option ℕ)
  inFlight : List SequencedEngineEvent
  sent : List WsFrame
  origins : List (Option (Channel × ℕ))
deriving DecidableEq

def diffView (s : Live) : DiffView where
  emitted := orderDelta ∈ s.emitted
  forwarders := s.feed.conn.forwarders.map fun f => (f.channel, f.rx.next, f.snapshot)
  inFlight := s.inFlight
  sent := s.feed.hub.sent (.bookDiff "BTCUSDT")
  origins := s.feed.conn.queue.map Outbound.origin

/-- The order comes to rest when the snapshot is taken and the channel is not joined. -/
def restBeforeJoin : List LiveOp :=
  subscribeDiffs ++ restOrder ++ [.fetched true, .feed .join, .feed (.advance 0)]

/-- The diff with the order has been published, and the client gets it neither with the snapshot
nor afterwards. -/
theorem delta_before_join : ∃ s f,
    run (step 10 id) (start Server.emptyEngine (.start .new none)) restBeforeJoin = some s ∧
    f ∈ s.feed.conn.forwarders ∧ ¬s.NoGap f := by
  have hview : (run (step 10 id) (start Server.emptyEngine (.start .new none)) restBeforeJoin).map
      diffView = some ⟨true, [(.bookDiff "BTCUSDT", 1, some 0)], [],
        [diffFrame "BTCUSDT" [] [(100, 5)] 3], [none, none]⟩ := by decide +kernel
  rcases Option.map_eq_some_iff.mp hview with ⟨s, hrun, hseen⟩
  simp only [diffView, DiffView.mk.injEq, decide_eq_true_eq] at hseen
  rcases hseen with ⟨hemitted, hforwarders, hflight, hsent, horigins⟩
  rcases List.map_eq_singleton_iff.mp hforwarders with ⟨f, hf, hfields⟩
  simp only [Prod.mk.injEq] at hfields
  rcases hfields with ⟨hchannel, hnext, hsnapshot⟩
  refine ⟨s, f, hrun, by simp [hf], ?_⟩
  intro hnogap
  rcases hnogap "BTCUSDT" 0 hchannel hsnapshot with ⟨snapshot, pre, post, _, hsplit, hall⟩
  rcases hall orderDelta hemitted [] [(100, 5)] rfl (by decide) with hin | ⟨n, hn, hwhere⟩
  · rw [hflight] at hin
    cases hin
  · have hlt := (List.getElem?_eq_some_iff.mp hn).1
    rw [hchannel, hsent, List.length_singleton] at hlt
    rcases hwhere with hle | hmem
    · omega
    · -- nothing that is queued was published
      have hqueued : Outbound.frame (diffFrame "BTCUSDT" [] [(100, 5)] orderDelta.seq)
          (some (f.channel, n)) ∈ s.feed.conn.queue := by
        rw [hsplit]
        exact List.mem_append_right _ (List.mem_cons_of_mem _ hmem)
      have horigin := List.mem_map_of_mem (f := Outbound.origin) hqueued
      rw [horigins] at horigin
      simp [Outbound.origin] at horigin

/-- The order comes to rest after the channel is joined. -/
def restAfterJoin : List LiveOp :=
  subscribeDiffs ++ [.fetched true, .feed .join, .feed (.advance 0)] ++ restOrder ++
    [.feed (.forward 0)]

theorem delta_after_join : ∃ s f,
    run (step 10 id) (start Server.emptyEngine (.start .new none)) restAfterJoin = some s ∧
    f ∈ s.feed.conn.forwarders ∧ f.snapshot = some 0 ∧ orderDelta ∈ s.emitted ∧
    s.inFlight = [] ∧ s.NoGap f := by
  have hview : (run (step 10 id) (start Server.emptyEngine (.start .new none)) restAfterJoin).map
      diffView = some ⟨true, [(.bookDiff "BTCUSDT", 1, some 0)], [],
        [diffFrame "BTCUSDT" [] [(100, 5)] 3], [none, none, some (.bookDiff "BTCUSDT", 0)]⟩ := by
    decide +kernel
  have htested : Machine.checkAlong (step 10 id) (fun s op => decide (s.Timely op))
      (start Server.emptyEngine (.start .new none)) restAfterJoin = true := by decide +kernel
  rcases Option.map_eq_some_iff.mp hview with ⟨s, hrun, hseen⟩
  simp only [diffView, DiffView.mk.injEq, decide_eq_true_eq] at hseen
  rcases hseen with ⟨hemitted, hforwarders, hflight, _, _⟩
  rcases List.map_eq_singleton_iff.mp hforwarders with ⟨f, hf, hfields⟩
  simp only [Prod.mk.injEq] at hfields
  have hok : Along (step 10 id) Timely (start Server.emptyEngine (.start .new none))
      restAfterJoin :=
    Machine.along_of_check (fun _ _ hcheck => of_decide_eq_true hcheck) htested
  have hmem : f ∈ s.feed.conn.forwarders := by simp [hf]
  exact ⟨s, f, hrun, hmem, hfields.2.2, hemitted, hflight, no_gap hok hrun f hmem⟩

end Live

end CryptoCex.Ws
