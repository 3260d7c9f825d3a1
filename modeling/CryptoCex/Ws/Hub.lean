import CryptoCex.Proto.Types
import Mathlib.Logic.Function.Basic

/-!
# The hub

`hub.rs` turns engine events into frames and publishes each on its channel. A channel keeps what
is sent to it for its receivers; the diffs of a book also go into a buffer from which clients
that come back are served.

`sent_input` says what an input adds to each channel, and nothing else is used of the hub's
functions later.
-/

namespace CryptoCex.Ws

open CryptoCex.Core (Decimal Uuid)
open Proto (CancelReason EngineEvent OrderSide PriceLevel SequencedEngineEvent TradeFill)

/-! ## Channels and frames -/

/-- Names of channels. -/
inductive Channel where
  /-- `book.<symbol>.diff` -/
  | bookDiff (symbol : String)
  /-- `book.<symbol>.snapshot`; nothing is published there. -/
  | bookSnapshot (symbol : String)
  /-- `trade.<symbol>` -/
  | trade (symbol : String)
  /-- `ticker.<symbol>` -/
  | ticker (symbol : String)
  | tickerAll
  | userOrders
  | userFills
  | userBalances
  | other (name : String)
deriving DecidableEq, Repr

/-- What becomes of an order in a frame of `user.orders`. -/
inductive OrderUpdate where
  | new
  | canceled (reason : CancelReason)
deriving DecidableEq, Repr

/-- The statistics of a market over 24 hours. -/
structure TickerItem where
  symbol : String
  lastPrice : Option Decimal
  open24h : Option Decimal
  high24h : Option Decimal
  low24h : Option Decimal
  volume24h : Option Decimal
  priceChangePct : Option Decimal
deriving DecidableEq, Repr

inductive FrameData where
  | book (bids asks : List PriceLevel) (seq : ℕ)
  | trade (id : Uuid) (price qty : Decimal) (side : OrderSide) (ts : String)
  | order (orderId : Uuid) (update : OrderUpdate)
  | fill (tradeId : Uuid) (symbol : String) (takerOrderId makerOrderId : Uuid)
      (price qty : Decimal) (takerSide : OrderSide) (ts : String)
  | balance (userId : Uuid) (asset available locked : String)
  | ticker (items : List TickerItem)
deriving DecidableEq, Repr

/-- A frame of a channel. The frames of tickers have no number. -/
structure WsFrame where
  channel : Channel
  seq : Option ℕ
  data : FrameData
deriving DecidableEq, Repr

/-- An entry of the replay buffer. -/
structure ReplayEntry where
  /-- When it was captured, in milliseconds. -/
  capturedAt : ℕ
  frame : WsFrame
  /-- History: the position of the frame in its channel. -/
  position : ℕ
deriving DecidableEq, Repr

structure Hub where
  /-- Everything sent to a channel. A channel without subscribers drops what it is sent; those
  who subscribe later do not see it either way. -/
  sent : Channel → List WsFrame
  /-- The diffs of the last minute. -/
  replay : Channel → List ReplayEntry

/-- `REPLAY_WINDOW` -/
def replayWindow : ℕ := 60000

/-- `CHANNEL_CAPACITY` -/
def channelCapacity : ℕ := 256

/-! ## Publishing -/

/-- What reaches the hub. -/
inductive Input where
  | event (e : SequencedEngineEvent)
  | balanceUpdate (userId : Uuid) (asset available locked : String) (seq : ℕ)
  | tickers (items : List TickerItem)
deriving DecidableEq, Repr

namespace Hub

def new : Hub where
  sent := fun _ => []
  replay := fun _ => []

def publish (hub : Hub) (channel : Channel) (frame : WsFrame) : Hub :=
  { hub with sent := Function.update hub.sent channel (hub.sent channel ++ [frame]) }

def publishWithReplay (hub : Hub) (now : ℕ) (channel : Channel) (frame : WsFrame) : Hub :=
  { hub.publish channel frame with
    replay := Function.update hub.replay channel
      ((hub.replay channel).filter (fun e => now - e.capturedAt < replayWindow) ++
        [⟨now, frame, (hub.sent channel).length⟩]) }

/-- The buffered diffs, or `none` if the client has to start from a snapshot. The number the
client last saw is compared with the count of the buffered diffs. -/
def replayDiffs (hub : Hub) (now : ℕ) (symbol : String) (afterSeq : ℕ) :
    Option (List ReplayEntry) :=
  match hub.replay (.bookDiff symbol) with
  -- Once there was a diff, the buffer holds the last one.
  | [] => none
  | entries =>
    let recent := entries.filter fun e => now - e.capturedAt < replayWindow
    if afterSeq > recent.length then none else some recent

def onBookDelta (hub : Hub) (now : ℕ) (symbol : String) (bids asks : List PriceLevel) (seq : ℕ) :
    Hub :=
  hub.publishWithReplay now (.bookDiff symbol) ⟨.bookDiff symbol, some seq, .book bids asks seq⟩

def onFill (hub : Hub) (fill : TradeFill) (seq : ℕ) : Hub :=
  (hub.publish (.trade fill.symbol) ⟨.trade fill.symbol, some seq,
      .trade fill.tradeId fill.price fill.quantity fill.takerSide fill.ts⟩).publish .userFills
    ⟨.userFills, some seq, .fill fill.tradeId fill.symbol fill.takerOrderId fill.makerOrderId
      fill.price fill.quantity fill.takerSide fill.ts⟩

def onOrderAcceptedEvent (hub : Hub) (orderId : Uuid) (seq : ℕ) : Hub :=
  hub.publish .userOrders ⟨.userOrders, some seq, .order orderId .new⟩

def onOrderCanceledEvent (hub : Hub) (orderId : Uuid) (reason : CancelReason) (seq : ℕ) : Hub :=
  hub.publish .userOrders ⟨.userOrders, some seq, .order orderId (.canceled reason)⟩

def dispatch (hub : Hub) (now : ℕ) (e : SequencedEngineEvent) : Hub :=
  match e.event with
  | .bookDelta symbol bids asks => hub.onBookDelta now symbol bids asks e.seq
  | .fill fill => hub.onFill fill e.seq
  | .orderAccepted order => hub.onOrderAcceptedEvent order.id e.seq
  | .orderCanceled orderId reason => hub.onOrderCanceledEvent orderId reason e.seq
  | .orderRested _ _ | .marketStatus _ _ => hub

def publishBalanceUpdate (hub : Hub) (userId : Uuid) (asset available locked : String)
    (seq : ℕ) : Hub :=
  hub.publish .userBalances ⟨.userBalances, some seq, .balance userId asset available locked⟩

def publishTicker (hub : Hub) (items : List TickerItem) : Hub :=
  let each := items.foldl
    (fun hub item => hub.publish (.ticker item.symbol) ⟨.ticker item.symbol, none, .ticker [item]⟩)
    hub
  if items = [] then each else each.publish .tickerAll ⟨.tickerAll, none, .ticker items⟩

def take (hub : Hub) (now : ℕ) : Input → Hub
  | .event e => hub.dispatch now e
  | .balanceUpdate userId asset available locked seq =>
    hub.publishBalanceUpdate userId asset available locked seq
  | .tickers items => hub.publishTicker items

end Hub

/-! ## What an input adds -/

/-- The frames of an event, each for the channel it names. -/
def eventFrames (e : SequencedEngineEvent) : List WsFrame :=
  match e.event with
  | .bookDelta symbol bids asks => [⟨.bookDiff symbol, some e.seq, .book bids asks e.seq⟩]
  | .fill fill =>
    [⟨.trade fill.symbol, some e.seq,
        .trade fill.tradeId fill.price fill.quantity fill.takerSide fill.ts⟩,
      ⟨.userFills, some e.seq, .fill fill.tradeId fill.symbol fill.takerOrderId fill.makerOrderId
        fill.price fill.quantity fill.takerSide fill.ts⟩]
  | .orderAccepted order => [⟨.userOrders, some e.seq, .order order.id .new⟩]
  | .orderCanceled orderId reason => [⟨.userOrders, some e.seq, .order orderId (.canceled reason)⟩]
  | .orderRested _ _ | .marketStatus _ _ => []

def Input.frames : Input → List WsFrame
  | .event e => eventFrames e
  | .balanceUpdate userId asset available locked seq =>
    [⟨.userBalances, some seq, .balance userId asset available locked⟩]
  | .tickers items =>
    items.map (fun item => ⟨.ticker item.symbol, none, .ticker [item]⟩) ++
      if items = [] then [] else [⟨.tickerAll, none, .ticker items⟩]

/-- The frames of an input for a channel. -/
def Input.framesOn (i : Input) (channel : Channel) : List WsFrame :=
  i.frames.filter fun frame => frame.channel = channel

namespace Hub

variable {hub : Hub} {now : ℕ} {channel c : Channel} {frame : WsFrame}

/-- A frame is sent on its own channel. -/
theorem sent_publish : (hub.publish channel frame).sent c =
    hub.sent c ++ if channel = c then [frame] else [] := by
  show Function.update hub.sent channel (hub.sent channel ++ [frame]) c = _
  rw [Function.update_apply]
  by_cases h : c = channel
  · rw [if_pos h, if_pos h.symm, h]
  · rw [if_neg h, if_neg (Ne.symm h), List.append_nil]

theorem sent_publishWithReplay : (hub.publishWithReplay now channel frame).sent c =
    hub.sent c ++ if channel = c then [frame] else [] := sent_publish

/-- The tickers of the single markets. -/
theorem sent_tickers (items : List TickerItem) (hub : Hub) :
    (items.foldl (fun hub item =>
      hub.publish (.ticker item.symbol) ⟨.ticker item.symbol, none, .ticker [item]⟩) hub).sent c =
    hub.sent c ++
      (items.map fun item => (⟨.ticker item.symbol, none, .ticker [item]⟩ : WsFrame)).filter
        fun frame => frame.channel = c := by
  induction items generalizing hub with
  | nil => simp
  | cons item items ih =>
    rw [List.foldl_cons, ih, sent_publish, List.append_assoc, List.map_cons, List.filter_cons]
    by_cases h : Channel.ticker item.symbol = c <;> simp [h]

/-- What an input adds to a channel. -/
theorem sent_take (hub : Hub) (now : ℕ) (i : Input) (c : Channel) :
    (hub.take now i).sent c = hub.sent c ++ i.framesOn c := by
  cases i with
  | event e =>
    simp only [take, dispatch, Input.framesOn, Input.frames, eventFrames]
    cases e.event with
    | bookDelta symbol bids asks =>
      simp [onBookDelta, sent_publishWithReplay, List.filter_cons]
    | fill fill =>
      simp only [onFill, sent_publish, List.filter_cons, List.append_assoc, List.filter_nil,
        decide_eq_true_eq]
      split_ifs <;> rfl
    | orderAccepted order => simp [onOrderAcceptedEvent, sent_publish, List.filter_cons]
    | orderCanceled orderId reason => simp [onOrderCanceledEvent, sent_publish, List.filter_cons]
    | orderRested | marketStatus => simp
  | balanceUpdate userId asset available locked seq =>
    simp [take, publishBalanceUpdate, Input.framesOn, Input.frames, sent_publish, List.filter_cons]
  -- each ticker on a channel of its own, and all of them on one
  | tickers items =>
    simp only [take, publishTicker, Input.framesOn, Input.frames]
    by_cases h : items = []
    · rw [if_pos h, if_pos h, sent_tickers, List.append_nil]
    · rw [if_neg h, if_neg h, sent_publish, sent_tickers, List.append_assoc, List.filter_append]
      simp [List.filter_cons]

/-! ## The replay buffer -/

/-- What is sent later leaves the earlier frames where they are. -/
theorem getElem?_append_of_eq {α : Type} {l l' : List α} {n : ℕ} {a : α} (h : l[n]? = some a) :
    (l ++ l')[n]? = some a := by
  rw [List.getElem?_append_left (List.getElem?_eq_some_iff.mp h).1]
  exact h

/-- The buffer holds frames of its channel, in the order in which they were sent. -/
structure Recorded (hub : Hub) : Prop where
  ordered : ∀ c, ((hub.replay c).map (·.position)).Pairwise (· < ·)
  sent : ∀ c, ∀ e ∈ hub.replay c, (hub.sent c)[e.position]? = some e.frame

/-- Nothing is in the buffers of a new hub. -/
theorem recorded_new : Recorded new where
  ordered := fun _ => List.Pairwise.nil
  sent := by
    intro c e he
    cases he

theorem Recorded.publish (h : Recorded hub) : Recorded (hub.publish channel frame) where
  ordered := h.ordered
  sent := by
    intro c e he
    rw [sent_publish]
    exact getElem?_append_of_eq (h.sent c e he)

/-- What is too old is dropped, and the new frame comes last. -/
theorem Recorded.publishWithReplay (h : Recorded hub) :
    Recorded (hub.publishWithReplay now channel frame) := by
  have hreplay : ∀ c, (hub.publishWithReplay now channel frame).replay c =
      if c = channel then
        (hub.replay channel).filter (fun e => now - e.capturedAt < replayWindow) ++
          [⟨now, frame, (hub.sent channel).length⟩]
      else hub.replay c := fun c => Function.update_apply _ _ _ c
  have hlt : ∀ e ∈ hub.replay channel, e.position < (hub.sent channel).length := by
    intro e he
    exact (List.getElem?_eq_some_iff.mp (h.sent channel e he)).1
  -- the order of the buffer, and its agreement with what was sent
  refine ⟨?_, ?_⟩
  · intro c
    rw [hreplay]
    split_ifs
    · rw [List.map_append, List.pairwise_append]
      refine ⟨(h.ordered channel).sublist (List.filter_sublist.map _), by simp, ?_⟩
      intro n hn m hm
      rcases List.mem_map.mp hn with ⟨e, he, rfl⟩
      cases List.mem_singleton.mp hm
      exact hlt e (List.mem_filter.mp he).1
    · exact h.ordered c
  · intro c e he
    rw [hreplay] at he
    rw [sent_publishWithReplay]
    split_ifs at he with heq
    · rw [heq, if_pos rfl]
      rcases List.mem_append.mp he with hold | hnew
      · exact getElem?_append_of_eq (h.sent channel e (List.mem_filter.mp hold).1)
      · cases List.mem_singleton.mp hnew
        simp
    · exact getElem?_append_of_eq (h.sent c e he)

/-- Every input keeps the buffers as they should be. -/
theorem Recorded.take (h : Recorded hub) (now : ℕ) (i : Input) : Recorded (hub.take now i) := by
  cases i with
  | event e =>
    simp only [Hub.take, dispatch]
    split
    · exact h.publishWithReplay
    · exact h.publish.publish
    · exact h.publish
    · exact h.publish
    · exact h
    · exact h
  | balanceUpdate => exact h.publish
  | tickers items =>
    -- no ticker is buffered
    have hitems : ∀ (items : List TickerItem) (hub : Hub), Recorded hub →
        Recorded (items.foldl (fun hub item => hub.publish (.ticker item.symbol)
          ⟨.ticker item.symbol, none, .ticker [item]⟩) hub) := by
      intro items
      induction items with
      | nil => exact fun _ h => h
      | cons item items ih => exact fun hub h => ih _ h.publish
    simp only [Hub.take, publishTicker]
    split_ifs
    · exact hitems items hub h
    · exact (hitems items hub h).publish

/-- What is replayed was in the buffer. -/
theorem mem_replayDiffs {symbol : String} {afterSeq : ℕ} {entries : List ReplayEntry}
    (h : hub.replayDiffs now symbol afterSeq = some entries) :
    entries.Sublist (hub.replay (.bookDiff symbol)) := by
  unfold replayDiffs at h
  split at h
  · cases h
  · dsimp only at h
    split_ifs at h
    cases h
    exact List.filter_sublist

end Hub

end CryptoCex.Ws
