import CryptoCex.Server.EventStream
import CryptoCex.Ws.Feed

/-!
# The web client

`ws-client.ts` hands the data of a frame to the handlers of its channel. The client takes a frame
for a gap if its number is not the last number of the channel plus one: then it calls no handler,
and unsubscribes and subscribes again.

The engine numbers all its events with one counter, so the numbers of a channel have holes where
other events come between (`second_trade_dropped`). Every frame is dispatched exactly if the
numbers of the channel follow one another (`lossless_iff`), which means for the events of the
engine that all events between two of the channel are of the channel too (`successive_iff`).
-/

namespace CryptoCex.Web

open Server (Numbered u64Max)
open Ws (Channel ClientMessage FrameData Input Outbound WsFrame)

/-- The number that a numeral stands for in JavaScript: the nearest double, and the even one of
two. -/
def jsNumber (n : ℕ) : ℕ :=
  let unit := 2 ^ (n.log2 - 52)
  let quotient := n / unit
  let rest := n % unit
  if 2 * rest < unit ∨ 2 * rest = unit ∧ quotient % 2 = 0 then quotient * unit
  else (quotient + 1) * unit

/-- Doubles count up to here. -/
theorem jsNumber_of_le {n : ℕ} (h : n ≤ 2 ^ 53) : jsNumber n = n := by
  rcases Nat.lt_or_eq_of_le h with hlt | rfl
  · have hlog : n.log2 - 52 = 0 := by
      have hbits : n.log2 < 53 := by
        rcases Nat.eq_zero_or_pos n with rfl | hpos
        · decide
        · exact (Nat.log2_lt (Nat.ne_of_gt hpos)).mpr hlt
      omega
    unfold jsNumber
    rw [hlog]
    simp [Nat.mod_one]
  · decide

/-- A handler of a channel has been called. -/
structure Call where
  channel : Channel
  handler : ℕ
  payload : FrameData
deriving DecidableEq, Repr

structure Client where
  /-- `handlersRef` -/
  handlers : Channel → Option (List ℕ)
  /-- `seqRef` -/
  seqs : Channel → Option ℕ
  /-- `requestIdRef` -/
  requestId : ℕ
  /-- What was sent to the server. -/
  sent : List ClientMessage
  /-- History: the calls of handlers. -/
  calls : List Call

/-- The frames of a snapshot go to the handlers of the diffs. -/
def dispatchChannel : Channel → Channel
  | .bookSnapshot symbol => .bookDiff symbol
  | channel => channel

namespace Client

variable {s t : Client} {c : Channel}

/-- What a frame brings about at the handlers of a channel. -/
def callsFor (s : Client) (channel : Channel) (payload : FrameData) : List Call :=
  ((s.handlers channel).getD []).map fun handler => ⟨channel, handler, payload⟩

def dispatch (s : Client) (channel : Channel) (payload : FrameData) : Client :=
  { s with calls := s.calls ++ s.callsFor channel payload }

def setSeq (s : Client) (channel : Channel) (seq : Option ℕ) : Client :=
  { s with seqs := Function.update s.seqs channel seq }

/-- What the client does about a gap. -/
def resubscribe (s : Client) (channel : Channel) (lastSeq : ℕ) : Client :=
  { s.setSeq channel none with
    requestId := s.requestId + 2
    sent := s.sent ++
      [.unsubscribe (some ("ws-" ++ toString (s.requestId + 1))) [channel],
        .subscribe (some ("ws-" ++ toString (s.requestId + 2))) [channel] (some lastSeq)] }

/-- `onmessage`. Only frames have a channel. -/
def onMessage (s : Client) : Outbound → Client
  | .frame frame _ =>
    let channel := dispatchChannel frame.channel
    match frame.seq.map jsNumber with
    | none => s.dispatch channel frame.data
    | some seq =>
      match s.seqs channel with
      | none => (s.setSeq channel (some seq)).dispatch channel frame.data
      | some lastSeq =>
        if seq ≠ jsNumber (lastSeq + 1) then s.resubscribe channel lastSeq
        else (s.setSeq channel (some seq)).dispatch channel frame.data
  | .notice _ _ | .pong _ _ | .channels _ _ | .error _ _ _ => s

def onMessages (s : Client) (msgs : List Outbound) : Client := msgs.foldl onMessage s

end Client

/-- The frame among the messages that go to the handlers of the channel. -/
def frameOn (c : Channel) : Outbound → Option WsFrame
  | .frame frame _ => if dispatchChannel frame.channel = c then some frame else none
  | .notice _ _ | .pong _ _ | .channels _ _ | .error _ _ _ => none

def framesOn (c : Channel) (msgs : List Outbound) : List WsFrame := msgs.filterMap (frameOn c)

/-- The message to the server is about the channel. -/
def concerns (c : Channel) : ClientMessage → Bool
  | .subscribe _ channels _ | .unsubscribe _ channels => c ∈ channels
  | .invalid | .ping _ | .unknown _ _ => false

namespace Client

variable {s t : Client} {c : Channel}

def callsOn (s : Client) (c : Channel) : List Call := s.calls.filter fun call => call.channel = c

def sentOn (s : Client) (c : Channel) : List ClientMessage := s.sent.filter (concerns c)

/-- The handlers of the channel are called for every frame, in order, and none of the frames is
taken for a gap. -/
structure Lossless (c : Channel) (frames : List WsFrame) (s t : Client) : Prop where
  called : t.callsOn c = s.callsOn c ++ frames.flatMap fun frame => s.callsFor c frame.data
  sent : t.sentOn c = s.sentOn c

/-! ## One message -/

/-- The number of the frame is the next one, or there is nothing to compare. -/
def InTurn (last : Option ℕ) (frame : WsFrame) : Prop :=
  ∀ n ∈ frame.seq, ∀ lastSeq ∈ last, jsNumber n = jsNumber (lastSeq + 1)

instance (last : Option ℕ) (frame : WsFrame) : Decidable (InTurn last frame) :=
  inferInstanceAs (Decidable (∀ n ∈ frame.seq, _))

/-- The last number of the channel after a frame. -/
def lastAfter (last : Option ℕ) (frame : WsFrame) : Option ℕ :=
  match frame.seq with
  | some n => some (jsNumber n)
  | none => last

theorem Lossless.refl (c : Channel) (s : Client) : Lossless c [] s s :=
  ⟨(List.append_nil _).symm, rfl⟩

/-- After the first frames were dispatched it is up to the others. -/
theorem Lossless.append_iff {s' : Client} {frames later : List WsFrame}
    (h : Lossless c frames s s') (hhandlers : s'.handlers = s.handlers) :
    Lossless c (frames ++ later) s t ↔ Lossless c later s' t := by
  have hcalls : s'.callsOn c ++ later.flatMap (fun frame => s'.callsFor c frame.data) =
      s.callsOn c ++ (frames ++ later).flatMap fun frame => s.callsFor c frame.data := by
    unfold callsFor
    rw [hhandlers, h.called, List.flatMap_append, List.append_assoc]
    rfl
  constructor
  · intro hall
    exact ⟨hall.called.trans hcalls.symm, hall.sent.trans h.sent.symm⟩
  · intro hlater
    exact ⟨hlater.called.trans hcalls, hlater.sent.trans h.sent⟩

/-- Dispatching a payload calls the handlers of its channel, and those only. -/
theorem callsOn_dispatch (s : Client) (channel c : Channel) (payload : FrameData) :
    (s.dispatch channel payload).callsOn c =
      s.callsOn c ++ if channel = c then s.callsFor channel payload else [] := by
  show (s.calls ++ s.callsFor channel payload).filter _ = _
  rw [List.filter_append]
  refine congrArg _ ?_
  unfold callsFor
  rw [List.filter_map]
  by_cases h : channel = c
  · rw [if_pos h]
    refine congrArg _ (List.filter_eq_self.mpr ?_)
    intro handler _
    exact decide_eq_true h
  · rw [if_neg h, List.map_eq_nil_iff, List.filter_eq_nil_iff]
    intro handler _
    simpa using h

/-- A resubscription sends two messages on its channel. -/
theorem sentOn_resubscribe (s : Client) (channel c : Channel) (lastSeq : ℕ) :
    ((s.resubscribe channel lastSeq).sentOn c).length =
      (s.sentOn c).length + if channel = c then 2 else 0 := by
  unfold sentOn resubscribe
  rw [List.filter_append, List.length_append]
  refine congrArg _ ?_
  by_cases h : channel = c
  · simp [concerns, h]
  · simp [concerns, h, Ne.symm h]

/-- The two ways in which a frame is taken. -/
theorem onMessage_frame (s : Client) (frame : WsFrame) (origin : Option (Channel × ℕ)) :
    let channel := dispatchChannel frame.channel
    (InTurn (s.seqs channel) frame ∧ s.onMessage (.frame frame origin) =
      (s.setSeq channel (lastAfter (s.seqs channel) frame)).dispatch channel frame.data) ∨
    (¬InTurn (s.seqs channel) frame ∧ ∃ lastSeq,
      s.onMessage (.frame frame origin) = s.resubscribe channel lastSeq) := by
  intro channel
  rcases frame with ⟨name, _ | n, data⟩
  · -- a frame without a number
    refine .inl ⟨fun _ h => (by cases h), ?_⟩
    have hseq : s.setSeq channel (lastAfter (s.seqs channel) ⟨name, none, data⟩) = s :=
      congrArg (fun seqs => { s with seqs := seqs }) (Function.update_eq_self channel s.seqs)
    rw [hseq]
    rfl
  · cases hlast : s.seqs channel with
    -- the first number on the channel
    | none =>
      refine .inl ⟨fun _ _ _ h => (by cases h), ?_⟩
      simp only [onMessage, Option.map_some]
      rw [hlast]
      rfl
    | some lastSeq =>
      have hturn : InTurn (some lastSeq) ⟨name, some n, data⟩ ↔
          jsNumber n = jsNumber (lastSeq + 1) := by
        simp [InTurn]
      rw [hturn]
      simp only [onMessage, Option.map_some]
      rw [hlast]
      -- from the second on the number is compared, after rounding to a double
      by_cases h : jsNumber n = jsNumber (lastSeq + 1)
      · refine .inl ⟨h, ?_⟩
        simp only [ne_eq, h, not_true_eq_false, if_false]
        rw [← h]
        rfl
      · refine .inr ⟨h, lastSeq, ?_⟩
        simp only [ne_eq, h, not_false_eq_true, if_true]
        rfl

/-- A message of the channel is a frame that is dispatched to it. -/
theorem frameOn_eq_some {msg : Outbound} {frame : WsFrame} (h : frameOn c msg = some frame) :
    dispatchChannel frame.channel = c ∧ ∃ origin, msg = .frame frame origin := by
  cases msg with
  | frame f origin =>
    by_cases hc : dispatchChannel f.channel = c
    · rw [frameOn, if_pos hc] at h
      cases h
      exact ⟨hc, origin, rfl⟩
    · rw [frameOn, if_neg hc] at h
      cases h
  | notice | pong | channels | error => cases h

/-- A message that has no frame of the channel leaves what belongs to the channel alone. -/
theorem onMessage_other {msg : Outbound} (h : frameOn c msg = none) :
    (s.onMessage msg).seqs c = s.seqs c ∧ (s.onMessage msg).handlers = s.handlers ∧
    Lossless c [] s (s.onMessage msg) := by
  cases msg with
  | frame frame origin =>
    have hc : dispatchChannel frame.channel ≠ c := by
      intro hc
      simp [frameOn, hc] at h
    rcases s.onMessage_frame frame origin with ⟨_, heq⟩ | ⟨_, lastSeq, heq⟩
    · rw [heq]
      refine ⟨Function.update_of_ne (Ne.symm hc) _ _, rfl, ?_, rfl⟩
      rw [callsOn_dispatch, if_neg hc]
      rfl
    · rw [heq]
      refine ⟨Function.update_of_ne (Ne.symm hc) _ _, rfl, (List.append_nil _).symm, ?_⟩
      unfold sentOn resubscribe
      rw [List.filter_append]
      simp [concerns, Ne.symm hc]
  | notice | pong | channels | error => exact ⟨rfl, rfl, .refl c s⟩

/-- A frame whose turn it is goes to the handlers. -/
theorem onMessage_inTurn {msg : Outbound} {frame : WsFrame} (h : frameOn c msg = some frame)
    (hturn : InTurn (s.seqs c) frame) :
    (s.onMessage msg).seqs c = lastAfter (s.seqs c) frame ∧
    (s.onMessage msg).handlers = s.handlers ∧
    Lossless c [frame] s (s.onMessage msg) := by
  rcases frameOn_eq_some h with ⟨rfl, origin, rfl⟩
  rcases s.onMessage_frame frame origin with ⟨_, heq⟩ | ⟨hgap, _⟩
  · rw [heq]
    refine ⟨Function.update_self _ _ _, rfl, ?_, rfl⟩
    rw [callsOn_dispatch, if_pos rfl, List.flatMap_singleton]
    rfl
  · exact absurd hturn hgap

/-- The client goes on asking. -/
theorem sentOn_onMessage (s : Client) (msg : Outbound) (c : Channel) :
    (s.sentOn c).length ≤ ((s.onMessage msg).sentOn c).length := by
  cases msg with
  | frame frame origin =>
    rcases s.onMessage_frame frame origin with ⟨_, heq⟩ | ⟨_, lastSeq, heq⟩
    · rw [heq]
      exact Nat.le_refl _
    · rw [heq, sentOn_resubscribe]
      exact Nat.le_add_right _ _
  | notice | pong | channels | error => exact Nat.le_refl _

/-- A frame whose turn it is not is taken for a gap. -/
theorem sentOn_gap {msg : Outbound} {frame : WsFrame} (h : frameOn c msg = some frame)
    (hgap : ¬InTurn (s.seqs c) frame) :
    (s.sentOn c).length < ((s.onMessage msg).sentOn c).length := by
  rcases frameOn_eq_some h with ⟨rfl, origin, rfl⟩
  rcases s.onMessage_frame frame origin with ⟨hturn, _⟩ | ⟨_, lastSeq, heq⟩
  · exact absurd hturn hgap
  · rw [heq, sentOn_resubscribe, if_pos rfl]
    omega

/-! ## All messages -/

/-- Every frame comes in its turn. -/
def AllInTurn : Option ℕ → List WsFrame → Prop
  | _, [] => True
  | last, frame :: frames => InTurn last frame ∧ AllInTurn (lastAfter last frame) frames

/-- Messages are only added to what was sent. -/
theorem sentOn_onMessages (s : Client) (msgs : List Outbound) (c : Channel) :
    (s.sentOn c).length ≤ ((s.onMessages msgs).sentOn c).length := by
  induction msgs generalizing s with
  | nil => exact Nat.le_refl _
  | cons msg msgs ih => exact (s.sentOn_onMessage msg c).trans (ih (s.onMessage msg))

/-- A run of frames loses nothing if and only if each is in turn. -/
theorem lossless_iff_allInTurn (s : Client) (c : Channel) (msgs : List Outbound) :
    Lossless c (framesOn c msgs) s (s.onMessages msgs) ↔
      AllInTurn (s.seqs c) (framesOn c msgs) := by
  induction msgs generalizing s with
  | nil =>
    refine iff_of_true ⟨?_, rfl⟩ trivial
    exact (List.append_nil _).symm
  | cons msg msgs ih =>
    have hrun : s.onMessages (msg :: msgs) = (s.onMessage msg).onMessages msgs := rfl
    cases hframe : frameOn c msg with
    | none =>
      have hframes : framesOn c (msg :: msgs) = framesOn c msgs := List.filterMap_cons_none hframe
      rcases onMessage_other (s := s) hframe with ⟨hseqs, hhandlers, hnone⟩
      rw [hrun, hframes, ← hseqs, ← ih (s.onMessage msg)]
      exact hnone.append_iff hhandlers
    | some frame =>
      have hframes : framesOn c (msg :: msgs) = frame :: framesOn c msgs :=
        List.filterMap_cons_some hframe
      rw [hrun, hframes]
      -- a frame out of turn is not dispatched, and a resubscription is sent that nothing takes
      -- back
      by_cases hturn : InTurn (s.seqs c) frame
      · rcases onMessage_inTurn hframe hturn with ⟨hseqs, hhandlers, hone⟩
        have hrest := ih (s.onMessage msg)
        rw [hseqs] at hrest
        exact (hone.append_iff hhandlers).trans (hrest.trans (and_iff_right hturn).symm)
      · refine iff_of_false ?_ fun hall => hturn hall.1
        intro hlossless
        have hgap := sentOn_gap hframe hturn
        have hafter := (s.onMessage msg).sentOn_onMessages msgs c
        rw [hlossless.sent] at hafter
        omega

/-! ## The numbers of a channel -/

/-- The numbers of the frames of a channel. -/
def numbersOn (c : Channel) (inputs : List Input) : List ℕ :=
  (inputs.flatMap fun i => i.framesOn c).filterMap (·.seq)

/-- Each number is the one before it plus one, in the arithmetic of JavaScript. The first one
follows on the number the client has, if there is one. -/
def Successive (last : Option ℕ) (numbers : List ℕ) : Prop :=
  List.IsChain (fun a b => b = jsNumber (a + 1)) (last.toList ++ numbers.map jsNumber)

/-- The frames are in turn if their numbers follow one another, those without one apart. -/
theorem allInTurn_iff (last : Option ℕ) (frames : List WsFrame) :
    AllInTurn last frames ↔ Successive last (frames.filterMap (·.seq)) := by
  induction frames generalizing last with
  | nil =>
    refine iff_of_true trivial ?_
    cases last with
    | none => exact .nil
    | some n => exact .singleton n
  | cons frame frames ih =>
    rcases frame with ⟨channel, _ | n, data⟩
    · -- a frame without a number is always in turn
      exact (and_iff_right fun _ h => by cases h).trans (ih last)
    · have hrest : Successive (some (jsNumber n)) (frames.filterMap (·.seq)) ↔
          List.IsChain (fun a b => b = jsNumber (a + 1))
            (jsNumber n :: (frames.filterMap (·.seq)).map jsNumber) := Iff.rfl
      have hall : AllInTurn last (⟨channel, some n, data⟩ :: frames) ↔
          (∀ lastSeq ∈ last, jsNumber n = jsNumber (lastSeq + 1)) ∧
            Successive (some (jsNumber n)) (frames.filterMap (·.seq)) := by
        rw [← ih]
        simp [AllInTurn, InTurn, lastAfter]
      rw [hall, hrest]
      cases last with
      | none => simp [Successive]
      | some lastSeq => simp [Successive, List.isChain_cons_cons]

/-- The client is delivered all frames of a channel, in order and once each. It hands every one of
them to the handlers and takes none for a gap exactly if their numbers follow one another. -/
theorem lossless_iff {inputs : List Input} {msgs : List Outbound}
    (hdelivered : framesOn c msgs = inputs.flatMap fun i => i.framesOn c) :
    Lossless c (inputs.flatMap fun i => i.framesOn c) s (s.onMessages msgs) ↔
      Successive (s.seqs c) (numbersOn c inputs) := by
  rw [← hdelivered, lossless_iff_allInTurn, allInTurn_iff, hdelivered]
  rfl

/-! ## The events of a channel -/

/-- The event has a frame on the channel. -/
def IsOn (c : Channel) (e : Proto.SequencedEngineEvent) : Prop := (Input.event e).framesOn c ≠ []

instance (c : Channel) : DecidablePred (IsOn c) := fun _ => inferInstanceAs (Decidable (_ ≠ _))

/-- An event has one frame on a channel, with the number of the event, or none. -/
theorem framesOn_event (c : Channel) (e : Proto.SequencedEngineEvent) :
    (Input.event e).framesOn c = [] ∨
      ∃ data, (Input.event e).framesOn c = [⟨c, some e.seq, data⟩] := by
  have hsingle : ∀ channel data, ([⟨channel, some e.seq, data⟩] : List WsFrame).filter
      (fun frame => frame.channel = c) = [] ∨
        ∃ data', ([⟨channel, some e.seq, data⟩] : List WsFrame).filter
          (fun frame => frame.channel = c) = [⟨c, some e.seq, data'⟩] := by
    intro channel data
    by_cases h : channel = c
    · exact .inr ⟨data, by simp [h]⟩
    · exact .inl (by simp [h])
  rcases e with ⟨seq, event⟩
  cases event with
  | fill fill =>
    -- a fill has two frames, on different channels
    by_cases htrade : Channel.trade fill.symbol = c
    · subst htrade
      refine .inr ⟨.trade fill.tradeId fill.price fill.quantity fill.takerSide fill.ts, ?_⟩
      simp [Input.framesOn, Input.frames, Ws.eventFrames]
    · have hfills : (Input.event ⟨seq, .fill fill⟩).framesOn c =
          [⟨.userFills, some seq, .fill fill.tradeId fill.symbol fill.takerOrderId
            fill.makerOrderId fill.price fill.quantity fill.takerSide fill.ts⟩].filter
              fun frame => frame.channel = c := by
        simp [Input.framesOn, Input.frames, Ws.eventFrames, List.filter_cons, htrade]
      rw [hfills]
      exact hsingle _ _
  | orderAccepted | orderCanceled | bookDelta => exact hsingle _ _
  | orderRested | marketStatus => exact .inl rfl

/-- The numbers of a channel are those of the events that it shows. -/
theorem numbersOn_events (c : Channel) (events : List Proto.SequencedEngineEvent) :
    numbersOn c (events.map .event) = (events.filter (IsOn c)).map (·.seq) := by
  induction events with
  | nil => rfl
  | cons e events ih =>
    have hone : ((Input.event e).framesOn c).filterMap (·.seq) =
        if IsOn c e then [e.seq] else [] := by
      rcases framesOn_event c e with hnone | ⟨data, hframe⟩
      · simp [IsOn, hnone]
      · simp [IsOn, hframe]
    have hsplit : numbersOn c ((e :: events).map .event) =
        ((Input.event e).framesOn c).filterMap (·.seq) ++ numbersOn c (events.map .event) := by
      unfold numbersOn
      rw [List.map_cons, List.flatMap_cons, List.filterMap_append]
    rw [hsplit, hone, ih, List.filter_cons]
    by_cases h : IsOn c e
    · simp [h]
    · simp [h]

/-- Every event between two events of the channel is of the channel. -/
def Unbroken (c : Channel) (events : List Proto.SequencedEngineEvent) : Prop :=
  ∀ e₁ ∈ events, ∀ e ∈ events, ∀ e₂ ∈ events, IsOn c e₁ → IsOn c e₂ →
    e₁.seq ≤ e.seq → e.seq ≤ e₂.seq → IsOn c e

/-- The events of a channel have no gap in their numbers if and only if no event of another channel
comes between two of them. -/
theorem unbroken_iff {n n' : ℕ} {events : List Proto.SequencedEngineEvent}
    (h : Numbered n events n') (hn : n' < u64Max) :
    List.IsChain (fun a b => b.seq = a.seq + 1) (events.filter (IsOn c)) ↔ Unbroken c events := by
  induction h with
  | nil => exact iff_of_true .nil (by simp [Unbroken])
  | @cons n n' first events hseq hrest ih =>
    have hlater : ∀ e ∈ events, first.seq < e.seq := by
      have hsorted := (Numbered.cons hseq hrest).pairwise hn
      exact (List.pairwise_cons.mp hsorted).1
    have hnot : ∀ e₁ ∈ events, ∀ e ∈ first :: events, e₁.seq ≤ e.seq → e ∈ events := by
      intro e₁ he₁ e he hle
      rcases List.mem_cons.mp he with rfl | hmem
      · exact absurd (hlater e₁ he₁) (Nat.not_lt.mpr hle)
      · exact hmem
    -- what the first event has no part in
    have hlift : Unbroken c events → ∀ e₁ ∈ events, ∀ e ∈ first :: events,
        ∀ e₂ ∈ first :: events, IsOn c e₁ → IsOn c e₂ → e₁.seq ≤ e.seq → e.seq ≤ e₂.seq →
          IsOn c e := by
      intro hunbroken e₁ he₁ e he e₂ he₂ hon₁ hon₂ hle hle'
      exact hunbroken e₁ he₁ e (hnot e₁ he₁ e he hle) e₂ (hnot e₁ he₁ e₂ he₂ (hle.trans hle'))
        hon₁ hon₂ hle hle'
    have hdrop : Unbroken c (first :: events) → Unbroken c events := by
      intro hunbroken e₁ he₁ e he e₂ he₂
      exact hunbroken e₁ (List.mem_cons_of_mem _ he₁) e (List.mem_cons_of_mem _ he) e₂
        (List.mem_cons_of_mem _ he₂)
    by_cases hon : IsOn c first
    · rw [List.filter_cons, if_pos (decide_eq_true hon), List.isChain_cons, ih hn]
      constructor
      · rintro ⟨hhead, hunbroken⟩ e₁ he₁ e he e₂ he₂ hon₁ hon₂ hle hle'
        rcases List.mem_cons.mp he₁ with rfl | hmem₁
        · rcases List.mem_cons.mp he with rfl | hmem
          · exact hon
          · -- the next event of the channel comes at once
            have hmem₂ := hnot e hmem e₂ he₂ hle'
            have hfound : e₂ ∈ events.filter (IsOn c) :=
              List.mem_filter.mpr ⟨hmem₂, decide_eq_true hon₂⟩
            cases hfilter : events.filter (IsOn c) with
            | nil =>
              rw [hfilter] at hfound
              cases hfound
            | cons next others =>
              have hnext := hhead next (by rw [hfilter]; rfl)
              have hnextMem : next ∈ events.filter (IsOn c) := by
                rw [hfilter]
                exact List.mem_cons_self
              rcases List.mem_filter.mp hnextMem with ⟨hmemNext, honNext⟩
              have hbefore := hlater e hmem
              exact hunbroken next hmemNext e hmem e₂ hmem₂ (of_decide_eq_true honNext) hon₂
                (by omega) hle'
        · exact hlift hunbroken e₁ hmem₁ e he e₂ he₂ hon₁ hon₂ hle hle'
      · intro hunbroken
        refine ⟨?_, hdrop hunbroken⟩
        intro next hnext
        have hfound := List.mem_filter.mp (List.mem_of_mem_head? hnext)
        have honNext : IsOn c next := of_decide_eq_true hfound.2
        have hnextLater := hlater next hfound.1
        cases hrest with
        | nil => cases hnext
        | @cons _ _ second events hsecond _ =>
          have hsecondLater := hlater second List.mem_cons_self
          have honSecond : IsOn c second :=
            hunbroken first List.mem_cons_self second (List.mem_cons_of_mem _ List.mem_cons_self)
              next (List.mem_cons_of_mem _ hfound.1) hon honNext (by omega) (by omega)
          rw [List.filter_cons, if_pos (decide_eq_true honSecond)] at hnext
          cases hnext
          omega
    · rw [List.filter_cons, if_neg (by simpa using hon), ih hn]
      constructor
      · intro hunbroken e₁ he₁ e he e₂ he₂ hon₁
        rcases List.mem_cons.mp he₁ with rfl | hmem₁
        · exact absurd hon₁ hon
        · exact hlift hunbroken e₁ hmem₁ e he e₂ he₂ hon₁
      · exact hdrop

/-- The numbers of a channel follow one another exactly if no event of another kind or market has
come between two events of the channel. -/
theorem successive_iff {n n' : ℕ} {events : List Proto.SequencedEngineEvent}
    (h : Numbered n events n') (hn : n' < 2 ^ 53) :
    Successive none (numbersOn c (events.map .event)) ↔ Unbroken c events := by
  have hmax : n' < u64Max := hn.trans (by decide)
  have hsmall : ∀ e ∈ events, e.seq < 2 ^ 53 := by
    intro e he
    exact ((h.bounds ((h.le hmax).trans hmax.le)).2.2 e he).2.trans_lt hn
  rw [← unbroken_iff h hmax, numbersOn_events]
  unfold Successive
  rw [Option.toList_none, List.nil_append, List.isChain_map, List.isChain_map]
  refine List.IsChain.iff_of_mem_imp ?_
  intro a b ha hb
  have hsmallA := hsmall a (List.mem_filter.mp ha).1
  have hsmallB := hsmall b (List.mem_filter.mp hb).1
  rw [jsNumber_of_le hsmallA.le, jsNumber_of_le hsmallB.le, jsNumber_of_le hsmallA]

/-! ## Trades -/

/-- A client that has just subscribed to a channel. -/
def subscribed (c : Channel) : Client where
  handlers := fun channel => if channel = c then some [0] else none
  seqs := fun _ => none
  requestId := 1
  sent := [.subscribe (some "ws-1") [c] none]
  calls := []

/-- All frames of a channel. -/
def delivery (c : Channel) (events : List Proto.SequencedEngineEvent) : List Outbound :=
  ((events.map Input.event).flatMap fun i => i.framesOn c).map fun frame => .frame frame none

/-- Two orders of one buyer, each of them filled. -/
def twoTrades : List Proto.EngineRequest :=
  [.place 1 (Server.wireLimit 1 10 .sell 100 5 .cancelTaker),
    .place 2 (Server.wireLimit 2 20 .buy 100 1 .cancelTaker),
    .place 3 (Server.wireLimit 3 20 .buy 100 1 .cancelTaker)]

/-- The client is delivered both trades, with the numbers 5 and 8, and takes the second one for a
gap. -/
theorem second_trade_dropped : ∃ st,
    Server.EngineState.runRequests 10 Server.emptyEngine twoTrades = some st ∧
    let c := Channel.trade "BTCUSDT"
    let inputs := st.eventLog.entries.map Input.event
    let msgs := delivery c st.eventLog.entries
    numbersOn c inputs = [5, 8] ∧
    framesOn c msgs = inputs.flatMap (fun i => i.framesOn c) ∧
    ((subscribed c).onMessages msgs).callsOn c ≠
      (inputs.flatMap fun i => i.framesOn c).flatMap
        (fun frame => (subscribed c).callsFor c frame.data) ∧
    ¬ Lossless c (inputs.flatMap fun i => i.framesOn c) (subscribed c)
      ((subscribed c).onMessages msgs) := by
  refine ⟨_, rfl, by decide +kernel, by decide +kernel, by decide +kernel, ?_⟩
  intro hlossless
  have hsent := hlossless.sent
  revert hsent
  decide +kernel

/-- One order of the buyer is filled by two orders. -/
def sweep : List Proto.EngineRequest :=
  [.place 1 (Server.wireLimit 1 10 .sell 100 1 .cancelTaker),
    .place 2 (Server.wireLimit 2 11 .sell 100 1 .cancelTaker),
    .place 3 (Server.wireLimit 3 20 .buy 100 2 .cancelTaker)]

theorem both_trades_dispatched : ∃ st,
    Server.EngineState.runRequests 10 Server.emptyEngine sweep = some st ∧
    let c := Channel.trade "BTCUSDT"
    let inputs := st.eventLog.entries.map Input.event
    numbersOn c inputs = [8, 9] ∧
    Lossless c (inputs.flatMap fun i => i.framesOn c) (subscribed c)
      ((subscribed c).onMessages (delivery c st.eventLog.entries)) := by
  refine ⟨_, rfl, by decide +kernel, (lossless_iff (by decide +kernel)).mpr ?_⟩
  unfold Successive
  decide +kernel

end Client

end CryptoCex.Web
