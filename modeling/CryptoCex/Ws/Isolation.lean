import CryptoCex.Lib.Tasks
import CryptoCex.Ws.Feed

/-!
# Private channels

`user.orders`, `user.fills` and `user.balances` ask for a token when they are subscribed to, but
each of them is one channel for all users: a connection with any valid token gets the frames of
everybody (`foreign_order_delivered`).

So what a user is sent in two runs that agree on the user's own orders, fills and balances is the
same exactly if the orders, fills and balances of all others are the same too (`isolated_iff`).
-/

namespace CryptoCex.Ws

open Broadcast (Receiver)
open CryptoCex.Core (Uuid)
open Machine (run Along)
open Proto (CancelReason TradeFill)

/-! ## What inputs are about -/

/-- What the private channels are about. -/
inductive PrivateFact where
  | accepted (orderId : Uuid)
  | canceled (orderId : Uuid) (reason : CancelReason)
  | filled (fill : TradeFill)
  | balance (userId : Uuid) (asset available locked : String)
deriving DecidableEq, Repr

def Input.fact : Input → Option PrivateFact
  | .event e =>
    match e.event with
    | .orderAccepted order => some (.accepted order.id)
    | .orderCanceled orderId reason => some (.canceled orderId reason)
    | .fill fill => some (.filled fill)
    | .orderRested _ _ | .bookDelta _ _ _ | .marketStatus _ _ => none
  | .balanceUpdate userId asset available locked _ => some (.balance userId asset available locked)
  | .tickers _ => none

/-- The input concerns an order, a fill or a balance of the user; `owner` says who has placed an
order. -/
def Input.Concerns (owner : Uuid → Option Uuid) (u : Uuid) : Input → Prop
  | .event e =>
    match e.event with
    | .orderAccepted order => order.userId = u
    | .orderRested orderId _ | .orderCanceled orderId _ => owner orderId = some u
    | .fill fill => owner fill.takerOrderId = some u ∨ owner fill.makerOrderId = some u
    | .bookDelta _ _ _ | .marketStatus _ _ => False
  | .balanceUpdate userId _ _ _ _ => userId = u
  | .tickers _ => False

instance (owner : Uuid → Option Uuid) (u : Uuid) : DecidablePred (Input.Concerns owner u) :=
  fun i =>
    match i with
    | .event ⟨_, .orderAccepted order⟩ => inferInstanceAs (Decidable (order.userId = u))
    | .event ⟨_, .orderRested orderId _⟩ => inferInstanceAs (Decidable (owner orderId = some u))
    | .event ⟨_, .orderCanceled orderId _⟩ => inferInstanceAs (Decidable (owner orderId = some u))
    | .event ⟨_, .fill _⟩ => inferInstanceAs (Decidable (_ ∨ _))
    | .event ⟨_, .bookDelta _ _ _⟩ => isFalse id
    | .event ⟨_, .marketStatus _ _⟩ => isFalse id
    | .balanceUpdate userId _ _ _ _ => inferInstanceAs (Decidable (userId = u))
    | .tickers _ => isFalse id

/-- The input without its number. -/
def Input.unnumbered : Input → Input
  | .event e => .event { e with seq := 0 }
  | .balanceUpdate userId asset available locked _ =>
    .balanceUpdate userId asset available locked 0
  | .tickers items => .tickers items

theorem Input.fact_unnumbered (i : Input) : i.unnumbered.fact = i.fact := by
  cases i <;> rfl

/-! ## Frames up to their numbers -/

/-- A frame without its number. -/
def WsFrame.content (frame : WsFrame) : Channel × FrameData := (frame.channel, frame.data)

/-- The frame that tells of a fact. -/
def PrivateFact.content : PrivateFact → Channel × FrameData
  | .accepted orderId => (.userOrders, .order orderId .new)
  | .canceled orderId reason => (.userOrders, .order orderId (.canceled reason))
  | .filled fill => (.userFills, .fill fill.tradeId fill.symbol fill.takerOrderId fill.makerOrderId
      fill.price fill.quantity fill.takerSide fill.ts)
  | .balance userId asset available locked =>
    (.userBalances, .balance userId asset available locked)

/-- The content of a private frame determines the fact it tells. -/
theorem content_injective : Function.Injective PrivateFact.content := by
  intro a b h
  cases a with
  | accepted | canceled | balance =>
    cases b <;> cases h
    rfl
  | filled fill =>
    rcases fill with ⟨tradeId, symbol, takerOrderId, makerOrderId, price, quantity, side, ts⟩
    cases b with
    | filled fill =>
      rcases fill with ⟨_, _, _, _, _, _, _, _⟩
      cases h
      rfl
    | accepted | canceled | balance => cases h

/-- The frames of an input on the private channels tell of its fact. -/
theorem private_frames (i : Input) :
    (i.framesOn .userOrders ++ (i.framesOn .userFills ++ i.framesOn .userBalances)).map
      WsFrame.content = i.fact.toList.map PrivateFact.content := by
  cases i with
  | event e =>
    rcases e with ⟨seq, event⟩
    cases event <;>
      simp [Input.framesOn, Input.frames, eventFrames, Input.fact, WsFrame.content,
        PrivateFact.content]
  | balanceUpdate =>
    simp [Input.framesOn, Input.frames, Input.fact, WsFrame.content, PrivateFact.content]
  -- tickers are public
  | tickers items =>
    have hnone : ∀ c : Channel, (∀ symbol, c ≠ .ticker symbol) → c ≠ .tickerAll →
        (Input.tickers items).framesOn c = [] := by
      intro c hticker hall
      refine List.filter_eq_nil_iff.mpr ?_
      intro frame hframe
      rw [decide_eq_true_eq]
      rcases List.mem_append.mp hframe with hone | hlast
      · rcases List.mem_map.mp hone with ⟨item, _, rfl⟩
        exact (hticker item.symbol).symm
      · split_ifs at hlast
        · cases hlast
        · cases List.mem_singleton.mp hlast
          exact hall.symm
    rw [hnone _ (by simp) (by simp), hnone _ (by simp) (by simp), hnone _ (by simp) (by simp)]
    rfl

/-! ## Delivery -/

/-- The hub takes an input, or a forwarder takes a frame. -/
def Op.isDelivery : Op → Bool
  | .input _ _ | .forward _ => true
  | .receive _ _ | .advance _ | .fetched _ | .join => false

def inputsOf (ops : List Op) : List Input :=
  ops.filterMap fun op => match op with
    | .input i _ => some i
    | _ => none

/-- What a queued message says on a private channel. -/
def Outbound.told : Outbound → Option (Channel × FrameData)
  | .frame f _ => if isPrivateChannel f.channel then some f.content else none
  | _ => none

namespace Feed

variable {s t : Feed} {u : Uuid} {hub : Hub}

/-- The client subscribes to its private channels. -/
def subscribePrivate : List Op :=
  [.receive (.subscribe none [.userOrders, .userFills, .userBalances] none) 0, .advance 0, .join,
    .advance 0, .join, .advance 0, .join, .advance 0]

/-- A connection with the token of a user that has joined the private channels. -/
def listening (hub : Hub) (u : Uuid) : Feed where
  hub := hub
  conn := {
    userId := some u
    subscriptions := [.userOrders, .userFills, .userBalances]
    forwarders := [.userOrders, .userFills, .userBalances].map fun c =>
      ⟨c, .subscribe (hub.sent c), (hub.sent c).length, none⟩
    task := .idle
    queue := [.channels none [.userOrders, .userFills, .userBalances]] }
  left := []
  missed := []

theorem run_subscribePrivate (hub : Hub) (u : Uuid) :
    run step (start hub (some u)) subscribePrivate = some (listening hub u) := rfl

/-- What the client is sent on its private channels, up to numbers. -/
def privateFrames (s : Feed) : List (Channel × FrameData) := s.conn.queue.filterMap Outbound.told

/-- The connection of a user is sent what the inputs give: it has joined the private channels
before, none of its forwarders lags, and in the end all of them have taken everything. -/
def Delivered (u : Uuid) (inputs : List Input) (s : Feed) : Prop :=
  ∃ hub ops, (∀ op ∈ ops, op.isDelivery = true) ∧ inputsOf ops = inputs ∧
    Along step Prompt (listening hub u) ops ∧ run step (listening hub u) ops = some s ∧
    ∀ f ∈ s.conn.forwarders, f.rx.next = (s.hub.sent f.channel).length

/-! ## What is delivered -/

/-- What the forwarders still have before them. -/
def pendingFrames (s : Feed) : List (Channel × FrameData) :=
  s.conn.forwarders.flatMap fun f => ((s.hub.sent f.channel).drop f.rx.next).map WsFrame.content

/-- The connection has joined the three channels, and what it was sent and what its forwarders
have before them is what it has to be told. -/
structure Tells (told : List (Channel × FrameData)) (s : Feed) : Prop where
  channels : s.conn.forwarders.map (·.channel) = [.userOrders, .userFills, .userBalances]
  next_le : ∀ f ∈ s.conn.forwarders, f.rx.next ≤ (s.hub.sent f.channel).length
  named : ∀ f ∈ s.conn.forwarders, ∀ frame ∈ (s.hub.sent f.channel).drop f.rx.next,
    frame.channel = f.channel
  perm : (s.privateFrames ++ s.pendingFrames).Perm told

/-- A listener that has just subscribed has been told nothing and is owed nothing. -/
theorem tells_listening (hub : Hub) (u : Uuid) : Tells [] (listening hub u) := by
  -- each forwarder starts at the end of its channel
  have hdrop : ∀ f ∈ (listening hub u).conn.forwarders,
      (hub.sent f.channel).drop f.rx.next = [] := by
    intro f hf
    rcases List.mem_map.mp hf with ⟨c, _, rfl⟩
    exact List.drop_length
  refine ⟨rfl, ?_, ?_, ?_⟩
  · intro f hf
    rcases List.mem_map.mp hf with ⟨c, _, rfl⟩
    exact Nat.le_refl _
  · intro f hf frame hframe
    change frame ∈ (hub.sent f.channel).drop f.rx.next at hframe
    rw [hdrop f hf] at hframe
    cases hframe
  · have hpending : (listening hub u).pendingFrames = [] := by
      refine List.flatMap_eq_nil_iff.mpr ?_
      intro f hf
      exact (congrArg _ (hdrop f hf)).trans List.map_nil
    rw [hpending]
    exact List.Perm.refl _

/-- The frames of an input are before the forwarders. -/
theorem Tells.input {told : List (Channel × FrameData)} (h : Tells told s) (i : Input) (now : ℕ) :
    Tells (told ++ i.fact.toList.map PrivateFact.content) (s.input i now) := by
  have hsent : ∀ c, (s.input i now).hub.sent c = s.hub.sent c ++ i.framesOn c := by
    intro c
    exact s.hub.sent_take now i c
  have hdrop : ∀ f ∈ s.conn.forwarders, ((s.input i now).hub.sent f.channel).drop f.rx.next =
      (s.hub.sent f.channel).drop f.rx.next ++ i.framesOn f.channel := by
    intro f hf
    rw [hsent, List.drop_append_of_le_length (h.next_le f hf)]
  refine ⟨h.channels, ?_, ?_, ?_⟩
  · intro f hf
    rw [hsent, List.length_append]
    exact Nat.le_add_right_of_le (h.next_le f hf)
  · intro f hf frame hframe
    rw [hdrop f hf] at hframe
    rcases List.mem_append.mp hframe with hold | hnew
    · exact h.named f hf frame hold
    · exact of_decide_eq_true (List.mem_filter.mp hnew).2
  · -- the forwarders of the private channels have one frame more to send, all together the fact
    -- of the input
    have hadded : s.conn.forwarders.flatMap (fun f =>
        (i.framesOn f.channel).map WsFrame.content) = i.fact.toList.map PrivateFact.content := by
      have hchannels : s.conn.forwarders.flatMap (fun f =>
          (i.framesOn f.channel).map WsFrame.content) =
            (s.conn.forwarders.map (·.channel)).flatMap fun c =>
              (i.framesOn c).map WsFrame.content := by
        rw [List.flatMap_map]
      rw [hchannels, h.channels, ← private_frames i]
      simp
    have hpending : (s.input i now).pendingFrames =
        s.conn.forwarders.flatMap fun f =>
          ((s.hub.sent f.channel).drop f.rx.next).map WsFrame.content ++
            (i.framesOn f.channel).map WsFrame.content := by
      refine List.flatMap_congr ?_
      intro f hf
      rw [hdrop f hf, List.map_append]
    have hsplit := List.flatMap_append_perm s.conn.forwarders
      (fun f => ((s.hub.sent f.channel).drop f.rx.next).map WsFrame.content)
      (fun f => (i.framesOn f.channel).map WsFrame.content)
    rw [← hpending, hadded] at hsplit
    have hall := (hsplit.symm.append_left s.privateFrames).trans
      (List.append_assoc _ _ _ ▸ h.perm.append_right _)
    exact hall

/-- A forwarder queues what it had before it. -/
theorem Tells.forward {told : List (Channel × FrameData)} {f : ℕ} {forwarder : Forwarder}
    {rx : Receiver WsFrame} (h : Tells told s) (hprompt : s.Prompt (.forward f))
    (hfind : s.conn.forwarders[f]? = some forwarder)
    (hrecv : forwarder.rx.recv channelCapacity (s.hub.sent forwarder.channel) = some rx) :
    Tells told ({ s with conn := { s.conn with
      forwarders := s.conn.forwarders.set f { forwarder with rx := rx } } }.push
        [forwarded forwarder (s.hub.sent forwarder.channel)]) := by
  have hmem := List.mem_of_getElem? hfind
  rcases forwarded_of_prompt (hprompt forwarder hfind) hrecv with ⟨frame, hget, hnext, hout⟩
  rcases List.getElem?_eq_some_iff.mp hget with ⟨hlt, hframe⟩
  have hdrop : (s.hub.sent forwarder.channel).drop forwarder.rx.next =
      frame :: (s.hub.sent forwarder.channel).drop rx.next := by
    rw [List.drop_eq_getElem_cons hlt, hframe, hnext]
  have hnamed : frame.channel = forwarder.channel := by
    refine h.named forwarder hmem frame ?_
    rw [hdrop]
    exact List.mem_cons_self
  have hprivate : isPrivateChannel frame.channel = true := by
    have hchannel : forwarder.channel ∈ s.conn.forwarders.map (·.channel) :=
      List.mem_map_of_mem hmem
    rw [h.channels] at hchannel
    rw [hnamed]
    revert hchannel
    generalize forwarder.channel = c
    simp only [List.mem_cons, List.not_mem_nil, or_false]
    rintro (rfl | rfl | rfl) <;> rfl
  rw [hout]
  refine ⟨?_, Tasks.forall_set h.next_le ?_, Tasks.forall_set h.named ?_, ?_⟩
  · -- the forwarders keep their channels, and stay behind what was sent
    rw [← h.channels]
    exact Tasks.map_set hfind rfl
  · show rx.next ≤ _
    rw [hnext]
    exact hlt
  · intro frame' hframe'
    refine h.named forwarder hmem frame' ?_
    rw [hdrop]
    exact List.mem_cons_of_mem _ hframe'
  · -- the frame moves from what is pending to what is queued
    generalize hafter : Feed.push _ _ = t
    have hqueued : t.privateFrames = s.privateFrames ++ [frame.content] := by
      rw [← hafter]
      show (s.conn.queue ++ [_]).filterMap Outbound.told = _
      rw [List.filterMap_append]
      simp [privateFrames, Outbound.told, hprivate]
    have hpending : (frame.content :: t.pendingFrames).Perm s.pendingFrames := by
      have hset := Tasks.flatMap_set (b := { forwarder with rx := rx }) hfind fun f =>
        ((s.hub.sent f.channel).drop f.rx.next).map WsFrame.content
      rw [hdrop, List.map_cons, List.cons_append] at hset
      rw [← hafter]
      exact (List.perm_append_left_iff _).mp (List.perm_middle.trans hset)
    rw [hqueued, List.append_assoc, List.singleton_append]
    exact (hpending.append_left _).trans h.perm

/-! ## Two runs -/

/-- What a user is sent that is delivered everything: all facts, whoever they are about. -/
theorem delivered_perm {inputs : List Input} (h : Delivered u inputs s) :
    s.privateFrames.Perm ((inputs.filterMap Input.fact).map PrivateFact.content) := by
  rcases h with ⟨hub, ops, hdelivery, rfl, hprompt, hrun, hdone⟩
  have htells : Tells (((inputsOf ops).filterMap Input.fact).map PrivateFact.content) s := by
    refine Machine.run_induction
      (fun past s => Tells (((inputsOf past).filterMap Input.fact).map PrivateFact.content) s)
      (fun _ s op => op.isDelivery = true ∧ s.Prompt op) ?_ (tells_listening hub u) ?_ hrun
    · intro past mid op mid' _ hmid hok hstep
      have hinputs : inputsOf (past ++ [op]) = inputsOf past ++ inputsOf [op] :=
        List.filterMap_append
      rw [hinputs, List.filterMap_append, List.map_append]
      cases op with
      -- an input adds its fact
      | input i now =>
        cases hstep
        have hone : ((inputsOf [.input i now]).filterMap Input.fact).map PrivateFact.content =
            i.fact.toList.map PrivateFact.content := by
          show ([i].filterMap Input.fact).map _ = _
          cases hfact : i.fact <;> simp [hfact]
        rw [hone]
        exact hmid.input i now
      -- forwarding tells one that was pending
      | forward f =>
        rcases Option.bind_eq_some_iff.mp hstep with ⟨forwarder, hfind, hforward⟩
        rcases Option.map_eq_some_iff.mp hforward with ⟨rx, hrecv, rfl⟩
        exact (List.append_nil _).symm ▸ hmid.forward hok.2 hfind hrecv
      | receive | advance | fetched | join => cases hok.1
    · intro past op later mid hsplit hmid
      refine ⟨hdelivery op ?_, ?_⟩
      · rw [hsplit]
        exact List.mem_append_right _ List.mem_cons_self
      · rw [hsplit] at hprompt
        exact hprompt.at hmid
  have hpending : s.pendingFrames = [] := by
    refine List.flatMap_eq_nil_iff.mpr ?_
    intro f hf
    rw [hdone f hf, List.drop_length, List.map_nil]
  have hperm := htells.perm
  rw [hpending, List.append_nil] at hperm
  exact hperm

/-- What the inputs tell that does not concern the user. -/
def factsOnOthers (owner : Uuid → Option Uuid) (u : Uuid) (inputs : List Input) :
    List PrivateFact :=
  (inputs.filter fun i => ¬ i.Concerns owner u).filterMap Input.fact

/-- What concerns the user, without numbers. -/
def concerning (owner : Uuid → Option Uuid) (u : Uuid) (inputs : List Input) : List Input :=
  (inputs.filter fun i => i.Concerns owner u).map Input.unnumbered

/-- The facts on a user and those on others are all of them. -/
theorem facts_perm (owner : Uuid → Option Uuid) (u : Uuid) (inputs : List Input) :
    (inputs.filterMap Input.fact).Perm
      ((concerning owner u inputs).filterMap Input.fact ++ factsOnOthers owner u inputs) := by
  have hsplit := (List.filter_append_perm (fun i => decide (Input.Concerns owner u i))
    inputs).filterMap Input.fact
  have hown : (concerning owner u inputs).filterMap Input.fact =
      (inputs.filter fun i => i.Concerns owner u).filterMap Input.fact := by
    unfold concerning
    rw [List.filterMap_map]
    refine List.filterMap_congr ?_
    intro i _
    exact i.fact_unnumbered
  rw [List.filterMap_append] at hsplit
  rw [hown]
  simpa only [factsOnOthers, decide_not] using hsplit.symm

/-- Two runs agree on what concerns the user. What the user is sent on the private channels is the
same up to numbers exactly if everything that concerns others is the same in both runs. -/
theorem isolated_iff (owner₁ owner₂ : Uuid → Option Uuid) {inputs₁ inputs₂ : List Input}
    (h₁ : Delivered u inputs₁ s) (h₂ : Delivered u inputs₂ t)
    (hagree : concerning owner₁ u inputs₁ = concerning owner₂ u inputs₂) :
    s.privateFrames.Perm t.privateFrames ↔
      (factsOnOthers owner₁ u inputs₁).Perm (factsOnOthers owner₂ u inputs₂) := by
  have hfacts₁ := facts_perm owner₁ u inputs₁
  have hfacts₂ := facts_perm owner₂ u inputs₂
  rw [← hagree] at hfacts₂
  have hall : s.privateFrames.Perm t.privateFrames ↔
      (inputs₁.filterMap Input.fact).Perm (inputs₂.filterMap Input.fact) := by
    rw [(delivered_perm h₁).congr_left, (delivered_perm h₂).congr_right]
    exact List.map_perm_map_iff content_injective
  rw [hall, hfacts₁.congr_left, hfacts₂.congr_right]
  exact List.perm_append_left_iff _

theorem delivered_of_run (hub : Hub) (u : Uuid) (ops : List Op)
    (hdelivery : ∀ op ∈ ops, op.isDelivery = true)
    (htested : Machine.checkAlong step (fun s op => decide (s.Prompt op)) (listening hub u) ops =
      true)
    (hrun : run step (listening hub u) ops = some s)
    (hdone : ∀ f ∈ s.conn.forwarders, f.rx.next = (s.hub.sent f.channel).length) :
    Delivered u (inputsOf ops) s := by
  refine ⟨hub, ops, hdelivery, rfl, ?_, hrun, hdone⟩
  exact Machine.along_of_check (fun _ _ hcheck => of_decide_eq_true hcheck) htested

/-- The acceptance of an order. -/
def acceptance (seq : ℕ) (orderId userId : Uuid) : Input :=
  .event ⟨seq, .orderAccepted ⟨orderId, userId, "BTCUSDT", .buy, .limit, some 100, 1, .cancelMaker,
    none, none, none⟩⟩

/-- The orders of two users are accepted in one order or in the other. -/
theorem same_frames : ∃ s t, Delivered 10 [acceptance 1 7 10, acceptance 2 8 20] s ∧
    Delivered 10 [acceptance 1 8 20, acceptance 2 7 10] t ∧
    s.privateFrames.Perm t.privateFrames := by
  have h₁ := delivered_of_run Hub.new 10
    [.input (acceptance 1 7 10) 0, .forward 0, .input (acceptance 2 8 20) 1, .forward 0]
    (by decide) (by decide +kernel) rfl (by decide +kernel)
  have h₂ := delivered_of_run Hub.new 10
    [.input (acceptance 1 8 20) 0, .input (acceptance 2 7 10) 1, .forward 0, .forward 0]
    (by decide) (by decide +kernel) rfl (by decide +kernel)
  refine ⟨_, _, h₁, h₂, ?_⟩
  refine (isolated_iff (fun _ => none) (fun _ => none) h₁ h₂ ?_).mpr ?_
  · decide +kernel
  · decide +kernel

/-- A user has nothing to do with an order of another user, and is told of it. -/
theorem foreign_order_delivered : ∃ s t owner, Delivered 10 [] s ∧
    Delivered 10 [acceptance 1 7 20] t ∧
    concerning owner 10 [] = concerning owner 10 [acceptance 1 7 20] ∧
    t.privateFrames = [(.userOrders, .order 7 .new)] ∧
    ¬ s.privateFrames.Perm t.privateFrames := by
  have h₁ := delivered_of_run Hub.new 10 [] (by decide) (by decide) rfl
    (by decide +kernel)
  have h₂ := delivered_of_run Hub.new 10
    [.input (acceptance 1 7 20) 0, .forward 0] (by decide) (by decide +kernel) rfl
    (by decide +kernel)
  exact ⟨_, _, fun _ => some 20, h₁, h₂, by decide +kernel, by decide +kernel, by decide +kernel⟩

end Feed

end CryptoCex.Ws
