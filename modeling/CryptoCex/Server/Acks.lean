import CryptoCex.Core.Survival
import CryptoCex.Server.Recovery

/-!
# What the acknowledgement of an order says

The status in the acknowledgement of a placed order is read off the events of its
call: resting if it rested, filled if its fills as taker reach its quantity, cancelled
if an event says so, and filled otherwise. The last case is right only while no order
of the same user wore it down, which no event tells; the first only while it is still
there when the stops that its trades triggered have been matched.

`Truthful` is what a status should say. `status_truthful_iff` states for which books and
orders (`Legible`) the status read off the events says it.
-/

namespace CryptoCex.Server

open CryptoCex.Core CryptoCex.Core.OrderBook Loop
open Proto (EngineOrder EngineRequest EngineResponse OrderStatus SequencedEngineEvent TradeFill)

/-- What the status of an order says, against the quantities of its fills and whether it
is live. -/
structure Truthful (status : OrderStatus) (quantity : Decimal) (fills : List Decimal)
    (live : Prop) : Prop where
  filled : status = .filled ↔ fills.sum = quantity
  resting : status = .new ∨ status = .partiallyFilled ↔ live
  new : live → (status = .new ↔ fills = [])
  canceled : status = .canceled ↔ ¬ live ∧ fills.sum ≠ quantity

/-- The events of the order's call tell what becomes of it. -/
structure Legible (fuel : ℕ) (b : OrderBook) (order : Order) : Prop where
  /-- Its own orders do not wear it down and leave a rest that is then filled. -/
  unworn : UsedUp b order → Fillable b order
  /-- If it rests, its trades add up to a positive quantity. -/
  traded : order.orderType.canRest = true → ∀ qs, Trades b order qs → qs = [] ∨ 0 < qs.sum
  /-- No triggered stop takes it off the book. -/
  spared : ∀ c stop rest, Visits (cascadeTurn fuel) (b.enterCascade order) c →
    c.workQueue = stop :: rest → ¬ PassTakesOff c.book stop order.id

/-! ## Fills that name an order -/

/-- The fills that name an order, as taker or as maker. -/
def namingFills (id : Uuid) (events : List EngineEvent) : List Fill :=
  events.filterMap fun e => match e with
    | .fill f => if f.takerOrderId = id ∨ f.makerOrderId = id then some f else none
    | _ => none

variable {id : Uuid} {events events' : List EngineEvent} {quantity : Decimal}

/-- The fills naming an order have it as taker or as maker. -/
theorem mem_namingFills {f : Fill} : f ∈ namingFills id events ↔
    EngineEvent.fill f ∈ events ∧ (f.takerOrderId = id ∨ f.makerOrderId = id) := by
  rw [namingFills, List.mem_filterMap]
  constructor
  · rintro ⟨e, he, hf⟩
    cases e with
    | fill g =>
      simp only at hf
      split_ifs at hf with hnames
      cases hf
      exact ⟨he, hnames⟩
    | rested | cancelled | stopTriggered => cases hf
  · rintro ⟨he, hnames⟩
    exact ⟨_, he, if_pos hnames⟩

theorem namingFills_append (id : Uuid) (events events' : List EngineEvent) :
    namingFills id (events ++ events') = namingFills id events ++ namingFills id events' :=
  List.filterMap_append

theorem namingFills_fill (f : Fill) (events : List EngineEvent) :
    namingFills id (.fill f :: events) =
      (if f.takerOrderId = id ∨ f.makerOrderId = id then [f] else []) ++ namingFills id events := by
  simp only [namingFills, List.filterMap_cons]
  split_ifs <;> rfl

/-- No fill names an order that is neither taker nor maker of any. -/
theorem namingFills_eq_nil : namingFills id events = [] ↔
    ∀ f, EngineEvent.fill f ∈ events → f.takerOrderId ≠ id ∧ f.makerOrderId ≠ id := by
  rw [List.eq_nil_iff_forall_not_mem]
  simp only [mem_namingFills, not_and, not_or, ne_eq]

/-- What an order has traded is what it traded as taker and as maker. -/
theorem sum_namingFills
    (h : ∀ f, EngineEvent.fill f ∈ events → f.takerOrderId = id → f.makerOrderId ≠ id) :
    ((namingFills id events).map (·.quantity)).sum =
      fillSum (·.takerOrderId = id) events + fillSum (·.makerOrderId = id) events := by
  induction events with
  | nil => rfl
  | cons e events ih =>
    have hrest := ih fun f hf => h f (List.mem_cons_of_mem _ hf)
    rw [← List.singleton_append, namingFills_append, List.map_append, List.sum_append, hrest,
      fillSum_append, fillSum_append]
    cases e with
    | fill f =>
      have hdistinct := h f List.mem_cons_self
      simp only [namingFills, List.filterMap_cons, List.filterMap_nil, fillSum_fill]
      -- no fill names the order on both sides
      by_cases htaker : f.takerOrderId = id
      · have hmaker := hdistinct htaker
        simp [htaker, hmaker]
        lia
      · by_cases hmaker : f.makerOrderId = id
        · simp [htaker, hmaker]
          lia
        · simp [htaker, hmaker]
    | rested | cancelled | stopTriggered => simp [namingFills, fillSum]

/-! ## The status -/

/-- The quantities of the fills that an order took. -/
def takenBy (orderId : Uuid) (events : List EngineEvent) : List Decimal :=
  events.filterMap fun e => match e with
    | .fill f => if f.takerOrderId = orderId then some f.quantity else none
    | _ => none

theorem takenBy_append (id : Uuid) (events events' : List EngineEvent) :
    takenBy id (events ++ events') = takenBy id events ++ takenBy id events' :=
  List.filterMap_append

/-- What an order takes is the sum of its fills as taker. -/
theorem sum_takenBy (id : Uuid) (events : List EngineEvent) :
    (takenBy id events).sum = fillSum (·.takerOrderId = id) events := by
  induction events with
  | nil => rfl
  | cons e events ih =>
    rw [← List.singleton_append, takenBy_append, List.sum_append, ih, fillSum_append]
    cases e with
    | fill f =>
      by_cases htaker : f.takerOrderId = id
      · simp [takenBy, htaker]
      · simp [takenBy, htaker]
    | rested | cancelled | stopTriggered => rfl

/-- The event that the order rested is among the events. -/
def hasRested (id : Uuid) (events : List EngineEvent) : Bool :=
  events.any fun e => match e with
    | .rested restedId _ => restedId == id
    | _ => false

/-- The event that the order was cancelled is among the events. -/
def hasCancelled (id : Uuid) (events : List EngineEvent) : Bool :=
  events.any fun e => match e with
    | .cancelled canceledId _ => canceledId == id
    | _ => false

theorem hasRested_iff : hasRested id events = true ↔
    ∃ left, EngineEvent.rested id left ∈ events := by
  rw [hasRested, List.any_eq_true]
  constructor
  · rintro ⟨e, he, hid⟩
    cases e with
    | rested x left =>
      cases beq_iff_eq.mp hid
      exact ⟨left, he⟩
    | fill | cancelled | stopTriggered => cases hid
  · rintro ⟨left, he⟩
    exact ⟨_, he, beq_self_eq_true id⟩

theorem hasCancelled_iff : hasCancelled id events = true ↔
    ∃ reason, EngineEvent.cancelled id reason ∈ events := by
  rw [hasCancelled, List.any_eq_true]
  constructor
  · rintro ⟨e, he, hid⟩
    cases e with
    | cancelled x reason =>
      cases beq_iff_eq.mp hid
      exact ⟨reason, he⟩
    | fill | rested | stopTriggered => cases hid
  · rintro ⟨reason, he⟩
    exact ⟨_, he, beq_self_eq_true id⟩

/-- The status depends on the fills through their sum alone. -/
theorem orderStatusForPlace_of_sum [Rounding] (id : Uuid) (quantity : Decimal)
    (events : List EngineEvent) :
    orderStatusForPlace id quantity events =
      if hasRested id events then
        if 0 < Decimal.sum (takenBy id events) then .partiallyFilled else .new
      else if quantity ≤ Decimal.sum (takenBy id events) then .filled
      else if hasCancelled id events then .canceled
      else .filled := rfl

/-- The status that is read off the events, case by case. -/
theorem orderStatusForPlace_eq (id : Uuid) (quantity : Decimal) (events : List EngineEvent) :
    orderStatusForPlace id quantity events =
      if hasRested id events then
        if 0 < fillSum (·.takerOrderId = id) events then .partiallyFilled else .new
      else if quantity ≤ fillSum (·.takerOrderId = id) events then .filled
      else if hasCancelled id events then .canceled
      else .filled := by
  rw [orderStatusForPlace_of_sum, Decimal.sum_exact, sum_takenBy]

/-- An order that rested is new or partially filled. -/
theorem status_of_rested {left : Decimal} (h : EngineEvent.rested id left ∈ events) :
    orderStatusForPlace id quantity events =
      if 0 < fillSum (·.takerOrderId = id) events then .partiallyFilled else .new := by
  rw [orderStatusForPlace_eq, if_pos (hasRested_iff.mpr ⟨left, h⟩)]

/-- One that was cancelled short of its quantity is canceled. -/
theorem status_of_cancelled {reason : CancelReason}
    (hunrested : ∀ left, EngineEvent.rested id left ∉ events)
    (hsum : fillSum (·.takerOrderId = id) events < quantity)
    (h : EngineEvent.cancelled id reason ∈ events) :
    orderStatusForPlace id quantity events = .canceled := by
  have hnot : ¬ hasRested id events = true := fun hrested =>
    (hasRested_iff.mp hrested).elim hunrested
  rw [orderStatusForPlace_eq, if_neg hnot, if_neg (not_le.mpr hsum),
    if_pos (hasCancelled_iff.mpr ⟨reason, h⟩)]

/-- Without an event that says otherwise, the order counts as filled. -/
theorem status_of_silence (hunrested : ∀ left, EngineEvent.rested id left ∉ events)
    (huncancelled : ∀ reason, EngineEvent.cancelled id reason ∉ events) :
    orderStatusForPlace id quantity events = .filled := by
  have hnot : ¬ hasRested id events = true := fun hrested =>
    (hasRested_iff.mp hrested).elim hunrested
  have hnot' : ¬ hasCancelled id events = true := fun hcancelled =>
    (hasCancelled_iff.mp hcancelled).elim huncancelled
  rw [orderStatusForPlace_eq, if_neg hnot, if_neg hnot', ite_self]

/-! ## One call -/

variable {b b' : OrderBook} {taker : Order} {fuel : ℕ}

/-- The events of a call, told of its taker: those of its own pass, and those of the passes
of triggered stops. -/
structure CallTold (taker : Order) (own later events : List EngineEvent) : Prop where
  split : events = own ++ later
  takers : ∀ f, EngineEvent.fill f ∈ own → f.takerOrderId = taker.id
  makers : ∀ f, EngineEvent.fill f ∈ own → f.makerOrderId ≠ taker.id
  others : ∀ f, EngineEvent.fill f ∈ later → f.takerOrderId ≠ taker.id
  unrested : ∀ left, EngineEvent.rested taker.id left ∉ later

namespace CallTold

variable {own later : List EngineEvent}

/-- The fills of the order as taker are those of its own pass. -/
theorem takerFills (h : CallTold taker own later events) :
    fillSum (·.takerOrderId = taker.id) events = fillSum (·.takerOrderId = taker.id) own := by
  have hlater : fillSum (·.takerOrderId = taker.id) later = 0 := by
    refine List.sum_eq_zero ?_
    intro q hq
    rcases List.mem_map.mp hq with ⟨e, he, rfl⟩
    cases e with
    | fill f => simp [h.others f he]
    | rested | cancelled | stopTriggered => rfl
  rw [h.split, fillSum_append, hlater, add_zero]

/-- Its fills as maker are those of the later passes. -/
theorem makerFills (h : CallTold taker own later events) :
    fillSum (·.makerOrderId = taker.id) events = fillSum (·.makerOrderId = taker.id) later := by
  have hown : fillSum (·.makerOrderId = taker.id) own = 0 := by
    refine List.sum_eq_zero ?_
    intro q hq
    rcases List.mem_map.mp hq with ⟨e, he, rfl⟩
    cases e with
    | fill f => simp [h.makers f he]
    | rested | cancelled | stopTriggered => rfl
  rw [h.split, fillSum_append, hown, zero_add]

/-- All that the order trades: as taker in its own pass, as maker later. -/
theorem fills (h : CallTold taker own later events) :
    ((namingFills taker.id events).map (·.quantity)).sum =
      fillSum (·.takerOrderId = taker.id) own + fillSum (·.makerOrderId = taker.id) later := by
  rw [sum_namingFills, h.takerFills, h.makerFills]
  intro f hf htaker
  rw [h.split] at hf
  rcases List.mem_append.mp hf with hf | hf
  · exact h.makers f hf
  · exact absurd htaker (h.others f hf)

theorem rested_iff (h : CallTold taker own later events) {left : Decimal} :
    EngineEvent.rested taker.id left ∈ events ↔ EngineEvent.rested taker.id left ∈ own := by
  rw [h.split, List.mem_append]
  exact ⟨fun hmem => hmem.resolve_right (h.unrested left), .inl⟩

end CallTold

/-- A call that matches its order: the pass of the order, then the cascade from the state
that it leaves. -/
theorem callTold_of_cascade (hb : b.Sound) (hready : taker.Ready)
    (hfresh : ∀ o ∈ b.pool, o.id ≠ taker.id) {n : ℕ} {r : OrderBook × List EngineEvent}
    (hloop : loop (cascadeTurn fuel) n (b.enterCascade taker) = some r) :
    ∃ c₁ m own hit later, b.runMatchingLoop fuel taker = some (c₁.book, own, hit) ∧
      CascadeStep fuel (b.enterCascade taker) c₁ ∧ loop (cascadeTurn fuel) m c₁ = some r ∧
      c₁.workQueue = hit.reverse ∧ taker.id ∉ c₁.workQueue.map (·.id) ∧
      taker.id ∉ c₁.book.stopPool.map (·.id) ∧ taker.id ∉ r.1.stopPool.map (·.id) ∧
      CallTold taker own later r.2 ∧
      fillSum (·.makerOrderId = taker.id) later + remIn r.1.restingPool taker.id ≤
        remIn c₁.book.restingPool taker.id ∧ (hit = [] → later = []) ∧
      (taker.id ∉ c₁.book.toPool.ids →
        taker.id ∉ r.1.toPool.ids ∧ taker.id ∉ named later) := by
  have hc := cascadeSound_enter hb hready hfresh
  rcases cascade_first hloop with ⟨c₁, m, book, own, hit, hrun, hstep, hafter, rfl, hevents, hqueue⟩
  have henters : Enters b taker := ⟨hb.book, hready, hfresh⟩
  have hnew : taker.id ∉ b.stopPool.map (·.id) := by
    intro hmem
    rcases Multiset.mem_map.mp hmem with ⟨o, ho, hid⟩
    exact hfresh o (Multiset.mem_add.mpr (.inr ho)) hid
  have hstops : taker.id ∉ c₁.book.stopPool.map (·.id) := fun hmem =>
    hnew (Multiset.mem_of_le (Multiset.map_le_map (hstep.stops_le hc)) hmem)
  have hunqueued : taker.id ∉ c₁.workQueue.map (·.id) := by
    rw [hqueue, List.map_reverse, List.mem_reverse]
    exact (runMatchingLoop_sound henters hrun).notMem_triggered hnew
  rcases cascade_later (hstep.sound hc) hunqueued hstops hafter with
    ⟨hstops', later, hlater, hothers, hunrested, hsum⟩
  have hnone : ∀ f, EngineEvent.fill f ∉ hit.map (fun t => EngineEvent.stopTriggered t.id) := by
    simp
  rcases conserves_of_enters henters hrun with ⟨_, _, _, hconserves⟩
  refine ⟨c₁, m, own, hit, hit.map (fun t => .stopTriggered t.id) ++ later, hrun, hstep, hafter,
    hqueue, hunqueued, hstops, hstops', ?_, ?_, ?_, ?_⟩
  · refine ⟨?_, fun f hf => (hconserves.users f hf).1, ?_, ?_, ?_⟩
    · rw [hlater, hevents, List.append_assoc]
    · intro f hf heq
      rcases (hconserves.users f hf).2 with ⟨o, ho, hid, _⟩
      have hpool := (hb.book.mem_resting_iff.mp ho).1
      exact hfresh o (Multiset.mem_add.mpr (.inl hpool)) (hid.trans heq)
    · intro f hf
      rcases List.mem_append.mp hf with hf | hf
      · exact absurd hf (hnone f)
      · exact hothers f hf
    · intro left hmem
      rcases List.mem_append.mp hmem with hmem | hmem
      · simp at hmem
      · exact hunrested left hmem
  · rw [fillSum_append, fillSum_eq_zero hnone, zero_add]
    exact hsum
  · rintro rfl
    -- nothing was triggered, so that the cascade is over
    rcases loop_eq_some hafter with ⟨k, _, hdone | ⟨c', hnext, _⟩⟩
    · rcases cascadeTurn_done hdone with ⟨_, rfl⟩
      simpa using hlater
    · rcases (cascadeTurn_next hnext).pass with ⟨order, rest, _, _, hwaits, _⟩
      rw [hqueue] at hwaits
      cases hwaits
  · intro hgone
    rcases cascade_unnamed (hstep.sound hc) hunqueued hgone hafter with
      ⟨hout, later', hlater', hunnamed⟩
    rw [hlater, List.append_cancel_left_eq] at hlater'
    refine ⟨hout, ?_⟩
    rw [named_append, named_stopTriggered, List.nil_append, hlater']
    exact hunnamed

/-- An order that is filled or cancelled: the status is right unless its own orders wore
it down on the way. -/
theorem truthful_of_nowhere {own later : List EngineEvent} {status : OrderStatus} {live : Prop}
    (htold : CallTold taker own later events) (hunnamed : taker.id ∉ named later)
    (hlive : ¬ live) (hfull : taker.remaining = taker.quantity)
    (hstatus : status = .filled ∨ (status = .canceled ∧
      fillSum (·.takerOrderId = taker.id) own < taker.remaining)) :
    Truthful status taker.quantity ((namingFills taker.id events).map (·.quantity)) live ↔
      (status = .filled → fillSum (·.takerOrderId = taker.id) own = taker.remaining) := by
  -- it never rests, so it is nobody's maker
  have hmakers : fillSum (·.makerOrderId = taker.id) later = 0 := by
    refine List.sum_eq_zero ?_
    intro q hq
    rcases List.mem_map.mp hq with ⟨e, he, rfl⟩
    cases e with
    | fill f =>
      have hne : f.makerOrderId ≠ taker.id := fun heq =>
        hunnamed (List.mem_flatMap.mpr ⟨_, he, by simp [EngineEvent.names, heq]⟩)
      simp [hne]
    | rested | cancelled | stopTriggered => rfl
  have hsum := htold.fills
  rw [hmakers, add_zero] at hsum
  constructor
  · rintro htruthful rfl
    rw [← hsum, htruthful.filled.mp rfl, hfull]
  · intro hfilled
    rcases hstatus with rfl | ⟨rfl, hshort⟩
    · have heq := (hsum.trans (hfilled rfl)).trans hfull
      exact ⟨by simp [heq], by simp [hlive], fun h => absurd h hlive, by simp [heq]⟩
    · have hne : ((namingFills taker.id events).map (·.quantity)).sum ≠ taker.quantity := by
        rw [hsum, ← hfull]
        exact hshort.ne
      exact ⟨by simp [hne], by simp [hlive], fun h => absurd h hlive, by simp [hne, hlive]⟩

/-- An order that rests at the end of its pass: the status is right if and only if it is
still there, and its trades, if any, add up to something. -/
theorem truthful_of_rested {own later : List EngineEvent} {left : Decimal} {live : Prop}
    (htold : CallTold taker own later events) (hrested : EngineEvent.rested taker.id left ∈ own)
    (hfull : taker.remaining = taker.quantity)
    (hshort : live → fillSum (·.takerOrderId = taker.id) own +
      fillSum (·.makerOrderId = taker.id) later < taker.remaining)
    (hquiet : traded own = [] → later = []) :
    Truthful (orderStatusForPlace taker.id taker.quantity events) taker.quantity
        ((namingFills taker.id events).map (·.quantity)) live ↔
      live ∧ (traded own = [] ∨ 0 < (traded own).sum) := by
  have hsum : fillSum (·.takerOrderId = taker.id) own = (traded own).sum :=
    fillSum_eq_traded fun f hf => decide_eq_true (htold.takers f hf)
  have hnone : (namingFills taker.id events).map (·.quantity) = [] ↔ traded own = [] := by
    rw [List.map_eq_nil_iff, namingFills_eq_nil, htold.split]
    constructor
    · intro hnone
      refine traded_eq_nil fun f hf => ?_
      exact (hnone f (List.mem_append_left _ hf)).1 (htold.takers f hf)
    · intro hnone f hf
      rw [hquiet hnone, List.append_nil] at hf
      exact absurd hf (fill_notMem_of_untraded hnone f)
  have hstatus : orderStatusForPlace taker.id taker.quantity events =
      if 0 < (traded own).sum then .partiallyFilled else .new := by
    rw [status_of_rested (htold.rested_iff.mpr hrested), htold.takerFills, hsum]
  have hne : live → ((namingFills taker.id events).map (·.quantity)).sum ≠ taker.quantity := by
    intro h
    rw [htold.fills, ← hfull]
    exact (hshort h).ne
  -- the status is partial if the trades of its pass add up to something positive
  by_cases hpos : 0 < (traded own).sum
  · have htraded : traded own ≠ [] := by
      intro hnil
      rw [hnil] at hpos
      exact lt_irrefl _ hpos
    rw [hstatus, if_pos hpos]
    constructor
    · intro htruthful
      exact ⟨htruthful.resting.mp (.inr rfl), .inr hpos⟩
    · rintro ⟨hlive, _⟩
      exact ⟨by simp [hne hlive], by simp [hlive], fun _ => by simp [hnone, htraded],
        by simp [hlive]⟩
  · rw [hstatus, if_neg hpos]
    constructor
    · intro htruthful
      have hlive := htruthful.resting.mp (.inl rfl)
      exact ⟨hlive, .inl (hnone.mp ((htruthful.new hlive).mp rfl))⟩
    · rintro ⟨hlive, htraded⟩
      have htraded := hnone.mpr (htraded.resolve_right hpos)
      exact ⟨by simp [hne hlive], by simp [hlive], fun _ => by simp [htraded], by simp [hlive]⟩

/-- The status of an order that is matched is right if and only if the events of its call
tell what becomes of it. -/
theorem cascade_truthful_iff (hb : b.Sound) (hready : taker.Ready)
    (hfresh : ∀ o ∈ b.pool, o.id ≠ taker.id) (hfull : taker.remaining = taker.quantity) {n : ℕ}
    (hloop : loop (cascadeTurn fuel) n (b.enterCascade taker) = some (b', events))
    (hb' : b'.Consistent) (haccepted : ∀ e ∈ events, ¬ e.Kills taker.id) :
    Truthful (orderStatusForPlace taker.id taker.quantity events) taker.quantity
        ((namingFills taker.id events).map (·.quantity)) (taker.id ∈ b'.live.map (·.id)) ↔
      Legible fuel b taker := by
  have hc := cascadeSound_enter hb hready hfresh
  rcases callTold_of_cascade hb hready hfresh hloop with
    ⟨c₁, m, own, hit, later, hrun, hstep, hafter, hqueue, hunqueued, hstops, hstops', htold, hlost,
      hquiet, hgoneLater⟩
  have htold : CallTold taker own later events := htold
  have hfresh' : taker.id ∉ b.toPool.ids := by
    intro hmem
    rcases Multiset.mem_map.mp hmem with ⟨o, ho, hid⟩
    exact hfresh o ho hid
  have hlive : taker.id ∈ b'.live.map (·.id) ↔ taker.id ∈ b'.toPool.ids := by
    rw [ids_toPool, Multiset.mem_coe]
  -- an order that is nowhere after its pass is named by no later pass
  have hnowhere : taker.id ∉ c₁.book.toPool.ids → taker.id ∉ b'.toPool.ids ∧
      taker.id ∉ named later ∧ ∀ c stop rest, Visits (cascadeTurn fuel) (b.enterCascade taker) c →
        c.workQueue = stop :: rest → ¬ PassTakesOff c.book stop taker.id := by
    intro hgone
    rcases hgoneLater hgone with ⟨hout, hunnamed⟩
    exact ⟨hout, hunnamed, cascade_spares hc hfresh' hstep
      (cascade_spares_gone (hstep.sound hc) hunqueued hgone)⟩
  cases ended_of_pass ⟨hb.book, hready, hfresh⟩ hrun with
  | usedUp hwalk hshort hsum hfilled huncancelled hunrested hgone =>
    rcases hnowhere fun hmem => hgone (Multiset.mem_add.mpr (.inr hmem)) with
      ⟨hgone', hunnamed, hspared⟩
    have hstatus : orderStatusForPlace taker.id taker.quantity events = .filled := by
      refine status_of_silence (fun left hmem => ?_) (fun reason hmem => ?_)
      · exact hunrested _ _ (htold.rested_iff.mp hmem)
      · rw [htold.split] at hmem
        rcases List.mem_append.mp hmem with hmem | hmem
        · exact huncancelled reason hmem
        · exact cancelled_notMem_of_unnamed hunnamed hmem
    rw [hstatus, truthful_of_nowhere htold hunnamed (fun h => hgone' (hlive.mp h)) hfull (.inl rfl)]
    constructor
    · intro hpaid
      exact ⟨fun _ => hfilled.mp (hpaid rfl), fun _ qs hqs => absurd hqs (hshort qs), hspared⟩
    · intro hlegible _
      exact hfilled.mpr (hlegible.unworn hwalk)
  | cancelled hwalk hsum reason hcancelled hunrested hgone hshort =>
    rcases hnowhere fun hmem => hgone (Multiset.mem_add.mpr (.inr hmem)) with
      ⟨hgone', hunnamed, hspared⟩
    have hown : ∀ e ∈ own, e ∈ events := by
      intro e he
      rw [htold.split]
      exact List.mem_append_left _ he
    have hstatus : orderStatusForPlace taker.id taker.quantity events = .canceled := by
      refine status_of_cancelled (fun left hmem => ?_) ?_ (hown _ hcancelled)
      · exact hunrested _ _ (htold.rested_iff.mp hmem)
      · rw [htold.takerFills, ← hfull]
        exact hsum
    rw [hstatus, truthful_of_nowhere htold hunnamed (fun h => hgone' (hlive.mp h)) hfull
      (.inr ⟨rfl, hsum⟩)]
    refine ⟨fun _ => ⟨fun h => absurd h hwalk, fun hcan qs hqs => ?_, hspared⟩,
      fun _ hfalse => by cases hfalse⟩
    exact absurd (.inr rfl) (haccepted _ (hown _ (hshort hcan qs hqs)))
  | rested left hleft hwalk hcan hshort htrades hquietPass hsum hrested hplace =>
    have hplaced : taker.id ∈ c₁.book.toPool.ids := by
      rw [Pool.ids_eq_add]
      exact Multiset.mem_add.mpr (.inl (Multiset.mem_map.mpr ⟨_, hplace, rfl⟩))
    have hkeeps := cascade_keeps_iff (hstep.sound hc) hplaced hstops hafter
    have hleftIn : remIn c₁.book.restingPool taker.id = left :=
      remIn_of_mem (hstep.sound hc).book.nodup_resting hplace
    have hremains : taker.id ∈ b'.live.map (·.id) → 0 < remIn b'.restingPool taker.id := by
      intro hlives
      exact hb'.remIn_pos (hlive.mp hlives) hstops'
    rw [truthful_of_rested htold hrested hfull ?_ fun hnil => hquiet (hquietPass hnil)]
    · constructor
      · rintro ⟨hlives, htraded⟩
        refine ⟨fun h => absurd h hwalk, fun _ qs hqs => htrades qs hqs ▸ htraded, ?_⟩
        exact cascade_spares hc hfresh' hstep (hkeeps.mp (hlive.mp hlives))
      · intro hlegible
        rcases hshort with ⟨qs, hqs⟩
        refine ⟨hlive.mpr (hkeeps.mpr fun c stop rest hv => ?_),
          htrades qs hqs ▸ hlegible.traded hcan qs hqs⟩
        exact hlegible.spared c stop rest
          (Relation.ReflTransGen.head (cascadeTurn_of_step hstep) hv)
    · intro hlives
      have hremains := hremains hlives
      lia

/-- The status read off the events of a call that does not reject its order is right if and
only if the order is a stop or the events tell what becomes of it. -/
theorem status_truthful_iff (hb : b.Sound) (htaker : taker.Admissible)
    (hfresh : ∀ o ∈ b.pool, o.id ≠ taker.id) (hfull : taker.remaining = taker.quantity)
    (hcall : b.matchOrder fuel taker = some (b', events))
    (haccepted : ∀ e ∈ events, ¬ e.Kills taker.id) :
    Truthful (orderStatusForPlace taker.id taker.quantity events) taker.quantity
        ((namingFills taker.id events).map (·.quantity)) (taker.id ∈ b'.live.map (·.id)) ↔
      (taker.orderType.isStop = false → Legible fuel b taker) := by
  have hspec := matchOrder_spec htaker hcall
  generalize hr : (b', events) = r at hspec
  cases hspec with
  | rejected reject hpre =>
    cases hr
    refine absurd ?_ (haccepted reject List.mem_cons_self)
    rcases preCheck_eq_some hpre with ⟨_, rfl⟩ | ⟨_, rfl⟩
    · exact .inl rfl
    · exact .inr rfl
  -- a stop is live and reported as new
  | registered stops _ hstop hins =>
    cases hr
    have hlive : taker.id ∈ (OrderBook.live { b with stops }).map (·.id) := by
      rw [← Multiset.mem_coe, ← ids_toPool, ids_registered hins]
      exact Multiset.mem_cons_self _ _
    have hstatus : orderStatusForPlace taker.id taker.quantity [.rested taker.id taker.remaining] =
        .new := by
      rw [status_of_rested (List.mem_singleton.mpr rfl), fillSum_rested, if_neg (lt_irrefl 0)]
    have hne : (0 : Decimal) ≠ taker.quantity := (hfull ▸ htaker.positive).ne
    refine ⟨fun _ hactive => absurd hstop (by simp [hactive]), fun _ => ?_⟩
    rw [hstatus]
    exact ⟨by simpa [namingFills] using hne, by simp [hlive], fun _ => by simp [namingFills],
      by simp [hlive]⟩
  -- an order that is matched is told of by its cascade
  | matched _ hactive hloop =>
    have hready : taker.Ready := ⟨htaker.positive, hactive, htaker.priced⟩
    subst hr
    have hb' := (matchOrder_sound hb htaker hfresh hcall).1.book
    rw [cascade_truthful_iff hb hready hfresh hfull hloop hb' haccepted]
    exact ⟨fun h _ => h, fun h => h hactive⟩

/-! ## Requests -/

namespace EngineState

variable {st st' : EngineState}

/-- The fills among logged events that name an order, as taker or as maker. -/
def fillsNaming (id : Uuid) (events : List SequencedEngineEvent) : List TradeFill :=
  events.filterMap fun e => match e.event with
    | .fill f => if f.takerOrderId = id ∨ f.makerOrderId = id then some f else none
    | _ => none

/-- The same among events without a number. -/
def wireFillsNaming (id : Uuid) (events : List Proto.EngineEvent) : List TradeFill :=
  events.filterMap fun e => match e with
    | .fill f => if f.takerOrderId = id ∨ f.makerOrderId = id then some f else none
    | _ => none

theorem fillsNaming_eq (id : Uuid) (events : List SequencedEngineEvent) :
    fillsNaming id events = wireFillsNaming id (events.map (·.event)) := by
  simp only [fillsNaming, wireFillsNaming, List.filterMap_map]
  rfl

theorem wireFillsNaming_fill (id : Uuid) (f : TradeFill) (events : List Proto.EngineEvent) :
    wireFillsNaming id (.fill f :: events) =
      (if f.takerOrderId = id ∨ f.makerOrderId = id then [f] else []) ++
        wireFillsNaming id events := by
  simp only [wireFillsNaming, List.filterMap_cons]
  split_ifs <;> rfl

/-- The wire form of a fill keeps the ids and the quantity. -/
theorem wireFillsNaming_toWire (st : EngineState) (symbol : String) (id : Uuid)
    (events : List EngineEvent) :
    (wireFillsNaming id (st.toWireCoreEvents symbol events).1.1).map (·.quantity) =
      (namingFills id events).map (·.quantity) := by
  induction events generalizing st with
  | nil => rfl
  | cons e events ih =>
    cases e with
    | fill f =>
      have hrest := ih (st.toWireFill symbol f).2
      have hwire : (st.toWireCoreEvents symbol (.fill f :: events)).1.1 =
          .fill (st.toWireFill symbol f).1 ::
            ((st.toWireFill symbol f).2.toWireCoreEvents symbol events).1.1 := rfl
      rw [hwire, wireFillsNaming_fill, namingFills_fill, List.map_append, List.map_append, hrest]
      -- the wire form keeps both ids, so the filters agree
      by_cases hnames : f.takerOrderId = id ∨ f.makerOrderId = id
      · have hnames' : (st.toWireFill symbol f).1.takerOrderId = id ∨
          (st.toWireFill symbol f).1.makerOrderId = id := hnames
        rw [if_pos hnames, if_pos hnames']
        rfl
      · have hnames' : ¬ ((st.toWireFill symbol f).1.takerOrderId = id ∨
          (st.toWireFill symbol f).1.makerOrderId = id) := hnames
        rw [if_neg hnames, if_neg hnames']
        rfl
    | rested | cancelled | stopTriggered => exact ih st

/-- The acceptance before the events of a match and the depth behind them are no fills. -/
theorem wireFillsNaming_framed (id : Uuid) (order : EngineOrder) (symbol : String)
    (bids asks : List Proto.PriceLevel) (events : List Proto.EngineEvent) :
    wireFillsNaming id (.orderAccepted order :: events ++ [.bookDelta symbol bids asks]) =
      wireFillsNaming id events := by
  simp [wireFillsNaming]

/-- A placement that is acknowledged: what was matched, and how it is reported. -/
theorem placeOrder_acknowledged [Rounding] {requestId ackId orderId : Uuid} {order : EngineOrder}
    {bundle : ResponseBundle} {status : OrderStatus} {fills : List TradeFill} {seq : ℕ}
    (h : st.placeOrder fuel requestId order = some (.ok bundle, st'))
    (hack : bundle.response = .ack ackId (.order orderId status fills seq)) :
    ∃ book events, validateWireOrder requestId order = none ∧
      matchInBook fuel (st.bookOf order.symbol) (toCoreOrder order) = some (book, events) ∧
      (∀ e ∈ events, ¬ e.Kills order.id) ∧
      status = orderStatusForPlace order.id order.quantity events ∧
      st'.books = st.books.insert order.symbol book ∧
      (fillsNaming order.id bundle.events).map (·.quantity) =
        (namingFills order.id events).map (·.quantity) := by
  unfold placeOrder at h
  split at h
  · cases h
    cases hack
  · next hvalid =>
    dsimp only at h
    split_ifs at h with hhalted
    · cases h
      cases hack
    · split at h
      · cases h
      · next st₁ happend =>
        rcases appendCommand_ok happend with ⟨_, hexchange, _⟩
        have hbooks : st₁.books = st.books := congrArg Exchange.books hexchange
        have hbook : st₁.bookOf order.symbol = st.bookOf order.symbol := by
          rw [bookOf, hbooks, bookOf]
        rw [hbook] at h
        split at h
        · cases h
        · next book events hmatch =>
          split at h
          · cases h
            cases hack
          · next hreject =>
            refine ⟨book, events, hvalid, hmatch, immediatePreReject_eq_none.mp hreject, ?_⟩
            have hack' := Option.some.inj h
            -- accepted: the events of the bundle are those of the match
            have hreports := acknowledgePlace_reports { st₁ with
              books := st₁.books.insert order.symbol book }
              requestId order (toCoreOrder order) events
            rw [hack'] at hreports
            have hbooks' : st'.books = st₁.books.insert order.symbol book :=
              congrArg Exchange.books hreports.exchange
            unfold acknowledgePlace at hack'
            dsimp only at hack'
            split at hack'
            · cases hack'
            · next sequenced st₂ hsequence =>
              cases hack'
              cases hack
              refine ⟨rfl, hbooks ▸ hbooks', ?_⟩
              rcases sequenceEvents_extends hsequence with ⟨new, _, _, hok, _⟩
              rcases hok _ rfl with ⟨rfl, hmap⟩
              rw [fillsNaming_eq, hmap]
              exact (congrArg (List.map _) (wireFillsNaming_framed ..)).trans
                (wireFillsNaming_toWire _ _ _ _)

end EngineState

end CryptoCex.Server
