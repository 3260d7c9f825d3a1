import CryptoCex.Core.Reload
import CryptoCex.Lib.Queues

/-!
# Price-time priority

The matching loop takes the best level of the opposite side and in it the order that has waited
longest. Nothing comes to the book while the loop runs, so the levels it walks only lose orders,
and an iceberg goes to the back when its slice is used up: the levels are queues some of whose
elements go back (`TurnSpec.requeues`). Fills come in the order of their prices, and a maker
trades when no better level is left and no order ahead of it that shows its whole quantity
(`Consistent.prioritised`).

Over whole runs the orders of a level that show their whole quantity stand in the order in which
they were announced as resting (`FirstCome`).
-/

namespace CryptoCex.Core

open Loop OrderBook Queues

open scoped List

/-- Orders without a display quantity keep their turn. -/
def orderView : View Order Uuid where
  id := Order.id
  stays o := o.displayQty = none

/-- The prices of the fills among the events. -/
def fillPrices (events : List EngineEvent) : List Decimal :=
  events.filterMap fun e => match e with
    | .fill f => some f.price
    | _ => none

/-- The ids of the orders that were announced as resting. -/
def restedIds (events : List EngineEvent) : List Uuid :=
  events.filterMap fun e => match e with
    | .rested id _ => some id
    | _ => none

theorem fillPrices_append (events events' : List EngineEvent) :
    fillPrices (events ++ events') = fillPrices events ++ fillPrices events' :=
  List.filterMap_append

theorem restedIds_append (events events' : List EngineEvent) :
    restedIds (events ++ events') = restedIds events ++ restedIds events' :=
  List.filterMap_append

theorem fillPrices_eq_nil {events : List EngineEvent} (h : ∀ f, EngineEvent.fill f ∉ events) :
    fillPrices events = [] := by
  rw [fillPrices, List.filterMap_eq_nil_iff]
  intro e he
  cases e with
  | fill f => exact absurd he (h f)
  | rested | cancelled | stopTriggered => rfl

theorem restedIds_eq_nil {events : List EngineEvent}
    (h : ∀ id remaining, EngineEvent.rested id remaining ∉ events) : restedIds events = [] := by
  rw [restedIds, List.filterMap_eq_nil_iff]
  intro e he
  cases e with
  | rested id remaining => exact absurd he (h id remaining)
  | fill | cancelled | stopTriggered => rfl

/-! ## What a turn does to the levels -/

section Turns

variable {s : MatchState} {side : Side} {price : Decimal} {m : Order} {rest q : List Order}
  {b b' : OrderBook}

/-- Rewriting one level. -/
theorem requeues_withQueue (hlevel : (b.levels side).find? price = some (m :: rest))
    (hstep : Step orderView (m :: rest) q) (side' : Side) (price' : Decimal) :
    Step orderView (b.queue side' price') ((b.withQueue side price q).queue side' price') := by
  rw [queue_withQueue]
  split_ifs with h
  · rw [h.1, h.2, queue_eq_of_find? hlevel]
    exact hstep
  · exact .leave (List.Sublist.refl _)

/-- A slice sends its order to the back of the level, and a part fill leaves it in front. -/
theorem requeues_levelAfterFill (m : Order) (rest : List Order) (fillQty : Decimal) :
    Step orderView (m :: rest) (levelAfterFill m rest fillQty) := by
  unfold levelAfterFill
  split_ifs with h
  · refine .back rest rfl Iff.rfl ?_
    intro hnone
    have hnone' : m.displayQty = none := hnone
    simp [hnone'] at h
  · exact .front rest rfl Iff.rfl

/-- In every level orders leave, or the first one trades and stays first or goes to the back. -/
theorem TurnSpec.requeues {t : Turn MatchState (MatchState × MatchExit)} (h : TurnSpec s t)
    (side : Side) (price : Decimal) :
    Step orderView (s.book.queue side price) ((stateAfter t).book.queue side price) := by
  have hwithin : ∀ {b' : OrderBook}, b'.Within s.book →
      Step orderView (s.book.queue side price) (b'.queue side price) :=
    fun hb' => .leave (hb'.queues side price)
  cases h with
  | exhausted => exact hwithin (Within.refl _)
  | cancelTaker => exact hwithin (Within.refl _)
  | cancelMaker hm => exact hwithin (within_dropFront hm.level)
  | @decrementTaker level m rest hm =>
    have hstep : Step orderView (m :: rest)
        (m.withRemaining (m.remaining - s.taker.remaining) :: rest) := .front rest rfl Iff.rfl
    exact requeues_withQueue hm.level hstep side price
  | decrementMaker hm => exact hwithin (within_dropFront hm.level)
  | decrementBoth hm => exact hwithin (within_dropFront hm.level)
  | fillPart hm =>
    exact requeues_withQueue hm.level (requeues_levelAfterFill _ _ _) side price
  | fillWhole hm =>
    exact hwithin ((within_maybeCancelOco _ _).trans (within_dropFront hm.level))

end Turns

/-! ## What is left of a book during a pass -/

/-- `now` holds what a pass has left of the book `b`. -/
structure Remnant (b now : OrderBook) : Prop where
  levels : ∀ side price, ComesFrom orderView (b.queue side price) (now.queue side price)
  stops : now.stopPool ≤ b.stopPool

theorem remnant_refl (b : OrderBook) : Remnant b b :=
  ⟨fun _ _ => comesFrom_refl _, le_refl _⟩

section Remnant

variable {b now : OrderBook} {side : Side} {price : Decimal} {o : Order}

/-- An order that rested and is not found in its level has left the book. -/
theorem Remnant.gone (h : Remnant b now) (hb : b.Consistent) (ho : o ∈ b.queue side price)
    (hlevel : ∀ x ∈ now.queue side price, x.id ≠ o.id) : o.id ∉ now.toPool.ids := by
  intro hid
  rcases Multiset.mem_map.mp hid with ⟨x, hx, hxid⟩
  have hopool := mem_pool_of_mem_queue ho
  rcases mem_pool.mp hx with hx | hx
  · rcases mem_restingPool.mp hx with ⟨side', price', hx⟩
    rcases (h.levels side' price').known x hx with ⟨x₀, hx₀, hid₀, _⟩
    have hsame : x₀ = o := hb.eq_of_id_eq (mem_pool_of_mem_queue hx₀) hopool (hid₀.trans hxid)
    rw [hsame] at hx₀
    rcases hb.place_of_mem ho hx₀ with ⟨rfl, rfl⟩
    exact hlevel x hx hxid
  · -- no resting order has the id of a stop
    have hstop : x ∈ b.stopPool := Multiset.mem_of_le h.stops hx
    have hunique := hb.unique
    rw [pool, Multiset.map_add, Multiset.nodup_add] at hunique
    have hrest : o.id ∈ b.restingPool.map (·.id) :=
      Multiset.mem_map_of_mem _ (mem_restingPool.mpr ⟨side, price, ho⟩)
    refine Multiset.disjoint_left.mp hunique.2.2 hrest ?_
    rw [← hxid]
    exact Multiset.mem_map_of_mem _ hstop

end Remnant

/-! ## The fills of a pass -/

/-- In the book `now` of a pass entered with `b`, the maker of the fill is the first of its level
and trades at its own price. The orders that rested at better prices are gone, and so are those
that stood before it and show their whole quantity. -/
structure FirstInLine (b now : OrderBook) (takerSide : Side) (f : Fill) : Prop where
  maker : ∃ m rest, now.queue takerSide.opposite f.price = m :: rest ∧ m.id = f.makerOrderId ∧
    m.side = takerSide.opposite ∧ m.price = some f.price
  better : ∀ price, AtLeastAsGood takerSide price f.price → price ≠ f.price →
    ∀ o ∈ b.queue takerSide.opposite price, o.id ∉ now.toPool.ids
  ahead : ∀ o ∈ b.queue takerSide.opposite f.price, o.displayQty = none →
    [o.id, f.makerOrderId] <+ (b.queue takerSide.opposite f.price).map (·.id) →
    o.id ∉ now.toPool.ids

/-- The fills of a pass entered with `b` come in the order of their prices, within the limit of
the taker, and each when its maker is the first in line. -/
structure Prioritised (b : OrderBook) (taker : Order) (events : List EngineEvent) : Prop where
  ordered : (fillPrices events).Pairwise (AtLeastAsGood taker.side)
  acceptable : ∀ price ∈ fillPrices events, takerPriceSatisfied taker price = true
  first : ∀ before f after, events = before ++ .fill f :: after →
    ∃ s, Visits matchTurn (b.enterLoop taker) s ∧ s.events = before ∧
      FirstInLine b s.book taker.side f

section Fills

variable {b now now' : OrderBook} {taker m : Order} {events new before after : List EngineEvent}
  {s : MatchState} {price : Decimal} {rest : List Order} {f g : Fill}

/-- A fill of a longer list that is not among the new events. -/
theorem fill_before (hnew : ∀ f, EngineEvent.fill f ∉ new)
    (h : events ++ new = before ++ .fill f :: after) :
    ∃ after', events = before ++ .fill f :: after' := by
  rcases List.append_eq_append_iff.mp h with ⟨l, _, hl⟩ | ⟨l, hevents, hl⟩
  · refine absurd ?_ (hnew f)
    rw [hl]
    exact List.mem_append_right _ List.mem_cons_self
  · cases l with
    | nil =>
      refine absurd ?_ (hnew f)
      rw [← List.nil_append new, ← hl]
      exact List.mem_cons_self
    | cons e l =>
      rw [List.cons_append, List.cons.injEq] at hl
      rw [← hl.1] at hevents
      exact ⟨l, hevents⟩

theorem atLeastAsGood_antisymm {side : Side} {p p' : Decimal} (h : AtLeastAsGood side p p')
    (h' : AtLeastAsGood side p' p) : p = p' := by
  cases side with
  | buy => exact le_antisymm h h'
  | sell => exact le_antisymm h' h

theorem OrderBook.Consistent.nodup_queue (hb : b.Consistent) (side : Side) (price : Decimal) :
    ((b.queue side price).map Order.id).Nodup := by
  rcases b.pool_withQueue side price [] with ⟨others, hpool, _⟩
  have hunique := hb.unique
  rw [hpool, Multiset.map_add, Multiset.nodup_add] at hunique
  exact hunique.1

/-- The fills so far, when `now` is the book: no level that is left is better than any of
them. -/
structure Ranked (b : OrderBook) (taker : Order) (now : OrderBook) (events : List EngineEvent) :
    Prop where
  fills : Prioritised b taker events
  left : ∀ p ∈ fillPrices events, ∀ price, now.queue taker.side.opposite price ≠ [] →
    AtLeastAsGood taker.side p price

theorem ranked_nil (b : OrderBook) (taker : Order) : Ranked b taker b [] where
  fills := {
    ordered := List.Pairwise.nil
    acceptable := fun price h => absurd h List.not_mem_nil
    first := fun before f after h => absurd h (by simp) }
  left := fun price h => absurd h List.not_mem_nil

/-- Events without a fill keep the priority. -/
theorem Prioritised.skip (h : Prioritised b taker events) (hnew : ∀ f, EngineEvent.fill f ∉ new) :
    Prioritised b taker (events ++ new) := by
  have hprices : fillPrices (events ++ new) = fillPrices events := by
    rw [fillPrices_append, fillPrices_eq_nil hnew, List.append_nil]
  refine ⟨by rw [hprices]; exact h.ordered, by rw [hprices]; exact h.acceptable, ?_⟩
  intro before f after hsplit
  rcases fill_before hnew hsplit with ⟨after', hevents⟩
  exact h.first before f after' hevents

theorem Ranked.skip (h : Ranked b taker now events) (hnew : ∀ f, EngineEvent.fill f ∉ new)
    (hleft : ∀ side price, now'.queue side price ≠ [] → now.queue side price ≠ []) :
    Ranked b taker now' (events ++ new) where
  fills := h.fills.skip hnew
  left := by
    rw [fillPrices_append, fillPrices_eq_nil hnew, List.append_nil]
    exact fun p hp price hne => h.left p hp price (hleft _ _ hne)

/-- The maker the loop meets is the first in line. -/
theorem Meets.firstInLine (hm : Meets s price m rest) (hs : s.book.Consistent)
    (hb : b.Consistent) (hleft : Remnant b s.book) (taker : Order) :
    FirstInLine b s.book s.taker.side (fillOf taker m price) := by
  have hqueue := queue_eq_of_find? hm.level
  rcases hs.front hm.level with ⟨_, hside, hprice, _⟩
  refine ⟨⟨m, rest, hqueue, rfl, hside, hprice⟩, ?_, ?_⟩
  · intro better hbetter hne o ho
    refine hleft.gone hb ho ?_
    intro x hx
    -- a level that is left is not better than the one the loop takes
    have hbest := bestOppositePrice_best hs.noEmpty hm.best (List.ne_nil_of_mem hx)
    refine absurd ?_ hne
    exact atLeastAsGood_antisymm hbetter hbest
  · intro o ho hplain hahead
    refine hleft.gone hb ho ?_
    have hnodup : ((b.queue s.taker.side.opposite price).map Order.id).Nodup :=
      hb.nodup_queue _ _
    have hkept := hleft.levels s.taker.side.opposite price
    rw [hqueue] at hkept
    intro x hx
    rw [show (fillOf taker m price).price = price from rfl, hqueue] at hx
    exact hkept.front_first hnodup ho hplain hahead x hx

/-- What the loop of `taker` entered with `b` keeps. -/
structure Walks (b : OrderBook) (taker : Order) (s : MatchState) : Prop where
  book : s.book.Consistent
  same : s.taker = taker.withRemaining s.taker.remaining
  remnant : Remnant b s.book
  ranked : Ranked b taker s.book s.events

theorem Walks.side (h : Walks b taker s) : s.taker.side = taker.side := by
  rw [h.same, Order.side_withRemaining]

/-- The taker accepts what it accepted when it came. -/
theorem Walks.satisfied (h : Walks b taker s) :
    takerPriceSatisfied s.taker = takerPriceSatisfied taker := by
  rw [h.same]
  rfl

/-- A fill is not better than the ones before, and not worse than any that may follow. -/
theorem Walks.fill (h : Walks b taker s) (hb : b.Consistent)
    (hv : Visits matchTurn (b.enterLoop taker) s) (hm : Meets s price m rest) :
    Ranked b taker s.book (s.events ++ [.fill (fillOf s.taker m price)]) := by
  have hprices : fillPrices (s.events ++ [.fill (fillOf s.taker m price)]) =
      fillPrices s.events ++ [price] := fillPrices_append _ _
  have hlevel : s.book.queue taker.side.opposite price ≠ [] := by
    rw [← h.side, queue_eq_of_find? hm.level]
    exact List.cons_ne_nil m rest
  refine ⟨⟨?_, ?_, ?_⟩, ?_⟩
  · -- the price is no better than those before, which were best then
    rw [hprices, List.pairwise_append]
    refine ⟨h.ranked.fills.ordered, List.pairwise_singleton _ _, ?_⟩
    intro p hp p' hp'
    rw [List.mem_singleton.mp hp']
    exact h.ranked.left p hp price hlevel
  · intro p hp
    rw [hprices] at hp
    rcases List.mem_append.mp hp with hp | hp
    · exact h.ranked.fills.acceptable p hp
    · rw [List.mem_singleton.mp hp, ← h.satisfied]
      exact hm.acceptable
  · -- the maker is first in line at its level
    intro before f after hsplit
    rcases split_concat hsplit with ⟨rfl, hlast⟩ | ⟨after', hevents⟩
    · cases hlast
      refine ⟨s, hv, rfl, ?_⟩
      rw [← h.side]
      exact hm.firstInLine h.book hb h.remnant s.taker
    · exact h.ranked.fills.first before f after' hevents
  · -- and nothing better is left on the book
    intro p hp price' hne
    rw [hprices] at hp
    rcases List.mem_append.mp hp with hp | hp
    · exact h.ranked.left p hp price' hne
    · rw [List.mem_singleton.mp hp, ← h.side]
      rw [← h.side] at hne
      exact bestOppositePrice_best h.book.noEmpty hm.best hne

theorem walks_enterLoop (hb : b.Consistent) (taker : Order) : Walks b taker (b.enterLoop taker) :=
  ⟨hb, rfl, remnant_refl b, ranked_nil b taker⟩

/-- Every turn of the loop keeps to the order of the prices. -/
theorem TurnSpec.walks_on {t : Turn MatchState (MatchState × MatchExit)} (ht : TurnSpec s t)
    (h : Walks b taker s) (hb : b.Consistent) (hv : Visits matchTurn (b.enterLoop taker) s) :
    Walks b taker (stateAfter t) := by
  have hrequeues := ht.requeues
  -- queues only lose orders from the front, and requeue icebergs at the end
  have hremnant : Remnant b (stateAfter t).book := by
    refine ⟨fun side price => (h.remnant.levels side price).step (hrequeues side price), ?_⟩
    have hstops := (ht.refines h.book).stops_le
    cases t with
    | next | done => exact hstops.trans h.remnant.stops
  have hleft : ∀ side price, (stateAfter t).book.queue side price ≠ [] →
      s.book.queue side price ≠ [] := fun side price => (hrequeues side price).ne_nil
  have hsame : ∀ r, s.taker.withRemaining r = taker.withRemaining r := by
    intro r
    rw [h.same]
    rfl
  have hbook := ht.consistent h.book
  have hnone : ∀ f, EngineEvent.fill f ∉ ([] : List EngineEvent) := fun _ => List.not_mem_nil
  cases ht with
  | exhausted => exact h
  | cancelTaker => exact ⟨hbook, h.same, hremnant, h.ranked.skip (by simp) hleft⟩
  | cancelMaker => exact ⟨hbook, h.same, hremnant, h.ranked.skip (by simp) hleft⟩
  | decrementTaker => exact ⟨hbook, hsame _, hremnant, h.ranked.skip (by simp) hleft⟩
  | decrementMaker => exact ⟨hbook, hsame _, hremnant, h.ranked.skip (by simp) hleft⟩
  | decrementBoth => exact ⟨hbook, hsame _, hremnant, h.ranked.skip (by simp) hleft⟩
  -- a fill is with the first order of the best queue
  | fillPart hm =>
    have hfill := (h.fill hb hv hm).skip hnone hleft
    rw [List.append_nil] at hfill
    exact ⟨hbook, hsame _, hremnant, hfill⟩
  | fillWhole hm =>
    exact ⟨hbook, hsame _, hremnant, (h.fill hb hv hm).skip (fill_notMem_oco _ _) hleft⟩

/-- The fills of every pass on a consistent book. -/
theorem OrderBook.Consistent.prioritised (hb : b.Consistent) (taker : Order) {fuel : ℕ}
    {r : OrderBook × List EngineEvent × List Order}
    (hrun : b.runMatchingLoop fuel taker = some r) : Prioritised b taker r.2.1 := by
  rcases runMatchingLoop_eq_some hrun with ⟨s, exit, hloop, rfl⟩
  have hturn : ∀ t u, Walks b taker t → matchTurn t = some u → TurnSpec t u := by
    intro t u ht hu
    have hspec := turnSpec_of_eq ht.book.noEmpty hu
    exact hspec
  have hwalks : Walks b taker s := by
    refine loop_invariant_visits (Walks b taker) (fun r => Walks b taker r.1)
      (walks_enterLoop hb taker) ?_ ?_ hloop
    · intro t t' hv ht hnext
      exact (hturn t _ ht hnext).walks_on ht hb hv
    · intro t r hv ht hdone
      exact (hturn t _ ht hdone).walks_on ht hb hv
  cases exit with
  | takerConsumed => exact hwalks.ranked.fills
  | exhausted =>
    have hfinal := hwalks.ranked.fills.skip (fill_notMem_finalize s.book s.taker s.hadFills)
    exact hfinal.skip (within_ite_maybeCancelOco _ s.taker.id _).2

end Fills

/-! ## The order of a level -/

/-- The orders of a level that show their whole quantity stand in the order in which they came
to rest. A stop is announced when it is registered and again when it rests, so the last
announcement counts. -/
def FirstCome (events : List EngineEvent) (b : OrderBook) : Prop :=
  ∀ side price, stayers orderView (b.queue side price) <+ (restedIds events).dedup

section FirstCome

variable {events new past : List EngineEvent} {b b' : OrderBook} {o taker : Order}
  {s : MatchState} {remaining : Decimal}

/-- An empty book has nobody in line. -/
theorem firstCome_new : FirstCome [] OrderBook.new := by
  intro side price
  cases side with
  | buy | sell => exact List.Sublist.refl _

/-- Levels that only lose orders. -/
theorem FirstCome.step (h : FirstCome events b) (hnew : restedIds new = [])
    (hstep : ∀ side price, Step orderView (b.queue side price) (b'.queue side price)) :
    FirstCome (events ++ new) b' := by
  intro side price
  rw [restedIds_append, hnew, List.append_nil]
  exact (stayers_step (hstep side price)).trans (h side price)

/-- Orders that leave do not change the turns of the others. -/
theorem FirstCome.within (h : FirstCome events b) (hnew : restedIds new = [])
    (hb' : b'.Within b) : FirstCome (events ++ new) b' :=
  h.step hnew fun side price => .leave (hb'.queues side price)

theorem id_notMem_stayers (hfresh : ∀ x ∈ b.pool, x.id ≠ o.id) (side : Side) (price : Decimal) :
    o.id ∉ stayers orderView (b.queue side price) := by
  intro hid
  rcases List.mem_map.mp hid with ⟨x, hx, hxid⟩
  exact hfresh x (mem_pool_of_mem_queue (List.mem_filter.mp hx).1) hxid

/-- An order that is announced and rests on no level. -/
theorem FirstCome.announce (h : FirstCome events b) (hfresh : ∀ x ∈ b.pool, x.id ≠ o.id)
    (remaining : Decimal) : FirstCome (events ++ [.rested o.id remaining]) b := by
  intro side price
  rw [restedIds_append]
  exact (List.sublist_append_left _ _).trans
    (sublist_dedup_concat (h side price) (id_notMem_stayers hfresh side price))

/-- An order that rests stands behind all others. -/
theorem FirstCome.insertMaker (h : FirstCome events b) (hfresh : ∀ x ∈ b.pool, x.id ≠ o.id)
    (remaining : Decimal) :
    FirstCome (events ++ [.rested o.id remaining]) (b.insertMaker o) := by
  cases hprice : o.price with
  -- an order without a price is not put into the book
  | none =>
    have hsame : b.insertMaker o = b := by
      unfold OrderBook.insertMaker
      rw [hprice]
    rw [hsame]
    exact h.announce hfresh remaining
  | some price =>
    intro side' price'
    have hqueue : (b.insertMaker o).queue side' price' =
        if side' = o.side ∧ price' = price then b.queue o.side price ++ [o]
        else b.queue side' price' := by
      rw [insertMaker_eq hprice]
      exact queue_withQueue ..
    rw [hqueue]
    -- it is announced last and stands last in its queue
    split_ifs with hlevel
    · rw [restedIds_append, stayers_concat]
      have hlast := sublist_dedup_concat (h o.side price) (id_notMem_stayers hfresh o.side price)
      split_ifs
      · exact hlast
      · rw [List.append_nil]
        exact (List.sublist_append_left _ _).trans hlast
    · exact h.announce hfresh remaining side' price'

theorem restedIds_cancel (b : OrderBook) (id : Uuid) (reason : CancelReason) :
    restedIds (b.cancelOrderInternal id reason).2 = [] := by
  have hspec := b.cancelOrderInternal_spec id reason
  generalize b.cancelOrderInternal id reason = r at hspec ⊢
  cases hspec with
  | stop | missing | stale | resting => rfl

theorem restedIds_maybeCancelOco (b : OrderBook) (id : Uuid) :
    restedIds (b.maybeCancelOco id).2 = [] := by
  unfold maybeCancelOco
  cases b.ocoLinks.find? id with
  | none => rfl
  | some linkedId => exact restedIds_cancel _ linkedId .oco

theorem restedIds_cancelOrder (b : OrderBook) (id : Uuid) :
    restedIds (b.cancelOrder id).2 = [] := by
  unfold cancelOrder
  cases b.ocoLinks.find? id with
  | none => exact restedIds_cancel b id .adminCancel
  | some linkedId =>
    change restedIds (_ ++ _) = []
    rw [restedIds_append, restedIds_cancel, restedIds_cancel]
    rfl

theorem restedIds_stopTriggered (triggered : List Order) :
    restedIds (triggered.map fun t => .stopTriggered t.id) = [] := by
  refine restedIds_eq_nil ?_
  intro id remaining hmem
  rcases List.mem_map.mp hmem with ⟨t, _, heq⟩
  cases heq

/-- A turn announces no resting order. -/
theorem TurnSpec.restedIds {t : Turn MatchState (MatchState × MatchExit)} (h : TurnSpec s t) :
    restedIds (stateAfter t).events = restedIds s.events := by
  cases h with
  | exhausted => rfl
  | fillWhole =>
    simp only [stateAfter, restedIds_append, restedIds_maybeCancelOco, List.append_nil]
    exact List.append_nil _
  | cancelTaker | cancelMaker | decrementTaker | decrementMaker | decrementBoth | fillPart =>
    simp only [stateAfter, restedIds_append]
    exact List.append_nil _

/-- A turn keeps the lines. -/
theorem TurnSpec.firstCome {t : Turn MatchState (MatchState × MatchExit)} (ht : TurnSpec s t)
    (h : FirstCome (past ++ s.events) s.book) :
    FirstCome (past ++ (stateAfter t).events) (stateAfter t).book := by
  intro side price
  rw [restedIds_append, ht.restedIds, ← restedIds_append]
  exact (stayers_step (ht.requeues side price)).trans (h side price)

/-- What follows the loop rests at most the taker. -/
theorem LoopSound.firstCome (hs : LoopSound taker s) (h : FirstCome (past ++ s.events) s.book)
    (exit : MatchExit) :
    FirstCome (past ++ (afterLoop s exit).2.1) (afterLoop s exit).1 := by
  have hdrain : ∀ {events : List EngineEvent} {b : OrderBook}, FirstCome events b →
      FirstCome events (b.drainAfter s.lastTradePrice).1 := by
    intro events b hb
    have hwithin := hb.within (rfl : restedIds [] = []) (within_drainAfter b s.lastTradePrice)
    rwa [List.append_nil] at hwithin
  cases exit with
  | takerConsumed => exact hdrain h
  | exhausted =>
    have hfinal : FirstCome (past ++ (s.events ++ (s.book.finalizeTaker s.taker s.hadFills).2))
        (s.book.finalizeTaker s.taker s.hadFills).1 := by
      have hspec := s.book.finalizeTaker_spec s.taker s.hadFills
      generalize s.book.finalizeTaker s.taker s.hadFills = final at hspec ⊢
      rw [← List.append_assoc]
      cases hspec with
      | filled => exact h.within rfl (Within.refl _)
      | cancelled => exact h.within rfl (Within.refl _)
      -- only here does an order come in
      | rested => exact h.insertMaker hs.fresh s.taker.remaining
    simp only [afterLoop]
    refine hdrain ?_
    rw [← List.append_assoc]
    split_ifs
    · exact hfinal.within (restedIds_maybeCancelOco _ _) (within_maybeCancelOco _ _)
    · exact hfinal.within rfl (Within.refl _)

/-- A run keeps them; a taker that rests comes last at its price. -/
theorem runMatchingLoop_firstCome {fuel : ℕ} {r : OrderBook × List EngineEvent × List Order}
    (henters : Enters b taker) (hrun : b.runMatchingLoop fuel taker = some r)
    (h : FirstCome past b) : FirstCome (past ++ r.2.1) r.1 := by
  rcases runMatchingLoop_eq_some hrun with ⟨s, exit, hloop, rfl⟩
  have hs := henters.loop_sound hloop
  have hfirst : FirstCome (past ++ s.events) s.book := by
    refine matchLoop_induct henters (fun _ s => FirstCome (past ++ s.events) s.book)
      (fun _ s _ => FirstCome (past ++ s.events) s.book) ?_ ?_ ?_ hloop
    · change FirstCome (past ++ []) b
      rw [List.append_nil]
      exact h
    · intro _ s s' _ _ hinv ht
      exact ht.firstCome hinv
    · intro _ s s' exit _ _ hinv ht _
      exact ht.firstCome hinv
  exact hs.firstCome hfirst exit

/-- So does a pass of the cascade. -/
theorem CascadeStep.firstCome {fuel : ℕ} {c c' : CascadeState} (h : CascadeStep fuel c c')
    (hc : CascadeSound c) (hfirst : FirstCome (past ++ c.events) c.book) :
    FirstCome (past ++ c'.events) c'.book := by
  cases h with
  | @push order rest book new triggered hqueue hrun =>
    have hpass := runMatchingLoop_firstCome (hc.enters hqueue) hrun hfirst
    have hstops := hpass.within (restedIds_stopTriggered triggered) (Within.refl _)
    rwa [List.append_assoc, List.append_assoc, ← List.append_assoc c.events] at hstops
  | cut hqueue hrun =>
    have hpass := runMatchingLoop_firstCome (hc.enters hqueue) hrun hfirst
    rwa [List.append_assoc] at hpass

/-- A call keeps the order of the levels. -/
theorem matchOrder_firstCome {fuel : ℕ} {r : OrderBook × List EngineEvent} (hb : b.Sound)
    (hwaiting : taker.Waiting) (hfresh : ∀ x ∈ b.pool, x.id ≠ taker.id)
    (hrun : b.matchOrder fuel taker = some r) (h : FirstCome past b) :
    FirstCome (past ++ r.2) r.1 := by
  cases matchOrder_cases hrun with
  | rejected => exact h.within rfl (Within.refl b)
  -- a stop is announced as rested, but is in no queue
  | stop =>
    unfold registerStopOrder
    cases b.stops.insert taker with
    | error => exact h.within rfl (Within.refl b)
    | ok stops =>
      have hannounced := h.announce hfresh taker.remaining
      exact fun side price => hannounced side price
  | matched _ hactive hloop =>
    have hready : taker.Ready := ⟨hwaiting.positive, hactive, hwaiting.priced⟩
    have henter : FirstCome (past ++ (b.enterCascade taker).events) b := by
      rw [enterCascade, List.append_nil]
      exact h
    rcases cascade_induct (cascadeSound_enter hb hready hfresh)
      (fun c => FirstCome (past ++ c.events) c.book) henter
      (fun c c' _ hc hinv hstep => hstep.firstCome hc hinv) hloop with ⟨c, _, _, heq, _, hinv⟩
    rw [heq]
    exact hinv

/-- So does every command. -/
theorem exec_firstCome {fuel : ℕ} {cmds : List BookCommand} {cmd : BookCommand}
    {r : OrderBook × List EngineEvent} (hb : After cmds b) (hcmd : Follows Order.Waiting cmds cmd)
    (hrun : b.exec fuel cmd = some r) (h : FirstCome past b) : FirstCome (past ++ r.2) r.1 := by
  cases cmd with
  | registerOco legA legB =>
    cases hrun
    rw [List.append_nil]
    exact fun side price => h side price
  | matchOrder order =>
    rcases hcmd order rfl with ⟨hwaiting, hfresh⟩
    exact matchOrder_firstCome hb.sound hwaiting (hb.fresh hfresh) hrun h
  | cancelOrder id =>
    cases hrun
    exact h.within (restedIds_cancelOrder b id) (within_cancelOrder b id)

end FirstCome

/-! ## Runs -/

/-- The books on which passes run: `b` itself, and those between two passes of a call on it. -/
def OrderBook.Passes (b book : OrderBook) : Prop :=
  book = b ∨ ∃ fuel order c, order.Ready ∧ (∀ o ∈ b.pool, o.id ≠ order.id) ∧
    Visits (cascadeTurn fuel) (b.enterCascade order) c ∧ book = c.book

theorem OrderBook.Sound.passes {b book : OrderBook} (hb : b.Sound) (h : b.Passes book) :
    book.Consistent := by
  rcases h with rfl | ⟨fuel, order, c, hready, hfresh, hv, rfl⟩
  · exact hb.book
  · exact (cascadeSound_of_visits (cascadeSound_enter hb hready hfresh) hv).book

/-- On every book that a run reaches the fills of a taker come in the order of their prices,
within its limit, and each when its maker is the first in line; and the orders that show their
whole quantity stand in each level in the order in which they came to rest. -/
theorem price_time_priority {cmds : List BookCommand} {fuel : ℕ} {b : OrderBook}
    {events : List (List EngineEvent)} (hall : ∀ o ∈ submitted cmds, o.Waiting)
    (hfresh : (submittedIds cmds).Nodup)
    (hrun : OrderBook.new.runEvents fuel cmds = some (b, events)) :
    (∀ book, b.Passes book → ∀ taker fuel r, book.runMatchingLoop fuel taker = some r →
      Prioritised book taker r.2.1) ∧
    FirstCome events.flatten b := by
  have hinv := runEvents_invariant (fun past events b => After past b ∧ FirstCome events b)
    (Follows Order.Waiting) ?_ [] [] ⟨after_new, firstCome_new⟩
    (follows_of_nodup hall hfresh) hrun
  · refine ⟨?_, hinv.2⟩
    intro book hbook taker fuel r hr
    exact (hinv.1.sound.passes hbook).prioritised taker hr
  · rintro past events b cmd r ⟨hafter, hfirst⟩ hcmd hr
    exact ⟨exec_after_waiting hafter hcmd hr, exec_firstCome hafter hcmd hr hfirst⟩

/-- Three offers on two levels, the first of which was cancelled. -/
def threeOffers : List BookCommand :=
  [.matchOrder (limitOrder 1 10 .sell 100 5), .matchOrder (limitOrder 2 11 .sell 101 5),
    .matchOrder (limitOrder 3 12 .sell 100 5), .cancelOrder 1]

/-- A bid takes the better of two levels first. -/
theorem priority_of_bid : ∃ b events r, OrderBook.new.runEvents 5 threeOffers = some (b, events) ∧
    b.runMatchingLoop 5 (limitOrder 4 13 .buy 101 7) = some r ∧ fillPrices r.2.1 = [100, 101] ∧
    Prioritised b (limitOrder 4 13 .buy 101 7) r.2.1 ∧ FirstCome events.flatten b := by
  have hrun : (OrderBook.new.runEvents 5 threeOffers).isSome = true := by decide +kernel
  rcases Option.isSome_iff_exists.mp hrun with ⟨⟨b, events⟩, hrun⟩
  have hpass : ((OrderBook.new.runEvents 5 threeOffers).bind fun r =>
      (r.1.runMatchingLoop 5 (limitOrder 4 13 .buy 101 7)).map fun r => fillPrices r.2.1) =
      some [100, 101] := by decide +kernel
  rw [hrun, Option.bind_some, Option.map_eq_some_iff] at hpass
  rcases hpass with ⟨r, hr, hprices⟩
  -- three offers of one form
  have hall : ∀ o ∈ submitted threeOffers, o.Waiting := by
    intro o ho
    have hform : ∃ id user price, o = limitOrder id user .sell price 5 := by
      simp only [threeOffers, submitted, List.mem_cons, List.not_mem_nil, or_false] at ho
      rcases ho with rfl | rfl | rfl
      · exact ⟨1, 10, 100, rfl⟩
      · exact ⟨2, 11, 101, rfl⟩
      · exact ⟨3, 12, 100, rfl⟩
    rcases hform with ⟨id, user, price, rfl⟩
    exact ⟨Int.ofNat_succ_pos 4, fun _ => ⟨price, rfl⟩⟩
  have hpriority := price_time_priority hall (by decide) hrun
  exact ⟨b, events, r, hrun, hr, hprices, hpriority.1 b (.inl rfl) _ 5 r hr, hpriority.2⟩

end CryptoCex.Core
