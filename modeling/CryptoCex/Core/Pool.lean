import CryptoCex.Core.Progress

/-!
# The pool machine

What the matching engine is for, without levels, queues and indexes: a pool of
live orders, some resting and some waiting as stops, and one taker that trades
with, cancels or decrements them one at a time.

* `Pool.Cancel`, `Pool.OcoCancel`: an order leaves the pool, announced by a
  `cancelled` event; nothing happens when it is not there.
* `Pass.Turn`: the taker faces one resting order at the best opposite price.
* `Pass.Finish`: the taker is rested, cancelled or done, and the stops hit by
  the last trade leave the pool.

The matching loop refines this machine: `TurnSpec.refines` maps every turn of
the loop on a consistent book to a `Pass.Turn` of the pool, and
`runMatchingLoop_induct` transfers an invariant of the machine to a whole run of
`runMatchingLoop`.
-/

namespace CryptoCex.Core

open Loop OrderBook

/-- An order that may enter the matching loop. -/
structure Order.Ready (o : Order) : Prop where
  positive : 0 < o.remaining
  active : o.orderType.isStop = false
  priced : o.orderType.canRest = true → ∃ p, o.price = some p

/-- The live orders of one symbol and their OCO links. -/
structure Pool where
  resting : Multiset Order
  stops : Multiset Order
  links : OrdMap Uuid Uuid

namespace Pool

/-- All live orders of the pool. -/
def live (P : Pool) : Multiset Order := P.resting + P.stops

/-- The ids of the live orders. -/
def ids (P : Pool) : Multiset Uuid := P.live.map (·.id)

/-- A cancel by id: nothing happens when no live order has the id. -/
inductive Cancel (P : Pool) (id : Uuid) (reason : CancelReason) :
    Pool × List EngineEvent → Prop where
  | absent (hid : ∀ o ∈ P.live, o.id ≠ id) : Cancel P id reason (P, [])
  | resting (o : Order) (others : Multiset Order) (hid : o.id = id)
      (hpool : P.resting = o ::ₘ others) :
      Cancel P id reason ({ P with resting := others }, [.cancelled id reason])
  | stop (o : Order) (others : Multiset Order) (hid : o.id = id)
      (hpool : P.stops = o ::ₘ others) :
      Cancel P id reason ({ P with stops := others }, [.cancelled id reason])

/-- The cancel of the OCO sibling of a terminal order: the link is used up. -/
inductive OcoCancel (P : Pool) (id : Uuid) : Pool × List EngineEvent → Prop where
  | unlinked (hlink : P.links.find? id = none) : OcoCancel P id (P, [])
  | linked (sibling : Uuid) (hlink : P.links.find? id = some sibling)
      {r : Pool × List EngineEvent}
      (hcancel : Cancel { P with links := (P.links.erase id).erase sibling } sibling .oco r) :
      OcoCancel P id r

variable {P : Pool} {id : Uuid} {reason : CancelReason} {r : Pool × List EngineEvent}

/-- A cancellation leaves the OCO links alone; they go when an order is done. -/
theorem Cancel.links_eq (h : Cancel P id reason r) : r.1.links = P.links := by
  cases h <;> rfl

/-- It takes orders off the book, and puts none on it. -/
theorem Cancel.resting_le (h : Cancel P id reason r) : r.1.resting ≤ P.resting := by
  cases h with
  | absent => exact le_refl _
  | resting o others _ hpool =>
    rw [hpool]
    exact Multiset.le_cons_self _ _
  | stop => exact le_refl _

theorem Cancel.stops_le (h : Cancel P id reason r) : r.1.stops ≤ P.stops := by
  cases h with
  | absent => exact le_refl _
  | resting => exact le_refl _
  | stop o others _ hpool =>
    rw [hpool]
    exact Multiset.le_cons_self _ _

theorem OcoCancel.resting_le (h : OcoCancel P id r) : r.1.resting ≤ P.resting := by
  cases h with
  | unlinked => exact le_refl _
  | linked _ _ hcancel => exact hcancel.resting_le

theorem OcoCancel.stops_le (h : OcoCancel P id r) : r.1.stops ≤ P.stops := by
  cases h with
  | unlinked => exact le_refl _
  | linked _ _ hcancel => exact hcancel.stops_le

/-- Fewer orders have fewer ids. -/
theorem ids_le_of_le {P P' : Pool} (hresting : P'.resting ≤ P.resting)
    (hstops : P'.stops ≤ P.stops) : P'.ids ≤ P.ids :=
  Multiset.map_le_map (add_le_add hresting hstops)

/-- An OCO cancel brings no new id. -/
theorem OcoCancel.ids_le (h : OcoCancel P id r) : r.1.ids ≤ P.ids :=
  ids_le_of_le h.resting_le h.stops_le

end Pool

/-- A taker being matched against a pool. -/
structure Pass where
  pool : Pool
  taker : Order
  events : List EngineEvent
  lastTradePrice : Option Decimal

namespace Pass

/-- The taker faces the resting order `m` at the best opposite price. -/
structure Faces (a : Pass) (price : Decimal) (m : Order) (others : Multiset Order) : Prop where
  takerPos : 0 < a.taker.remaining
  makerPos : 0 < m.remaining
  pool : a.pool.resting = m ::ₘ others
  side : m.side = a.taker.side.opposite
  priced : m.price = some price
  acceptable : takerPriceSatisfied a.taker price = true
  best : ∀ o ∈ a.pool.resting, o.side = a.taker.side.opposite → ∀ p, o.price = some p →
    AtLeastAsGood a.taker.side price p

/-- No resting order is left that the taker could face. -/
def Exhausted (a : Pass) : Prop :=
  a.taker.remaining ≤ 0 ∨ ∀ o ∈ a.pool.resting, o.side = a.taker.side.opposite →
    ∀ p, o.price = some p → takerPriceSatisfied a.taker p = false

/-- One turn of a taker against the pool. -/
inductive Turn (a : Pass) : Loop.Turn Pass (Pass × MatchExit) → Prop where
  | exhausted (h : a.Exhausted) : Turn a (.done (a, .exhausted))
  | cancelTaker {price m others} (hm : a.Faces price m others)
      (hown : a.taker.userId = m.userId) (hmode : a.taker.stpMode = .cancelTaker) :
      Turn a (.done ({ a with
        events := a.events ++ [.cancelled a.taker.id .selfTradePrevented] }, .takerConsumed))
  | cancelMaker {price m others} (hm : a.Faces price m others)
      (hown : a.taker.userId = m.userId) (hmode : a.taker.stpMode = .cancelMaker) :
      Turn a (.next { a with
        pool := { a.pool with resting := others }
        events := a.events ++ [.cancelled m.id .selfTradePrevented] })
  | decrementTaker {price m others} (hm : a.Faces price m others)
      (hown : a.taker.userId = m.userId) (hmode : a.taker.stpMode = .decrement)
      (hlt : a.taker.remaining < m.remaining) :
      Turn a (.done ({ a with
        pool := { a.pool with
          resting := m.withRemaining (m.remaining - a.taker.remaining) ::ₘ others }
        taker := a.taker.withRemaining 0
        events := a.events ++ [.cancelled a.taker.id .selfTradePrevented] }, .takerConsumed))
  | decrementMaker {price m others} (hm : a.Faces price m others)
      (hown : a.taker.userId = m.userId) (hmode : a.taker.stpMode = .decrement)
      (hgt : m.remaining < a.taker.remaining) :
      Turn a (.next { a with
        pool := { a.pool with resting := others }
        taker := a.taker.withRemaining (a.taker.remaining - m.remaining)
        events := a.events ++ [.cancelled m.id .selfTradePrevented] })
  | decrementBoth {price m others} (hm : a.Faces price m others)
      (hown : a.taker.userId = m.userId) (hmode : a.taker.stpMode = .decrement)
      (heq : a.taker.remaining = m.remaining) :
      Turn a (.done ({ a with
        pool := { a.pool with resting := others }
        taker := a.taker.withRemaining 0
        events := a.events ++ [.cancelled m.id .selfTradePrevented,
          .cancelled a.taker.id .selfTradePrevented] }, .takerConsumed))
  | fillPart {price m others} (hm : a.Faces price m others)
      (hother : a.taker.userId ≠ m.userId)
      (hpart : (fillOf a.taker m price).quantity < m.remaining) :
      Turn a (.next {
        pool := { a.pool with
          resting := m.withRemaining (m.remaining - (fillOf a.taker m price).quantity) ::ₘ others }
        taker := a.taker.withRemaining (a.taker.remaining - (fillOf a.taker m price).quantity)
        events := a.events ++ [.fill (fillOf a.taker m price)]
        lastTradePrice := some price })
  | fillWhole {price m others} (hm : a.Faces price m others)
      (hother : a.taker.userId ≠ m.userId)
      (hwhole : m.remaining = (fillOf a.taker m price).quantity) {r : Pool × List EngineEvent}
      (hoco : Pool.OcoCancel { a.pool with resting := others } m.id r) :
      Turn a (.next {
        pool := r.1
        taker := a.taker.withRemaining (a.taker.remaining - (fillOf a.taker m price).quantity)
        events := a.events ++ [.fill (fillOf a.taker m price)] ++ r.2
        lastTradePrice := some price })

/-- What happens to a taker that was not consumed by self-trade prevention. -/
inductive Finalize (a : Pass) : Pool × List EngineEvent → Prop where
  | filled (hzero : a.taker.remaining = 0) {r : Pool × List EngineEvent}
      (hoco : Pool.OcoCancel a.pool a.taker.id r) : Finalize a r
  | cancelled (hne : a.taker.remaining ≠ 0) (reason : CancelReason)
      (hfok : reason = .fokUnfilled ↔ a.taker.orderType = .fok)
      (hpost : reason = .postOnlyCrossed →
        a.taker.orderType = .postOnly ∧ a.lastTradePrice ≠ none)
      {r : Pool × List EngineEvent} (hoco : Pool.OcoCancel a.pool a.taker.id r) :
      Finalize a (r.1, .cancelled a.taker.id reason :: r.2)
  | rested (hne : a.taker.remaining ≠ 0) (hrest : a.taker.orderType.canRest = true) :
      Finalize a ({ a.pool with resting := a.taker ::ₘ a.pool.resting },
        [.rested a.taker.id a.taker.remaining])

/-- The stops hit by the last trade leave the pool. -/
structure Drains (P : Pool) (last : Option Decimal) (hit : List Order)
    (others : Multiset Order) : Prop where
  split : P.stops = ↑hit + others
  hits : ∀ o ∈ hit, ∃ p, last = some p ∧ o.TriggeredBy p
  misses : ∀ o ∈ others, ∀ p, last = some p → ¬ o.TriggeredBy p

/-- The end of a pass: the taker is finalised unless it was consumed, and the
stops hit by the last trade leave the pool in their active form. -/
inductive Finish (a : Pass) : MatchExit → Pool × List EngineEvent × List Order → Prop where
  | consumed {hit : List Order} {others : Multiset Order}
      (hdrain : Drains a.pool a.lastTradePrice hit others) :
      Finish a .takerConsumed
        ({ a.pool with stops := others }, a.events, hit.map convertStop)
  | finalized {P : Pool} {events : List EngineEvent} (hfinal : Finalize a (P, events))
      {hit : List Order} {others : Multiset Order}
      (hdrain : Drains P a.lastTradePrice hit others) :
      Finish a .exhausted ({ P with stops := others }, a.events ++ events, hit.map convertStop)

/-- What holds at every turn of a pass of `taker`. -/
structure Sound (taker : Order) (a : Pass) : Prop where
  same : a.taker = taker.withRemaining a.taker.remaining
  remaining : 0 ≤ a.taker.remaining
  unique : (taker.id ::ₘ a.pool.ids).Nodup
  positive : ∀ o ∈ a.pool.resting, 0 < o.remaining

/-- The pass after a turn. -/
def after : Loop.Turn Pass (Pass × MatchExit) → Pass
  | .next a => a
  | .done r => r.1

variable {a : Pass} {taker m : Order} {others : Multiset Order} {price : Decimal}

/-- An order that only changes its remainder keeps its id. -/
theorem ids_withRemaining (P : Pool) (m : Order) (r : Decimal) (others : Multiset Order) :
    Pool.ids { P with resting := m.withRemaining r ::ₘ others } =
      Pool.ids { P with resting := m ::ₘ others } := by
  simp only [Pool.ids, Pool.live, Multiset.cons_add, Multiset.map_cons, Order.id_withRemaining]

/-- The maker is one of the orders that rest. -/
theorem Faces.pool_eq (hm : a.Faces price m others) :
    a.pool = { a.pool with resting := m ::ₘ others } := by
  have h := hm.pool
  rcases hp : a.pool with ⟨resting, stops, links⟩
  rw [hp] at h
  cases h
  rfl

theorem Faces.mem (hm : a.Faces price m others) : m ∈ a.pool.resting := by
  rw [hm.pool]
  exact Multiset.mem_cons_self _ _

theorem Faces.others_le (hm : a.Faces price m others) : others ≤ a.pool.resting := by
  rw [hm.pool]
  exact Multiset.le_cons_self _ _

/-- A turn that shrinks the taker and takes orders out of the pool. -/
theorem Sound.shrink (h : Sound taker a) {a' : Pass} {r : Decimal}
    (htaker : a'.taker = a.taker.withRemaining r) (hr : 0 ≤ r)
    (hresting : a'.pool.resting ≤ a.pool.resting) (hstops : a'.pool.stops ≤ a.pool.stops) :
    Sound taker a' where
  same := by
    rw [htaker, h.same]
    rfl
  remaining := by
    rw [htaker]
    exact hr
  unique := Multiset.nodup_of_le
    (Multiset.cons_le_cons _ (Pool.ids_le_of_le hresting hstops)) h.unique
  positive := fun o ho => h.positive o (Multiset.mem_of_le hresting ho)

/-- A turn that shrinks the taker and the order it faces. -/
theorem Sound.shrinkBoth (h : Sound taker a) (hm : a.Faces price m others) {a' : Pass}
    {r q : Decimal} (htaker : a'.taker = a.taker.withRemaining r) (hr : 0 ≤ r) (hq : 0 < q)
    (hpool : a'.pool = { a.pool with resting := m.withRemaining q ::ₘ others }) :
    Sound taker a' where
  same := by
    rw [htaker, h.same]
    rfl
  remaining := by
    rw [htaker]
    exact hr
  unique := by
    rw [hpool, ids_withRemaining, ← hm.pool_eq]
    exact h.unique
  positive := by
    intro o ho
    rw [hpool] at ho
    rcases Multiset.mem_cons.mp ho with rfl | ho
    · exact hq
    · exact h.positive o (Multiset.mem_of_le hm.others_le ho)

/-- A turn keeps the pass sound. -/
theorem Turn.sound {t : Loop.Turn Pass (Pass × MatchExit)} (ht : a.Turn t)
    (h : Sound taker a) : Sound taker (after t) := by
  cases ht with
  | exhausted => exact h
  | cancelTaker => exact h.shrink rfl h.remaining (le_refl _) (le_refl _)
  | cancelMaker hm => exact h.shrink rfl h.remaining hm.others_le (le_refl _)
  | decrementTaker hm _ _ hlt =>
    exact h.shrinkBoth hm rfl (le_refl 0) (Int.sub_pos_of_lt hlt) rfl
  | decrementMaker hm _ _ hgt =>
    exact h.shrink rfl (Int.sub_nonneg_of_le hgt.le) hm.others_le (le_refl _)
  | decrementBoth hm => exact h.shrink rfl (le_refl 0) hm.others_le (le_refl _)
  | fillPart hm _ hpart =>
    exact h.shrinkBoth hm rfl (Int.sub_nonneg_of_le (fillOf_quantity_le_taker ..))
      (Int.sub_pos_of_lt hpart) rfl
  | fillWhole hm _ _ hoco =>
    exact h.shrink rfl (Int.sub_nonneg_of_le (fillOf_quantity_le_taker ..))
      (hoco.resting_le.trans hm.others_le) hoco.stops_le

/-- A turn brings no order into the pool. -/
theorem Turn.ids_le {t : Loop.Turn Pass (Pass × MatchExit)} (ht : a.Turn t) :
    (after t).pool.ids ≤ a.pool.ids := by
  have hdrop : ∀ {price m others}, a.Faces price m others →
      Pool.ids { a.pool with resting := others } ≤ a.pool.ids := by
    intro price m others hm
    exact Pool.ids_le_of_le hm.others_le (le_refl _)
  have hshrink : ∀ {price m others}, a.Faces price m others → ∀ r,
      Pool.ids { a.pool with resting := m.withRemaining r ::ₘ others } ≤ a.pool.ids := by
    intro price m others hm r
    rw [ids_withRemaining, ← hm.pool_eq]
  cases ht with
  | exhausted => exact le_refl _
  | cancelTaker => exact le_refl _
  | cancelMaker hm => exact hdrop hm
  | decrementTaker hm => exact hshrink hm _
  | decrementMaker hm => exact hdrop hm
  | decrementBoth hm => exact hdrop hm
  | fillPart hm => exact hshrink hm _
  | fillWhole hm _ _ hoco => exact hoco.ids_le.trans (hdrop hm)

/-- It registers no stop. -/
theorem Turn.stops_le {t : Loop.Turn Pass (Pass × MatchExit)} (ht : a.Turn t) :
    (after t).pool.stops ≤ a.pool.stops := by
  cases ht with
  | fillWhole _ _ _ hoco => exact hoco.stops_le
  | _ => exact le_refl _

/-- A turn makes no other order rest. -/
theorem Turn.resting_le {t : Loop.Turn Pass (Pass × MatchExit)} (ht : a.Turn t) :
    (after t).pool.resting.map (·.id) ≤ a.pool.resting.map (·.id) := by
  have hshrink : ∀ {price m others}, a.Faces price m others → ∀ r,
      (m.withRemaining r ::ₘ others).map (·.id) ≤ a.pool.resting.map (·.id) := by
    intro price m others hm r
    rw [hm.pool, Multiset.map_cons, Multiset.map_cons, Order.id_withRemaining]
  cases ht with
  | exhausted => exact le_refl _
  | cancelTaker => exact le_refl _
  | cancelMaker hm => exact Multiset.map_le_map hm.others_le
  | decrementTaker hm => exact hshrink hm _
  | decrementMaker hm => exact Multiset.map_le_map hm.others_le
  | decrementBoth hm => exact Multiset.map_le_map hm.others_le
  | fillPart hm => exact hshrink hm _
  | fillWhole hm _ _ hoco => exact Multiset.map_le_map (hoco.resting_le.trans hm.others_le)

/-- Finalising the taker makes at most the taker rest. -/
theorem Finalize.resting_le {r : Pool × List EngineEvent} (h : a.Finalize r) :
    r.1.resting.map (·.id) ≤ a.taker.id ::ₘ a.pool.resting.map (·.id) := by
  cases h with
  | filled _ hoco =>
    exact (Multiset.map_le_map hoco.resting_le).trans (Multiset.le_cons_self _ _)
  | cancelled _ _ _ _ hoco =>
    exact (Multiset.map_le_map hoco.resting_le).trans (Multiset.le_cons_self _ _)
  | rested => rw [Multiset.map_cons]

/-- Finalising the taker brings at most the taker into the pool. -/
theorem Finalize.ids_le {r : Pool × List EngineEvent} (h : a.Finalize r) :
    r.1.ids ≤ a.taker.id ::ₘ a.pool.ids := by
  cases h with
  | filled _ hoco => exact hoco.ids_le.trans (Multiset.le_cons_self _ _)
  | cancelled _ _ _ _ hoco => exact hoco.ids_le.trans (Multiset.le_cons_self _ _)
  | rested => simp [Pool.ids, Pool.live]

theorem Finalize.stops_le {r : Pool × List EngineEvent} (h : a.Finalize r) :
    r.1.stops ≤ a.pool.stops := by
  cases h with
  | filled _ hoco => exact hoco.stops_le
  | cancelled _ _ _ _ hoco => exact hoco.stops_le
  | rested => exact le_refl _

/-- The drained stops and what stays make up the pool. -/
theorem Drains.ids_eq {P : Pool} {last : Option Decimal} {hit : List Order}
    (h : Drains P last hit others) :
    P.ids = ↑(hit.map (·.id)) + Pool.ids { P with stops := others } := by
  simp only [Pool.ids, Pool.live, h.split, Multiset.map_add, ← Multiset.map_coe]
  exact add_left_comm _ _ _

end Pass

/-! ## The matching loop refines the pool machine -/

/-- The contents of a book. -/
def OrderBook.toPool (b : OrderBook) : Pool where
  resting := b.restingPool
  stops := b.stopPool
  links := b.ocoLinks

@[simp] theorem OrderBook.live_toPool (b : OrderBook) : b.toPool.live = b.pool := rfl

/-- The pass a state of the matching loop stands for. -/
def MatchState.toPass (s : MatchState) : Pass where
  pool := s.book.toPool
  taker := s.taker
  events := s.events
  lastTradePrice := s.lastTradePrice

/-- The pass outcome a turn of the matching loop stands for. -/
def turnToPass : Loop.Turn MatchState (MatchState × MatchExit) →
    Loop.Turn Pass (Pass × MatchExit)
  | .next s => .next s.toPass
  | .done r => .done (r.1.toPass, r.2)

/-- A cancellation of the book is one of its pool. -/
theorem OrderBook.Cancels.toPool {b : OrderBook} {id : Uuid} {reason : CancelReason}
    {r : OrderBook × List EngineEvent} (h : Cancels b id reason r) :
    Pool.Cancel b.toPool id reason (r.1.toPool, r.2) := by
  cases h with
  | none hid => exact Pool.Cancel.absent hid
  | resting b' o hid _ hresting hstops hlinks =>
    have hpool : b'.toPool = { b.toPool with resting := b'.restingPool } := by
      simp only [OrderBook.toPool, stopPool, hstops, hlinks]
    rw [hpool]
    exact Pool.Cancel.resting o _ hid hresting
  | stop b' o hid _ hresting hstops hlinks =>
    have hpool : b'.toPool = { b.toPool with stops := b'.stopPool } := by
      simp only [OrderBook.toPool, hresting, hlinks]
    rw [hpool]
    exact Pool.Cancel.stop o _ hid hstops

/-- So is an OCO cancel. -/
theorem OrderBook.Consistent.ocoCancel {b : OrderBook} (hb : b.Consistent) (id : Uuid) :
    Pool.OcoCancel b.toPool id ((b.maybeCancelOco id).1.toPool, (b.maybeCancelOco id).2) := by
  rcases hb.maybeCancelOco id with ⟨hlink, heq⟩ | ⟨sibling, hlink, hcancel⟩
  · rw [heq]
    exact Pool.OcoCancel.unlinked hlink
  · exact Pool.OcoCancel.linked sibling hlink hcancel.toPool

theorem OrderBook.Consistent.maybeCancelOco_consistent {b : OrderBook} (hb : b.Consistent)
    (id : Uuid) : (b.maybeCancelOco id).1.Consistent := by
  rcases hb.maybeCancelOco id with ⟨_, heq⟩ | ⟨sibling, _, hcancel⟩
  · rw [heq]
    exact hb
  · exact hcancel.consistent (consistent_unlink.mpr hb)

/-- The maker at the front of the best level is the one the pass faces. -/
theorem Meets.faces {s : MatchState} {price : Decimal} {m : Order} {rest : List Order}
    (hm : Meets s price m rest) (hb : s.book.Consistent) {others : Multiset Order}
    (hothers : s.book.restingPool = m ::ₘ others) : s.toPass.Faces price m others := by
  rcases hb.front hm.level with ⟨_, hside, hprice, hpos⟩
  refine ⟨hm.pos, hpos, hothers, hside, hprice, hm.acceptable, ?_⟩
  intro o ho hoside p hp
  rcases mem_restingPool.mp ho with ⟨side, price', hq⟩
  have hplaced := hb.placed side price' o hq
  have hside' : side = s.taker.side.opposite := hplaced.1.symm.trans hoside
  have hprice' : price' = p := Option.some.inj (hplaced.2.symm.trans hp)
  subst hside' hprice'
  exact bestOppositePrice_best hb.noEmpty hm.best (List.ne_nil_of_mem hq)

theorem Meets.ids_dropFront {s : MatchState} {price : Decimal} {m : Order} {rest : List Order}
    (hm : Meets s price m rest) : s.book.toPool.ids =
      m.id ::ₘ (s.book.dropFront s.taker.side.opposite price m rest).toPool.ids := by
  rw [Pool.ids, Pool.ids, live_toPool, live_toPool, pool_dropFront hm.level, Multiset.map_cons]

theorem Meets.ids_shrinkFront {s : MatchState} {price : Decimal} {m : Order} {rest : List Order}
    (hm : Meets s price m rest) {q : List Order} {r : Decimal}
    (hq : q.Perm (m.withRemaining r :: rest)) :
    (s.book.withQueue s.taker.side.opposite price q).toPool.ids = s.book.toPool.ids := by
  rcases pool_shrinkFront hm.level hq with ⟨others, hpool, hpool'⟩
  rw [Pool.ids, Pool.ids, live_toPool, live_toPool, hpool, hpool', Multiset.map_cons,
    Multiset.map_cons, Order.id_withRemaining]

/-- A loop that finds no acceptable price leaves none in the pool. -/
theorem exhausted_toPass {s : MatchState} (hb : s.book.Consistent)
    (h : s.taker.remaining ≤ 0 ∨ ∀ price, s.book.bestOppositePrice s.taker.side = some price →
      takerPriceSatisfied s.taker price = false) : s.toPass.Exhausted := by
  rcases h with h | h
  · exact Or.inl h
  · refine Or.inr ?_
    intro o ho hoside p hp
    rcases mem_restingPool.mp ho with ⟨side, price, hq⟩
    have hplaced := hb.placed side price o hq
    have hside : side = s.taker.side.opposite := hplaced.1.symm.trans hoside
    have hprice : price = p := Option.some.inj (hplaced.2.symm.trans hp)
    subst hside hprice
    -- the best level is refused, so every level behind it is
    cases hbest : s.book.bestOppositePrice s.taker.side with
    | none =>
      rw [bestOppositePrice_eq_none hb.noEmpty hbest] at hq
      cases hq
    | some best =>
      have hgood := bestOppositePrice_best hb.noEmpty hbest (List.ne_nil_of_mem hq)
      have hbad := h best hbest
      by_contra hok
      rw [Bool.not_eq_false] at hok
      have := takerPriceSatisfied_of_atLeastAsGood hgood hok
      rw [hbad] at this
      cases this

/-- Every turn of the matching loop on a consistent book is a turn of the pool
machine. -/
theorem TurnSpec.refines {s : MatchState} {t : Loop.Turn MatchState (MatchState × MatchExit)}
    (h : TurnSpec s t) (hb : s.book.Consistent) : s.toPass.Turn (turnToPass t) := by
  -- both ways to write a level back change the resting orders only
  have hdrop : ∀ {price m rest}, Meets s price m rest →
      (s.book.dropFront s.taker.side.opposite price m rest).toPool =
        { s.book.toPool with
          resting := (s.book.dropFront s.taker.side.opposite price m rest).restingPool } := by
    intro price m rest _
    simp only [OrderBook.toPool, stopPool_dropFront, ocoLinks_dropFront]
  have hset : ∀ price q, (s.book.withQueue s.taker.side.opposite price q).toPool =
      { s.book.toPool with
        resting := (s.book.withQueue s.taker.side.opposite price q).restingPool } := by
    intro price q
    simp only [OrderBook.toPool, stopPool_withQueue, ocoLinks_withQueue]
  cases h with
  | exhausted hex => exact .exhausted (exhausted_toPass hb hex)
  | cancelTaker hm hown hmode =>
    exact .cancelTaker (hm.faces hb (restingPool_dropFront hm.level)) hown hmode
  | cancelMaker hm hown hmode =>
    simp only [turnToPass, MatchState.toPass, hdrop hm]
    exact .cancelMaker (hm.faces hb (restingPool_dropFront hm.level)) hown hmode
  | @decrementTaker price m rest hm hown hmode hlt =>
    rcases restingPool_shrinkFront hm.level (List.Perm.refl
      (m.withRemaining (m.remaining - s.taker.remaining) :: rest)) with ⟨others, hold, hnew⟩
    simp only [turnToPass, MatchState.toPass, hset, hnew]
    exact .decrementTaker (hm.faces hb hold) hown hmode hlt
  | decrementMaker hm hown hmode hgt =>
    simp only [turnToPass, MatchState.toPass, hdrop hm]
    exact .decrementMaker (hm.faces hb (restingPool_dropFront hm.level)) hown hmode hgt
  | decrementBoth hm hown hmode heq =>
    simp only [turnToPass, MatchState.toPass, hdrop hm]
    exact .decrementBoth (hm.faces hb (restingPool_dropFront hm.level)) hown hmode heq
  | @fillPart price m rest hm hother hpart =>
    rcases restingPool_shrinkFront hm.level
      (levelAfterFill_perm m rest (fillOf s.taker m price).quantity) with ⟨others, hold, hnew⟩
    have hlt : (fillOf s.taker m price).quantity < m.remaining :=
      lt_of_le_of_ne (fillOf_quantity_le ..) (Ne.symm hpart)
    simp only [turnToPass, MatchState.toPass, hset, hnew]
    exact .fillPart (hm.faces hb hold) hother hlt
  | fillWhole hm hother hwhole =>
    have hoco := (hb.dropFront hm.level).ocoCancel
    simp only [hdrop hm] at hoco
    exact .fillWhole (hm.faces hb (restingPool_dropFront hm.level)) hother hwhole (hoco _)

/-- Every turn of the matching loop keeps the book consistent. -/
theorem TurnSpec.consistent {s : MatchState} {t : Loop.Turn MatchState (MatchState × MatchExit)}
    (h : TurnSpec s t) (hb : s.book.Consistent) : (stateAfter t).book.Consistent := by
  cases h with
  | exhausted => exact hb
  | cancelTaker => exact hb
  | cancelMaker hm => exact hb.dropFront hm.level
  | decrementTaker hm _ _ hlt =>
    exact hb.shrinkFront hm.level (Int.sub_pos_of_lt hlt) (List.Perm.refl _)
  | decrementMaker hm => exact hb.dropFront hm.level
  | decrementBoth hm => exact hb.dropFront hm.level
  | @fillPart price m rest hm _ hpart =>
    have hlt : (fillOf s.taker m price).quantity < m.remaining :=
      lt_of_le_of_ne (fillOf_quantity_le ..) (Ne.symm hpart)
    exact hb.shrinkFront hm.level (Int.sub_pos_of_lt hlt) (levelAfterFill_perm _ _ _)
  | fillWhole hm => exact (hb.dropFront hm.level).maybeCancelOco_consistent _

/-- What holds at every turn of the matching loop of `taker`. -/
structure LoopSound (taker : Order) (s : MatchState) : Prop where
  book : s.book.Consistent
  pass : s.toPass.Sound taker
  fills : s.hadFills = s.lastTradePrice.isSome

/-- The taker is the order that entered the loop, with less to match. -/
theorem LoopSound.taker_eq {taker : Order} {s : MatchState} (hs : LoopSound taker s) :
    s.taker = taker.withRemaining s.taker.remaining :=
  hs.pass.same

/-- The taker is not in the book. -/
theorem LoopSound.fresh {taker : Order} {s : MatchState} (hs : LoopSound taker s) :
    ∀ o ∈ s.book.pool, o.id ≠ s.taker.id := by
  intro o ho hid
  rw [hs.taker_eq] at hid
  exact (Multiset.nodup_cons.mp hs.pass.unique).1 (Multiset.mem_map.mpr ⟨o, ho, hid⟩)

/-- A taker that can rest has a price. -/
theorem LoopSound.priced {taker : Order} {s : MatchState} (hs : LoopSound taker s)
    (hready : taker.Ready) (hrest : s.taker.orderType.canRest = true) :
    ∃ price, s.taker.price = some price := by
  rw [hs.taker_eq] at hrest ⊢
  exact hready.priced hrest

theorem TurnSpec.hadFills {s : MatchState} {t : Loop.Turn MatchState (MatchState × MatchExit)}
    (h : TurnSpec s t) (hf : s.hadFills = s.lastTradePrice.isSome) :
    (stateAfter t).hadFills = (stateAfter t).lastTradePrice.isSome := by
  cases h <;> first | exact hf | rfl

/-- The loop goes on soundly. -/
theorem TurnSpec.sound_next {taker : Order} {s s' : MatchState} (h : TurnSpec s (.next s'))
    (hs : LoopSound taker s) : LoopSound taker s' :=
  ⟨h.consistent hs.book, (h.refines hs.book).sound hs.pass, h.hadFills hs.fills⟩

/-- And it ends soundly. -/
theorem TurnSpec.sound_done {taker : Order} {s : MatchState} {r : MatchState × MatchExit}
    (h : TurnSpec s (.done r)) (hs : LoopSound taker s) : LoopSound taker r.1 :=
  ⟨h.consistent hs.book, (h.refines hs.book).sound hs.pass, h.hadFills hs.fills⟩

/-! ## The end of a pass -/

/-- The stops that are drained are those the last price triggers. -/
theorem drains_toPool {b : OrderBook} (hb : b.Consistent) (last : Option Decimal) :
    Pass.Drains b.toPool last (b.hitAfter last) (b.drainAfter last).1.stopPool where
  split := b.stopPool_drainAfter last
  hits := by
    intro o ho
    cases last with
    | none => cases ho
    | some p => exact ⟨p, rfl, (StopRegistry.triggeredBy_of_mem_hitBy hb.filed.inPlace ho).2⟩
  misses := by
    intro o ho p hp
    subst hp
    exact StopRegistry.not_triggeredBy_of_drained hb.filed.inPlace ho

theorem toPool_drainAfter (b : OrderBook) (last : Option Decimal) :
    (b.drainAfter last).1.toPool = { b.toPool with stops := (b.drainAfter last).1.stopPool } := by
  simp only [OrderBook.toPool, restingPool_drainAfter, ocoLinks_drainAfter]

theorem takerTerminal_cancelled (taker : Order) (id : Uuid) (reason : CancelReason) :
    takerTerminal taker [.cancelled id reason] = true := by
  simp [takerTerminal]

variable {taker : Order} {s : MatchState}

/-- The part of `afterLoop` that deals with the taker. -/
theorem finalize_refines (hs : LoopSound taker s) (hready : taker.Ready) :
    let final := s.book.finalizeTaker s.taker s.hadFills
    let oco := if takerTerminal s.taker final.2 then final.1.maybeCancelOco s.taker.id
      else (final.1, [])
    oco.1.Consistent ∧ s.toPass.Finalize (oco.1.toPool, final.2 ++ oco.2) := by
  have hspec := s.book.finalizeTaker_spec s.taker s.hadFills
  generalize s.book.finalizeTaker s.taker s.hadFills = final at hspec ⊢
  cases hspec with
  | filled hzero =>
    -- filled: its OCO sibling goes
    have hterm : takerTerminal s.taker [] = true := by
      simp [takerTerminal, hzero]
    simp only [hterm, if_true, List.nil_append]
    exact ⟨hs.book.maybeCancelOco_consistent _, .filled hzero (hs.book.ocoCancel _)⟩
  | cancelled hne reason hfok hpost =>
    -- cancelled, and its sibling with it
    simp only [takerTerminal_cancelled, if_true]
    refine ⟨hs.book.maybeCancelOco_consistent _, ?_⟩
    refine Pass.Finalize.cancelled (a := s.toPass) hne reason hfok ?_
      (hs.book.ocoCancel s.taker.id)
    intro h
    rcases hpost h with ⟨htype, hhad⟩
    refine ⟨htype, ?_⟩
    intro hnone
    have hfills := hs.fills
    have hnone' : s.lastTradePrice = none := hnone
    rw [hhad, hnone'] at hfills
    cases hfills
  | rested hne hactive hrest =>
    -- it rests, and its sibling stays
    have hterm : takerTerminal s.taker [.rested s.taker.id s.taker.remaining] = false := by
      simp [takerTerminal, hne]
    simp only [hterm, Bool.false_eq_true, if_false, List.append_nil]
    obtain ⟨price, hprice⟩ := hs.priced hready hrest
    have hpos : 0 < s.taker.remaining := lt_of_le_of_ne hs.pass.remaining (Ne.symm hne)
    refine ⟨hs.book.insertMaker hprice hpos hs.fresh, ?_⟩
    have hpool : (s.book.insertMaker s.taker).toPool =
        { s.book.toPool with resting := s.taker ::ₘ s.book.toPool.resting } := by
      simp only [OrderBook.toPool, restingPool_insertMaker hprice, stopPool_insertMaker,
        ocoLinks_insertMaker]
    rw [hpool]
    exact .rested hne hrest

/-- The book and the events of a pass when its stops are checked. -/
def OrderBook.settle (s : MatchState) (exit : MatchExit) : OrderBook × List EngineEvent :=
  match exit with
  | .takerConsumed => (s.book, s.events)
  | .exhausted =>
    let final := s.book.finalizeTaker s.taker s.hadFills
    let oco := if takerTerminal s.taker final.2 then final.1.maybeCancelOco s.taker.id
      else (final.1, [])
    (oco.1, s.events ++ final.2 ++ oco.2)

/-- The end of a run: the taker is settled, then the stops are drained. -/
theorem afterLoop_eq (s : MatchState) (exit : MatchExit) :
    afterLoop s exit = (((settle s exit).1.drainAfter s.lastTradePrice).1, (settle s exit).2,
      ((settle s exit).1.drainAfter s.lastTradePrice).2) := by
  cases exit <;> rfl

/-- Only the taker may have come into the book whose stops are checked, to rest there. -/
theorem settle_spec (hs : LoopSound taker s) (hready : taker.Ready) (exit : MatchExit) :
    (settle s exit).1.Consistent ∧ (settle s exit).1.stopPool ≤ s.book.stopPool ∧
      (settle s exit).1.restingPool.map (·.id) ≤
        s.taker.id ::ₘ s.book.restingPool.map (·.id) := by
  cases exit with
  | takerConsumed => exact ⟨hs.book, le_refl _, Multiset.le_cons_self _ _⟩
  | exhausted =>
    rcases finalize_refines hs hready with ⟨hcons, hfinal⟩
    exact ⟨hcons, hfinal.stops_le, hfinal.resting_le⟩

/-- So the others were in the book before. -/
theorem settle_ids_le (hs : LoopSound taker s) (hready : taker.Ready) (exit : MatchExit) :
    (settle s exit).1.toPool.ids ≤ s.taker.id ::ₘ s.book.toPool.ids := by
  obtain ⟨_, hstops, hresting⟩ := settle_spec hs hready exit
  rw [Pool.ids, Pool.live, Multiset.map_add, Pool.ids, Pool.live, Multiset.map_add,
    ← Multiset.cons_add]
  exact add_le_add hresting (Multiset.map_le_map hstops)

/-- What follows the matching loop is the end of a pass of the pool machine. -/
theorem afterLoop_refines (hs : LoopSound taker s) (hready : taker.Ready) (exit : MatchExit) :
    (afterLoop s exit).1.Consistent ∧
      s.toPass.Finish exit ((afterLoop s exit).1.toPool, (afterLoop s exit).2) := by
  cases exit with
  | takerConsumed =>
    simp only [afterLoop]
    refine ⟨hs.book.drainAfter _, ?_⟩
    rw [toPool_drainAfter, drainAfter_snd]
    exact .consumed (drains_toPool hs.book s.lastTradePrice)
  | exhausted =>
    rcases finalize_refines hs hready with ⟨hcons, hfinal⟩
    simp only [afterLoop]
    refine ⟨hcons.drainAfter _, ?_⟩
    rw [toPool_drainAfter, drainAfter_snd, List.append_assoc]
    exact .finalized hfinal (drains_toPool hcons s.lastTradePrice)

/-! ## Passes -/

variable {b b' : OrderBook} {fuel : ℕ} {events : List EngineEvent} {triggered : List Order}

/-- The hypotheses under which an order is matched against a book. -/
structure Enters (b : OrderBook) (taker : Order) : Prop where
  book : b.Consistent
  ready : taker.Ready
  fresh : ∀ o ∈ b.pool, o.id ≠ taker.id

/-- An order that enters the loop does so soundly. -/
theorem Enters.loopSound (h : Enters b taker) : LoopSound taker (b.enterLoop taker) where
  book := h.book
  pass := {
    same := rfl
    remaining := h.ready.positive.le
    unique := by
      refine Multiset.nodup_cons.mpr ⟨?_, h.book.unique⟩
      intro hmem
      rcases Multiset.mem_map.mp hmem with ⟨o, ho, hid⟩
      exact h.fresh o ho hid
    positive := h.book.positive }
  fills := rfl

/-- Every state the matching loop visits is sound. -/
theorem Enters.visits_sound (h : Enters b taker) (hv : Visits matchTurn (b.enterLoop taker) s) :
    LoopSound taker s := by
  refine visits_invariant (LoopSound taker) h.loopSound ?_ hv
  intro t t' ht hnext
  have hspec := turnSpec_of_eq ht.book.noEmpty hnext
  exact hspec.sound_next ht

/-- What holds when the loop is entered and is kept by every turn holds wherever it stands. -/
theorem Enters.visits_induct (h : Enters b taker) (P : MatchState → Prop)
    (h0 : P (b.enterLoop taker))
    (hturn : ∀ t t', LoopSound taker t → TurnSpec t (.next t') → P t → P t')
    (hv : Visits matchTurn (b.enterLoop taker) s) : P s := by
  refine (visits_invariant (fun t => LoopSound taker t ∧ P t) ⟨h.loopSound, h0⟩ ?_ hv).2
  rintro t t' ⟨ht, hp⟩ hnext
  have hspec := turnSpec_of_eq ht.book.noEmpty hnext
  exact ⟨hspec.sound_next ht, hturn t t' ht hspec hp⟩

/-- The induction rule for the matching loop: what holds when it is entered and
is kept by every turn holds where it is left. The invariant may speak of the
states the loop passed before; each turn refines a turn of the pool machine
(`TurnSpec.refines`). -/
theorem matchLoop_induct (h : Enters b taker) (Inv : List MatchState → MatchState → Prop)
    (Post : List MatchState → MatchState → MatchExit → Prop)
    (h0 : Inv [] (b.enterLoop taker))
    (hturn : ∀ past s s', Visits matchTurn (b.enterLoop taker) s → LoopSound taker s →
      Inv past s → TurnSpec s (.next s') → Inv (past ++ [s]) s')
    (hdone : ∀ past s s' exit, Visits matchTurn (b.enterLoop taker) s → LoopSound taker s →
      Inv past s → TurnSpec s (.done (s', exit)) → LoopSound taker s' →
      Post (past ++ [s]) s' exit)
    {exit : MatchExit} (hloop : loop matchTurn fuel (b.enterLoop taker) = some (s, exit)) :
    Post (trace matchTurn fuel (b.enterLoop taker)) s exit := by
  refine loop_invariant_trace Inv (fun past r => Post past r.1 r.2) h0 ?_ ?_ hloop
  · intro past t t' hv ht hnext
    have hs := h.visits_sound hv
    have hspec := turnSpec_of_eq hs.book.noEmpty hnext
    exact hturn past t t' hv hs ht hspec
  · intro past t r hv ht hdone'
    have hs := h.visits_sound hv
    have hspec := turnSpec_of_eq hs.book.noEmpty hdone'
    exact hdone past t r.1 r.2 hv hs ht hspec (hspec.sound_done hs)

/-- A run is its loop and what comes after it. -/
theorem runMatchingLoop_eq_some {r : OrderBook × List EngineEvent × List Order}
    (h : b.runMatchingLoop fuel taker = some r) :
    ∃ s exit, loop matchTurn fuel (b.enterLoop taker) = some (s, exit) ∧ r = afterLoop s exit := by
  unfold OrderBook.runMatchingLoop at h
  cases hloop : loop matchTurn fuel (b.enterLoop taker) with
  | none =>
    rw [hloop] at h
    cases h
  | some out =>
    rw [hloop] at h
    cases h
    exact ⟨out.1, out.2, rfl, rfl⟩

/-- The induction rule for a whole pass. -/
theorem runMatchingLoop_induct (h : Enters b taker)
    (Inv : List MatchState → MatchState → Prop)
    (Post : List MatchState → Pool × List EngineEvent × List Order → Prop)
    (h0 : Inv [] (b.enterLoop taker))
    (hturn : ∀ past s s', Visits matchTurn (b.enterLoop taker) s → LoopSound taker s →
      Inv past s → TurnSpec s (.next s') → Inv (past ++ [s]) s')
    (hdone : ∀ past s s' exit r, Visits matchTurn (b.enterLoop taker) s → LoopSound taker s →
      Inv past s → TurnSpec s (.done (s', exit)) → LoopSound taker s' →
      s'.toPass.Finish exit r → Post (past ++ [s]) r)
    (hrun : b.runMatchingLoop fuel taker = some (b', events, triggered)) :
    Post (trace matchTurn fuel (b.enterLoop taker)) (b'.toPool, events, triggered) := by
  rcases runMatchingLoop_eq_some hrun with ⟨s, exit, hloop, hafter⟩
  have hpost := matchLoop_induct h Inv
    (fun past s exit => Post past ((afterLoop s exit).1.toPool, (afterLoop s exit).2)) h0 hturn
    (fun past t s' exit hv hs ht hspec hs' =>
      hdone past t s' exit _ hv hs ht hspec hs' (afterLoop_refines hs' h.ready exit).2) hloop
  rw [← hafter] at hpost
  exact hpost

/-- The state in which a pass leaves the loop is sound. -/
theorem Enters.loop_sound (h : Enters b taker) {exit : MatchExit}
    (hloop : loop matchTurn fuel (b.enterLoop taker) = some (s, exit)) : LoopSound taker s :=
  matchLoop_induct h (fun _ _ => True) (fun _ s _ => LoopSound taker s) trivial
    (fun _ _ _ _ _ _ _ => trivial) (fun _ _ _ _ _ _ _ _ hs' => hs') hloop

/-- A run of the matching loop keeps the book consistent. -/
theorem runMatchingLoop_consistent (h : Enters b taker)
    (hrun : b.runMatchingLoop fuel taker = some (b', events, triggered)) : b'.Consistent := by
  rcases runMatchingLoop_eq_some hrun with ⟨s, exit, hloop, hafter⟩
  have hcons := (afterLoop_refines (h.loop_sound hloop) h.ready exit).1
  rw [← hafter] at hcons
  exact hcons

end CryptoCex.Core
