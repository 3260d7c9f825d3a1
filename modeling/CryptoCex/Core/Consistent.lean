import CryptoCex.Core.BookOps
import Mathlib.Algebra.BigOperators.Group.Multiset.Basic

/-!
# Consistency of the book's four structures

The two level maps, the index and the stop registry are updated separately by
every operation. `Consistent` says that they agree: no empty level, every order
under its own side and price, positive remainders, unique ids, an index of
exactly the resting orders, and stops filed under their stop price.

Each mutation of `BookOps` keeps the book consistent, and changes the abstract
contents of the book in a simple way. The contents are the multisets
`restingPool` (resting orders) and `stopPool` (registered stops): a mutation
takes one order out, puts one in, or replaces one by itself with another
remainder.
-/

namespace CryptoCex.Core

open scoped List

namespace OrderBook

variable {b b' : OrderBook} {side : Side} {price : Decimal} {m : Order} {rest q : List Order}

/-! ## Contents -/

/-- The resting orders of both sides. -/
def restingPool (b : OrderBook) : Multiset Order := ↑(b.resting .buy ++ b.resting .sell)

/-- The registered stops. -/
def stopPool (b : OrderBook) : Multiset Order := ↑b.stops.orders

/-- All live orders. -/
def pool (b : OrderBook) : Multiset Order := b.restingPool + b.stopPool

@[simp] theorem restingPool_new : new.restingPool = 0 := rfl

@[simp] theorem stopPool_new : new.stopPool = 0 := rfl

@[simp] theorem pool_new : new.pool = 0 := rfl

theorem pool_eq_coe_live (b : OrderBook) : b.pool = ↑b.live := by
  simp only [pool, restingPool, stopPool, live, Multiset.coe_add]

/-- The resting orders are those of the levels. -/
theorem mem_restingPool {o : Order} :
    o ∈ b.restingPool ↔ ∃ side price, o ∈ b.queue side price := by
  simp only [restingPool, Multiset.mem_coe, List.mem_append, mem_resting]
  constructor
  · rintro (⟨p, h⟩ | ⟨p, h⟩)
    · exact ⟨.buy, p, h⟩
    · exact ⟨.sell, p, h⟩
  · rintro ⟨_ | _, p, h⟩
    · exact Or.inl ⟨p, h⟩
    · exact Or.inr ⟨p, h⟩

/-- An order of a book rests or is a stop. -/
theorem mem_pool {o : Order} : o ∈ b.pool ↔ o ∈ b.restingPool ∨ o ∈ b.stopPool :=
  Multiset.mem_add

theorem restingPool_perm_side (b : OrderBook) (side : Side) :
    b.restingPool = ↑(b.resting side) + ↑(b.resting side.opposite) := by
  cases side with
  | buy => rfl
  | sell =>
    simp only [restingPool, Side.opposite, Multiset.coe_add]
    exact Multiset.coe_eq_coe.mpr List.perm_append_comm

/-- Rewriting a queue exchanges its orders and keeps all others. -/
theorem restingPool_withQueue (b : OrderBook) (side : Side) (price : Decimal) (q : List Order) :
    ∃ others, b.restingPool = ↑(b.queue side price) + others ∧
      (b.withQueue side price q).restingPool = ↑q + others := by
  rcases b.resting_withQueue side price q with ⟨others, hold, hnew⟩
  refine ⟨↑others + ↑(b.resting side.opposite), ?_, ?_⟩
  · rw [b.restingPool_perm_side side, Multiset.coe_eq_coe.mpr hold, ← Multiset.coe_add, add_assoc]
  · rw [restingPool_perm_side _ side, Multiset.coe_eq_coe.mpr hnew, ← Multiset.coe_add, add_assoc,
      resting_withQueue_other b price q side.opposite_ne]

@[simp] theorem restingPool_unindex (b : OrderBook) (id : Uuid) :
    (b.unindex id).restingPool = b.restingPool := rfl

@[simp] theorem stopPool_unindex (b : OrderBook) (id : Uuid) :
    (b.unindex id).stopPool = b.stopPool := rfl

@[simp] theorem restingPool_unlink (b : OrderBook) (id linkedId : Uuid) :
    (b.unlink id linkedId).restingPool = b.restingPool := rfl

@[simp] theorem stopPool_unlink (b : OrderBook) (id linkedId : Uuid) :
    (b.unlink id linkedId).stopPool = b.stopPool := rfl

@[simp] theorem stopPool_withQueue (b : OrderBook) (side : Side) (price : Decimal)
    (q : List Order) : (b.withQueue side price q).stopPool = b.stopPool := by
  rw [stopPool, stops_withQueue, stopPool]

/-! ## Consistency -/

/-- The level maps, the index and the stop registry agree. -/
structure Consistent (b : OrderBook) : Prop where
  noEmpty : b.NoEmptyLevel
  placed : ∀ side price o, o ∈ b.queue side price → o.side = side ∧ o.price = some price
  positive : ∀ o ∈ b.restingPool, 0 < o.remaining
  unique : (b.pool.map (·.id)).Nodup
  indexed : ∀ id side price, b.orderIndex.find? id = some (side, price) ↔
    ∃ o ∈ b.queue side price, o.id = id
  filed : b.stops.Filed

/-- An empty book is consistent. -/
theorem consistent_new : new.Consistent where
  noEmpty := noEmptyLevel_new
  placed := by
    intro side price o ho
    cases side <;> cases ho
  positive := by
    intro o ho
    simp at ho
  unique := by simp
  indexed := by
    intro id side price
    constructor
    · intro h
      cases h
    · rintro ⟨o, ho, _⟩
      cases side <;> cases ho
  filed := StopRegistry.filed_new

/-- Two live orders with the same id are the same order. -/
theorem Consistent.eq_of_id_eq (hb : b.Consistent) {o o' : Order} (ho : o ∈ b.pool)
    (ho' : o' ∈ b.pool) (hid : o.id = o'.id) : o = o' :=
  Multiset.inj_on_of_nodup_map hb.unique o ho o' ho' hid

/-- An order stands at most in one level. -/
theorem Consistent.place_of_mem (hb : b.Consistent) {o : Order} {side' : Side} {price' : Decimal}
    (ho : o ∈ b.queue side price) (ho' : o ∈ b.queue side' price') :
    side' = side ∧ price' = price := by
  have h := hb.placed side price o ho
  have h' := hb.placed side' price' o ho'
  refine ⟨h'.1.symm.trans h.1, ?_⟩
  have heq : some price' = some price := h'.2.symm.trans h.2
  exact Option.some.inj heq

theorem mem_pool_of_mem_queue {o : Order} (ho : o ∈ b.queue side price) : o ∈ b.pool :=
  mem_pool.mpr (Or.inl (mem_restingPool.mpr ⟨side, price, ho⟩))

/-- The contents after one queue was rewritten. -/
theorem pool_withQueue (b : OrderBook) (side : Side) (price : Decimal) (q : List Order) :
    ∃ others, b.pool = ↑(b.queue side price) + others ∧
      (b.withQueue side price q).pool = ↑q + others := by
  rcases b.restingPool_withQueue side price q with ⟨others, hold, hnew⟩
  refine ⟨others + b.stopPool, ?_, ?_⟩
  · rw [pool, hold, add_assoc]
  · rw [pool, hnew, stopPool_withQueue, add_assoc]

/-- Rewriting a queue without changing its ids keeps the book consistent. -/
theorem Consistent.withQueue (hb : b.Consistent)
    (hq : ∀ o ∈ q, o.side = side ∧ o.price = some price ∧ 0 < o.remaining)
    (hids : q.map (·.id) ~ (b.queue side price).map (·.id)) :
    (b.withQueue side price q).Consistent where
  noEmpty := noEmptyLevel_withQueue hb.noEmpty side price q
  placed := by
    intro s p o ho
    rw [queue_withQueue] at ho
    split_ifs at ho with h
    · rw [h.1, h.2]
      exact ⟨(hq o ho).1, (hq o ho).2.1⟩
    · exact hb.placed s p o ho
  positive := by
    intro o ho
    rcases mem_restingPool.mp ho with ⟨s, p, ho⟩
    rw [queue_withQueue] at ho
    split_ifs at ho with h
    · exact (hq o ho).2.2
    · exact hb.positive o (mem_restingPool.mpr ⟨s, p, ho⟩)
  unique := by
    rcases b.pool_withQueue side price q with ⟨others, hold, hnew⟩
    have hunique := hb.unique
    rw [hold, Multiset.map_add, Multiset.map_coe] at hunique
    rw [hnew, Multiset.map_add, Multiset.map_coe, Multiset.coe_eq_coe.mpr hids]
    exact hunique
  -- the index is right as it was, since the level has the same ids
  indexed := by
    intro id s p
    rw [orderIndex_withQueue, hb.indexed, queue_withQueue]
    split_ifs with h
    · rw [h.1, h.2]
      have hmem : id ∈ q.map (·.id) ↔ id ∈ (b.queue side price).map (·.id) := hids.mem_iff
      simp only [List.mem_map] at hmem
      exact hmem.symm
    · rfl
  filed := by
    rw [stops_withQueue]
    exact hb.filed

/-- Taking an order off its level and out of the index keeps the book
consistent. -/
theorem Consistent.remove (hb : b.Consistent) (hq : b.queue side price ~ m :: q) :
    ((b.withQueue side price q).unindex m.id).Consistent := by
  have hsub : ∀ o ∈ q, o ∈ b.queue side price := fun o ho =>
    hq.symm.subset (List.mem_cons_of_mem m ho)
  have hmem : m ∈ b.queue side price := hq.symm.subset List.mem_cons_self
  rcases b.pool_withQueue side price q with ⟨others, hold, hnew⟩
  have hunique := hb.unique
  rw [hold, Multiset.coe_eq_coe.mpr hq, Multiset.map_add, ← Multiset.cons_coe,
    Multiset.map_cons, Multiset.cons_add, Multiset.nodup_cons, ← Multiset.map_add] at hunique
  rcases hunique with ⟨hnot, hnodup⟩
  have hfresh : ∀ s p o, o ∈ (b.withQueue side price q).queue s p → o.id ≠ m.id := by
    intro s p o ho hid
    have hpool : o ∈ (b.withQueue side price q).pool := mem_pool_of_mem_queue ho
    rw [hnew] at hpool
    exact hnot (Multiset.mem_map.mpr ⟨o, hpool, hid⟩)
  exact {
    noEmpty := noEmptyLevel_unindex.mpr (noEmptyLevel_withQueue hb.noEmpty side price q)
    placed := by
      intro s p o ho
      change o ∈ (b.withQueue side price q).queue s p at ho
      rw [queue_withQueue] at ho
      split_ifs at ho with h
      · rw [h.1, h.2]
        exact hb.placed side price o (hsub o ho)
      · exact hb.placed s p o ho
    positive := by
      intro o ho
      rcases mem_restingPool.mp ho with ⟨s, p, ho⟩
      change o ∈ (b.withQueue side price q).queue s p at ho
      rw [queue_withQueue] at ho
      split_ifs at ho with h
      · exact hb.positive o (mem_restingPool.mpr ⟨side, price, hsub o ho⟩)
      · exact hb.positive o (mem_restingPool.mpr ⟨s, p, ho⟩)
    unique := by
      change ((b.withQueue side price q).pool.map (·.id)).Nodup
      rw [hnew]
      exact hnodup
    indexed := by
      intro id s p
      change ((b.withQueue side price q).orderIndex.erase m.id).find? id = some (s, p) ↔
        ∃ o ∈ (b.withQueue side price q).queue s p, o.id = id
      rw [orderIndex_withQueue, OrdMap.find?_erase]
      split_ifs with hid
      · subst hid
        constructor
        · intro h
          cases h
        · rintro ⟨o, ho, hoid⟩
          exact absurd hoid (hfresh s p o ho)
      · rw [hb.indexed]
        -- the other ids of the level are still there
        constructor
        · rintro ⟨o, ho, hoid⟩
          refine ⟨o, ?_, hoid⟩
          rw [queue_withQueue]
          split_ifs with h
          · rw [h.1, h.2] at ho
            rcases List.mem_cons.mp (hq.subset ho) with rfl | ho
            · exact absurd hoid.symm hid
            · exact ho
          · exact ho
        · rintro ⟨o, ho, hoid⟩
          refine ⟨o, ?_, hoid⟩
          rw [queue_withQueue] at ho
          split_ifs at ho with h
          · rw [h.1, h.2]
            exact hsub o ho
          · exact ho
    filed := by
      change (b.withQueue side price q).stops.Filed
      rw [stops_withQueue]
      exact hb.filed }

/-- Consistency does not look at the OCO links. -/
theorem consistent_withLinks {links : OrdMap Uuid Uuid} :
    { b with ocoLinks := links }.Consistent ↔ b.Consistent := by
  constructor
  · intro h
    exact ⟨h.noEmpty, h.placed, h.positive, h.unique, h.indexed, h.filed⟩
  · intro h
    exact ⟨h.noEmpty, h.placed, h.positive, h.unique, h.indexed, h.filed⟩

theorem consistent_unlink {id linkedId : Uuid} :
    (b.unlink id linkedId).Consistent ↔ b.Consistent :=
  consistent_withLinks

/-- The contents lose exactly the removed order. -/
theorem restingPool_remove (hq : b.queue side price ~ m :: q) :
    b.restingPool = m ::ₘ ((b.withQueue side price q).unindex m.id).restingPool := by
  rcases b.restingPool_withQueue side price q with ⟨others, hold, hnew⟩
  rw [restingPool_unindex, hold, hnew, Multiset.coe_eq_coe.mpr hq, ← Multiset.cons_coe,
    Multiset.cons_add]

/-! ## Front makers -/

/-- The front maker of a consistent level. -/
theorem Consistent.front (hb : b.Consistent)
    (h : (b.levels side).find? price = some (m :: rest)) :
    m ∈ b.restingPool ∧ m.side = side ∧ m.price = some price ∧ 0 < m.remaining := by
  have hmem : m ∈ b.queue side price := by
    rw [queue_eq_of_find? h]
    exact List.mem_cons_self
  have hpool : m ∈ b.restingPool := mem_restingPool.mpr ⟨side, price, hmem⟩
  have hplaced := hb.placed side price m hmem
  exact ⟨hpool, hplaced.1, hplaced.2, hb.positive m hpool⟩

/-- Taking off the front maker, with its index entry, keeps the book consistent. -/
theorem Consistent.dropFront (hb : b.Consistent)
    (h : (b.levels side).find? price = some (m :: rest)) :
    (b.dropFront side price m rest).Consistent :=
  hb.remove (by rw [queue_eq_of_find? h])

/-- One order less rests. -/
theorem restingPool_dropFront (h : (b.levels side).find? price = some (m :: rest)) :
    b.restingPool = m ::ₘ (b.dropFront side price m rest).restingPool :=
  restingPool_remove (by rw [queue_eq_of_find? h])

@[simp] theorem stopPool_dropFront (b : OrderBook) (side : Side) (price : Decimal) (m : Order)
    (rest : List Order) : (b.dropFront side price m rest).stopPool = b.stopPool := by
  rw [OrderBook.dropFront, stopPool_unindex, stopPool_withQueue]

@[simp] theorem ocoLinks_dropFront (b : OrderBook) (side : Side) (price : Decimal) (m : Order)
    (rest : List Order) : (b.dropFront side price m rest).ocoLinks = b.ocoLinks := by
  rw [OrderBook.dropFront, unindex, ocoLinks_withQueue]

/-- A front maker that keeps a positive remainder, wherever it goes in its
level. -/
theorem Consistent.shrinkFront (hb : b.Consistent)
    (h : (b.levels side).find? price = some (m :: rest)) {r : Decimal} (hr : 0 < r)
    (hq : q ~ m.withRemaining r :: rest) : (b.withQueue side price q).Consistent := by
  have hqueue := queue_eq_of_find? h
  refine hb.withQueue ?_ ?_
  · intro o ho
    rcases List.mem_cons.mp (hq.subset ho) with rfl | ho
    · rcases hb.front h with ⟨_, hside, hprice, _⟩
      exact ⟨hside, hprice, hr⟩
    · have hmem : o ∈ b.queue side price := by
        rw [hqueue]
        exact List.mem_cons_of_mem m ho
      have hplaced := hb.placed side price o hmem
      exact ⟨hplaced.1, hplaced.2, hb.positive o (mem_restingPool.mpr ⟨side, price, hmem⟩)⟩
  · rw [hqueue]
    exact hq.map _

/-- The same orders rest, with less left of the front maker. -/
theorem restingPool_shrinkFront (h : (b.levels side).find? price = some (m :: rest))
    {r : Decimal} (hq : q ~ m.withRemaining r :: rest) :
    ∃ others, b.restingPool = m ::ₘ others ∧
      (b.withQueue side price q).restingPool = m.withRemaining r ::ₘ others := by
  rcases b.restingPool_withQueue side price q with ⟨others, hold, hnew⟩
  refine ⟨↑rest + others, ?_, ?_⟩
  · rw [hold, queue_eq_of_find? h, ← Multiset.cons_coe, Multiset.cons_add]
  · rw [hnew, Multiset.coe_eq_coe.mpr hq, ← Multiset.cons_coe, Multiset.cons_add]

/-! ## Cancels -/

/-- What a cancel does to a consistent book: nothing when no live order has the
id, else it takes that order out and says so. -/
inductive Cancels (b : OrderBook) (id : Uuid) (reason : CancelReason) :
    OrderBook × List EngineEvent → Prop where
  | none (hid : ∀ o ∈ b.pool, o.id ≠ id) : Cancels b id reason (b, [])
  | resting (b' : OrderBook) (o : Order) (hid : o.id = id) (hb' : b'.Consistent)
      (hresting : b.restingPool = o ::ₘ b'.restingPool) (hstops : b'.stops = b.stops)
      (hlinks : b'.ocoLinks = b.ocoLinks) :
      Cancels b id reason (b', [.cancelled id reason])
  | stop (b' : OrderBook) (o : Order) (hid : o.id = id) (hb' : b'.Consistent)
      (hresting : b'.restingPool = b.restingPool) (hstops : b.stopPool = o ::ₘ b'.stopPool)
      (hlinks : b'.ocoLinks = b.ocoLinks) :
      Cancels b id reason (b', [.cancelled id reason])

/-- Taking stops off the registry keeps the book consistent. -/
theorem Consistent.withStops (hb : b.Consistent) {stops : StopRegistry} (hfiled : stops.Filed)
    (hle : (↑stops.orders : Multiset Order) ≤ b.stopPool) :
    { b with stops := stops }.Consistent where
  noEmpty := hb.noEmpty
  placed := hb.placed
  positive := hb.positive
  unique := by
    have hsub : b.restingPool + ↑stops.orders ≤ b.pool := add_le_add_right hle _
    exact Multiset.nodup_of_le (Multiset.map_le_map hsub) hb.unique
  indexed := hb.indexed
  filed := hfiled

/-- On a consistent book a cancellation takes the order of that id, if it is there. -/
theorem Consistent.cancels (hb : b.Consistent) (id : Uuid) (reason : CancelReason) :
    Cancels b id reason (b.cancelOrderInternal id reason) := by
  have hstop : ∀ o ∈ b.stopPool, o ∈ b.stops.orders := fun o ho => ho
  have hspec := b.cancelOrderInternal_spec id reason
  generalize b.cancelOrderInternal id reason = r at hspec ⊢
  cases hspec with
  | stop stops o hid hperm hfiled =>
    have hpool : b.stopPool = o ::ₘ ↑stops.orders := by
      rw [stopPool, Multiset.coe_eq_coe.mpr hperm, Multiset.cons_coe]
    have hle : (↑stops.orders : Multiset Order) ≤ b.stopPool := by
      rw [hpool]
      exact Multiset.le_cons_self _ _
    exact Cancels.stop _ o hid (hb.withStops (hfiled hb.filed) hle) rfl hpool rfl
  | missing hstops hindex =>
    refine Cancels.none ?_
    intro o ho hid
    rcases mem_pool.mp ho with ho | ho
    · rcases mem_restingPool.mp ho with ⟨side, price, ho⟩
      have h := (hb.indexed id side price).mpr ⟨o, ho, hid⟩
      rw [hindex] at h
      cases h
    · exact hstops o (hstop o ho) hid
  | stale side price hstops hindex hqueue =>
    -- an indexed id stands in the level its entry names
    rcases (hb.indexed id side price).mp hindex with ⟨o, ho, _⟩
    rw [hqueue] at ho
    cases ho
  | resting side price hstops hindex hlevel =>
    rcases (hb.indexed id side price).mp hindex with ⟨o, ho, hid⟩
    rcases List.exists_of_eraseP (p := fun o => decide (o.id = id)) ho (decide_eq_true hid) with
      ⟨x, l₁, l₂, _, hx, hqueue, herase⟩
    have hxid : x.id = id := by simpa using hx
    have hperm : b.queue side price ~ x :: (b.queue side price).eraseP fun o => o.id = id := by
      rw [herase]
      nth_rewrite 1 [hqueue]
      exact List.perm_middle
    have hcons := hb.remove hperm
    have hresting := restingPool_remove hperm
    rw [hxid] at hcons hresting
    exact Cancels.resting _ x hxid hcons hresting (stops_withQueue ..) (ocoLinks_withQueue ..)

/-- An OCO cancel of a consistent book. -/
theorem Consistent.maybeCancelOco (hb : b.Consistent) (id : Uuid) :
    (b.ocoLinks.find? id = none ∧ b.maybeCancelOco id = (b, [])) ∨
    ∃ linkedId, b.ocoLinks.find? id = some linkedId ∧
      Cancels (b.unlink id linkedId) linkedId .oco (b.maybeCancelOco id) := by
  unfold OrderBook.maybeCancelOco
  cases h : b.ocoLinks.find? id with
  | none => exact Or.inl ⟨rfl, rfl⟩
  | some linkedId =>
    refine Or.inr ⟨linkedId, rfl, ?_⟩
    exact (consistent_unlink.mpr hb).cancels linkedId .oco

/-- And it leaves a consistent book. -/
theorem Cancels.consistent {id : Uuid} {reason : CancelReason}
    {r : OrderBook × List EngineEvent} (h : Cancels b id reason r) (hb : b.Consistent) :
    r.1.Consistent := by
  cases h with
  | none => exact hb
  | resting b' o hid hb' => exact hb'
  | stop b' o hid hb' => exact hb'

/-! ## Resting an order -/

theorem restingPool_insertMaker {o : Order} (hprice : o.price = some price) :
    (b.insertMaker o).restingPool = o ::ₘ b.restingPool := by
  rcases b.restingPool_withQueue o.side price (b.queue o.side price ++ [o]) with
    ⟨others, hold, hnew⟩
  rw [insertMaker_eq hprice]
  change (b.withQueue o.side price (b.queue o.side price ++ [o])).restingPool = _
  rw [hnew, hold, ← Multiset.cons_add, Multiset.cons_coe]
  exact congrArg (· + others) (Multiset.coe_eq_coe.mpr (List.perm_append_singleton _ _))

theorem stopPool_insertMaker (b : OrderBook) (o : Order) :
    (b.insertMaker o).stopPool = b.stopPool := by
  cases hprice : o.price with
  | none => simp [insertMaker, hprice]
  | some price =>
    rw [insertMaker_eq hprice]
    exact stopPool_withQueue ..

theorem ocoLinks_insertMaker (b : OrderBook) (o : Order) :
    (b.insertMaker o).ocoLinks = b.ocoLinks := by
  cases hprice : o.price with
  | none => simp [insertMaker, hprice]
  | some price =>
    rw [insertMaker_eq hprice]
    exact ocoLinks_withQueue ..

/-- A new order that rests keeps the book consistent. -/
theorem Consistent.insertMaker (hb : b.Consistent) {o : Order} (hprice : o.price = some price)
    (hpos : 0 < o.remaining) (hfresh : ∀ x ∈ b.pool, x.id ≠ o.id) :
    (b.insertMaker o).Consistent := by
  have hqueue : ∀ s p, (b.insertMaker o).queue s p =
      if s = o.side ∧ p = price then b.queue s p ++ [o] else b.queue s p := by
    intro s p
    rw [insertMaker_eq hprice]
    change (b.withQueue o.side price (b.queue o.side price ++ [o])).queue s p = _
    rw [queue_withQueue]
    split_ifs with h
    · rw [h.1, h.2]
    · rfl
  exact {
    noEmpty := by
      rw [insertMaker_eq hprice]
      intro s p level h
      rw [levels_withIndex] at h
      exact noEmptyLevel_withQueue hb.noEmpty _ _ _ s p level h
    placed := by
      intro s p x hx
      rw [hqueue] at hx
      split_ifs at hx with h
      · rcases List.mem_append.mp hx with hx | hx
        · exact hb.placed s p x hx
        · rw [List.mem_singleton.mp hx, h.1, h.2]
          exact ⟨rfl, hprice⟩
      · exact hb.placed s p x hx
    positive := by
      intro x hx
      rw [restingPool_insertMaker hprice] at hx
      rcases Multiset.mem_cons.mp hx with rfl | hx
      · exact hpos
      · exact hb.positive x hx
    unique := by
      have hpool : (b.insertMaker o).pool = o ::ₘ b.pool := by
        rw [pool, restingPool_insertMaker hprice, stopPool_insertMaker, Multiset.cons_add, pool]
      rw [hpool, Multiset.map_cons, Multiset.nodup_cons]
      refine ⟨?_, hb.unique⟩
      intro h
      rcases Multiset.mem_map.mp h with ⟨x, hx, hid⟩
      exact hfresh x hx hid
    indexed := by
      intro id s p
      -- the new id is indexed at its place, the others as before
      have hindex : (b.insertMaker o).orderIndex = b.orderIndex.insert o.id (o.side, price) := by
        rw [insertMaker_eq hprice]
      rw [hindex, OrdMap.find?_insert, hqueue]
      split_ifs with hid hsp hsp
      · subst hid
        rw [hsp.1, hsp.2]
        exact ⟨fun _ => ⟨o, by simp, rfl⟩, fun _ => rfl⟩
      · subst hid
        constructor
        · intro h
          cases h
          exact absurd ⟨rfl, rfl⟩ hsp
        · rintro ⟨x, hx, hxid⟩
          exact absurd hxid (hfresh x (mem_pool_of_mem_queue hx))
      · rw [hb.indexed]
        constructor
        · rintro ⟨x, hx, hxid⟩
          exact ⟨x, List.mem_append_left _ hx, hxid⟩
        · rintro ⟨x, hx, hxid⟩
          rcases List.mem_append.mp hx with hx | hx
          · exact ⟨x, hx, hxid⟩
          · rw [List.mem_singleton.mp hx] at hxid
            exact absurd hxid.symm hid
      · exact hb.indexed id s p
    filed := by
      rw [insertMaker_eq hprice]
      change (b.withQueue o.side price (b.queue o.side price ++ [o])).stops.Filed
      rw [stops_withQueue]
      exact hb.filed }

/-! ## Draining stops -/

/-- The stops that leave after a pass whose last trade was at `lastTradePrice`. -/
def hitAfter (b : OrderBook) (lastTradePrice : Option Decimal) : List Order :=
  match lastTradePrice with
  | none => []
  | some price => b.stops.hitBy price

theorem drainAfter_snd (b : OrderBook) (last : Option Decimal) :
    (b.drainAfter last).2 = (b.hitAfter last).map convertStop := by
  cases last with
  | none => rfl
  | some price => exact b.stops.drainTriggered_snd price

/-- The stops are those that are drained and those that stay. -/
theorem stopPool_drainAfter (b : OrderBook) (last : Option Decimal) :
    b.stopPool = ↑(b.hitAfter last) + (b.drainAfter last).1.stopPool := by
  cases last with
  | none => exact (zero_add b.stopPool).symm
  | some price => exact Multiset.coe_eq_coe.mpr (b.stops.drainTriggered_orders price)

@[simp] theorem restingPool_drainAfter (b : OrderBook) (last : Option Decimal) :
    (b.drainAfter last).1.restingPool = b.restingPool := by
  cases last <;> rfl

@[simp] theorem ocoLinks_drainAfter (b : OrderBook) (last : Option Decimal) :
    (b.drainAfter last).1.ocoLinks = b.ocoLinks := by
  cases last <;> rfl

/-- Draining keeps the book consistent. -/
theorem Consistent.drainAfter (hb : b.Consistent) (last : Option Decimal) :
    (b.drainAfter last).1.Consistent := by
  have hsplit := b.stopPool_drainAfter last
  cases last with
  | none => exact hb
  | some price =>
    refine hb.withStops (StopRegistry.drainTriggered_filed hb.filed price) ?_
    rw [hsplit]
    exact Multiset.le_add_left _ _

/-! ## Registering a stop -/

/-- A new stop keeps the book consistent. -/
theorem Consistent.registerStopOrder (hb : b.Consistent) {o : Order} {stops : StopRegistry}
    (hok : b.stops.insert o = .ok stops) (hstop : o.orderType.isStop = true)
    (hfresh : ∀ x ∈ b.pool, x.id ≠ o.id) :
    { b with stops := stops }.Consistent where
  noEmpty := hb.noEmpty
  placed := hb.placed
  positive := hb.positive
  unique := by
    have hpool : { b with stops := stops }.pool = o ::ₘ b.pool := by
      rw [pool, pool, ← Multiset.add_cons]
      exact congrArg (b.restingPool + ·)
        ((Multiset.coe_eq_coe.mpr (StopRegistry.insert_orders hok)).trans
          (Multiset.cons_coe ..).symm)
    rw [hpool, Multiset.map_cons, Multiset.nodup_cons]
    refine ⟨?_, hb.unique⟩
    intro h
    rcases Multiset.mem_map.mp h with ⟨x, hx, hid⟩
    exact hfresh x hx hid
  indexed := hb.indexed
  filed := StopRegistry.insert_filed hok hstop hb.filed

end OrderBook

end CryptoCex.Core
