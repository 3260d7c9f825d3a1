import CryptoCex.Core.Consistent
import Mathlib.Data.Multiset.Lattice
import Mathlib.Order.Nat

/-!
# Progress of the two loops

Both loops of the source end, provided every order can give or take something
at each turn: its remainder is positive, and so is its display quantity when it
has one (`Order.Sized`). Each turn of the matching loop then either trades, which
shrinks the taker, or takes an order off the book; each turn of the cascade
takes an order off the work queue or the stop registry.

Nothing here needs unique ids: the operations are only required not to invent
orders. `K` is any property of orders that survives a shrinking remainder and
the conversion of a stop; the section shows that the loops keep it.
-/

namespace CryptoCex.Core

open Loop OrderBook

open scoped List

/-- An order that can trade: something remains of it and some of that shows. -/
structure Order.Sized (o : Order) : Prop where
  positive : 0 < o.remaining
  display : ∀ d, o.displayQty = some d → 0 < d

/-- A sized order shows a positive quantity. -/
theorem Order.Sized.effectiveQty_pos {o : Order} (h : o.Sized) : 0 < o.effectiveQty := by
  unfold Order.effectiveQty
  cases hd : o.displayQty with
  | none => exact h.positive
  | some d => exact lt_min (h.display d hd) h.positive

/-- The quantity of a fill never exceeds what the maker has. -/
theorem fillOf_quantity_le (taker m : Order) (price : Decimal) :
    (fillOf taker m price).quantity ≤ m.remaining := by
  unfold fillOf Order.effectiveQty
  cases m.displayQty with
  | none => exact min_le_right _ _
  | some d => exact (min_le_right _ _).trans (min_le_right _ _)

/-- The quantity of a fill never exceeds what the taker has. -/
theorem fillOf_quantity_le_taker (taker m : Order) (price : Decimal) :
    (fillOf taker m price).quantity ≤ taker.remaining :=
  min_le_left _ _

/-- A fill with a sized maker is positive. -/
theorem fillOf_quantity_pos {taker m : Order} {price : Decimal} (htaker : 0 < taker.remaining)
    (hm : m.Sized) : 0 < (fillOf taker m price).quantity :=
  lt_min htaker hm.effectiveQty_pos

/-! ## Cancels take orders out -/

namespace OrderBook

variable {b : OrderBook} {side : Side} {price : Decimal} {m : Order} {rest q : List Order}

/-- `b'` holds no order that `b` does not hold. -/
structure Within (b' b : OrderBook) : Prop where
  noEmpty : b.NoEmptyLevel → b'.NoEmptyLevel
  queues : ∀ side price, b'.queue side price <+ b.queue side price
  resting : b'.restingPool ≤ b.restingPool
  stops : b'.stopPool ≤ b.stopPool

theorem Within.refl (b : OrderBook) : b.Within b :=
  ⟨id, fun _ _ => List.Sublist.refl _, le_refl _, le_refl _⟩

theorem Within.trans {b b' b'' : OrderBook} (h : b''.Within b') (h' : b'.Within b) :
    b''.Within b where
  noEmpty := h.noEmpty ∘ h'.noEmpty
  queues := fun side price => (h.queues side price).trans (h'.queues side price)
  resting := h.resting.trans h'.resting
  stops := h.stops.trans h'.stops

/-- A book within another has no other orders. -/
theorem Within.pool_le {b' b : OrderBook} (h : b'.Within b) : b'.pool ≤ b.pool :=
  add_le_add h.resting h.stops

theorem within_unlink (b : OrderBook) (id linkedId : Uuid) : (b.unlink id linkedId).Within b :=
  ⟨noEmptyLevel_unlink.mpr, fun side price => by simp [queue], le_refl _, le_refl _⟩

/-- Keeping part of a queue takes orders out. -/
theorem within_withQueue (h : q <+ b.queue side price) (id : Uuid) :
    ((b.withQueue side price q).unindex id).Within b where
  noEmpty := fun hb => noEmptyLevel_unindex.mpr (noEmptyLevel_withQueue hb side price q)
  queues := by
    intro side' price'
    change (b.withQueue side price q).queue side' price' <+ _
    rw [queue_withQueue]
    split_ifs with hp
    · rw [hp.1, hp.2]
      exact h
    · exact List.Sublist.refl _
  resting := by
    rcases b.restingPool_withQueue side price q with ⟨others, hold, hnew⟩
    rw [restingPool_unindex, hold, hnew]
    exact add_le_add_left (Multiset.coe_le.mpr h.subperm) _
  stops := by rw [stopPool_unindex, stopPool_withQueue]

theorem within_dropFront (h : (b.levels side).find? price = some (m :: rest)) :
    (b.dropFront side price m rest).Within b := by
  refine within_withQueue ?_ _
  rw [queue_eq_of_find? h]
  exact List.sublist_cons_self m rest

/-- A cancellation leaves a book within the old one. -/
theorem within_cancelOrderInternal (b : OrderBook) (id : Uuid) (reason : CancelReason) :
    (b.cancelOrderInternal id reason).1.Within b := by
  have hspec := b.cancelOrderInternal_spec id reason
  generalize b.cancelOrderInternal id reason = r at hspec ⊢
  cases hspec with
  -- the order was a stop
  | stop stops o _ hperm _ =>
    refine ⟨?_, ?_, le_refl _, ?_⟩
    · intro hb side price level h
      rw [levels_withStops] at h
      exact hb side price level h
    · intro side price
      simp [queue]
    · exact Multiset.coe_le.mpr
        ((List.sublist_cons_self o stops.orders).subperm.trans hperm.symm.subperm)
  | missing => exact Within.refl b
  -- an entry of the index without an order is dropped
  | stale side price _ _ hqueue =>
    refine ⟨noEmptyLevel_unindex.mpr, ?_, le_refl _, le_refl _⟩
    intro side price
    simp [queue]
  | resting side price => exact within_withQueue List.eraseP_sublist id

/-- So does an OCO cancel. -/
theorem within_maybeCancelOco (b : OrderBook) (id : Uuid) :
    (b.maybeCancelOco id).1.Within b := by
  unfold maybeCancelOco
  cases b.ocoLinks.find? id with
  | none => exact Within.refl b
  | some linkedId =>
    exact (within_cancelOrderInternal (b.unlink id linkedId) linkedId .oco).trans
      (within_unlink b id linkedId)

theorem within_cancelOrder (b : OrderBook) (id : Uuid) : (b.cancelOrder id).1.Within b := by
  unfold cancelOrder
  cases b.ocoLinks.find? id with
  | none => exact within_cancelOrderInternal b id .adminCancel
  | some linkedId =>
    exact (within_cancelOrderInternal _ linkedId .oco).trans
      ((within_cancelOrderInternal (b.unlink id linkedId) id .adminCancel).trans
        (within_unlink b id linkedId))

/-- So does draining the stops. -/
theorem within_drainAfter (b : OrderBook) (last : Option Decimal) :
    (b.drainAfter last).1.Within b where
  noEmpty := by
    intro hb
    cases last with
    | none => exact hb
    | some price =>
      intro side p level h
      exact hb side p level (by simpa [drainAfter, checkStopTriggers] using h)
  queues := by
    intro side price
    cases last <;> simp [drainAfter, checkStopTriggers, queue]
  resting := (restingPool_drainAfter b last).le
  stops := by
    rw [b.stopPool_drainAfter last]
    exact Multiset.le_add_left _ _

theorem pool_dropFront (h : (b.levels side).find? price = some (m :: rest)) :
    b.pool = m ::ₘ (b.dropFront side price m rest).pool := by
  rw [pool, restingPool_dropFront h, pool, stopPool_dropFront, Multiset.cons_add]

/-- The orders of a book in which the front maker has shrunk. -/
theorem pool_shrinkFront (h : (b.levels side).find? price = some (m :: rest)) {r : Decimal}
    (hq : q ~ m.withRemaining r :: rest) :
    ∃ others, b.pool = m ::ₘ others ∧
      (b.withQueue side price q).pool = m.withRemaining r ::ₘ others := by
  rcases restingPool_shrinkFront h hq with ⟨others, hold, hnew⟩
  refine ⟨others + b.stopPool, ?_, ?_⟩
  · rw [pool, hold, Multiset.cons_add]
  · rw [pool, hnew, stopPool_withQueue, Multiset.cons_add]

end OrderBook

/-! ## The matching loop -/

/-- A property of orders that trading keeps. -/
structure Kept (K : Order → Prop) : Prop where
  sized : ∀ o, K o → o.Sized
  shrink : ∀ o r, K o → 0 < r → r ≤ o.remaining → K (o.withRemaining r)
  convert : ∀ o, K o → K (convertStop o)

theorem kept_sized : Kept Order.Sized where
  sized := fun _ h => h
  shrink := fun _ _ h hr _ => ⟨hr, h.display⟩
  convert := fun _ h => ⟨h.positive, h.display⟩

/-- Every live order of the book has the property, and no level is empty. -/
structure OrderBook.All (K : Order → Prop) (b : OrderBook) : Prop where
  noEmpty : b.NoEmptyLevel
  all : ∀ o ∈ b.pool, K o

theorem OrderBook.all_new (K : Order → Prop) : new.All K where
  noEmpty := noEmptyLevel_new
  all := by
    intro o ho
    simp at ho

/-- What all orders of a book have, those of a book within it have. -/
theorem OrderBook.Within.all {K : Order → Prop} {b b' : OrderBook} (h : b'.Within b)
    (hb : b.All K) : b'.All K :=
  ⟨h.noEmpty hb.noEmpty, fun o ho => hb.all o (Multiset.mem_of_le h.pool_le ho)⟩

/-- All keep what they have when the front maker shrinks and keeps it. -/
theorem OrderBook.All.shrinkFront {K : Order → Prop} {b : OrderBook} {side : Side}
    {price r : Decimal} {m : Order} {rest q : List Order} (hb : b.All K)
    (h : (b.levels side).find? price = some (m :: rest)) (hr : K (m.withRemaining r))
    (hq : q ~ m.withRemaining r :: rest) : (b.withQueue side price q).All K := by
  rcases pool_shrinkFront h hq with ⟨others, hold, hnew⟩
  refine ⟨noEmptyLevel_withQueue hb.noEmpty _ _ _, ?_⟩
  intro o ho
  rw [hnew] at ho
  rcases Multiset.mem_cons.mp ho with rfl | ho
  · exact hr
  · refine hb.all o ?_
    rw [hold]
    exact Multiset.mem_cons_of_mem ho

theorem OrderBook.card_shrinkFront {b : OrderBook} {side : Side} {price r : Decimal} {m : Order}
    {rest q : List Order} (h : (b.levels side).find? price = some (m :: rest))
    (hq : q ~ m.withRemaining r :: rest) :
    (b.withQueue side price q).restingPool.card = b.restingPool.card := by
  rcases restingPool_shrinkFront h hq with ⟨others, hold, hnew⟩
  rw [hnew, hold, Multiset.card_cons, Multiset.card_cons]

/-- A cancel emits no fill. -/
theorem fill_notMem_cancel (b : OrderBook) (id : Uuid) (reason : CancelReason) (f : Fill) :
    EngineEvent.fill f ∉ (b.cancelOrderInternal id reason).2 := by
  have hspec := b.cancelOrderInternal_spec id reason
  generalize b.cancelOrderInternal id reason = r at hspec ⊢
  cases hspec <;> simp

/-- An OCO cancel fills nothing. -/
theorem fill_notMem_oco (b : OrderBook) (id : Uuid) (f : Fill) :
    EngineEvent.fill f ∉ (b.maybeCancelOco id).2 := by
  unfold maybeCancelOco
  cases b.ocoLinks.find? id with
  | none => simp
  | some linkedId => exact fill_notMem_cancel _ linkedId .oco f

theorem fill_notMem_cancelOrder (b : OrderBook) (id : Uuid) (f : Fill) :
    EngineEvent.fill f ∉ (b.cancelOrder id).2 := by
  unfold cancelOrder
  cases b.ocoLinks.find? id with
  | none => exact fill_notMem_cancel b id .adminCancel f
  | some linkedId =>
    intro hf
    rcases List.mem_append.mp hf with hf | hf
    · exact fill_notMem_cancel _ id .adminCancel f hf
    · exact fill_notMem_cancel _ linkedId .oco f hf

/-- Neither does the end of the taker. -/
theorem fill_notMem_finalize (b : OrderBook) (taker : Order) (hadFills : Bool) (f : Fill) :
    EngineEvent.fill f ∉ (b.finalizeTaker taker hadFills).2 := by
  have hspec := b.finalizeTaker_spec taker hadFills
  generalize b.finalizeTaker taker hadFills = r at hspec ⊢
  cases hspec <;> simp

section Loop

variable {K : Order → Prop} (hK : Kept K)

/-- What the matching loop of `taker` entered with book `b` keeps. -/
structure Tidy (K : Order → Prop) (b : OrderBook) (taker : Order) (s : MatchState) : Prop where
  book : s.book.All K
  same : s.taker = taker.withRemaining s.taker.remaining
  nonneg : 0 ≤ s.taker.remaining
  le : s.taker.remaining ≤ taker.remaining
  fills : ∀ f, EngineEvent.fill f ∈ s.events → 0 < f.quantity
  resting : s.book.restingPool.card ≤ b.restingPool.card
  stops : s.book.stopPool ≤ b.stopPool

/-- What bounds the number of turns: the taker's remainder and the live orders. -/
def turnMeasure (s : MatchState) : ℕ := s.taker.remaining.toNat + s.book.pool.card

/-- The loop starts tidy. -/
theorem tidy_enterLoop {b : OrderBook} {taker : Order} (hb : b.All K) (ht : K taker)
    (hK : Kept K) : Tidy K b taker (b.enterLoop taker) where
  book := hb
  same := rfl
  nonneg := (hK.sized taker ht).positive.le
  le := le_refl _
  fills := by
    intro f hf
    cases hf
  resting := le_refl _
  stops := le_refl _

variable {b : OrderBook} {taker m : Order} {s : MatchState} {price : Decimal} {rest : List Order}

theorem Meets.mem_pool (hm : Meets s price m rest) : m ∈ s.book.pool := by
  rw [pool_dropFront hm.level]
  exact Multiset.mem_cons_self _ _

include hK in
/-- A fill is positive, and not more than either side has. -/
theorem Meets.fill_pos (hm : Meets s price m rest) (hs : Tidy K b taker s) :
    0 < (fillOf s.taker m price).quantity :=
  fillOf_quantity_pos hm.pos (hK.sized m (hs.book.all m hm.mem_pool))

theorem mem_fills_append {events events' : List EngineEvent}
    (h : ∀ f, EngineEvent.fill f ∈ events → 0 < f.quantity)
    (h' : ∀ f, EngineEvent.fill f ∈ events' → 0 < f.quantity) :
    ∀ f, EngineEvent.fill f ∈ events ++ events' → 0 < f.quantity := by
  intro f hf
  rcases List.mem_append.mp hf with hf | hf
  · exact h f hf
  · exact h' f hf

include hK in
/-- Every turn keeps the book and the taker tidy. -/
theorem TurnSpec.tidy {t : Turn MatchState (MatchState × MatchExit)} (h : TurnSpec s t)
    (hs : Tidy K b taker s) : Tidy K b taker (stateAfter t) := by
  -- what the turns have in common: a fill is positive, a maker that leaves makes the book smaller
  have hfill : ∀ {price m rest}, Meets s price m rest → ∀ f,
      EngineEvent.fill f ∈ [EngineEvent.fill (fillOf s.taker m price)] → 0 < f.quantity := by
    intro price m rest hm f hf
    have heq : f = fillOf s.taker m price := by simpa using hf
    rw [heq]
    exact hm.fill_pos hK hs
  have hdrop : ∀ {price m rest}, Meets s price m rest →
      (s.book.dropFront s.taker.side.opposite price m rest).Within s.book := by
    intro price m rest hm
    exact within_dropFront hm.level
  have hsame : ∀ r, s.taker.withRemaining r = taker.withRemaining r := by
    intro r
    rw [hs.same]
    rfl
  cases h with
  | exhausted => exact hs
  | cancelTaker =>
    exact { hs with fills := mem_fills_append hs.fills (by simp) }
  | cancelMaker hm =>
    exact { hs with
      book := (hdrop hm).all hs.book
      fills := mem_fills_append hs.fills (by simp)
      resting := (Multiset.card_le_card (hdrop hm).resting).trans hs.resting
      stops := (hdrop hm).stops.trans hs.stops }
  | @decrementTaker price m rest hm _ _ hlt =>
    -- the maker gives what the taker had left, and keeps something
    have hr : m.remaining - s.taker.remaining ≤ m.remaining := by
      have := hm.pos
      lia
    have hkeep := hK.shrink m _ (hs.book.all m hm.mem_pool) (Int.sub_pos_of_lt hlt) hr
    exact {
      book := hs.book.shrinkFront hm.level hkeep (List.Perm.refl _)
      same := hsame 0
      nonneg := le_refl 0
      le := hs.nonneg.trans hs.le
      fills := mem_fills_append hs.fills (by simp)
      resting := (card_shrinkFront hm.level (List.Perm.refl _)).trans_le hs.resting
      stops := (stopPool_withQueue ..).trans_le hs.stops }
  | @decrementMaker price m rest hm _ _ hgt =>
    -- the taker goes on with what the maker did not take
    have hpos := (hK.sized m (hs.book.all m hm.mem_pool)).positive
    have hle := hs.le
    exact {
      book := (hdrop hm).all hs.book
      same := hsame _
      nonneg := Int.sub_nonneg_of_le hgt.le
      le := by simp only [stateAfter, Order.remaining_withRemaining]; lia
      fills := mem_fills_append hs.fills (by simp)
      resting := (Multiset.card_le_card (hdrop hm).resting).trans hs.resting
      stops := (hdrop hm).stops.trans hs.stops }
  | decrementBoth hm =>
    exact {
      book := (hdrop hm).all hs.book
      same := hsame 0
      nonneg := le_refl 0
      le := hs.nonneg.trans hs.le
      fills := mem_fills_append hs.fills (by simp)
      resting := (Multiset.card_le_card (hdrop hm).resting).trans hs.resting
      stops := (hdrop hm).stops.trans hs.stops }
  | @fillPart price m rest hm _ hpart =>
    have hq := hm.fill_pos hK hs
    -- the maker shrinks and stays
    have hlt : (fillOf s.taker m price).quantity < m.remaining :=
      lt_of_le_of_ne (fillOf_quantity_le ..) (Ne.symm hpart)
    have hperm := levelAfterFill_perm m rest (fillOf s.taker m price).quantity
    have hle := hs.le
    have hkeep := hK.shrink m (m.remaining - (fillOf s.taker m price).quantity)
      (hs.book.all m hm.mem_pool) (Int.sub_pos_of_lt hlt) (by lia)
    exact {
      book := hs.book.shrinkFront hm.level hkeep hperm
      same := hsame _
      nonneg := Int.sub_nonneg_of_le (fillOf_quantity_le_taker ..)
      le := by simp only [stateAfter, Order.remaining_withRemaining]; lia
      fills := mem_fills_append hs.fills (hfill hm)
      resting := (card_shrinkFront hm.level hperm).trans_le hs.resting
      stops := (stopPool_withQueue ..).trans_le hs.stops }
  | @fillWhole price m rest hm _ _ =>
    have hq := hm.fill_pos hK hs
    have hle := hs.le
    -- the maker leaves, and with it the OCO sibling
    have hwithin := (within_maybeCancelOco _ m.id).trans (hdrop hm)
    exact {
      book := hwithin.all hs.book
      same := hsame _
      nonneg := Int.sub_nonneg_of_le (fillOf_quantity_le_taker ..)
      le := by simp only [stateAfter, Order.remaining_withRemaining]; lia
      fills := mem_fills_append (mem_fills_append hs.fills (hfill hm))
        (fun f hf => absurd hf (fill_notMem_oco _ _ f))
      resting := (Multiset.card_le_card hwithin.resting).trans hs.resting
      stops := hwithin.stops.trans hs.stops }

include hK in
/-- A turn that goes round again shrinks the taker or the book. -/
theorem TurnSpec.turnMeasure_lt {s' : MatchState} (h : TurnSpec s (.next s'))
    (hs : Tidy K b taker s) : turnMeasure s' < turnMeasure s := by
  have hdrop : ∀ {price m rest}, Meets s price m rest →
      (s.book.dropFront s.taker.side.opposite price m rest).pool.card < s.book.pool.card := by
    intro price m rest hm
    rw [pool_dropFront hm.level, Multiset.card_cons]
    exact Nat.lt_succ_self _
  unfold turnMeasure
  cases h with
  -- a maker leaves
  | cancelMaker hm => exact Nat.add_lt_add_left (hdrop hm) _
  | @decrementMaker price m rest hm _ _ hgt =>
    have hpos := (hK.sized m (hs.book.all m hm.mem_pool)).positive
    have hcard := hdrop hm
    simp only [Order.remaining_withRemaining]
    lia
  -- nobody leaves, but the taker gets smaller by what was shown
  | @fillPart price m rest hm =>
    have hq := hm.fill_pos hK hs
    have hle := fillOf_quantity_le_taker s.taker m price
    rcases pool_shrinkFront hm.level
      (levelAfterFill_perm m rest (fillOf s.taker m price).quantity) with ⟨others, hold, hnew⟩
    simp only [Order.remaining_withRemaining]
    rw [hnew, hold, Multiset.card_cons, Multiset.card_cons]
    lia
  | @fillWhole price m rest hm =>
    have hq := hm.fill_pos hK hs
    have hcard := hdrop hm
    have hoco := Multiset.card_le_card (within_maybeCancelOco
      (s.book.dropFront s.taker.side.opposite price m rest) m.id).pool_le
    simp only [Order.remaining_withRemaining]
    lia

include hK in
theorem matchTurn_tidy {t : Turn MatchState (MatchState × MatchExit)} (hs : Tidy K b taker s)
    (h : matchTurn s = some t) : Tidy K b taker (stateAfter t) ∧ TurnSpec s t := by
  have hspec := turnSpec_of_eq hs.book.noEmpty h
  exact ⟨hspec.tidy hK hs, hspec⟩

include hK in
/-- The matching loop returns once its fuel exceeds the taker's remainder and
the number of live orders. -/
theorem runMatchingLoop_terminates {fuel : ℕ} (hb : b.All K) (ht : K taker)
    (hfuel : taker.remaining.toNat + b.pool.card < fuel) :
    ∃ r, b.runMatchingLoop fuel taker = some r := by
  have hloop : ∃ r, loop matchTurn fuel (b.enterLoop taker) = some r := by
    refine loop_terminates (Tidy K b taker) turnMeasure (tidy_enterLoop hb ht hK) ?_ ?_ hfuel
    · intro s hs
      rcases matchTurn_spec hs.book.noEmpty with ⟨t, ht, _⟩
      exact ⟨t, ht⟩
    · intro s s' hs hnext
      rcases matchTurn_tidy hK hs hnext with ⟨hs', hspec⟩
      exact ⟨hs', hspec.turnMeasure_lt hK hs⟩
  rcases hloop with ⟨r, hr⟩
  exact ⟨afterLoop r.1 r.2, by simp only [runMatchingLoop, hr]⟩

/-! ## A whole pass -/

/-- All have it still when one that has it is put on the book. -/
theorem OrderBook.All.insertMaker (hb : b.All K) (hm : K m) : (b.insertMaker m).All K := by
  cases hprice : m.price with
  | none =>
    have hsame : b.insertMaker m = b := by
      unfold OrderBook.insertMaker
      rw [hprice]
    rw [hsame]
    exact hb
  | some price =>
    refine ⟨?_, ?_⟩
    · rw [insertMaker_eq hprice]
      intro side p level h
      rw [levels_withIndex] at h
      exact noEmptyLevel_withQueue hb.noEmpty _ _ _ side p level h
    · -- the order itself, or one from before
      intro o ho
      rw [pool, restingPool_insertMaker hprice, stopPool_insertMaker, Multiset.cons_add] at ho
      rcases Multiset.mem_cons.mp ho with rfl | ho
      · exact hm
      · exact hb.all o ho

theorem card_insertMaker_le (b : OrderBook) (m : Order) :
    (b.insertMaker m).restingPool.card ≤ b.restingPool.card + 1 := by
  cases hprice : m.price with
  | none => simp [insertMaker, hprice]
  | some price => rw [restingPool_insertMaker hprice, Multiset.card_cons]

/-- What a run of the matching loop from book `b` leaves. -/
structure PassTidy (K : Order → Prop) (b : OrderBook)
    (r : OrderBook × List EngineEvent × List Order) : Prop where
  book : r.1.All K
  fills : ∀ f, EngineEvent.fill f ∈ r.2.1 → 0 < f.quantity
  resting : r.1.restingPool.card ≤ b.restingPool.card + 1
  triggered : ∃ hit : List Order, r.2.2 = hit.map convertStop ∧
    ↑hit + r.1.stopPool ≤ b.stopPool

/-- Draining the stops ends a pass. -/
theorem passTidy_drain {b' : OrderBook} {events : List EngineEvent} (hb' : b'.All K)
    (hfills : ∀ f, EngineEvent.fill f ∈ events → 0 < f.quantity)
    (hresting : b'.restingPool.card ≤ b.restingPool.card + 1) (hstops : b'.stopPool ≤ b.stopPool)
    (last : Option Decimal) :
    PassTidy K b ((b'.drainAfter last).1, events, (b'.drainAfter last).2) where
  book := (within_drainAfter b' last).all hb'
  fills := hfills
  resting := by
    rw [restingPool_drainAfter]
    exact hresting
  triggered := ⟨b'.hitAfter last, b'.drainAfter_snd last,
    (b'.stopPool_drainAfter last).symm.trans_le hstops⟩

include hK in
/-- Resting or cancelling the taker adds at most one order and no fill. -/
theorem Tidy.finalizeTaker (hs : Tidy K b taker s) (ht : K taker)
    {final : OrderBook × List EngineEvent}
    (h : FinalizeSpec s.book s.taker s.hadFills final) :
    final.1.All K ∧ final.1.restingPool.card ≤ b.restingPool.card + 1 ∧
      final.1.stopPool ≤ b.stopPool ∧ ∀ f, EngineEvent.fill f ∉ final.2 := by
  cases h with
  | filled => exact ⟨hs.book, hs.resting.trans (Nat.le_succ _), hs.stops, by simp⟩
  | cancelled => exact ⟨hs.book, hs.resting.trans (Nat.le_succ _), hs.stops, by simp⟩
  | rested hne =>
    have hkeep : K s.taker := by
      rw [hs.same]
      exact hK.shrink taker _ ht (lt_of_le_of_ne hs.nonneg (Ne.symm hne)) hs.le
    exact ⟨hs.book.insertMaker hkeep,
      (card_insertMaker_le _ _).trans (Nat.succ_le_succ hs.resting),
      (stopPool_insertMaker _ _).trans_le hs.stops, by simp⟩

/-- The OCO cancel that follows only when the taker is terminal. -/
theorem within_ite_maybeCancelOco (b : OrderBook) (id : Uuid) (terminal : Bool) :
    (if terminal then b.maybeCancelOco id else (b, [])).1.Within b ∧
      ∀ f, EngineEvent.fill f ∉ (if terminal then b.maybeCancelOco id else (b, [])).2 := by
  cases terminal with
  | true => exact ⟨within_maybeCancelOco b id, fill_notMem_oco b id⟩
  | false => exact ⟨Within.refl b, by simp⟩

include hK in
/-- The end of the run is tidy too. -/
theorem Tidy.afterLoop (hs : Tidy K b taker s) (ht : K taker) (exit : MatchExit) :
    PassTidy K b (OrderBook.afterLoop s exit) := by
  cases exit with
  | takerConsumed =>
    exact passTidy_drain hs.book hs.fills (hs.resting.trans (Nat.le_succ _)) hs.stops _
  | exhausted =>
    rcases hs.finalizeTaker hK ht (s.book.finalizeTaker_spec s.taker s.hadFills) with
      ⟨hall, hcard, hstops, hevents⟩
    rcases within_ite_maybeCancelOco (s.book.finalizeTaker s.taker s.hadFills).1 s.taker.id
      (takerTerminal s.taker (s.book.finalizeTaker s.taker s.hadFills).2) with ⟨hwithin, hoco⟩
    refine passTidy_drain (hwithin.all hall) ?_
      ((Multiset.card_le_card hwithin.resting).trans hcard) (hwithin.stops.trans hstops) _
    refine mem_fills_append (mem_fills_append hs.fills ?_) ?_
    · intro f hf
      exact absurd hf (hevents f)
    · intro f hf
      exact absurd hf (hoco f)

include hK in
/-- A run leaves a tidy book. -/
theorem runMatchingLoop_tidy {fuel : ℕ} {r : OrderBook × List EngineEvent × List Order}
    (hb : b.All K) (ht : K taker) (hrun : b.runMatchingLoop fuel taker = some r) :
    PassTidy K b r := by
  unfold runMatchingLoop at hrun
  cases hloop : loop matchTurn fuel (b.enterLoop taker) with
  | none =>
    rw [hloop] at hrun
    cases hrun
  | some out =>
    rw [hloop] at hrun
    cases hrun
    have hout := loop_invariant (Tidy K b taker) (fun r => Tidy K b taker r.1)
      (tidy_enterLoop hb ht hK) ?_ ?_ hloop
    · exact hout.afterLoop hK ht out.2
    · intro s s' hs hnext
      exact (matchTurn_tidy hK hs hnext).1
    · intro s r hs hdone
      exact (matchTurn_tidy hK hs hdone).1

/-! ## The cascade -/

/-- What the cascade keeps: `R` bounds the remainders still to be matched, `N`
the number of orders. -/
structure CascadeTidy (K : Order → Prop) (R N : ℕ) (c : CascadeState) : Prop where
  book : c.book.All K
  queue : ∀ o ∈ c.workQueue, K o
  queueBound : ∀ o ∈ c.workQueue, o.remaining.toNat ≤ R
  stopBound : ∀ o ∈ c.book.stopPool, o.remaining.toNat ≤ R
  total : c.book.pool.card + c.workQueue.length ≤ N
  fills : ∀ f, EngineEvent.fill f ∈ c.events → 0 < f.quantity

/-- The orders that can still enter the matching loop. -/
def cascadeMeasure (c : CascadeState) : ℕ := c.workQueue.length + c.book.stopPool.card

variable {R N fuel : ℕ}

theorem mem_workQueue_head {c : CascadeState} {order : Order} {rest : List Order}
    (h : c.workQueue = order :: rest) : order ∈ c.workQueue := by
  rw [h]
  exact List.mem_cons_self

theorem mem_workQueue_tail {c : CascadeState} {order o : Order} {rest : List Order}
    (h : c.workQueue = order :: rest) (ho : o ∈ rest) : o ∈ c.workQueue := by
  rw [h]
  exact List.mem_cons_of_mem order ho

include hK in
/-- The orders a pass triggers are as good as the stops they were. -/
theorem PassTidy.mem_triggered {c : CascadeState} (hc : CascadeTidy K R N c)
    {r : OrderBook × List EngineEvent × List Order} (hr : PassTidy K c.book r) :
    ∀ o ∈ r.2.2, K o ∧ o.remaining.toNat ≤ R := by
  intro o ho
  rcases hr.triggered with ⟨hit, heq, hle⟩
  rw [heq] at ho
  rcases List.mem_map.mp ho with ⟨stop, hstop, rfl⟩
  have hmem : stop ∈ c.book.stopPool :=
    Multiset.mem_of_le ((Multiset.le_add_right _ _).trans hle) hstop
  exact ⟨hK.convert stop (hc.book.all stop (mem_pool.mpr (Or.inr hmem))),
    hc.stopBound stop hmem⟩

/-- No stop has more left than the bound of the cascade. -/
theorem PassTidy.stopBound {c : CascadeState} (hc : CascadeTidy K R N c)
    {r : OrderBook × List EngineEvent × List Order} (hr : PassTidy K c.book r) :
    ∀ o ∈ r.1.stopPool, o.remaining.toNat ≤ R := by
  intro o ho
  rcases hr.triggered with ⟨hit, _, hle⟩
  exact hc.stopBound o (Multiset.mem_of_le ((Multiset.le_add_left _ _).trans hle) ho)

/-- The triggered orders and the stops left are no more than the stops before. -/
theorem PassTidy.card_stops {r : OrderBook × List EngineEvent × List Order}
    (hr : PassTidy K b r) : r.2.2.length + r.1.stopPool.card ≤ b.stopPool.card := by
  rcases hr.triggered with ⟨hit, heq, hle⟩
  have hcard := Multiset.card_le_card hle
  rw [Multiset.card_add, Multiset.coe_card] at hcard
  rw [heq, List.length_map]
  exact hcard

include hK in
/-- One turn of the cascade keeps it tidy and uses an order up. -/
theorem CascadeStep.tidy {c c' : CascadeState} (h : CascadeStep fuel c c')
    (hc : CascadeTidy K R N c) : CascadeTidy K R N c' ∧ cascadeMeasure c' < cascadeMeasure c := by
  have htotal := hc.total
  simp only [pool, Multiset.card_add] at htotal
  cases h with
  -- the stops that were hit leave the registry for the queue
  | push hqueue hrun hdepth =>
    have hpass := runMatchingLoop_tidy hK hc.book (hc.queue _ (mem_workQueue_head hqueue)) hrun
    have hnew := hpass.mem_triggered hK hc
    have hstops := hpass.card_stops
    have hresting := hpass.resting
    dsimp only at hstops hresting
    rw [hqueue, List.length_cons] at htotal
    refine ⟨⟨hpass.book, ?_, ?_, hpass.stopBound hc, ?_, ?_⟩, ?_⟩
    · intro o ho
      rcases List.mem_append.mp ho with ho | ho
      · exact (hnew o (List.mem_reverse.mp ho)).1
      · exact hc.queue o (mem_workQueue_tail hqueue ho)
    · intro o ho
      rcases List.mem_append.mp ho with ho | ho
      · exact (hnew o (List.mem_reverse.mp ho)).2
      · exact hc.queueBound o (mem_workQueue_tail hqueue ho)
    · simp only [pool, Multiset.card_add, List.length_append, List.length_reverse]
      omega
    · refine mem_fills_append (mem_fills_append hc.fills hpass.fills) ?_
      intro f hf
      simp at hf
    · -- each stop in the registry weighs more than one in the queue
      simp only [cascadeMeasure, hqueue, List.length_cons, List.length_append,
        List.length_reverse]
      omega
  -- at the depth limit they are lost
  | cut hqueue hrun hdepth =>
    have hpass := runMatchingLoop_tidy hK hc.book (hc.queue _ (mem_workQueue_head hqueue)) hrun
    have hstops := hpass.card_stops
    have hresting := hpass.resting
    dsimp only at hstops hresting
    rw [hqueue, List.length_cons] at htotal
    refine ⟨⟨hpass.book, ?_, ?_, hpass.stopBound hc, ?_, ?_⟩, ?_⟩
    · intro o ho
      exact hc.queue o (mem_workQueue_tail hqueue ho)
    · intro o ho
      exact hc.queueBound o (mem_workQueue_tail hqueue ho)
    · simp only [pool, Multiset.card_add]
      omega
    · exact mem_fills_append hc.fills hpass.fills
    · simp only [cascadeMeasure, hqueue, List.length_cons]
      omega

include hK in
/-- A turn of the cascade is complete when the fuel covers one pass. -/
theorem cascadeTurn_total {c : CascadeState} (hc : CascadeTidy K R N c) (hfuel : R + N < fuel) :
    ∃ t, cascadeTurn fuel c = some t := by
  unfold cascadeTurn
  cases hq : c.workQueue with
  | nil => exact ⟨_, rfl⟩
  | cons order rest =>
    have hmem := mem_workQueue_head hq
    have hbound := hc.queueBound order hmem
    have htotal := hc.total
    have hpass : order.remaining.toNat + c.book.pool.card < fuel := by omega
    rcases runMatchingLoop_terminates hK hc.book (hc.queue order hmem) hpass with ⟨r, hr⟩
    simp only [hr]
    split_ifs
    · exact ⟨_, rfl⟩
    · exact ⟨_, rfl⟩

/-- The cascade is entered tidy, with bounds read off the book. -/
theorem exists_cascadeTidy (hb : b.All K) (ht : K taker) :
    ∃ R N, CascadeTidy K R N (b.enterCascade taker) := by
  refine ⟨((taker ::ₘ b.stopPool).map fun o => o.remaining.toNat).sup, b.pool.card + 1,
    hb, ?_, ?_, ?_, le_refl _, ?_⟩
  · intro o ho
    rw [List.mem_singleton.mp ho]
    exact ht
  · intro o ho
    rw [List.mem_singleton.mp ho]
    exact Multiset.le_sup (Multiset.mem_map_of_mem _ (Multiset.mem_cons_self _ _))
  · intro o ho
    exact Multiset.le_sup (Multiset.mem_map_of_mem _ (Multiset.mem_cons_of_mem ho))
  · intro f hf
    cases hf

/-! ## A whole call -/

/-- Registering a stop keeps what all orders have. -/
theorem OrderBook.All.registerStopOrder (hb : b.All K) (ht : K taker) :
    (b.registerStopOrder taker).1.All K := by
  unfold OrderBook.registerStopOrder
  cases hins : b.stops.insert taker with
  | error e => exact hb
  | ok stops =>
    refine ⟨?_, ?_⟩
    · intro side price level h
      rw [levels_withStops] at h
      exact hb.noEmpty side price level h
    · intro o ho
      rcases mem_pool.mp ho with ho | ho
      · exact hb.all o (mem_pool.mpr (Or.inl ho))
      · rcases List.mem_cons.mp ((StopRegistry.insert_orders hins).subset ho) with rfl | ho
        · exact ht
        · exact hb.all o (mem_pool.mpr (Or.inr ho))

include hK in
/-- Every call of `match_order` returns. -/
theorem matchOrder_terminates (hb : b.All K) (ht : K taker) :
    ∃ n, ∀ fuel ≥ n, ∃ r, b.matchOrder fuel taker = some r := by
  rcases exists_cascadeTidy hb ht with ⟨R, N, hc⟩
  refine ⟨R + N + cascadeMeasure (b.enterCascade taker) + 1, ?_⟩
  intro fuel hfuel
  unfold matchOrder
  cases b.preCheck taker with
  | some reject => exact ⟨_, rfl⟩
  | none =>
    dsimp only
    split_ifs with hstop
    · exact ⟨_, rfl⟩
    · refine loop_terminates (CascadeTidy K R N) cascadeMeasure hc ?_ ?_ (by omega)
      · intro c hc
        exact cascadeTurn_total hK hc (by omega)
      · intro c c' hc hnext
        exact (cascadeTurn_next hnext).tidy hK hc

include hK in
/-- Every call of `match_order` that returns keeps the property of all live
orders, and its fills are positive. -/
theorem matchOrder_all {b' : OrderBook} {events : List EngineEvent} (hb : b.All K)
    (ht : K taker) (h : b.matchOrder fuel taker = some (b', events)) :
    b'.All K ∧ ∀ f, EngineEvent.fill f ∈ events → 0 < f.quantity := by
  have hcases := matchOrder_cases h
  generalize hr : (b', events) = r at hcases
  cases hcases with
  | rejected reason =>
    cases hr
    exact ⟨hb, fun f hf => by cases List.mem_singleton.mp hf⟩
  -- a registered stop fills nothing
  | stop =>
    have hreg := hb.registerStopOrder ht
    have hevents : ∀ f, EngineEvent.fill f ∉ (b.registerStopOrder taker).2 := by
      intro f
      unfold registerStopOrder
      cases b.stops.insert taker <;> simp
    rw [← hr] at hreg hevents
    exact ⟨hreg, fun f hf => absurd hf (hevents f)⟩
  -- the loop rule with the invariant of the cascade
  | matched _ _ hloop =>
    cases hr
    rcases exists_cascadeTidy hb ht with ⟨R, N, hc⟩
    refine loop_invariant (CascadeTidy K R N)
      (fun r => r.1.All K ∧ ∀ f, EngineEvent.fill f ∈ r.2 → 0 < f.quantity) hc ?_ ?_ hloop
    · intro c c' hc hnext
      exact ((cascadeTurn_next hnext).tidy hK hc).1
    · intro c r hc hdone
      rw [(cascadeTurn_done hdone).2]
      exact ⟨hc.book, hc.fills⟩

end Loop

end CryptoCex.Core
