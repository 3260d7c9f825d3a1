import CryptoCex.Core.Book

/-!
# What each book operation does

Every mutation of the book writes one queue of one side (`withQueue`), and
possibly the index, the stop registry or the OCO links. This module brings each
operation of `Book.lean` into that normal form once:

* `matchTurn_spec`: the seven things one turn of the matching loop can do
  (`TurnSpec`);
* `cancelOrderInternal_spec`: the four outcomes of a cancel (`CancelSpec`);
* `insertMaker_eq`: resting an order.

The views are `queue` (one level in time priority), `resting` (all orders of
one side) and `live` (resting orders and registered stops).
-/

namespace CryptoCex.Core

open Loop

open scoped List

namespace OrderBook

variable {b : OrderBook} {side side' : Side} {price price' : Decimal}

/-! ## Views -/

/-- The queue at one price level; a missing level is an empty queue. -/
def queue (b : OrderBook) (side : Side) (price : Decimal) : List Order :=
  (b.levels side).queueAt price

/-- All orders resting on one side. -/
def resting (b : OrderBook) (side : Side) : List Order := (b.levels side).flat

/-- All live orders: those resting on either side and the registered stops. -/
def live (b : OrderBook) : List Order :=
  b.resting .buy ++ b.resting .sell ++ b.stops.orders

/-- No price level is empty. -/
def NoEmptyLevel (b : OrderBook) : Prop :=
  ∀ side price level, (b.levels side).find? price = some level → level ≠ []

theorem noEmptyLevel_new : new.NoEmptyLevel := by
  intro side price level h
  cases side <;> cases h

theorem mem_resting {o : Order} : o ∈ b.resting side ↔ ∃ price, o ∈ b.queue side price :=
  OrdMap.mem_flat

theorem queue_eq_of_find? {q : List Order} (h : (b.levels side).find? price = some q) :
    b.queue side price = q := by
  simp [queue, OrdMap.queueAt, h]

/-- The prices of a side are those at which orders rest. -/
theorem queue_ne_nil_iff (hb : b.NoEmptyLevel) :
    b.queue side price ≠ [] ↔ price ∈ (b.levels side).keys := by
  rw [OrdMap.mem_keys, queue, OrdMap.queueAt]
  cases hq : (b.levels side).find? price with
  | none => simp
  | some q => simpa using hb side price q hq

theorem queueQty_eq (q : List Order) : queueQty q = (q.map (·.remaining)).sum :=
  Decimal.sum_exact _

/-! ## Writing one queue -/

/-- The book with one queue rewritten; an empty queue removes its level. -/
def withQueue (b : OrderBook) (side : Side) (price : Decimal) (q : List Order) : OrderBook :=
  b.setLevels side ((b.levels side).putQueue price q)

/-- The book without an index entry. -/
def unindex (b : OrderBook) (id : Uuid) : OrderBook :=
  { b with orderIndex := b.orderIndex.erase id }

/-- The book without the links of a pair. -/
def unlink (b : OrderBook) (id linkedId : Uuid) : OrderBook :=
  { b with ocoLinks := (b.ocoLinks.erase id).erase linkedId }

@[simp] theorem levels_setLevels (b : OrderBook) (side side' : Side) (l : Levels) :
    (b.setLevels side l).levels side' = if side' = side then l else b.levels side' := by
  cases side <;> cases side' <;> simp [setLevels, levels]

@[simp] theorem orderIndex_setLevels (b : OrderBook) (side : Side) (l : Levels) :
    (b.setLevels side l).orderIndex = b.orderIndex := by
  cases side <;> rfl

@[simp] theorem stops_setLevels (b : OrderBook) (side : Side) (l : Levels) :
    (b.setLevels side l).stops = b.stops := by
  cases side <;> rfl

@[simp] theorem ocoLinks_setLevels (b : OrderBook) (side : Side) (l : Levels) :
    (b.setLevels side l).ocoLinks = b.ocoLinks := by
  cases side <;> rfl

@[simp] theorem setLevels_setLevels (b : OrderBook) (side : Side) (l l' : Levels) :
    (b.setLevels side l).setLevels side l' = b.setLevels side l' := by
  cases side <;> rfl

@[simp] theorem levels_unindex (b : OrderBook) (id : Uuid) (side : Side) :
    (b.unindex id).levels side = b.levels side := by
  cases side <;> rfl

@[simp] theorem levels_unlink (b : OrderBook) (id linkedId : Uuid) (side : Side) :
    (b.unlink id linkedId).levels side = b.levels side := by
  cases side <;> rfl

@[simp] theorem levels_withIndex (b : OrderBook) (index : OrdMap Uuid (Side × Decimal))
    (side : Side) : { b with orderIndex := index }.levels side = b.levels side := by
  cases side <;> rfl

@[simp] theorem levels_withStops (b : OrderBook) (stops : StopRegistry) (side : Side) :
    { b with stops := stops }.levels side = b.levels side := by
  cases side <;> rfl

@[simp] theorem orderIndex_withQueue (b : OrderBook) (side : Side) (price : Decimal)
    (q : List Order) : (b.withQueue side price q).orderIndex = b.orderIndex :=
  orderIndex_setLevels ..

@[simp] theorem stops_withQueue (b : OrderBook) (side : Side) (price : Decimal)
    (q : List Order) : (b.withQueue side price q).stops = b.stops :=
  stops_setLevels ..

@[simp] theorem ocoLinks_withQueue (b : OrderBook) (side : Side) (price : Decimal)
    (q : List Order) : (b.withQueue side price q).ocoLinks = b.ocoLinks :=
  ocoLinks_setLevels ..

/-- Writing one level leaves the others. -/
theorem queue_withQueue (b : OrderBook) (side side' : Side) (price price' : Decimal)
    (q : List Order) :
    (b.withQueue side price q).queue side' price' =
      if side' = side ∧ price' = price then q else b.queue side' price' := by
  simp only [withQueue, queue, levels_setLevels]
  by_cases hs : side' = side
  · subst hs
    rw [if_pos rfl, OrdMap.queueAt_putQueue]
    simp
  · simp [hs]

@[simp] theorem queue_withQueue_self (b : OrderBook) (side : Side) (price : Decimal)
    (q : List Order) : (b.withQueue side price q).queue side price = q := by
  simp [queue_withQueue]

/-- A level that becomes empty is dropped. -/
theorem noEmptyLevel_withQueue (hb : b.NoEmptyLevel) (side : Side) (price : Decimal)
    (q : List Order) : (b.withQueue side price q).NoEmptyLevel := by
  intro s p level h
  simp only [withQueue, levels_setLevels] at h
  by_cases hs : s = side
  · subst hs
    rw [if_pos rfl, OrdMap.find?_putQueue] at h
    split_ifs at h with hp hq
    · cases h
      exact hq
    · exact hb s p level h
  · rw [if_neg hs] at h
    exact hb s p level h

@[simp] theorem noEmptyLevel_unindex {id : Uuid} :
    (b.unindex id).NoEmptyLevel ↔ b.NoEmptyLevel := by
  simp only [NoEmptyLevel, levels_unindex]

@[simp] theorem noEmptyLevel_unlink {id linkedId : Uuid} :
    (b.unlink id linkedId).NoEmptyLevel ↔ b.NoEmptyLevel := by
  simp only [NoEmptyLevel, levels_unlink]

/-- Rewriting a queue exchanges its orders and keeps all others. -/
theorem resting_withQueue (b : OrderBook) (side : Side) (price : Decimal) (q : List Order) :
    ∃ others, b.resting side ~ b.queue side price ++ others ∧
      (b.withQueue side price q).resting side ~ q ++ others := by
  refine ⟨((b.levels side).erase price).flat, OrdMap.flat_eq_queueAt _ _, ?_⟩
  have h := OrdMap.flat_putQueue (b.levels side) price q
  simpa [resting, withQueue] using h

theorem resting_withQueue_other (b : OrderBook) {side side' : Side} (price : Decimal)
    (q : List Order) (h : side' ≠ side) :
    (b.withQueue side price q).resting side' = b.resting side' := by
  simp [resting, withQueue, h]

/-! ## Mutations in normal form -/

/-- `setLevel` followed by the removal of an empty level. -/
theorem setLevel_then_removeLevel (b : OrderBook) (side : Side) (price : Decimal)
    (q : List Order) :
    (if q.isEmpty then (b.setLevel side price q).removeLevel side price
      else b.setLevel side price q) = b.withQueue side price q := by
  cases q with
  | nil => simp [setLevel, removeLevel, withQueue, OrdMap.putQueue]
  | cons o q => simp [setLevel, withQueue, OrdMap.putQueue]

theorem setLevel_unindex (b : OrderBook) (side : Side) (price : Decimal) (q : List Order)
    (id : Uuid) :
    { b.setLevel side price q with orderIndex := (b.setLevel side price q).orderIndex.erase id } =
      (b.unindex id).setLevel side price q := by
  cases side <;> rfl

theorem withQueue_unindex (b : OrderBook) (side : Side) (price : Decimal) (q : List Order)
    (id : Uuid) :
    (b.unindex id).withQueue side price q = (b.withQueue side price q).unindex id := by
  cases side <;> rfl

variable {m : Order} {rest : List Order}

/-- The book after the front order of a level was taken off. -/
def dropFront (b : OrderBook) (side : Side) (price : Decimal) (m : Order) (rest : List Order) :
    OrderBook :=
  (b.withQueue side price rest).unindex m.id

/-- Popping the front maker drops it from its level and from the index. -/
theorem popFrontMaker_eq (h : (b.levels side).find? price = some (m :: rest)) :
    b.popFrontMaker side price m.id = b.dropFront side price m rest := by
  have hset := setLevel_then_removeLevel (b.unindex m.id) side price rest
  simp only [popFrontMaker, h, List.tail_cons, setLevel_unindex]
  rw [hset, withQueue_unindex, dropFront]

/-- Decrementing it leaves it in front. -/
theorem decrementFrontMaker_eq {amount : Decimal}
    (h : (b.levels side).find? price = some (m :: rest)) (hne : m.remaining - amount ≠ 0) :
    b.decrementFrontMaker side price amount =
      b.withQueue side price (m.withRemaining (m.remaining - amount) :: rest) := by
  have hset := setLevel_then_removeLevel b side price
    (m.withRemaining (m.remaining - amount) :: rest)
  simp only [decrementFrontMaker, h, Decimal.sub_exact, Order.remaining_withRemaining, beq_iff_eq,
    if_neg hne]
  simpa using hset

/-- The level after a fill that leaves the maker something: an iceberg whose
visible slice is used up goes to the back. -/
def levelAfterFill (m : Order) (rest : List Order) (fillQty : Decimal) : List Order :=
  if m.displayQty.isSome && fillQty == m.effectiveQty then
    rest ++ [m.withRemaining (m.remaining - fillQty)]
  else m.withRemaining (m.remaining - fillQty) :: rest

/-- After a part fill the level has the same orders, with less left of the maker. -/
theorem levelAfterFill_perm (m : Order) (rest : List Order) (fillQty : Decimal) :
    levelAfterFill m rest fillQty ~ m.withRemaining (m.remaining - fillQty) :: rest := by
  unfold levelAfterFill
  split_ifs with h
  · exact List.perm_append_singleton _ _
  · exact List.Perm.refl _

/-- The maker the matching loop peeks at. -/
def peekedOf (m : Order) : PeekedMaker where
  id := m.id
  userId := m.userId
  effectiveQty := m.effectiveQty
  remaining := m.remaining
  hasDisplayQty := m.displayQty.isSome

/-- The peeked maker is the front of the level. -/
theorem peekFrontMaker_eq (h : (b.levels side).find? price = some (m :: rest)) :
    b.peekFrontMaker side price = some (peekedOf m) := by
  simp only [peekFrontMaker, h, peekedOf]

/-- A maker that is used up leaves the book. -/
theorem applyFillToMaker_whole {fillQty : Decimal}
    (h : (b.levels side).find? price = some (m :: rest)) (hz : m.remaining - fillQty = 0) :
    b.applyFillToMaker side price fillQty (peekedOf m) =
      (b.dropFront side price m rest, true) := by
  have hset := setLevel_then_removeLevel (b.unindex m.id) side price rest
  simp only [applyFillToMaker, h, Decimal.sub_exact, hz, Order.remaining_withRemaining,
    Order.id_withRemaining, beq_self_eq_true, if_true, setLevel_unindex]
  rw [hset, withQueue_unindex, dropFront]

/-- One that is not is written back, in front or, after a slice, behind the others. -/
theorem applyFillToMaker_part {fillQty : Decimal}
    (h : (b.levels side).find? price = some (m :: rest)) (hz : m.remaining - fillQty ≠ 0) :
    b.applyFillToMaker side price fillQty (peekedOf m) =
      (b.withQueue side price (levelAfterFill m rest fillQty), false) := by
  have hset := setLevel_then_removeLevel b side price (levelAfterFill m rest fillQty)
  have hdone : (m.remaining - fillQty == 0) = false := by simpa using hz
  simp only [applyFillToMaker, h, Decimal.sub_exact, Order.remaining_withRemaining, hdone, peekedOf,
    Bool.false_eq_true, if_false]
  exact congrArg (fun x => (x, false)) hset

/-- Resting an order appends it to its level and indexes it. -/
theorem insertMaker_eq {o : Order} (h : o.price = some price) :
    b.insertMaker o =
      { b.withQueue o.side price (b.queue o.side price ++ [o]) with
        orderIndex := b.orderIndex.insert o.id (o.side, price) } := by
  unfold insertMaker
  rw [h]
  cases hs : o.side <;>
    simp [setLevel, withQueue, setLevels, levels, queue, OrdMap.putQueue]

/-! ## Cancels -/

/-- The outcomes of a cancel that does not propagate to OCO links. -/
inductive CancelSpec (b : OrderBook) (id : Uuid) (reason : CancelReason) :
    OrderBook × List EngineEvent → Prop where
  | stop (stops : StopRegistry) (o : Order) (hid : o.id = id)
      (hperm : b.stops.orders ~ o :: stops.orders) (hfiled : b.stops.Filed → stops.Filed) :
      CancelSpec b id reason ({ b with stops }, [.cancelled id reason])
  | missing (hstops : ∀ o ∈ b.stops.orders, o.id ≠ id) (hindex : b.orderIndex.find? id = none) :
      CancelSpec b id reason (b, [])
  | stale (side : Side) (price : Decimal) (hstops : ∀ o ∈ b.stops.orders, o.id ≠ id)
      (hindex : b.orderIndex.find? id = some (side, price)) (hqueue : b.queue side price = []) :
      CancelSpec b id reason (b.unindex id, [])
  | resting (side : Side) (price : Decimal) (hstops : ∀ o ∈ b.stops.orders, o.id ≠ id)
      (hindex : b.orderIndex.find? id = some (side, price))
      (hlevel : price ∈ (b.levels side).keys) :
      CancelSpec b id reason
        ((b.withQueue side price ((b.queue side price).eraseP fun o => o.id = id)).unindex id,
          [.cancelled id reason])

/-- A cancellation looks among the stops, then in the index, and takes out what it finds. -/
theorem cancelOrderInternal_spec (b : OrderBook) (id : Uuid) (reason : CancelReason) :
    CancelSpec b id reason (b.cancelOrderInternal id reason) := by
  unfold cancelOrderInternal
  rcases b.stops.cancel_spec id with ⟨hfound, ⟨o, hid, hperm⟩, hfiled⟩ | ⟨hmiss, hstops⟩
  · -- a stop
    have hpair : b.stops.cancel id = ((b.stops.cancel id).1, true) := Prod.ext rfl hfound
    rw [hpair]
    exact CancelSpec.stop _ o hid hperm hfiled
  · rw [hmiss]
    dsimp only
    cases hindex : b.orderIndex.find? id with
    | none => exact CancelSpec.missing hstops hindex
    | some sp =>
      rcases sp with ⟨side, price⟩
      dsimp only
      rw [levels_withIndex]
      cases hlevel : (b.levels side).find? price with
      | none =>
        -- indexed, but its level is gone
        refine CancelSpec.stale side price hstops hindex ?_
        simp [queue, OrdMap.queueAt, hlevel]
      | some level =>
        -- resting: its level is written back without it
        have hset := setLevel_then_removeLevel (b.unindex id) side price
          (level.eraseP fun o => o.id = id)
        have hq := queue_eq_of_find? hlevel
        have hspec : CancelSpec b id reason _ := CancelSpec.resting side price hstops hindex
          (OrdMap.mem_keys.mpr ⟨level, hlevel⟩)
        rw [hq, ← withQueue_unindex, ← hset] at hspec
        exact hspec

/-! ## The best opposite price -/

/-- For a taker on `side`, price `p` is at least as good as `p'`. -/
def AtLeastAsGood (side : Side) (p p' : Decimal) : Prop :=
  match side with
  | .buy => p ≤ p'
  | .sell => p' ≤ p

/-- Without a best price no order rests on the other side. -/
theorem bestOppositePrice_eq_none (hb : b.NoEmptyLevel)
    (h : b.bestOppositePrice side = none) (price : Decimal) :
    b.queue side.opposite price = [] := by
  have hkeys : (b.levels side.opposite).keys = [] := by
    cases side with
    | buy => exact OrdMap.minKey?_eq_none.mp h
    | sell => exact OrdMap.maxKey?_eq_none.mp h
  by_contra hne
  rw [← ne_eq, queue_ne_nil_iff hb, hkeys] at hne
  cases hne

/-- The best price is at least as good as any at which an order rests. -/
theorem bestOppositePrice_best (hb : b.NoEmptyLevel)
    (h : b.bestOppositePrice side = some price)
    (hp : b.queue side.opposite price' ≠ []) : AtLeastAsGood side price price' := by
  rw [queue_ne_nil_iff hb] at hp
  cases side with
  | buy => exact OrdMap.minKey?_le h hp
  | sell => exact OrdMap.le_maxKey? h hp

/-- At the best price there is a maker. -/
theorem bestOppositePrice_level (hb : b.NoEmptyLevel)
    (h : b.bestOppositePrice side = some price) :
    ∃ m rest, (b.levels side.opposite).find? price = some (m :: rest) := by
  have hkey : price ∈ (b.levels side.opposite).keys := by
    cases side with
    | buy => exact OrdMap.mem_keys_of_minKey? h
    | sell => exact OrdMap.mem_keys_of_maxKey? h
  rcases OrdMap.mem_keys.mp hkey with ⟨level, hlevel⟩
  cases level with
  | nil => exact absurd rfl (hb _ _ _ hlevel)
  | cons m rest => exact ⟨m, rest, hlevel⟩

/-- A price at least as good as an acceptable one is acceptable. -/
theorem takerPriceSatisfied_of_atLeastAsGood {taker : Order}
    (hgood : AtLeastAsGood taker.side price price')
    (h : takerPriceSatisfied taker price' = true) : takerPriceSatisfied taker price = true := by
  unfold takerPriceSatisfied at *
  cases hp : taker.price with
  | none => rfl
  | some limit =>
    rw [hp] at h
    cases hs : taker.side with
    | buy =>
      rw [hs] at h hgood
      simp only [AtLeastAsGood, decide_eq_true_eq] at *
      exact hgood.trans h
    | sell =>
      rw [hs] at h hgood
      simp only [AtLeastAsGood, decide_eq_true_eq] at *
      exact h.trans hgood

/-! ## The end of the loop -/

/-- What becomes of a taker whose matching loop has ended. -/
inductive FinalizeSpec (b : OrderBook) (taker : Order) (hadFills : Bool) :
    OrderBook × List EngineEvent → Prop where
  | filled (hzero : taker.remaining = 0) : FinalizeSpec b taker hadFills (b, [])
  | cancelled (hne : taker.remaining ≠ 0) (reason : CancelReason)
      (hfok : reason = .fokUnfilled ↔ taker.orderType = .fok)
      (hpost : reason = .postOnlyCrossed → taker.orderType = .postOnly ∧ hadFills = true) :
      FinalizeSpec b taker hadFills (b, [.cancelled taker.id reason])
  | rested (hne : taker.remaining ≠ 0) (hactive : taker.orderType.isStop = false)
      (hrest : taker.orderType.canRest = true) :
      FinalizeSpec b taker hadFills (b.insertMaker taker, [.rested taker.id taker.remaining])

/-- The end of the taker: filled, cancelled or rested. -/
theorem finalizeTaker_spec (b : OrderBook) (taker : Order) (hadFills : Bool) :
    FinalizeSpec b taker hadFills (b.finalizeTaker taker hadFills) := by
  unfold finalizeTaker
  by_cases hzero : taker.remaining = 0
  · rw [if_pos (beq_iff_eq.mpr hzero)]
    exact FinalizeSpec.filled hzero
  · rw [if_neg (fun h => hzero (beq_iff_eq.mp h))]
    cases htype : taker.orderType <;> dsimp only
    case postOnly =>
      cases hadFills with
      | true => exact FinalizeSpec.cancelled hzero _ (by simp [htype]) (fun _ => ⟨htype, rfl⟩)
      | false => exact FinalizeSpec.rested hzero (by rw [htype]; rfl) (by rw [htype]; rfl)
    case limit => exact FinalizeSpec.rested hzero (by rw [htype]; rfl) (by rw [htype]; rfl)
    case oco => exact FinalizeSpec.rested hzero (by rw [htype]; rfl) (by rw [htype]; rfl)
    case iceberg => exact FinalizeSpec.rested hzero (by rw [htype]; rfl) (by rw [htype]; rfl)
    all_goals exact FinalizeSpec.cancelled hzero _ (by simp [htype]) (fun h => by cases h)

end OrderBook

/-! ## One turn of the matching loop -/

/-- The loop stands before a turn that reaches the front maker `m` of the best
opposite level. -/
structure Meets (s : MatchState) (price : Decimal) (m : Order) (rest : List Order) : Prop where
  pos : 0 < s.taker.remaining
  best : s.book.bestOppositePrice s.taker.side = some price
  acceptable : OrderBook.takerPriceSatisfied s.taker price = true
  level : (s.book.levels s.taker.side.opposite).find? price = some (m :: rest)

/-- The fill of the taker with maker `m`. -/
def fillOf (taker m : Order) (price : Decimal) : Fill where
  takerOrderId := taker.id
  makerOrderId := m.id
  price := price
  quantity := min taker.remaining m.effectiveQty
  takerSide := taker.side

/-- Everything one turn of the matching loop can do on a book without empty
levels. -/
inductive TurnSpec (s : MatchState) : Turn MatchState (MatchState × MatchExit) → Prop where
  | exhausted
      (h : s.taker.remaining ≤ 0 ∨ ∀ price, s.book.bestOppositePrice s.taker.side = some price →
        OrderBook.takerPriceSatisfied s.taker price = false) :
      TurnSpec s (.done (s, .exhausted))
  | cancelTaker {price : Decimal} {m : Order} {rest : List Order} (hm : Meets s price m rest)
      (hown : s.taker.userId = m.userId) (hmode : s.taker.stpMode = .cancelTaker) :
      TurnSpec s (.done ({ s with
        events := s.events ++ [.cancelled s.taker.id .selfTradePrevented] }, .takerConsumed))
  | cancelMaker {price : Decimal} {m : Order} {rest : List Order} (hm : Meets s price m rest)
      (hown : s.taker.userId = m.userId) (hmode : s.taker.stpMode = .cancelMaker) :
      TurnSpec s (.next { s with
        book := s.book.dropFront s.taker.side.opposite price m rest
        events := s.events ++ [.cancelled m.id .selfTradePrevented] })
  | decrementTaker {price : Decimal} {m : Order} {rest : List Order} (hm : Meets s price m rest)
      (hown : s.taker.userId = m.userId) (hmode : s.taker.stpMode = .decrement)
      (hlt : s.taker.remaining < m.remaining) :
      TurnSpec s (.done ({ s with
        book := s.book.withQueue s.taker.side.opposite price
          (m.withRemaining (m.remaining - s.taker.remaining) :: rest)
        taker := s.taker.withRemaining 0
        events := s.events ++ [.cancelled s.taker.id .selfTradePrevented] }, .takerConsumed))
  | decrementMaker {price : Decimal} {m : Order} {rest : List Order} (hm : Meets s price m rest)
      (hown : s.taker.userId = m.userId) (hmode : s.taker.stpMode = .decrement)
      (hgt : m.remaining < s.taker.remaining) :
      TurnSpec s (.next { s with
        book := s.book.dropFront s.taker.side.opposite price m rest
        taker := s.taker.withRemaining (s.taker.remaining - m.remaining)
        events := s.events ++ [.cancelled m.id .selfTradePrevented] })
  | decrementBoth {price : Decimal} {m : Order} {rest : List Order} (hm : Meets s price m rest)
      (hown : s.taker.userId = m.userId) (hmode : s.taker.stpMode = .decrement)
      (heq : s.taker.remaining = m.remaining) :
      TurnSpec s (.done ({ s with
        book := s.book.dropFront s.taker.side.opposite price m rest
        taker := s.taker.withRemaining 0
        events := s.events ++ [.cancelled m.id .selfTradePrevented,
          .cancelled s.taker.id .selfTradePrevented] }, .takerConsumed))
  | fillPart {price : Decimal} {m : Order} {rest : List Order} (hm : Meets s price m rest)
      (hother : s.taker.userId ≠ m.userId)
      (hpart : m.remaining ≠ (fillOf s.taker m price).quantity) :
      TurnSpec s (.next {
        book := s.book.withQueue s.taker.side.opposite price
          (OrderBook.levelAfterFill m rest (fillOf s.taker m price).quantity)
        taker := s.taker.withRemaining
          (s.taker.remaining - (fillOf s.taker m price).quantity)
        events := s.events ++ [.fill (fillOf s.taker m price)]
        lastTradePrice := some price
        hadFills := true })
  | fillWhole {price : Decimal} {m : Order} {rest : List Order} (hm : Meets s price m rest)
      (hother : s.taker.userId ≠ m.userId)
      (hwhole : m.remaining = (fillOf s.taker m price).quantity) :
      TurnSpec s (.next {
        book := ((s.book.dropFront s.taker.side.opposite price m rest).maybeCancelOco m.id).1
        taker := s.taker.withRemaining
          (s.taker.remaining - (fillOf s.taker m price).quantity)
        events := s.events ++ [.fill (fillOf s.taker m price)] ++
          ((s.book.dropFront s.taker.side.opposite price m rest).maybeCancelOco m.id).2
        lastTradePrice := some price
        hadFills := true })

/-- The state after a turn of the matching loop. -/
def stateAfter : Turn MatchState (MatchState × MatchExit) → MatchState
  | .next s => s
  | .done r => r.1

/-- A turn on an order of the taker's own user is one of self-trade prevention. -/
theorem matchTurn_stp {s : MatchState} {price : Decimal} {m : Order} {rest : List Order}
    (hm : Meets s price m rest) (hown : s.taker.userId = m.userId) :
    ∃ t, matchTurn s = some t ∧ TurnSpec s t := by
  have hpeek := OrderBook.peekFrontMaker_eq hm.level
  have hpop := OrderBook.popFrontMaker_eq hm.level
  have hown' : s.taker.userId = (OrderBook.peekedOf m).userId := hown
  simp only [matchTurn, if_pos hm.pos, hm.best, hm.acceptable, hpeek, if_true, if_pos hown']
  cases hmode : s.taker.stpMode with
  | cancelTaker =>
    simp only [OrderBook.applyStp, hmode]
    exact ⟨_, rfl, .cancelTaker hm hown hmode⟩
  | cancelMaker =>
    simp only [OrderBook.applyStp, hmode]
    refine ⟨_, rfl, ?_⟩
    simp only [OrderBook.peekedOf, hpop]
    exact .cancelMaker hm hown hmode
  | decrement =>
    simp only [OrderBook.applyStp, hmode, OrderBook.applyStpDecrement]
    -- the smaller of the two remainders is taken off both
    rcases lt_trichotomy s.taker.remaining m.remaining with hlt | heq | hgt
    · have hcmp : compare s.taker.remaining (OrderBook.peekedOf m).remaining = .lt :=
        compare_lt_iff_lt.mpr hlt
      have hne : m.remaining - s.taker.remaining ≠ 0 := by lia
      simp only [hcmp, OrderBook.decrementFrontMaker_eq hm.level hne]
      exact ⟨_, rfl, .decrementTaker hm hown hmode hlt⟩
    · have hcmp : compare s.taker.remaining (OrderBook.peekedOf m).remaining = .eq :=
        compare_eq_iff_eq.mpr heq
      simp only [hcmp]
      refine ⟨_, rfl, ?_⟩
      simp only [OrderBook.peekedOf, hpop]
      exact .decrementBoth hm hown hmode heq
    · have hcmp : compare s.taker.remaining (OrderBook.peekedOf m).remaining = .gt :=
        compare_gt_iff_gt.mpr hgt
      simp only [hcmp]
      refine ⟨_, rfl, ?_⟩
      simp only [OrderBook.peekedOf, hpop]
      exact .decrementMaker hm hown hmode hgt

/-- A turn on another user's order is a fill. -/
theorem matchTurn_fill {s : MatchState} {price : Decimal} {m : Order} {rest : List Order}
    (hm : Meets s price m rest) (hother : s.taker.userId ≠ m.userId) :
    ∃ t, matchTurn s = some t ∧ TurnSpec s t := by
  have hpeek := OrderBook.peekFrontMaker_eq hm.level
  have hother' : ¬ s.taker.userId = (OrderBook.peekedOf m).userId := hother
  simp only [matchTurn, if_pos hm.pos, hm.best, hm.acceptable, hpeek, if_true, if_neg hother',
    MatchState.applyFill]
  refine ⟨_, rfl, ?_⟩
  -- whether the slice is all the maker has left
  by_cases hwhole : m.remaining = (fillOf s.taker m price).quantity
  · have hz : m.remaining - min s.taker.remaining m.effectiveQty = 0 := by
      rw [hwhole]
      exact Int.sub_self _
    have hfill := OrderBook.applyFillToMaker_whole hm.level hz
    have heff : (OrderBook.peekedOf m).effectiveQty = m.effectiveQty := rfl
    rw [heff, hfill]
    exact .fillWhole hm hother hwhole
  · have hz : m.remaining - min s.taker.remaining m.effectiveQty ≠ 0 :=
      fun h => hwhole (Int.sub_eq_zero.mp h)
    have hfill := OrderBook.applyFillToMaker_part hm.level hz
    have heff : (OrderBook.peekedOf m).effectiveQty = m.effectiveQty := rfl
    rw [heff, hfill]
    simp only [Bool.false_eq_true, if_false, List.append_nil]
    exact .fillPart hm hother hwhole

/-- Every turn on a book without empty levels is one of `TurnSpec`. -/
theorem matchTurn_spec {s : MatchState} (hb : s.book.NoEmptyLevel) :
    ∃ t, matchTurn s = some t ∧ TurnSpec s t := by
  by_cases hpos : 0 < s.taker.remaining
  swap
  · -- the taker has nothing left
    exact ⟨_, by simp only [matchTurn, if_neg hpos], .exhausted (Or.inl (not_lt.mp hpos))⟩
  cases hbest : s.book.bestOppositePrice s.taker.side with
  | none =>
    refine ⟨_, by simp only [matchTurn, if_pos hpos, hbest], .exhausted (Or.inr ?_)⟩
    intro price h
    rw [hbest] at h
    cases h
  | some price =>
    by_cases hok : OrderBook.takerPriceSatisfied s.taker price = true
    swap
    · refine ⟨_, by simp only [matchTurn, if_pos hpos, hbest, if_neg hok], .exhausted (Or.inr ?_)⟩
      intro price' h
      rw [hbest] at h
      cases h
      simpa using hok
    rcases OrderBook.bestOppositePrice_level hb hbest with ⟨m, rest, hlevel⟩
    have hm : Meets s price m rest := ⟨hpos, hbest, hok, hlevel⟩
    -- the turn meets the first order of the best queue
    by_cases hown : s.taker.userId = m.userId
    · exact matchTurn_stp hm hown
    · exact matchTurn_fill hm hown

/-- What a turn did is one of them. -/
theorem turnSpec_of_eq {s : MatchState} {t : Turn MatchState (MatchState × MatchExit)}
    (hb : s.book.NoEmptyLevel) (h : matchTurn s = some t) : TurnSpec s t := by
  rcases matchTurn_spec hb with ⟨u, hu, hspec⟩
  rw [h] at hu
  cases hu
  exact hspec

/-! ## One turn of the cascade -/

/-- What one turn of the cascade that goes round again does: the stops its pass
triggers are pushed, or dropped when the chain is too deep. -/
inductive CascadeStep (fuel : ℕ) (c : CascadeState) : CascadeState → Prop where
  | push {order : Order} {rest : List Order} {book : OrderBook} {events : List EngineEvent}
      {triggered : List Order} (hqueue : c.workQueue = order :: rest)
      (hrun : c.book.runMatchingLoop fuel order = some (book, events, triggered))
      (hdepth : c.stopDepth < maxStopChainDepth) :
      CascadeStep fuel c {
        book := book
        events := c.events ++ events ++ triggered.map fun t => .stopTriggered t.id
        workQueue := triggered.reverse ++ rest
        stopDepth := saturatingDepth c.stopDepth triggered.length }
  | cut {order : Order} {rest : List Order} {book : OrderBook} {events : List EngineEvent}
      {triggered : List Order} (hqueue : c.workQueue = order :: rest)
      (hrun : c.book.runMatchingLoop fuel order = some (book, events, triggered))
      (hdepth : maxStopChainDepth ≤ c.stopDepth) :
      CascadeStep fuel c {
        book := book
        events := c.events ++ events
        workQueue := rest
        stopDepth := c.stopDepth }

/-- A turn of the cascade is a pass for the order in front of the queue. -/
theorem cascadeTurn_next {fuel : ℕ} {c c' : CascadeState}
    (h : cascadeTurn fuel c = some (.next c')) : CascadeStep fuel c c' := by
  unfold cascadeTurn at h
  cases hqueue : c.workQueue with
  | nil => simp [hqueue] at h
  | cons order rest =>
    cases hrun : c.book.runMatchingLoop fuel order with
    | none => simp [hqueue, hrun] at h
    | some r =>
      rcases r with ⟨book, events, triggered⟩
      simp only [hqueue, hrun] at h
      split_ifs at h with hdepth
      · cases h
        exact .push hqueue hrun hdepth
      · cases h
        exact .cut hqueue hrun (not_lt.mp hdepth)

/-- The cascade ends with an empty queue. -/
theorem cascadeTurn_done {fuel : ℕ} {c : CascadeState} {r : OrderBook × List EngineEvent}
    (h : cascadeTurn fuel c = some (.done r)) : c.workQueue = [] ∧ r = (c.book, c.events) := by
  unfold cascadeTurn at h
  cases hqueue : c.workQueue with
  | nil =>
    rw [hqueue] at h
    cases h
    exact ⟨rfl, rfl⟩
  | cons order rest =>
    cases hrun : c.book.runMatchingLoop fuel order with
    | none => simp [hqueue, hrun] at h
    | some r =>
      simp only [hqueue, hrun] at h
      split_ifs at h
      · cases h
      · cases h

/-! ## One call -/

/-- What a call does: the pre-check rejects the order, a stop goes to the registry, and any other
order is matched by the cascade. -/
inductive CallCases (fuel : ℕ) (b : OrderBook) (taker : Order) :
    OrderBook × List EngineEvent → Prop where
  | rejected (reason : CancelReason) (hpre : b.preCheck taker = some (.cancelled taker.id reason)) :
      CallCases fuel b taker (b, [.cancelled taker.id reason])
  | stop (hpre : b.preCheck taker = none) (hstop : taker.orderType.isStop = true) :
      CallCases fuel b taker (b.registerStopOrder taker)
  | matched {r : OrderBook × List EngineEvent} (hpre : b.preCheck taker = none)
      (hactive : taker.orderType.isStop = false)
      (hloop : loop (cascadeTurn fuel) fuel (b.enterCascade taker) = some r) :
      CallCases fuel b taker r

/-- The event of a rejected call names the taker. -/
theorem preCheck_eq_some {b : OrderBook} {taker : Order} {reject : EngineEvent}
    (h : b.preCheck taker = some reject) :
    (taker.orderType = .fok ∧ reject = .cancelled taker.id .fokUnfilled) ∨
      (taker.orderType = .postOnly ∧ reject = .cancelled taker.id .postOnlyCrossed) := by
  unfold OrderBook.preCheck at h
  split at h
  · next htype =>
    split_ifs at h
    cases h
    exact Or.inl ⟨htype, rfl⟩
  · next htype =>
    split_ifs at h
    cases h
    exact Or.inr ⟨htype, rfl⟩
  · cases h

/-- A call rejects the order, registers it as a stop, or matches it. -/
theorem matchOrder_cases {fuel : ℕ} {b : OrderBook} {taker : Order}
    {r : OrderBook × List EngineEvent} (h : b.matchOrder fuel taker = some r) :
    CallCases fuel b taker r := by
  unfold OrderBook.matchOrder at h
  cases hpre : b.preCheck taker with
  | some reject =>
    rw [hpre] at h
    cases h
    rcases preCheck_eq_some hpre with ⟨_, rfl⟩ | ⟨_, rfl⟩
    · exact .rejected _ hpre
    · exact .rejected _ hpre
  | none =>
    rw [hpre] at h
    dsimp only at h
    split_ifs at h with hstop
    · cases h
      exact .stop hpre hstop
    · exact .matched hpre (Bool.eq_false_iff.mpr hstop) h

end CryptoCex.Core
