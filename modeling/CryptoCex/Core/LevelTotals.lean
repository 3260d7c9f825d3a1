import CryptoCex.Core.Conservation
import CryptoCex.Core.PostOnly
import CryptoCex.Core.Range
import CryptoCex.Core.Uncrossed
import CryptoCex.Core.Walk

/-!
# How the levels of a book fill up

While a taker is matched no level gains anything, and the taker trades no more than it came with.
A level gains only where an order comes to rest: what it holds then is at most what it held before
and the order that came (`runMatchingLoop_totals`). So the levels stay in the range of decimals
through a call if for each order that enters the matching loop, the one that was placed and the
stops it triggers, its level and the order together are in range (`matchOrder_levelsFit`).
-/

namespace CryptoCex.Core

open Loop OrderBook

/-- No level holds more than a decimal can. -/
def OrderBook.LevelsFit (b : OrderBook) : Prop :=
  ∀ side price, queueQty (b.queue side price) ≤ maxDecimal

/-- Every depth of such a book can be shown. -/
theorem OrderBook.LevelsFit.depthLevels? {b : OrderBook} (h : b.LevelsFit)
    (hb : b.All Order.Sized) (depth : ℕ) : (b.depthLevels? depth).isSome = true := by
  have hentry : ∀ side, ∀ e ∈ (b.levels side).entries, queueQty e.2 ≤ maxDecimal := by
    intro side e he
    rw [← queue_eq_of_find? (OrdMap.find?_eq_some.mpr he)]
    exact h side e.1
  rw [depthLevels?_isSome_iff hb]
  constructor
  · intro e he
    exact hentry .buy e (List.mem_reverse.mp (List.mem_of_mem_take he))
  · intro e he
    exact hentry .sell e (List.mem_of_mem_take he)

/-- The level the order would rest at has room for all of it. -/
def RestFits (b : OrderBook) (order : Order) : Prop :=
  order.orderType.canRest = true → ∀ price ∈ order.price,
    queueQty (b.queue order.side price) + order.remaining ≤ maxDecimal

instance (b : OrderBook) (order : Order) : Decidable (RestFits b order) := by
  unfold RestFits
  infer_instance

/-! ## One turn -/

variable {b b' : OrderBook} {taker : Order} {s : MatchState}

/-- Fewer orders of a level sum to no more. -/
theorem queueQty_le_of_sublist {l l' : List Order} (h : l.Sublist l')
    (hnonneg : ∀ o ∈ l', 0 ≤ o.remaining) : queueQty l ≤ queueQty l' := by
  rw [queueQty_eq, queueQty_eq]
  apply (h.map _).sum_le_sum
  intro x hx
  obtain ⟨o, ho, rfl⟩ := List.mem_map.mp hx
  exact hnonneg o ho

theorem OrderBook.All.queue_nonneg (hb : b.All Order.Sized) {side : Side} {price : Decimal} :
    ∀ o ∈ b.queue side price, 0 ≤ o.remaining :=
  fun o ho => (hb.all o (mem_pool_of_mem_queue ho)).positive.le

/-- A book within another has no more at any price. -/
theorem OrderBook.Within.queueQty_le (h : b'.Within b) (hb : b.All Order.Sized) (side : Side)
    (price : Decimal) : queueQty (b'.queue side price) ≤ queueQty (b.queue side price) :=
  queueQty_le_of_sublist (h.queues side price) hb.queue_nonneg

/-- Rewriting the queue of a level with less. -/
theorem queueQty_withQueue_le {side : Side} {price : Decimal} {q : List Order}
    (h : queueQty q ≤ queueQty (b.queue side price)) (side' : Side) (price' : Decimal) :
    queueQty ((b.withQueue side price q).queue side' price') ≤
      queueQty (b.queue side' price') := by
  rw [queue_withQueue]
  split_ifs with hsame
  · rw [hsame.1, hsame.2]
    exact h
  · exact le_refl _

/-- What holds of every state of the matching loop. -/
structure Spends (b : OrderBook) (taker : Order) (s : MatchState) : Prop where
  levels : ∀ side price, queueQty (s.book.queue side price) ≤ queueQty (b.queue side price)
  fills : fillSum (·.takerOrderId = taker.id) s.events + s.taker.remaining ≤ taker.remaining

theorem spends_enterLoop (b : OrderBook) (taker : Order) :
    Spends b taker (b.enterLoop taker) where
  levels := fun _ _ => le_refl _
  fills := by simp [enterLoop]

/-- A turn moves quantity off the levels, to fills of the taker. -/
theorem TurnSpec.spends {t : Turn MatchState (MatchState × MatchExit)} (h : TurnSpec s t)
    (hs : Tidy Order.Sized b taker s) (hspends : Spends b taker s) :
    Spends b taker (stateAfter t) := by
  have hid : s.taker.id = taker.id := by
    rw [hs.same]
    rfl
  have hwithin : ∀ {b' : OrderBook}, b'.Within s.book → ∀ side price,
      queueQty (b'.queue side price) ≤ queueQty (b.queue side price) :=
    fun hb' side price => (hb'.queueQty_le hs.book side price).trans (hspends.levels side price)
  have hfront : ∀ {price : Decimal} {m : Order} {rest : List Order}, Meets s price m rest →
      queueQty (s.book.queue s.taker.side.opposite price) = m.remaining + queueQty rest := by
    intro price m rest hm
    rw [queue_eq_of_find? hm.level]
    simp [queueQty]
  have hquantity : ∀ {m : Order} {price : Decimal},
      fillSum (·.takerOrderId = taker.id) [.fill (fillOf s.taker m price)] =
        (fillOf s.taker m price).quantity := by
    intro m price
    simp [fillOf, hid]
  have hfills := hspends.fills
  cases h with
  | exhausted => exact hspends
  | cancelTaker => exact ⟨hspends.levels, by simpa [stateAfter] using hfills⟩
  | cancelMaker hm =>
    exact ⟨hwithin (within_dropFront hm.level), by simpa [stateAfter] using hfills⟩
  | decrementTaker hm =>
    -- the taker is used up, and the maker keeps the difference at the front of its level
    have hpos := hm.pos
    constructor
    · intro side price
      refine (queueQty_withQueue_le ?_ side price).trans (hspends.levels side price)
      rw [hfront hm]
      simp [queueQty]
      lia
    · simp [stateAfter]
      lia
  | @decrementMaker price m rest hm =>
    have hpos := (hs.book.all m hm.mem_pool).positive
    refine ⟨hwithin (within_dropFront hm.level), ?_⟩
    simp [stateAfter]
    lia
  | decrementBoth hm =>
    have hpos := hm.pos
    refine ⟨hwithin (within_dropFront hm.level), ?_⟩
    simp [stateAfter]
    lia
  | @fillPart price m rest hm =>
    have hpos := hm.fill_pos kept_sized hs
    constructor
    · intro side price'
      refine (queueQty_withQueue_le ?_ side price').trans (hspends.levels side price')
      -- what an iceberg shows next goes to the back of the queue, which changes no total
      rw [hfront hm, queueQty_eq, ((levelAfterFill_perm _ _ _).map _).sum_eq]
      simp [queueQty]
      lia
    · simp only [stateAfter, fillSum_append, hquantity, Order.remaining_withRemaining]
      lia
  | @fillWhole price m rest hm =>
    have hdrop := within_dropFront hm.level
    refine ⟨hwithin ((within_maybeCancelOco _ _).trans hdrop), ?_⟩
    simp only [stateAfter, fillSum_append, hquantity, Order.remaining_withRemaining,
      fillSum_eq_zero (fill_notMem_oco _ _)]
    lia

/-! ## One pass -/

/-- What a pass leaves: no level gains more than the taker, and the taker traded no more than it
came with. -/
structure PassSpends (b : OrderBook) (taker : Order)
    (r : OrderBook × List EngineEvent × List Order) : Prop where
  levels : ∀ side price, queueQty (r.1.queue side price) ≤ queueQty (b.queue side price) ∨
    (taker.orderType.canRest = true ∧ taker.side = side ∧ taker.price = some price ∧
      queueQty (r.1.queue side price) ≤ queueQty (b.queue side price) + taker.remaining)
  fills : fillSum (·.takerOrderId = taker.id) r.2.1 ≤ taker.remaining

/-- A level of the book after the taker was rested. -/
theorem queueQty_insertMaker (b : OrderBook) (o : Order) (side : Side) (price : Decimal) :
    queueQty ((b.insertMaker o).queue side price) =
      if o.side = side ∧ o.price = some price then queueQty (b.queue side price) + o.remaining
      else queueQty (b.queue side price) := by
  cases hprice : o.price with
  | none => simp [insertMaker, hprice]
  | some p =>
    have hqueue : (b.insertMaker o).queue side price =
        (b.withQueue o.side p (b.queue o.side p ++ [o])).queue side price := by
      rw [insertMaker_eq hprice]
      rfl
    rw [hqueue, queue_withQueue]
    by_cases hsame : side = o.side ∧ price = p
    · obtain ⟨rfl, rfl⟩ := hsame
      simp [queueQty]
    · have hother : ¬(o.side = side ∧ some p = some price) := fun h =>
        hsame ⟨h.1.symm, (Option.some.inj h.2).symm⟩
      rw [if_neg hsame, if_neg hother]

/-- Settling the taker adds at most what it has left, to its own level. -/
theorem Spends.afterLoop (h : Spends b taker s) (hs : Tidy Order.Sized b taker s)
    (ht : taker.Sized) (exit : MatchExit) : PassSpends b taker (OrderBook.afterLoop s exit) := by
  have hspent : fillSum (·.takerOrderId = taker.id) s.events ≤ taker.remaining := by
    have hfills := h.fills
    have hleft := hs.nonneg
    lia
  cases exit with
  | takerConsumed =>
    have hdrain := within_drainAfter s.book s.lastTradePrice
    exact ⟨fun side price =>
      .inl ((hdrain.queueQty_le hs.book side price).trans (h.levels side price)), hspent⟩
  | exhausted =>
    have hspec := s.book.finalizeTaker_spec s.taker s.hadFills
    have hquiet := fill_notMem_finalize s.book s.taker s.hadFills
    have hfinal := (hs.finalizeTaker kept_sized ht hspec).1
    obtain ⟨hoco, hocoQuiet⟩ := within_ite_maybeCancelOco
      (s.book.finalizeTaker s.taker s.hadFills).1 s.taker.id
      (takerTerminal s.taker (s.book.finalizeTaker s.taker s.hadFills).2)
    have hdrain := (within_drainAfter _ s.lastTradePrice).trans hoco
    constructor
    · intro side price
      -- after the taker was finalised orders only leave the book
      have hafter := hdrain.queueQty_le hfinal side price
      suffices hrest : queueQty ((s.book.finalizeTaker s.taker s.hadFills).1.queue side price) ≤
          queueQty (b.queue side price) ∨ (taker.orderType.canRest = true ∧ taker.side = side ∧
            taker.price = some price ∧
            queueQty ((s.book.finalizeTaker s.taker s.hadFills).1.queue side price) ≤
              queueQty (b.queue side price) + taker.remaining) by
        rcases hrest with hle | ⟨htype, hside, hprice, hle⟩
        · exact .inl (hafter.trans hle)
        · exact .inr ⟨htype, hside, hprice, hafter.trans hle⟩
      generalize s.book.finalizeTaker s.taker s.hadFills = final at hspec ⊢
      have hlevel := h.levels side price
      cases hspec with
      | filled => exact .inl hlevel
      | cancelled => exact .inl hlevel
      | rested _ _ htype =>
        have hle := hs.le
        rw [hs.same] at htype
        rw [queueQty_insertMaker]
        split_ifs with hsame
        · rw [hs.same] at hsame
          exact .inr ⟨htype, hsame.1, hsame.2, by lia⟩
        · exact .inl hlevel
    · have hevents : fillSum (·.takerOrderId = taker.id)
          (OrderBook.afterLoop s .exhausted).2.1 =
            fillSum (·.takerOrderId = taker.id) s.events := by
        unfold OrderBook.afterLoop
        simp only [fillSum_append, fillSum_eq_zero hquiet, fillSum_eq_zero hocoQuiet, add_zero]
      rw [hevents]
      exact hspent

/-- A run of the loop spends no more than the taker brings. -/
theorem runMatchingLoop_spends {fuel : ℕ} {r : OrderBook × List EngineEvent × List Order}
    (hb : b.All Order.Sized) (ht : taker.Sized) (hrun : b.runMatchingLoop fuel taker = some r) :
    PassSpends b taker r := by
  obtain ⟨s, exit, hloop, rfl⟩ := runMatchingLoop_eq_some hrun
  have hturn : ∀ t u, Tidy Order.Sized b taker t ∧ Spends b taker t → matchTurn t = some u →
      Tidy Order.Sized b taker (stateAfter u) ∧ Spends b taker (stateAfter u) := by
    rintro t u ⟨ht, hspends⟩ hu
    obtain ⟨htidy, hspec⟩ := matchTurn_tidy kept_sized ht hu
    exact ⟨htidy, hspec.spends ht hspends⟩
  have hout : Tidy Order.Sized b taker s ∧ Spends b taker s := by
    refine loop_invariant (fun s => Tidy Order.Sized b taker s ∧ Spends b taker s)
      (fun r => Tidy Order.Sized b taker r.1 ∧ Spends b taker r.1)
      ⟨tidy_enterLoop hb ht kept_sized, spends_enterLoop b taker⟩ ?_ ?_ hloop
    · intro t t' hinv hnext
      exact hturn t _ hinv hnext
    · intro t r hinv hdone
      exact hturn t _ hinv hdone
  exact hout.2.afterLoop hout.1 ht exit

/-- A pass keeps the levels in range where the order has room. -/
theorem PassSpends.levelsFit {r : OrderBook × List EngineEvent × List Order}
    (h : PassSpends b taker r) (hb : b.LevelsFit) (hrest : RestFits b taker) :
    r.1.LevelsFit := by
  intro side price
  rcases h.levels side price with hle | ⟨htype, hside, hprice, hle⟩
  · exact hle.trans (hb side price)
  · have hroom := hrest htype price hprice
    rw [hside] at hroom
    exact hle.trans hroom

/-- An order whose level is not empty finds nothing to match on an uncrossed book: it rests
whole. -/
theorem runMatchingLoop_rests {fuel : ℕ} {price : Decimal}
    {r : OrderBook × List EngineEvent × List Order} (hb : b.All Order.Sized) (hu : b.Uncrossed)
    (ht : taker.Sized) (htype : taker.orderType.canRest = true)
    (hactive : taker.orderType.isStop = false) (hprice : taker.price = some price)
    (hlevel : b.queue taker.side price ≠ []) (hrun : b.runMatchingLoop fuel taker = some r) :
    r.1 = b.insertMaker taker := by
  -- a maker it meets would be at a price that crosses the level it is to rest at
  have hunmet : ∀ p m rest, ¬Meets (b.enterLoop taker) p m rest := by
    intro p m rest hm
    have hopposite : b.queue taker.side.opposite p ≠ [] := by
      have hqueue : b.queue taker.side.opposite p = m :: rest := queue_eq_of_find? hm.level
      rw [hqueue]
      exact List.cons_ne_nil m rest
    have hok : takerPriceSatisfied taker p = true := hm.acceptable
    unfold takerPriceSatisfied at hok
    rw [hprice] at hok
    cases hside : taker.side with
    | buy =>
      rw [hside] at hok hlevel hopposite
      exact absurd (hu price p hlevel hopposite) (not_lt.mpr (by simpa using hok))
    | sell =>
      rw [hside] at hok hlevel hopposite
      exact absurd (hu p price hopposite hlevel) (not_lt.mpr (by simpa using hok))
  obtain ⟨s, exit, hloop, rfl⟩ := runMatchingLoop_eq_some hrun
  obtain ⟨t, hturn, hspec⟩ := matchTurn_spec (s := b.enterLoop taker) hb.noEmpty
  rw [hspec.of_unmet hunmet] at hturn
  obtain ⟨n, rfl, hdone | ⟨s', hnext, _⟩⟩ := loop_eq_some hloop
  · rw [hturn] at hdone
    cases hdone
    have hne : taker.remaining ≠ 0 := ht.positive.ne'
    have hfinal : b.finalizeTaker taker false =
        (b.insertMaker taker, [.rested taker.id taker.remaining]) := by
      unfold finalizeTaker
      rw [if_neg (by simpa using hne)]
      cases horder : taker.orderType <;> rw [horder] at htype hactive
      case postOnly => rfl
      case stopLimit | stopMarket => cases hactive
      all_goals cases htype
    unfold OrderBook.afterLoop
    simp [enterLoop, hfinal, takerTerminal, hne, drainAfter]
  · rw [hturn] at hnext
    cases hnext

/-- Without room the level is out of range after the pass. -/
theorem not_levelsFit_of_not_restFits {fuel : ℕ}
    {r : OrderBook × List EngineEvent × List Order} (hb : b.All Order.Sized) (hu : b.Uncrossed)
    (ht : taker.Sized) (hrange : taker.remaining ≤ maxDecimal)
    (hactive : taker.orderType.isStop = false) (hroom : ¬RestFits b taker)
    (hrun : b.runMatchingLoop fuel taker = some r) : ¬r.1.LevelsFit := by
  unfold RestFits at hroom
  push Not at hroom
  obtain ⟨htype, price, hprice, hover⟩ := hroom
  -- an empty level has room for any order in range
  have hlevel : b.queue taker.side price ≠ [] := by
    intro hnil
    rw [hnil] at hover
    simp [queueQty] at hover
    lia
  intro hfits
  have hle := hfits taker.side price
  rw [runMatchingLoop_rests hb hu ht htype hactive hprice hlevel hrun, queueQty_insertMaker,
    if_pos ⟨rfl, hprice⟩] at hle
  lia

/-! ## The cascade -/

/-- The order that a turn of the cascade gives to the matching loop, with the book it meets. -/
def CascadeState.entering (c : CascadeState) : Option (OrderBook × Order) :=
  c.workQueue.head?.map fun order => (c.book, order)

/-- The orders that a call gives to the matching loop, in order: none if the order is rejected or
a stop, else the order itself and the stops that are triggered. -/
def OrderBook.entering (fuel : ℕ) (b : OrderBook) (taker : Order) : List (OrderBook × Order) :=
  if b.preCheck taker ≠ none ∨ taker.orderType.isStop = true then []
  else (trace (cascadeTurn fuel) fuel (b.enterCascade taker)).filterMap CascadeState.entering

/-- What the orders of one id among them come with. -/
def broughtBy (id : Uuid) (entries : List (OrderBook × Order)) : Decimal :=
  ((entries.filter fun e => e.2.id = id).map fun e => e.2.remaining).sum

theorem broughtBy_append (id : Uuid) (entries entries' : List (OrderBook × Order)) :
    broughtBy id (entries ++ entries') = broughtBy id entries + broughtBy id entries' := by
  simp [broughtBy]

/-- Fills of another taker do not count. -/
theorem fillSum_eq_zero_of_takers {id id' : Uuid} {events : List EngineEvent}
    (h : ∀ f, EngineEvent.fill f ∈ events → f.takerOrderId = id') (hne : id' ≠ id) :
    fillSum (·.takerOrderId = id) events = 0 := by
  apply List.sum_eq_zero
  intro x hx
  obtain ⟨e, he, rfl⟩ := List.mem_map.mp hx
  cases e with
  | fill f => simp [h f he, hne]
  | rested => rfl
  | cancelled => rfl
  | stopTriggered => rfl

/-- The fills of one id in a pass are at most what the order of the pass brought. -/
theorem PassSpends.fills_le {r : OrderBook × List EngineEvent × List Order}
    (h : PassSpends b taker r) (htakes : PassTakes b taker r) (id : Uuid) :
    fillSum (·.takerOrderId = id) r.2.1 ≤ broughtBy id [(b, taker)] := by
  by_cases hid : taker.id = id
  · subst hid
    simpa [broughtBy] using h.fills
  · rw [fillSum_eq_zero_of_takers htakes.fills hid]
    simp [broughtBy, hid]

/-- What holds between two turns of the cascade, after the states `past`. -/
structure CascadeSpends (id : Uuid) (past : List CascadeState) (c : CascadeState) : Prop where
  levels : (∀ e ∈ past.filterMap CascadeState.entering, RestFits e.1 e.2) → c.book.LevelsFit
  fills : fillSum (·.takerOrderId = id) c.events ≤
    broughtBy id (past.filterMap CascadeState.entering)

/-- A pass of the cascade spends what its order brings. -/
theorem CascadeStep.spends {fuel R N : ℕ} {id : Uuid} {past : List CascadeState}
    {c c' : CascadeState} (h : CascadeStep fuel c c') (hc : CascadeTidy Order.Sized R N c)
    (hspends : CascadeSpends id past c) : CascadeSpends id (past ++ [c]) c' := by
  -- both kinds of step run a pass of the head of the queue, and only `push` adds to it
  have hpass : ∀ {order rest r}, c.workQueue = order :: rest →
      c.book.runMatchingLoop fuel order = some r →
      ((∀ e ∈ (past ++ [c]).filterMap CascadeState.entering, RestFits e.1 e.2) →
          r.1.LevelsFit) ∧
        fillSum (·.takerOrderId = id) (c.events ++ r.2.1) ≤
          broughtBy id ((past ++ [c]).filterMap CascadeState.entering) := by
    intro order rest r hqueue hrun
    have hpass := runMatchingLoop_spends hc.book (hc.queue _ (mem_workQueue_head hqueue)) hrun
    have htakes := runMatchingLoop_takes hc.book.noEmpty hrun
    have hentering : (past ++ [c]).filterMap CascadeState.entering =
        past.filterMap CascadeState.entering ++ [(c.book, order)] := by
      simp [List.filterMap_append, CascadeState.entering, hqueue]
    rw [hentering]
    constructor
    · intro hfits
      rw [List.forall_mem_append] at hfits
      exact hpass.levelsFit (hspends.levels hfits.1) (hfits.2 _ List.mem_cons_self)
    · rw [fillSum_append, broughtBy_append]
      exact add_le_add hspends.fills (hpass.fills_le htakes id)
  cases h with
  | @push _ _ _ _ triggered hqueue hrun =>
    obtain ⟨hlevels, hfills⟩ := hpass hqueue hrun
    have hquiet : fillSum (·.takerOrderId = id)
        (triggered.map fun t => EngineEvent.stopTriggered t.id) = 0 :=
      fillSum_eq_zero (by simp) _
    refine ⟨hlevels, ?_⟩
    rw [fillSum_append, hquiet, add_zero]
    exact hfills
  | cut hqueue hrun =>
    obtain ⟨hlevels, hfills⟩ := hpass hqueue hrun
    exact ⟨hlevels, hfills⟩

/-! ## A whole call -/

/-- A call keeps the levels in range if every order that enters the matching loop has room, and
the fills of an id are at most what its orders brought. -/
theorem matchOrder_spends {fuel : ℕ} {r : OrderBook × List EngineEvent}
    (hb : b.All Order.Sized) (ht : taker.Sized) (hlevels : b.LevelsFit)
    (hcall : b.matchOrder fuel taker = some r) (id : Uuid) :
    ((∀ e ∈ b.entering fuel taker, RestFits e.1 e.2) → r.1.LevelsFit) ∧
      fillSum (·.takerOrderId = id) r.2 ≤ broughtBy id (b.entering fuel taker) := by
  unfold OrderBook.entering
  cases matchOrder_cases hcall with
  | rejected reason hpre =>
    rw [if_pos (.inl (by simp [hpre]))]
    exact ⟨fun _ => hlevels, by simp [broughtBy]⟩
  | stop hpre hstop =>
    rw [if_pos (.inr hstop)]
    unfold registerStopOrder
    cases b.stops.insert taker with
    | error e => exact ⟨fun _ => hlevels, by simp [broughtBy]⟩
    | ok stops => exact ⟨fun _ => hlevels, by simp [broughtBy]⟩
  | matched hpre hactive hloop =>
    rw [if_neg (by simp [hpre, hactive])]
    obtain ⟨R, N, hc⟩ := exists_cascadeTidy hb ht
    have hstart : CascadeSpends id [] (b.enterCascade taker) :=
      ⟨fun _ => hlevels, by simp [enterCascade, broughtBy]⟩
    refine loop_invariant_trace
      (fun past c => CascadeTidy Order.Sized R N c ∧ CascadeSpends id past c)
      (fun past r => ((∀ e ∈ past.filterMap CascadeState.entering, RestFits e.1 e.2) →
        r.1.LevelsFit) ∧ fillSum (·.takerOrderId = id) r.2 ≤
          broughtBy id (past.filterMap CascadeState.entering)) ⟨hc, hstart⟩ ?_ ?_ hloop
    · rintro past c c' - ⟨hc, hspends⟩ hnext
      have hstep := cascadeTurn_next hnext
      exact ⟨(hstep.tidy kept_sized hc).1, hstep.spends hc hspends⟩
    · rintro past c r - ⟨_, hspends⟩ hdone
      -- the last turn finds the work queue empty
      obtain ⟨hqueue, rfl⟩ := cascadeTurn_done hdone
      have hentering : (past ++ [c]).filterMap CascadeState.entering =
          past.filterMap CascadeState.entering := by
        simp [List.filterMap_append, CascadeState.entering, hqueue]
      rw [hentering]
      exact ⟨hspends.levels, hspends.fills⟩

end CryptoCex.Core
