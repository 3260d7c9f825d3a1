import CryptoCex.Core.StopTrigger
import CryptoCex.Core.Survival
import CryptoCex.Core.Uncrossed

/-!
# The stops a call misses

A pass hits a stop when it trades at or beyond its stop price while the stop is registered; these
are the stops that a fill of the call hits (`hit_iff`). It then loses the stop in one of three ways
(`Loses`): it trades on at a price that does not hit the stop, and only the last price is looked at;
one of its turns takes the stop off the registry, as the OCO sibling of an order that is done; or
the depth guard drops the stops the pass triggers. A call triggers every stop it hits exactly when
for each of them some pass that hits it does not lose it (`stops_exact_iff`).

The prices of a pass only get worse for the order it matches (`visits_price`). So a stop that a
pass has traded past is not hit by its last trade either, and this is an equivalence; and only stops
of the other side than the order are traded past (`Sweeps.side`).
-/

namespace CryptoCex.Core

open Loop OrderBook

/-- The taker meets another user's order at the price, and trades with it. -/
def TradesAt (s : MatchState) (price : Decimal) : Prop :=
  ∃ m rest, Meets s price m rest ∧ s.taker.userId ≠ m.userId

/-- The pass of `taker` trades at a price that hits the stop while it is registered. -/
def PassHits (b : OrderBook) (taker o : Order) : Prop :=
  ∃ s price, Visits matchTurn (b.enterLoop taker) s ∧ TradesAt s price ∧
    o ∈ s.book.stops.orders ∧ o.TriggeredBy price

/-- After a trade that hits the stop, the pass trades on at a price that does not. -/
def Sweeps (b : OrderBook) (taker o : Order) : Prop :=
  ∃ s t price later, Visits matchTurn (b.enterLoop taker) s ∧ TradesAt s price ∧
    o.TriggeredBy price ∧ Visits matchTurn s t ∧ TradesAt t later ∧ ¬ o.TriggeredBy later

/-- How the pass of `taker` at `c` loses a stop that it hits. -/
inductive Loses (c : CascadeState) (taker o : Order) : Prop where
  /-- It trades past the stop price. -/
  | swept (h : Sweeps c.book taker o)
  /-- It takes the stop off the registry, as the OCO sibling of an order that is done. -/
  | cancelled (h : PassTakesOff c.book taker o.id)
  /-- It is beyond the depth guard. -/
  | cut (h : maxStopChainDepth ≤ c.stopDepth)

/-- Some pass hits the stop, and every pass that hits it loses it. -/
def Missed (fuel : ℕ) (b : OrderBook) (taker o : Order) : Prop :=
  (∃ c order, HasPass fuel b taker c order ∧ PassHits c.book order o) ∧
    ∀ c order, HasPass fuel b taker c order → PassHits c.book order o → Loses c order o

/-- Stop triggering is exact: what is hit is triggered, and only what was hit. -/
def StopsExact (fuel : ℕ) (b : OrderBook) (taker : Order) (b' : OrderBook)
    (events : List EngineEvent) : Prop :=
  TriggersHit fuel b taker b' events ∧ Heralded b events

variable {b b' : OrderBook} {taker o : Order} {fuel : ℕ} {s t : MatchState} {exit : MatchExit}
  {events : List EngineEvent} {price later : Decimal}

/-! ## The prices of a pass -/

/-- A turn emits a fill at a price exactly if it meets another user's order there. -/
theorem emitsFill_iff (hb : s.book.NoEmptyLevel) :
    (∃ f, EmitsFill s f ∧ f.price = price) ↔ TradesAt s price := by
  constructor
  · rintro ⟨f, ⟨s', cancels, hturn, hevents⟩, rfl⟩
    have hspec := turnSpec_of_eq hb hturn
    cases hspec with
    | cancelMaker => simp at hevents
    | decrementMaker => simp at hevents
    | fillPart hm hother =>
      simp only [List.append_cancel_left_eq, List.cons.injEq, EngineEvent.fill.injEq] at hevents
      rw [← hevents.1]
      exact ⟨_, _, hm, hother⟩
    | fillWhole hm hother =>
      simp only [List.append_assoc, List.append_cancel_left_eq, List.singleton_append,
        List.cons.injEq, EngineEvent.fill.injEq] at hevents
      rw [← hevents.1]
      exact ⟨_, _, hm, hother⟩
  · rintro ⟨m, rest, hm, hother⟩
    obtain ⟨t, hturn, hspec⟩ := matchTurn_spec hb
    -- the turn goes on, and a turn that goes on emits a fill or meets an own order
    obtain ⟨s', rfl, _⟩ := hspec.of_trade hm hother
    cases hspec with
    | cancelMaker hm' hown | decrementMaker hm' hown =>
      obtain ⟨rfl, rfl, rfl⟩ := hm.unique hm'
      exact absurd hown hother
    | fillPart hm' =>
      obtain ⟨rfl, rfl, rfl⟩ := hm.unique hm'
      exact ⟨_, ⟨_, [], hturn, rfl⟩, rfl⟩
    | fillWhole hm' =>
      obtain ⟨rfl, rfl, rfl⟩ := hm.unique hm'
      exact ⟨_, ⟨_, _, hturn, List.append_assoc ..⟩, rfl⟩

/-- A trade of a pass is at a price no better than the trades before it. -/
theorem visits_price (hs : LoopSound taker s) (hv : Visits matchTurn s t)
    (hfirst : TradesAt s price) (hlater : TradesAt t later) :
    AtLeastAsGood taker.side price later := by
  have hinv : LoopSound taker t ∧
      ∀ side p, t.book.queue side p ≠ [] → s.book.queue side p ≠ [] := by
    refine visits_invariant (fun t => LoopSound taker t ∧
      ∀ side p, t.book.queue side p ≠ [] → s.book.queue side p ≠ []) ⟨hs, fun _ _ => id⟩ ?_ hv
    rintro u v ⟨hu, hlevels⟩ hnext
    have hspec := turnSpec_of_eq hu.book.noEmpty hnext
    exact ⟨hspec.sound_next hu, fun side p hne => hlevels side p (hspec.level hne)⟩
  obtain ⟨ht, hlevels⟩ := hinv
  obtain ⟨m, rest, hm, _⟩ := hfirst
  obtain ⟨m', rest', hm', _⟩ := hlater
  have hside : ∀ {u}, LoopSound taker u → u.taker.side = taker.side := by
    intro u hu
    rw [hu.taker_eq]
    rfl
  -- the level of the later trade was there at the first one, which took the best
  have hthere : t.book.queue t.taker.side.opposite later ≠ [] := by
    rw [queue_eq_of_find? hm'.level]
    exact List.cons_ne_nil m' rest'
  rw [hside ht] at hthere
  have hgood := bestOppositePrice_best hs.book.noEmpty hm.best
    (hside hs ▸ hlevels _ _ hthere)
  rwa [hside hs] at hgood

/-- What is hit at both ends of a range of prices is hit in between. -/
theorem triggeredBy_between {side : Side} {p q r : Decimal} (hpq : AtLeastAsGood side p q)
    (hqr : AtLeastAsGood side q r) (hp : o.TriggeredBy p) (hr : o.TriggeredBy r) :
    o.TriggeredBy q := by
  unfold Order.TriggeredBy at *
  cases hstop : o.stopPrice with
  | none => simp [hstop] at hp
  | some stopPrice =>
    rw [hstop] at hp hr
    cases hside : o.side with
    | buy =>
      rw [hside] at hp hr
      cases side with
      | buy => exact le_trans hp hpq
      | sell => exact le_trans hr hqr
    | sell =>
      rw [hside] at hp hr
      cases side with
      | buy => exact le_trans hqr hr
      | sell => exact le_trans hpq hp

/-- A pass trades past stops of the other side only: the prices of a buy order rise, and a buy stop
that is hit stays hit. -/
theorem Sweeps.side (h : Enters b taker) (hsweeps : Sweeps b taker o) :
    o.side = taker.side.opposite := by
  obtain ⟨s, t, price, later, hv, hfirst, hhit, hvt, hlater, hmiss⟩ := hsweeps
  have hgood := visits_price (h.visits_sound hv) hvt hfirst hlater
  unfold Order.TriggeredBy at hhit hmiss
  cases hstop : o.stopPrice with
  | none => simp [hstop] at hhit
  | some stopPrice =>
    rw [hstop] at hhit hmiss
    cases hside : o.side <;> cases htaker : taker.side <;>
      rw [hside] at hhit hmiss <;> rw [htaker] at hgood
    case buy.buy => exact absurd (le_trans hhit hgood) hmiss
    case sell.sell => exact absurd (le_trans hgood hhit) hmiss
    all_goals rfl

/-- The last trade price is the price of a trade. -/
theorem loop_lastTrade (hs : LoopSound taker s)
    {out : MatchState × MatchExit} (hloop : loop matchTurn fuel s = some out) :
    out.1.lastTradePrice = s.lastTradePrice ∨
      ∃ t price, Visits matchTurn s t ∧ TradesAt t price ∧ out.1.lastTradePrice = some price := by
  let Traded (u : MatchState) : Prop := u.lastTradePrice = s.lastTradePrice ∨
    ∃ t price, Visits matchTurn s t ∧ TradesAt t price ∧ u.lastTradePrice = some price
  refine loop_invariant_visits (fun u => LoopSound taker u ∧ Traded u) (fun out => Traded out.1)
    ⟨hs, .inl rfl⟩ ?_ ?_ hloop
  · rintro u v hv ⟨hu, htraded⟩ hnext
    have hspec := turnSpec_of_eq hu.book.noEmpty hnext
    refine ⟨hspec.sound_next hu, ?_⟩
    rcases hspec.traded_next with ⟨price, m, rest, hm, hother, _, hlast⟩ | ⟨_, _, hlast⟩
    · exact .inr ⟨u, price, hv, ⟨m, rest, hm, hother⟩, hlast⟩
    · rcases htraded with hsame | ⟨w, price, hw, htrade, hprice⟩
      · exact .inl (hlast.trans hsame)
      · exact .inr ⟨w, price, hw, htrade, hlast.trans hprice⟩
  · rintro u ⟨v, exit⟩ _ ⟨hu, htraded⟩ hdone
    have hspec := turnSpec_of_eq hu.book.noEmpty hdone
    -- the turn that ends the loop is no trade
    cases hspec <;> exact htraded

/-- After a trade, the last trade price is its price or that of a later trade. -/
theorem loop_lastTrade_after (hs : LoopSound taker s) (htrades : TradesAt s price)
    {out : MatchState × MatchExit} (hloop : loop matchTurn fuel s = some out) :
    ∃ t later, Visits matchTurn s t ∧ TradesAt t later ∧ out.1.lastTradePrice = some later := by
  obtain ⟨m, rest, hm, hother⟩ := id htrades
  obtain ⟨n, hn, hdone | ⟨u, hnext, hrest⟩⟩ := loop_eq_some hloop
  · obtain ⟨u, hturn, _⟩ := (turnSpec_of_eq hs.book.noEmpty hdone).of_trade hm hother
    cases hturn
  · have hspec := turnSpec_of_eq hs.book.noEmpty hnext
    rcases loop_lastTrade (hspec.sound_next hs) hrest with hlast | ⟨t, later, hv, ht, hlast⟩
    · rcases hspec.traded_next with ⟨price', m', rest', hm', hother', _, hprice⟩ | ⟨hown, _⟩
      · exact ⟨s, price', .refl, ⟨m', rest', hm', hother'⟩, hlast.trans hprice⟩
      · exact absurd (hown _ _ _ hm) hother
    · exact ⟨t, later, Relation.ReflTransGen.head hnext hv, ht, hlast⟩

/-! ## One pass -/

theorem loop_resting_le (hs : LoopSound taker t)
    (hloop : loop matchTurn fuel t = some (s, exit)) :
    s.book.restingPool.map (·.id) ≤ t.book.restingPool.map (·.id) := by
  refine loop_backward (fun u => s.book.restingPool.map (·.id) ≤ u.book.restingPool.map (·.id))
    hs hloop ?_ ?_
  · exact fun u hu hspec => (hspec.refines hu.book).resting_le
  · exact fun n u v hu hspec _ _ hrest => hrest.trans (hspec.refines hu.book).resting_le

/-- A stop is registered when the stops of a pass are checked unless a turn took it off. -/
theorem Enters.registered_iff (h : Enters b taker)
    (hloop : loop matchTurn fuel (b.enterLoop taker) = some (s, exit)) (ho : o ∈ b.stopPool) :
    o ∈ (settle s exit).1.stopPool ↔ ¬ PassTakesOff b taker o.id := by
  obtain ⟨_, hstops, hresting⟩ := settle_spec (h.loop_sound hloop) h.ready exit
  have hpool : o ∈ b.pool := mem_pool.mpr (.inr ho)
  have hid : o.id ∈ b.toPool.ids :=
    Pool.mem_ids_of_mem_stops (P := b.toPool) (Multiset.mem_map_of_mem _ ho)
  rw [← h.settle_keeps_iff hid hloop]
  constructor
  · intro hmem
    exact Pool.mem_ids_of_mem_stops (P := (settle s exit).1.toPool)
      (Multiset.mem_map_of_mem _ hmem)
  · intro hmem
    rw [Pool.ids_eq_add, Multiset.mem_add] at hmem
    rcases hmem with hmem | hmem
    · -- what rests is the taker or rested before, and a stop is neither
      rcases Multiset.mem_cons.mp (Multiset.mem_of_le hresting hmem) with heq | hmem
      · exact absurd (heq.trans (h.loop_sound hloop).pass.id_eq) (h.fresh o hpool)
      · have hrested := Multiset.mem_of_le (loop_resting_le h.loopSound hloop) hmem
        have hnodup := h.book.unique
        rw [pool, Multiset.map_add, Multiset.nodup_add] at hnodup
        exact absurd (Multiset.mem_map_of_mem _ ho)
          (Multiset.disjoint_left.mp hnodup.2.2 hrested)
    · obtain ⟨o', ho', hsame⟩ := Multiset.mem_map.mp hmem
      have hle := hstops.trans (loop_pool_le h.loopSound hloop).2
      have hpool' : o' ∈ b.pool := mem_pool.mpr (.inr (Multiset.mem_of_le hle ho'))
      rw [h.book.eq_of_id_eq hpool' hpool hsame] at ho'
      exact ho'

/-- A pass ends on a trade that hits a registered stop exactly when it hits the stop, does not
trade past it and does not take it off. -/
theorem Enters.sees_iff (h : Enters b taker)
    (hloop : loop matchTurn fuel (b.enterLoop taker) = some (s, exit)) (ho : o ∈ b.stopPool) :
    (o ∈ (settle s exit).1.stopPool ∧ ∃ p, s.lastTradePrice = some p ∧ o.TriggeredBy p) ↔
      PassHits b taker o ∧ ¬ Sweeps b taker o ∧ ¬ PassTakesOff b taker o.id := by
  rw [h.registered_iff hloop ho]
  constructor
  · rintro ⟨hkept, p, hlast, hhit⟩
    refine ⟨?_, ?_, hkept⟩
    · rcases loop_lastTrade h.loopSound hloop with hnone | ⟨t, price, hv, htrades, hprice⟩
      · rw [hlast] at hnone
        cases hnone
      · rw [hlast, Option.some.injEq] at hprice
        subst hprice
        obtain ⟨m, hm⟩ := loop_of_visits hv hloop
        have hle := (settle_spec (h.loop_sound hloop) h.ready exit).2.1.trans
          (loop_pool_le (h.visits_sound hv) hm).2
        exact ⟨t, p, hv, htrades, Multiset.mem_of_le hle ((h.registered_iff hloop ho).mpr hkept),
          hhit⟩
    · -- past the stop price the prices do not come back
      rintro ⟨t, u, price, later, hv, hfirst, hhits, hvu, hlater, hmiss⟩
      have hvis := hv.trans hvu
      obtain ⟨n, hn⟩ := loop_of_visits hvis hloop
      obtain ⟨w, q, hw, hq, hend⟩ := loop_lastTrade_after (h.visits_sound hvis) hlater hn
      rw [hlast, Option.some.injEq] at hend
      subst hend
      exact hmiss (triggeredBy_between (visits_price (h.visits_sound hv) hvu hfirst hlater)
        (visits_price (h.visits_sound hvis) hw hlater hq) hhits hhit)
  · rintro ⟨⟨t, price, hv, htrades, _, hhit⟩, hstays, hkept⟩
    refine ⟨hkept, ?_⟩
    obtain ⟨n, hn⟩ := loop_of_visits hv hloop
    obtain ⟨w, q, hw, hq, hend⟩ := loop_lastTrade_after (h.visits_sound hv) htrades hn
    refine ⟨q, hend, ?_⟩
    by_contra hmiss
    exact hstays ⟨t, w, price, q, hv, htrades, hhit, hw, hq, hmiss⟩

/-! ## The call -/

/-- A pass does not lose a stop when it takes none of the three branches. -/
theorem loses_iff {c : CascadeState} :
    ¬ Loses c taker o ↔ ¬ Sweeps c.book taker o ∧ ¬ PassTakesOff c.book taker o.id ∧
      c.stopDepth < maxStopChainDepth := by
  constructor
  · intro hnot
    exact ⟨fun h => hnot (.swept h), fun h => hnot (.cancelled h),
      not_le.mp fun h => hnot (.cut h)⟩
  · rintro ⟨hswept, hcancelled, hdepth⟩ hloses
    cases hloses with
    | swept h => exact hswept h
    | cancelled h => exact hcancelled h
    | cut h => exact absurd hdepth (not_lt.mpr h)

/-- A fill of the call hits the stop exactly if one of its passes does. -/
theorem hit_iff (hb : b.Sound) (htaker : taker.Admissible)
    (hfresh : ∀ o ∈ b.pool, o.id ≠ taker.id) :
    Hit fuel b taker o ↔ ∃ c order, HasPass fuel b taker c order ∧ PassHits c.book order o := by
  have htrades : ∀ {c order s}, HasPass fuel b taker c order →
      Visits matchTurn (c.book.enterLoop order) s →
      ∀ price, (∃ f, EmitsFill s f ∧ f.price = price) ↔ TradesAt s price := by
    intro c order s hpass hv price
    obtain ⟨hc, _⟩ := hpass.stops_le hb htaker hfresh
    obtain ⟨rest, hqueue⟩ := hpass.head
    exact emitsFill_iff ((hc.enters hqueue).visits_sound hv).book.noEmpty
  constructor
  · rintro ⟨c, order, s, f, hpass, hv, hemits, hmem, hhit⟩
    exact ⟨c, order, hpass, s, f.price, hv, (htrades hpass hv f.price).mp ⟨f, hemits, rfl⟩, hmem,
      hhit⟩
  · rintro ⟨c, order, hpass, s, price, hv, htrade, hmem, hhit⟩
    obtain ⟨f, hemits, rfl⟩ := (htrades hpass hv price).mpr htrade
    exact ⟨c, order, s, f, hpass, hv, hemits, hmem, hhit⟩

/-- A call that comes to a pass is its cascade. -/
theorem HasPass.loop {c : CascadeState} {order : Order} (h : HasPass fuel b taker c order)
    {r : OrderBook × List EngineEvent} (hcall : b.matchOrder fuel taker = some r) :
    loop (cascadeTurn fuel) fuel (b.enterCascade taker) = some r := by
  unfold matchOrder at hcall
  simpa only [h.accepted, h.active, Bool.false_eq_true, if_false] using hcall

/-- A call that returns sees a stop at the end of a pass exactly when some pass that hits the stop
does not lose it. -/
theorem seen_iff (hb : b.Sound) (htaker : taker.Admissible)
    (hfresh : ∀ o ∈ b.pool, o.id ≠ taker.id) {n : ℕ} {r : OrderBook × List EngineEvent}
    (hloop : loop (cascadeTurn fuel) n (b.enterCascade taker) = some r) :
    Seen fuel b taker o ↔ ∃ c order, HasPass fuel b taker c order ∧ PassHits c.book order o ∧
      ¬ Loses c order o := by
  constructor
  · rintro ⟨c, order, s, exit, p, hpass, hdepth, hend, hmem, hlast, hhit⟩
    obtain ⟨hc, _⟩ := hpass.stops_le hb htaker hfresh
    obtain ⟨rest, hqueue⟩ := hpass.head
    have henters := hc.enters hqueue
    have hle := (settle_spec (henters.loop_sound hend) henters.ready exit).2.1.trans
      (loop_pool_le henters.loopSound hend).2
    obtain ⟨hhits, hswept, hkept⟩ := (henters.sees_iff hend (Multiset.mem_of_le hle hmem)).mp
      ⟨hmem, p, hlast, hhit⟩
    exact ⟨c, order, hpass, hhits, loses_iff.mpr ⟨hswept, hkept, hdepth⟩⟩
  · rintro ⟨c, order, hpass, hhits, hkept⟩
    obtain ⟨hswept, hcancelled, hdepth⟩ := loses_iff.mp hkept
    obtain ⟨hc, _⟩ := hpass.stops_le hb htaker hfresh
    obtain ⟨rest, hqueue⟩ := hpass.head
    have henters := hc.enters hqueue
    -- the call returns, so its pass does
    obtain ⟨m, hm⟩ := loop_of_visits hpass.visits hloop
    have hne : c.workQueue ≠ [] := by
      rw [hqueue]
      exact List.cons_ne_nil _ _
    obtain ⟨c', _, _, hstep, _⟩ := exists_turn hne hm
    obtain ⟨order', rest', new, hit, hqueue', hrun⟩ := hstep.pass
    rw [hqueue] at hqueue'
    cases hqueue'
    obtain ⟨s, exit, hend, _⟩ := runMatchingLoop_eq_some hrun
    have ho : o ∈ c.book.stopPool := by
      obtain ⟨t, price, hv, _, hmem, _⟩ := hhits
      have hthere : o ∈ t.book.stopPool := hmem
      exact Multiset.mem_of_le (henters.visits_stops_le hv) hthere
    obtain ⟨hmem, p, hlast, hhit⟩ := (henters.sees_iff hend ho).mpr ⟨hhits, hswept, hcancelled⟩
    exact ⟨c, order, s, exit, p, hpass, hdepth, hend, hmem, hlast, hhit⟩

/-- On every reachable book, stop triggering is exact exactly when the call misses
no stop. -/
theorem stops_exact_iff {cmds : List BookCommand} (hb : Reaches cmds b)
    (htaker : taker.Admissible) (hfresh : taker.id ∉ submittedIds cmds) :
    (∀ fuel b' events, b.matchOrder fuel taker = some (b', events) →
      (StopsExact fuel b taker b' events ↔ ∀ o, ¬ Missed fuel b taker o) ∧ Heralded b events) ∧
    ((∀ o ∈ taker :: submitted cmds, ∀ d, o.displayQty = some d → 0 < d) →
      ∃ n, ∀ fuel ≥ n, ∃ r, b.matchOrder fuel taker = some r) := by
  have hafter := hb.after
  have hfresh' := hafter.fresh hfresh
  refine ⟨?_, hb.matchOrder_terminates htaker.positive⟩
  intro fuel b' events hcall
  obtain ⟨htriggers, hheralded⟩ := matchOrder_triggers hafter.sound htaker hfresh' hcall
  have hseen : ∀ o, (Hit fuel b taker o → Seen fuel b taker o) ↔ ¬ Missed fuel b taker o := by
    intro o
    rw [hit_iff hafter.sound htaker hfresh']
    by_cases hhit : ∃ c order, HasPass fuel b taker c order ∧ PassHits c.book order o
    swap
    · exact ⟨fun _ hmissed => hhit hmissed.1, fun _ h => absurd h hhit⟩
    -- a call with a hit comes to its passes, and returns from them
    obtain ⟨_, _, hpass, _⟩ := id hhit
    rw [seen_iff hafter.sound htaker hfresh' (hpass.loop hcall)]
    constructor
    · intro h hmissed
      obtain ⟨c, order, hpass, hhits, hkept⟩ := h hhit
      exact hkept (hmissed.2 c order hpass hhits)
    · intro hnot _
      by_contra hnone
      refine hnot ⟨hhit, ?_⟩
      intro c order hpass hhits
      by_contra hkept
      exact hnone ⟨c, order, hpass, hhits, hkept⟩
  refine ⟨?_, hheralded⟩
  rw [StopsExact, htriggers]
  constructor
  · rintro ⟨hall, _⟩ o
    exact (hseen o).mp (hall o)
  · intro hall
    exact ⟨fun o => (hseen o).mpr (hall o), hheralded⟩

/-- The book after a run of commands. -/
def bookAfter (cmds : List BookCommand) : OrderBook :=
  (OrderBook.new.runCommands 10 cmds).getD OrderBook.new

theorem reaches_bookAfter {cmds : List BookCommand}
    (hadmissible : ∀ o ∈ submitted cmds, o.Admissible) (hfresh : (submittedIds cmds).Nodup)
    (hrun : (OrderBook.new.runCommands 10 cmds).isSome) : Reaches cmds (bookAfter cmds) := by
  rcases Option.isSome_iff_exists.mp hrun with ⟨b, hb⟩
  refine ⟨hadmissible, hfresh, 10, ?_⟩
  rw [bookAfter, hb]
  rfl

/-- Asks at 100 and 105, and a stop to sell at 100. -/
def sweptStop : List BookCommand :=
  [.matchOrder (limitOrder 1 10 .sell 100 1), .matchOrder (limitOrder 2 10 .sell 105 1),
    .matchOrder { buyStop 5 100 with side := .sell }]

/-- A buy order trades at 100, which hits the stop, and then at 105, which does not:
the stop is not triggered. -/
theorem swept_stop_not_triggered :
    ∃ b' events, Reaches sweptStop (bookAfter sweptStop) ∧
      (bookAfter sweptStop).matchOrder 10 (limitOrder 3 11 .buy 105 2) = some (b', events) ∧
      ¬ StopsExact 10 (bookAfter sweptStop) (limitOrder 3 11 .buy 105 2) b' events := by
  have hcheck : (((bookAfter sweptStop).matchOrder 10 (limitOrder 3 11 .buy 105 2)).map
      fun r => decide (EngineEvent.stopTriggered 5 ∈ r.2)) = some false := by
    decide +kernel
  rcases Option.map_eq_some_iff.mp hcheck with ⟨⟨b', events⟩, hcall, hquiet⟩
  refine ⟨b', events, reaches_bookAfter (by decide) (by decide) (by decide +kernel), hcall, ?_⟩
  rintro ⟨htriggers, _⟩
  -- the first turn trades at 100 while the stop is registered
  have hturn : (matchTurn ((bookAfter sweptStop).enterLoop (limitOrder 3 11 .buy 105 2))).map
      (fun t => t.next?.map (·.events)) =
      some (some [.fill (fillOf (limitOrder 3 11 .buy 105 2)
          (limitOrder 1 10 .sell 100 1) 100)]) := by
    decide +kernel
  rcases Option.map_eq_some_iff.mp hturn with ⟨t, ht, hevents⟩
  cases t with
  | done r => cases hevents
  | next s' =>
    have hemits : EmitsFill ((bookAfter sweptStop).enterLoop (limitOrder 3 11 .buy 105 2))
        (fillOf (limitOrder 3 11 .buy 105 2) (limitOrder 1 10 .sell 100 1) 100) :=
      ⟨s', [], ht, Option.some.inj hevents⟩
    have hhit : Hit 10 (bookAfter sweptStop) (limitOrder 3 11 .buy 105 2)
        { buyStop 5 100 with side := .sell } :=
      ⟨_, _, _, _, ⟨rfl, rfl, .refl, [], rfl⟩, .refl, hemits, by decide +kernel, by decide⟩
    exact of_decide_eq_false hquiet (htriggers _ hhit).1

/-- An ask and a stop to buy at 100. -/
def hitStop : List BookCommand :=
  [.matchOrder (limitOrder 1 10 .sell 100 5), .matchOrder (buyStop 2 100)]

/-- The theorem on a stop that the only trade of the first pass hits. -/
theorem stops_exact_single_trade :
    ∃ b' events, Reaches hitStop (bookAfter hitStop) ∧
      (bookAfter hitStop).matchOrder 10 (limitOrder 3 11 .buy 100 2) = some (b', events) ∧
      StopsExact 10 (bookAfter hitStop) (limitOrder 3 11 .buy 100 2) b' events := by
  have hreach : Reaches hitStop (bookAfter hitStop) :=
    reaches_bookAfter (by decide) (by decide) (by decide +kernel)
  have hcall : ((bookAfter hitStop).matchOrder 10 (limitOrder 3 11 .buy 100 2)).isSome := by
    decide +kernel
  obtain ⟨⟨b', events⟩, hcall⟩ := Option.isSome_iff_exists.mp hcall
  have hadm : (limitOrder 3 11 .buy 100 2).Admissible := by decide
  have hafter := hreach.after
  have hfresh : ∀ o ∈ (bookAfter hitStop).pool, o.id ≠ (limitOrder 3 11 .buy 100 2).id :=
    hafter.fresh (by decide)
  have hiff := (stops_exact_iff hreach hadm (by decide)).1 10 b' events hcall
  refine ⟨b', events, hreach, hcall, hiff.1.mpr ?_⟩
  rintro o ⟨hhits, hloses⟩
  have hhit := (hit_iff hafter.sound hadm hfresh).mpr hhits
  -- only one stop is registered, and the first pass sees it
  have ho : o = buyStop 2 100 := by
    have honly : (bookAfter hitStop).stops.orders = [buyStop 2 100] := by decide +kernel
    have hstop := hhit.registered hafter.sound hadm hfresh
    refine List.mem_singleton.mp ?_
    rw [← honly]
    exact hstop
  subst ho
  have hfirst : HasPass 10 (bookAfter hitStop) (limitOrder 3 11 .buy 100 2)
      ((bookAfter hitStop).enterCascade (limitOrder 3 11 .buy 100 2)) (limitOrder 3 11 .buy 100 2) :=
    ⟨rfl, rfl, .refl, [], rfl⟩
  have hend : (loop matchTurn 10 ((bookAfter hitStop).enterLoop (limitOrder 3 11 .buy 100 2))).map
      (fun r => (decide (buyStop 2 100 ∈ (settle r.1 r.2).1.stops.orders), r.1.lastTradePrice)) =
      some (true, some 100) := by
    decide +kernel
  obtain ⟨⟨s, exit⟩, hloop, hview⟩ := Option.map_eq_some_iff.mp hend
  rw [Prod.mk.injEq, decide_eq_true_eq] at hview
  have henters := (hfirst.stops_le hafter.sound hadm hfresh).1.enters rfl
  obtain ⟨hhits, hswept, hkept⟩ := (henters.sees_iff hloop (hhit.registered hafter.sound hadm
    hfresh)).mp ⟨hview.1, 100, hview.2, by decide⟩
  exact loses_iff.mpr ⟨hswept, hkept, by decide⟩ (hloses _ _ hfirst hhits)

end CryptoCex.Core
