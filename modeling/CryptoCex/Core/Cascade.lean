import CryptoCex.Core.Pool

/-!
# The cascade over a consistent book

A call of `match_order` is a sequence of passes. Between two passes every order
is in exactly one place: in the book, in the stop registry or on the work queue
(`CascadeSound`). `PassSound` is what one pass does to the places, and
`cascade_induct` is the induction rule for whole calls.
-/

namespace CryptoCex.Core

open Loop OrderBook

/-- An order that may wait in the stop registry: its active form is ready to be
matched. -/
structure Order.Waiting (o : Order) : Prop where
  positive : 0 < o.remaining
  priced : o.orderType.canRest = true → ∃ p, o.price = some p

theorem Order.Waiting.ready {o : Order} (h : o.Waiting) : (convertStop o).Ready where
  positive := h.positive
  active := isStop_convertStop o
  priced := by
    intro hrest
    rw [canRest_convertStop] at hrest
    exact h.priced hrest

/-! ## One pass -/

/-- What a pass of `taker` from book `b` does to the places of the orders. -/
structure PassSound (b : OrderBook) (taker : Order)
    (r : OrderBook × List EngineEvent × List Order) : Prop where
  book : r.1.Consistent
  hit : ∃ hit : List Order, r.2.2 = hit.map convertStop ∧ ↑hit + r.1.stopPool ≤ b.stopPool
  ids : ↑(r.2.2.map (·.id)) + r.1.toPool.ids ≤ taker.id ::ₘ b.toPool.ids

variable {b b' : OrderBook} {taker : Order} {fuel : ℕ} {events : List EngineEvent}
  {triggered : List Order}

theorem map_id_convertStop (hit : List Order) :
    (hit.map convertStop).map (·.id) = hit.map (·.id) := by
  rw [List.map_map]
  rfl

/-- The end of a pass that kept to the orders of the book. -/
theorem Pass.Finish.places {a : Pass} {exit : MatchExit}
    {r : Pool × List EngineEvent × List Order} (h : a.Finish exit r) :
    (∃ hit : List Order, r.2.2 = hit.map convertStop ∧ ↑hit + r.1.stops ≤ a.pool.stops) ∧
      ↑(r.2.2.map (·.id)) + r.1.ids ≤ a.taker.id ::ₘ a.pool.ids := by
  cases h with
  | consumed hdrain =>
    refine ⟨⟨_, rfl, hdrain.split.ge⟩, ?_⟩
    rw [map_id_convertStop, ← hdrain.ids_eq]
    exact Multiset.le_cons_self _ _
  | finalized hfinal hdrain =>
    refine ⟨⟨_, rfl, hdrain.split.ge.trans hfinal.stops_le⟩, ?_⟩
    rw [map_id_convertStop, ← hdrain.ids_eq]
    exact hfinal.ids_le

/-- A run of the loop is sound, and so are the stops it triggers. -/
theorem runMatchingLoop_sound (h : Enters b taker)
    (hrun : b.runMatchingLoop fuel taker = some (b', events, triggered)) :
    PassSound b taker (b', events, triggered) := by
  have hplaces := runMatchingLoop_induct h
    (fun _ s => s.book.stopPool ≤ b.stopPool ∧ s.book.toPool.ids ≤ b.toPool.ids)
    (fun _ r => (∃ hit : List Order, r.2.2 = hit.map convertStop ∧
      ↑hit + r.1.stops ≤ b.stopPool) ∧
      ↑(r.2.2.map (·.id)) + r.1.ids ≤ taker.id ::ₘ b.toPool.ids) ?_ ?_ ?_ hrun
  · exact ⟨runMatchingLoop_consistent h hrun, hplaces.1, hplaces.2⟩
  · exact ⟨le_refl _, le_refl _⟩
  · rintro past s s' _ hs ⟨hstops, hids⟩ hspec
    have hturn := hspec.refines hs.book
    exact ⟨hturn.stops_le.trans hstops, hturn.ids_le.trans hids⟩
  · rintro past s s' exit r _ hs ⟨hstops, hids⟩ hspec hs' hfinish
    have hturn := hspec.refines hs.book
    rcases hfinish.places with ⟨⟨hit, heq, hle⟩, hplaces⟩
    refine ⟨⟨hit, heq, hle.trans (hturn.stops_le.trans hstops)⟩, ?_⟩
    have htaker : s'.toPass.taker.id = taker.id := by rw [hs'.pass.same, Order.id_withRemaining]
    rw [htaker] at hplaces
    exact hplaces.trans (Multiset.cons_le_cons _ (hturn.ids_le.trans hids))

/-! ## The cascade -/

/-- Between two passes every order is in one place, and every order that waits
can be matched. -/
structure CascadeSound (c : CascadeState) : Prop where
  book : c.book.Consistent
  queue : ∀ o ∈ c.workQueue, o.Ready
  stops : ∀ o ∈ c.book.stopPool, o.Waiting
  unique : (↑(c.workQueue.map (·.id)) + c.book.toPool.ids).Nodup

/-- A book whose stops can be matched once triggered. -/
structure OrderBook.Sound (b : OrderBook) : Prop where
  book : b.Consistent
  stops : ∀ o ∈ b.stopPool, o.Waiting

theorem CascadeSound.enters {c : CascadeState} (hc : CascadeSound c) {order : Order}
    {rest : List Order} (hqueue : c.workQueue = order :: rest) : Enters c.book order where
  book := hc.book
  ready := hc.queue order (mem_workQueue_head hqueue)
  fresh := by
    intro o ho hid
    have hunique := hc.unique
    rw [hqueue, List.map_cons, ← Multiset.cons_coe, Multiset.cons_add,
      Multiset.nodup_cons] at hunique
    exact hunique.1 (Multiset.mem_add.mpr (Or.inr (Multiset.mem_map.mpr ⟨o, ho, hid⟩)))

/-- The stops a pass hits are stops of the book before it. -/
theorem PassSound.ready_of_mem {c : CascadeState} (hc : CascadeSound c) {order : Order}
    {r : OrderBook × List EngineEvent × List Order} (hr : PassSound c.book order r) :
    ∀ o ∈ r.2.2, o.Ready := by
  intro o ho
  rcases hr.hit with ⟨hit, heq, hle⟩
  rw [heq] at ho
  rcases List.mem_map.mp ho with ⟨stop, hstop, rfl⟩
  have hmem : stop ∈ c.book.stopPool :=
    Multiset.mem_of_le ((Multiset.le_add_right _ _).trans hle) hstop
  exact (hc.stops stop hmem).ready

/-- The stops that stay still wait. -/
theorem PassSound.stops_waiting {c : CascadeState} (hc : CascadeSound c) {order : Order}
    {r : OrderBook × List EngineEvent × List Order} (hr : PassSound c.book order r) :
    ∀ o ∈ r.1.stopPool, o.Waiting := by
  intro o ho
  rcases hr.hit with ⟨hit, _, hle⟩
  exact hc.stops o (Multiset.mem_of_le ((Multiset.le_add_left _ _).trans hle) ho)

/-- One turn of the cascade moves the orders between their places. -/
theorem CascadeStep.ids_le {c c' : CascadeState} (h : CascadeStep fuel c c')
    (hc : CascadeSound c) :
    ↑(c'.workQueue.map (·.id)) + c'.book.toPool.ids ≤
      ↑(c.workQueue.map (·.id)) + c.book.toPool.ids := by
  cases h with
  | @push order rest book events triggered hqueue hrun hdepth =>
    have hids := (runMatchingLoop_sound (hc.enters hqueue) hrun).ids
    have hrev : (↑((triggered.reverse ++ rest).map (·.id)) : Multiset Uuid) =
        ↑(rest.map (·.id)) + ↑(triggered.map (·.id)) := by
      rw [List.map_append, List.map_reverse, ← Multiset.coe_add, Multiset.coe_reverse, add_comm]
    rw [hqueue, List.map_cons, ← Multiset.cons_coe, Multiset.cons_add, ← Multiset.add_cons]
    dsimp only
    rw [hrev, add_assoc]
    exact add_le_add_right hids _
  | @cut order rest book events triggered hqueue hrun hdepth =>
    have hids := (runMatchingLoop_sound (hc.enters hqueue) hrun).ids
    rw [hqueue, List.map_cons, ← Multiset.cons_coe, Multiset.cons_add, ← Multiset.add_cons]
    exact add_le_add_right ((Multiset.le_add_left _ _).trans hids) _

/-- A pass keeps the cascade sound. -/
theorem CascadeStep.sound {c c' : CascadeState} (h : CascadeStep fuel c c')
    (hc : CascadeSound c) : CascadeSound c' := by
  have hunique := Multiset.nodup_of_le (h.ids_le hc) hc.unique
  cases h with
  | push hqueue hrun hdepth =>
    have hpass := runMatchingLoop_sound (hc.enters hqueue) hrun
    refine ⟨hpass.book, ?_, hpass.stops_waiting hc, hunique⟩
    intro o ho
    rcases List.mem_append.mp ho with ho | ho
    · exact hpass.ready_of_mem hc o (List.mem_reverse.mp ho)
    · exact hc.queue o (mem_workQueue_tail hqueue ho)
  | cut hqueue hrun hdepth =>
    have hpass := runMatchingLoop_sound (hc.enters hqueue) hrun
    refine ⟨hpass.book, ?_, hpass.stops_waiting hc, hunique⟩
    intro o ho
    exact hc.queue o (mem_workQueue_tail hqueue ho)

/-- The cascade starts sound. -/
theorem cascadeSound_enter (hb : b.Sound) (hready : taker.Ready)
    (hfresh : ∀ o ∈ b.pool, o.id ≠ taker.id) : CascadeSound (b.enterCascade taker) where
  book := hb.book
  queue := by
    intro o ho
    rw [List.mem_singleton.mp ho]
    exact hready
  stops := hb.stops
  unique := (Enters.loopSound ⟨hb.book, hready, hfresh⟩).pass.unique

/-- Every state the cascade visits is sound. -/
theorem cascadeSound_of_visits {c c' : CascadeState} (hc : CascadeSound c)
    (hv : Visits (cascadeTurn fuel) c c') : CascadeSound c' :=
  visits_invariant CascadeSound hc
    (fun _ _ h hnext => (cascadeTurn_next hnext).sound h) hv

/-- The induction rule for the cascade: what holds when it is entered and is
kept by every turn holds when the work queue is empty. -/
theorem cascade_induct {c₀ : CascadeState} (hc₀ : CascadeSound c₀) (Inv : CascadeState → Prop)
    (h0 : Inv c₀)
    (hstep : ∀ c c', Visits (cascadeTurn fuel) c₀ c → CascadeSound c → Inv c →
      CascadeStep fuel c c' → Inv c')
    {fuel' : ℕ} {r : OrderBook × List EngineEvent}
    (hloop : loop (cascadeTurn fuel) fuel' c₀ = some r) :
    ∃ c, Visits (cascadeTurn fuel) c₀ c ∧ c.workQueue = [] ∧ r = (c.book, c.events) ∧
      CascadeSound c ∧ Inv c := by
  refine loop_invariant_visits Inv (fun r => ∃ c, Visits (cascadeTurn fuel) c₀ c ∧
    c.workQueue = [] ∧ r = (c.book, c.events) ∧ CascadeSound c ∧ Inv c) h0 ?_ ?_ hloop
  · intro c c' hv hinv hnext
    exact hstep c c' hv (cascadeSound_of_visits hc₀ hv) hinv (cascadeTurn_next hnext)
  · intro c r hv hinv hdone
    rcases cascadeTurn_done hdone with ⟨hqueue, heq⟩
    exact ⟨c, hv, hqueue, heq, cascadeSound_of_visits hc₀ hv, hinv⟩

/-- A cascade with an order on its work queue makes a turn. -/
theorem exists_turn {c : CascadeState} {n : ℕ} {r : OrderBook × List EngineEvent}
    (hqueue : c.workQueue ≠ []) (hloop : loop (cascadeTurn fuel) n c = some r) :
    ∃ c' m, n = m + 1 ∧ CascadeStep fuel c c' ∧
      trace (cascadeTurn fuel) n c = c :: trace (cascadeTurn fuel) m c' ∧
      loop (cascadeTurn fuel) m c' = some r := by
  obtain ⟨m, rfl, hdone | ⟨c', hnext, hrest⟩⟩ := loop_eq_some hloop
  · exact absurd (cascadeTurn_done hdone).1 hqueue
  · refine ⟨c', m, rfl, cascadeTurn_next hnext, ?_, hrest⟩
    simp only [trace, hnext]

/-- The first turn of a cascade is the pass of the order it was entered with. -/
theorem cascade_first {n : ℕ} {r : OrderBook × List EngineEvent}
    (hloop : loop (cascadeTurn fuel) n (b.enterCascade taker) = some r) :
    ∃ c₁ m book new hit, b.runMatchingLoop fuel taker = some (book, new, hit) ∧
      CascadeStep fuel (b.enterCascade taker) c₁ ∧ loop (cascadeTurn fuel) m c₁ = some r ∧
      c₁.book = book ∧ c₁.events = new ++ hit.map (fun t => .stopTriggered t.id) ∧
      c₁.workQueue = hit.reverse := by
  obtain ⟨c₁, m, _, hstep, _, hrest⟩ := exists_turn (List.cons_ne_nil _ _) hloop
  generalize hc₀ : b.enterCascade taker = c₀ at hstep
  have hstep' := hstep
  cases hstep' with
  | @push order rest book new hit hq hrun hdepth =>
    subst hc₀
    cases hq
    exact ⟨_, m, book, new, hit, hrun, hstep, hrest, rfl, rfl, List.append_nil _⟩
  | cut _ _ hdepth =>
    subst hc₀
    exact absurd hdepth (show ¬ maxStopChainDepth ≤ 0 by decide)

/-! ## A whole call -/

/-- An order the book may be given: something to trade, a price if it can rest
and a stop price if it is a stop. -/
structure Order.Admissible (o : Order) : Prop where
  positive : 0 < o.remaining
  priced : o.orderType.canRest = true → ∃ p, o.price = some p
  stopPriced : o.orderType.isStop = true → ∃ p, o.stopPrice = some p

theorem Order.admissible_iff (o : Order) :
    o.Admissible ↔ 0 < o.remaining ∧ (o.orderType.canRest = true → o.price.isSome = true) ∧
      (o.orderType.isStop = true → o.stopPrice.isSome = true) := by
  simp only [Option.isSome_iff_exists]
  exact ⟨fun h => ⟨h.positive, h.priced, h.stopPriced⟩, fun h => ⟨h.1, h.2.1, h.2.2⟩⟩

instance : DecidablePred Order.Admissible :=
  fun o => decidable_of_iff _ o.admissible_iff.symm

/-- The three ways of a call: rejected before matching, registered as a stop, or
matched by the cascade. -/
inductive CallSpec (fuel : ℕ) (b : OrderBook) (taker : Order) :
    OrderBook × List EngineEvent → Prop where
  | rejected (reject : EngineEvent) (hpre : b.preCheck taker = some reject) :
      CallSpec fuel b taker (b, [reject])
  | registered (stops : StopRegistry) (hpre : b.preCheck taker = none)
      (hstop : taker.orderType.isStop = true) (hins : b.stops.insert taker = .ok stops) :
      CallSpec fuel b taker ({ b with stops }, [.rested taker.id taker.remaining])
  | matched {r : OrderBook × List EngineEvent} (hpre : b.preCheck taker = none)
      (hactive : taker.orderType.isStop = false)
      (hloop : loop (cascadeTurn fuel) fuel (b.enterCascade taker) = some r) :
      CallSpec fuel b taker r

/-- What a call does, with its checks as facts. -/
theorem matchOrder_spec {r : OrderBook × List EngineEvent} (htaker : taker.Admissible)
    (h : b.matchOrder fuel taker = some r) : CallSpec fuel b taker r := by
  cases matchOrder_cases h with
  | rejected reason hpre => exact .rejected _ hpre
  | stop hpre hstop =>
    rcases htaker.stopPriced hstop with ⟨price, hprice⟩
    rcases StopRegistry.insert_ok_of_stopPrice (r := b.stops) hprice with ⟨stops, hins⟩
    unfold registerStopOrder
    rw [hins]
    exact .registered stops hpre hstop hins
  | matched hpre hactive hloop => exact .matched hpre hactive hloop

/-- Registering a stop adds its id. -/
theorem ids_registered {stops : StopRegistry} (hins : b.stops.insert taker = .ok stops) :
    Pool.ids (OrderBook.toPool { b with stops }) = taker.id ::ₘ b.toPool.ids := by
  have hpool : (↑stops.orders : Multiset Order) = taker ::ₘ b.stopPool :=
    (Multiset.coe_eq_coe.mpr (StopRegistry.insert_orders hins)).trans (Multiset.cons_coe ..).symm
  simp only [Pool.ids, Pool.live, OrderBook.toPool, stopPool, hpool]
  rw [Multiset.add_cons, Multiset.map_cons]
  rfl

/-- A call keeps the book sound and brings in at most the taker. -/
theorem matchOrder_sound (hb : b.Sound) (htaker : taker.Admissible)
    (hfresh : ∀ o ∈ b.pool, o.id ≠ taker.id) (h : b.matchOrder fuel taker = some (b', events)) :
    b'.Sound ∧ b'.toPool.ids ≤ taker.id ::ₘ b.toPool.ids := by
  have hspec := matchOrder_spec htaker h
  generalize hr : (b', events) = r at hspec
  cases hspec with
  -- nothing has changed
  | rejected reject =>
    cases hr
    exact ⟨hb, Multiset.le_cons_self _ _⟩
  -- the stop has gone into its bucket, the book is as before
  | registered stops _ hstop hins =>
    cases hr
    have hperm := StopRegistry.insert_orders hins
    refine ⟨⟨hb.book.registerStopOrder hins hstop hfresh, ?_⟩, ?_⟩
    · intro o ho
      rcases List.mem_cons.mp (hperm.subset ho) with rfl | ho
      · exact ⟨htaker.positive, htaker.priced⟩
      · exact hb.stops o ho
    · exact (ids_registered hins).le
  -- no pass of the cascade brings in an id but those in its queue and its book
  | matched hpre hactive hloop =>
    have hready : taker.Ready := ⟨htaker.positive, hactive, htaker.priced⟩
    have hc₀ := cascadeSound_enter hb hready hfresh
    rcases cascade_induct hc₀
      (fun c => ↑(c.workQueue.map (·.id)) + c.book.toPool.ids ≤ taker.id ::ₘ b.toPool.ids)
      (le_refl _) (fun c c' _ hc hinv hstep => (hstep.ids_le hc).trans hinv) hloop with
      ⟨c, _, hqueue, heq, hc, hids⟩
    rw [hqueue] at hids
    cases hr.trans heq
    exact ⟨⟨hc.book, hc.stops⟩, (Multiset.le_add_left _ _).trans hids⟩

end CryptoCex.Core
