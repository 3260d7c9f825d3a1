import CryptoCex.Core.Grid
import CryptoCex.Core.Kill

/-!
# Fill-or-kill

A fill-or-kill order should be filled completely or leave no trace. The pre-check
promises it whenever the quantity at acceptable prices suffices, but counts orders
that will not trade with this taker: its own, and OCO siblings of orders used up
on the way. `fok_allOrNothing_iff` says that the order is all-or-nothing exactly
when the pre-check rejects it or the walk through the book really fills it.
-/

namespace CryptoCex.Core

open Loop OrderBook

/-- Rejected without a trace, or filled to the last unit and never cancelled. -/
def AllOrNothing (b : OrderBook) (taker : Order) (b' : OrderBook) (events : List EngineEvent) :
    Prop :=
  (b' = b ∧ events = [.cancelled taker.id .fokUnfilled]) ∨
    (fillSum (·.takerOrderId = taker.id) events = taker.quantity ∧
      ∀ reason, EngineEvent.cancelled taker.id reason ∉ events)

variable {b b' : OrderBook} {taker : Order} {fuel : ℕ} {s : MatchState} {exit : MatchExit}
  {events : List EngineEvent} {triggered : List Order}

/-- An order that is not named has no fills. -/
theorem fillSum_eq_zero_of_unnamed {id : Uuid} (h : id ∉ named events) :
    fillSum (·.takerOrderId = id) events = 0 := by
  induction events with
  | nil => rfl
  | cons e events ih =>
    rw [named_cons, List.mem_append, not_or] at h
    rw [← List.singleton_append, fillSum_append, ih h.2, add_zero]
    cases e with
    | fill f =>
      have hne : f.takerOrderId ≠ id := by
        rintro rfl
        exact h.1 (List.mem_cons_of_mem _ List.mem_cons_self)
      simp [hne]
    | rested => rfl
    | cancelled => rfl
    | stopTriggered => rfl

theorem cancelled_notMem_of_unnamed {id : Uuid} {reason : CancelReason} (h : id ∉ named events) :
    EngineEvent.cancelled id reason ∉ events :=
  fun hmem => h (List.mem_flatMap.mpr ⟨_, hmem, List.mem_cons_self⟩)

/-! ## The pass of a taker that cannot rest -/

/-- An order that cannot rest is nowhere after its pass. -/
theorem Pass.Finish.taker_nowhere {a : Pass} {r : Pool × List EngineEvent × List Order}
    (h : a.Finish exit r) (hs : a.Sound taker) (hrest : a.taker.orderType.canRest = false) :
    taker.id ∉ ↑(r.2.2.map (·.id)) + r.1.ids := by
  have hids : ↑(r.2.2.map (·.id)) + r.1.ids ≤ a.pool.ids := by
    cases h with
    | consumed hdrain =>
      rw [map_id_convertStop, ← hdrain.ids_eq]
    | finalized hfinal hdrain =>
      rw [map_id_convertStop, ← hdrain.ids_eq]
      cases hfinal with
      | filled _ hoco => exact hoco.ids_le
      | cancelled _ _ _ _ hoco => exact hoco.ids_le
      | rested _ hcan =>
        rw [hrest] at hcan
        cases hcan
  exact fun hmem => hs.taker_notMem (Multiset.mem_of_le hids hmem)

/-- What the end of a pass adds to the events of a filled taker does not name
it. -/
theorem Pass.Finalize.spares_taker {a : Pass} {r : Pool × List EngineEvent} (h : a.Finalize r)
    (hs : a.Sound taker) (hzero : a.taker.remaining = 0) : taker.id ∉ named r.2 := by
  cases h with
  | filled _ hoco =>
    intro hmem
    exact hs.taker_notMem (hoco.named_gone (Multiset.nodup_cons.mp hs.unique).2 hmem).1
  | cancelled hne => exact absurd hzero hne
  | rested hne => exact absurd hzero hne

/-- What is left of a fill-or-kill order is killed. -/
theorem Pass.Finalize.kills_rest {a : Pass} {r : Pool × List EngineEvent} (h : a.Finalize r)
    (htype : a.taker.orderType = .fok) (hne : a.taker.remaining ≠ 0) :
    EngineEvent.cancelled a.taker.id .fokUnfilled ∈ r.2 := by
  cases h with
  | filled hzero => exact absurd hzero hne
  | cancelled _ reason hfok =>
    rw [hfok.mpr htype]
    exact List.mem_cons_self
  | rested _ hrest =>
    rw [htype] at hrest
    cases hrest

/-- The events of a pass that ended with a filled taker. -/
theorem Pass.Finish.events_filled {a : Pass} {r : Pool × List EngineEvent × List Order}
    (h : a.Finish .exhausted r) (hs : a.Sound taker) (hzero : a.taker.remaining = 0) :
    ∃ new, r.2.1 = a.events ++ new ∧ taker.id ∉ named new := by
  cases h with
  | finalized hfinal => exact ⟨_, rfl, hfinal.spares_taker hs hzero⟩

/-- The events of a pass that ended with something left of a fill-or-kill
order. -/
theorem Pass.Finish.events_killed {a : Pass} {r : Pool × List EngineEvent × List Order}
    (h : a.Finish .exhausted r) (hs : a.Sound taker) (htype : a.taker.orderType = .fok)
    (hne : a.taker.remaining ≠ 0) : EngineEvent.cancelled taker.id .fokUnfilled ∈ r.2.1 := by
  rw [← hs.id_eq]
  cases h with
  | finalized hfinal => exact List.mem_append_right _ (hfinal.kills_rest htype hne)

theorem Pass.Finish.events_consumed {a : Pass} {r : Pool × List EngineEvent × List Order}
    (h : a.Finish .takerConsumed r) : r.2.1 = a.events := by
  cases h with
  | consumed => rfl

/-- A taker that self-trade prevention consumes is named as cancelled. -/
theorem loop_consumed_cancelled (h : Enters b taker)
    (hloop : loop matchTurn fuel (b.enterLoop taker) = some (s, .takerConsumed)) :
    EngineEvent.cancelled taker.id .selfTradePrevented ∈ s.events := by
  refine matchLoop_induct h (fun _ _ => True) (fun _ s exit => exit = .takerConsumed →
    EngineEvent.cancelled taker.id .selfTradePrevented ∈ s.events) trivial
    (fun _ _ _ _ _ _ _ => trivial) ?_ hloop rfl
  rintro _ t t' exit _ ht _ hspec _ rfl
  have hid : t.taker.id = taker.id := ht.pass.id_eq
  rw [← hid]
  exact hspec.consumed_cancelled

/-- The pass of a fill-or-kill order fills it without a cancel exactly when it is
fillable. -/
theorem fok_pass_iff (h : Enters b taker) (htype : taker.orderType = .fok)
    (hrun : b.runMatchingLoop fuel taker = some (b', events, triggered)) :
    (fillSum (·.takerOrderId = taker.id) events = taker.remaining ∧
      ∀ reason, EngineEvent.cancelled taker.id reason ∉ events) ↔ Fillable b taker := by
  rcases runMatchingLoop_eq_some hrun with ⟨s, exit, hloop, hend⟩
  have hs := h.loop_sound hloop
  have hstart : (b.enterLoop taker).due taker.id = taker.remaining := by
    simp [MatchState.due, enterLoop]
  have hfinish := (afterLoop_refines hs h.ready exit).2
  rw [← hend] at hfinish
  have htype' : s.taker.orderType = .fok := by
    rw [hs.taker_eq]
    exact htype
  constructor
  · -- filled in full and not cancelled, so that the loop has used it up
    rintro ⟨hsum, hspared⟩
    cases exit with
    | takerConsumed =>
      have hevents : events = s.events := hfinish.events_consumed
      rw [hevents] at hspared
      exact absurd (loop_consumed_cancelled h hloop) (hspared _)
    | exhausted =>
      by_cases hzero : s.taker.remaining = 0
      · rcases hfinish.events_filled hs.pass hzero with ⟨new, hevents, hunnamed⟩
        change events = s.events ++ new at hevents
        rw [hevents, fillSum_append, fillSum_eq_zero_of_unnamed hunnamed, add_zero] at hsum
        refine fillable_of_loop h.loopSound hloop hzero ?_
        rw [hstart, MatchState.due, hzero, add_zero]
        exact hsum
      · exact absurd (hfinish.events_killed hs.pass htype' hzero) (hspared _)
  · -- what is fillable is filled by the loop
    intro hfill
    rcases hfill.loop rfl rfl h.loopSound hloop with ⟨rfl, hzero, hdue, hspared⟩
    rw [hstart, MatchState.due, hzero, add_zero] at hdue
    rcases hfinish.events_filled hs.pass hzero with ⟨new, hevents, hunnamed⟩
    change events = s.events ++ new at hevents
    rw [hevents]
    refine ⟨?_, ?_⟩
    · rw [fillSum_append, fillSum_eq_zero_of_unnamed hunnamed, add_zero]
      exact hdue
    · intro reason hmem
      rcases List.mem_append.mp hmem with hmem | hmem
      · cases hspared reason hmem
      · exact cancelled_notMem_of_unnamed hunnamed hmem

/-! ## The call -/

/-- A call that matches an order that cannot rest: after the pass of the order,
nothing names it, and it is not in the book. -/
theorem matchOrder_taker_events (hb : b.Sound) (htaker : taker.Admissible)
    (hfresh : ∀ o ∈ b.pool, o.id ≠ taker.id) (hpre : b.preCheck taker = none)
    (hactive : taker.orderType.isStop = false) (hrest : taker.orderType.canRest = false)
    (hcall : b.matchOrder fuel taker = some (b', events)) :
    ∃ book new hit later, b.runMatchingLoop fuel taker = some (book, new, hit) ∧
      events = new ++ later ∧ taker.id ∉ named later ∧ taker.id ∉ b'.toPool.ids := by
  have hready : taker.Ready := ⟨htaker.positive, hactive, htaker.priced⟩
  have henters : Enters b taker := ⟨hb.book, hready, hfresh⟩
  have hspec := matchOrder_spec htaker hcall
  generalize hr : (b', events) = r at hspec
  cases hspec with
  | rejected reject hpre' =>
    rw [hpre] at hpre'
    cases hpre'
  | registered _ _ hstop =>
    rw [hactive] at hstop
    cases hstop
  | matched _ _ hcascade =>
    have hc₀ := cascadeSound_enter hb hready hfresh
    rcases cascade_first hcascade with
      ⟨c₁, n, book, new, hit, hrun, hstep, hcascade', hbook, hevents, hqueue⟩
    -- after its own pass the order is nowhere
    have hnowhere : taker.id ∉ ↑(hit.map (·.id)) + book.toPool.ids := by
      rcases runMatchingLoop_eq_some hrun with ⟨s, exit, hloop, hend⟩
      have hs := henters.loop_sound hloop
      have hfinish := (afterLoop_refines hs hready exit).2
      rw [← hend] at hfinish
      refine hfinish.taker_nowhere hs.pass ?_
      rw [show s.toPass.taker = taker.withRemaining _ from hs.pass.same]
      exact hrest
    have hqueue' : taker.id ∉ c₁.workQueue.map (·.id) := by
      rw [hqueue, List.map_reverse, List.mem_reverse]
      exact fun hmem => hnowhere (Multiset.mem_add.mpr (Or.inl hmem))
    have hpool : taker.id ∉ c₁.book.toPool.ids := by
      rw [hbook]
      exact fun hmem => hnowhere (Multiset.mem_add.mpr (Or.inr hmem))
    -- so the passes of the triggered stops do not name it
    rcases cascade_unnamed (hstep.sound hc₀) hqueue' hpool hcascade' with
      ⟨hgone, later, hlater, hun⟩
    rw [← hr] at hlater hgone
    change events = c₁.events ++ later at hlater
    refine ⟨book, new, hit, hit.map (fun t => .stopTriggered t.id) ++ later, hrun, ?_, ?_, hgone⟩
    · rw [hlater, hevents, List.append_assoc]
    · rw [named_append, named_stopTriggered, List.nil_append]
      exact hun

/-- A killed order is not in the book after the call. -/
theorem matchOrder_killed_gone (hb : b.Sound) (htaker : taker.Admissible)
    (hfresh : ∀ o ∈ b.pool, o.id ≠ taker.id) {e : EngineEvent} (he : e ∈ events)
    (hkill : e.Kills taker.id) (hcall : b.matchOrder fuel taker = some (b', events)) :
    taker.id ∉ b'.toPool.ids := by
  cases hpre : b.preCheck taker with
  | some reject =>
    rw [matchOrder, hpre] at hcall
    cases hcall
    intro hmem
    rcases Multiset.mem_map.mp hmem with ⟨o, ho, hid⟩
    exact hfresh o ho hid
  | none =>
    have hkilled := (matchOrder_kills hb htaker hfresh hpre hcall he hkill).2
    have hrest : taker.orderType.canRest = false := by
      rw [hkilled.2.1]
      rfl
    rcases matchOrder_taker_events hb htaker hfresh hpre hkilled.active hrest hcall with
      ⟨_, _, _, _, _, _, _, hgone⟩
    exact hgone

/-- The pre-check of a fill-or-kill order is `can_fully_fill`. -/
theorem preCheck_fok (htype : taker.orderType = .fok) :
    b.preCheck taker =
      if b.canFullyFill taker then none else some (.cancelled taker.id .fokUnfilled) := by
  unfold preCheck
  rw [htype]

/-- On a sound book, a call with a fill-or-kill order is all-or-nothing exactly
when the pre-check rejects it or it is fillable. -/
theorem allOrNothing_iff (hb : b.Sound) (htaker : taker.Admissible)
    (hfresh : ∀ o ∈ b.pool, o.id ≠ taker.id) (hfull : taker.remaining = taker.quantity)
    (htype : taker.orderType = .fok) (hcall : b.matchOrder fuel taker = some (b', events)) :
    AllOrNothing b taker b' events ↔ b.canFullyFill taker = false ∨ Fillable b taker := by
  cases hcan : b.canFullyFill taker with
  | false =>
    have hpre : b.preCheck taker = some (.cancelled taker.id .fokUnfilled) := by
      rw [preCheck_fok htype, hcan]
      rfl
    unfold matchOrder at hcall
    rw [hpre] at hcall
    cases hcall
    exact ⟨fun _ => Or.inl rfl, fun _ => Or.inl ⟨rfl, rfl⟩⟩
  | true =>
    have hpre : b.preCheck taker = none := by
      rw [preCheck_fok htype, hcan]
      rfl
    have hactive : taker.orderType.isStop = false := by
      rw [htype]
      rfl
    have hrest : taker.orderType.canRest = false := by
      rw [htype]
      rfl
    have henters : Enters b taker := ⟨hb.book, ⟨htaker.positive, hactive, htaker.priced⟩, hfresh⟩
    rcases matchOrder_taker_events hb htaker hfresh hpre hactive hrest hcall with
      ⟨book, new, hit, later, hrun, hevents, hunnamed, _⟩
    have hpass := fok_pass_iff henters htype hrun
    -- the later passes neither fill nor cancel the order
    have hsum : fillSum (·.takerOrderId = taker.id) events =
        fillSum (·.takerOrderId = taker.id) new := by
      rw [hevents, fillSum_append, fillSum_eq_zero_of_unnamed hunnamed, add_zero]
    have hmem : ∀ reason, EngineEvent.cancelled taker.id reason ∈ events ↔
        EngineEvent.cancelled taker.id reason ∈ new := by
      intro reason
      rw [hevents, List.mem_append]
      exact or_iff_left (cancelled_notMem_of_unnamed hunnamed)
    rw [← hpass, or_iff_right Bool.true_eq_false.mp]
    unfold AllOrNothing
    rw [hsum, hfull]
    simp only [hmem]
    refine or_iff_right ?_
    rintro ⟨rfl, rfl⟩
    -- a kill after the pre-check has changed the book
    rcases matchOrder_kills hb htaker hfresh hpre hcall List.mem_cons_self (Or.inl rfl) with
      ⟨_, hkilled⟩
    rcases (hkilled.changes hb htaker hfresh hcall).1 with ⟨m, hm, hgone⟩
    rcases mem_resting.mp hm with ⟨price, hq⟩
    exact hgone (Multiset.mem_map_of_mem _ (mem_pool_of_mem_queue hq))

/-- A fill-or-kill buy order that cancels own orders in its way. -/
def fokOrder (id userId : Uuid) (price quantity : Decimal) : Order :=
  { limitOrder id userId .buy price quantity with
    orderType := .fok
    stpMode := .cancelMaker }

/-- Of the 10 units the pre-check counts, 5 are the taker's own. -/
def ownLiquidity : List BookCommand :=
  [.matchOrder (limitOrder 1 10 .sell 100 5), .matchOrder (limitOrder 2 11 .sell 101 5)]

end CryptoCex.Core
