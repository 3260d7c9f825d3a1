import CryptoCex.Core.Kill
import CryptoCex.Core.Reload

/-!
# Post-only orders never take

The pre-check of a post-only order looks at the best opposite price, and so does the first turn
of the matching loop, with the same comparison. A post-only order that passes the check
therefore meets no order, its loop is left at once, and it comes to rest (`matchOrder_postOnly`).
The branch of `finalize_taker` for a post-only order that traded is never taken.

All other takers were submitted as orders of another type: the order itself, or a stop that it
triggered (`postOnly_never_takes`). None of this needs distinct ids or positive quantities.
-/

namespace CryptoCex.Core

open Loop OrderBook

/-! ## The call of a post-only order -/

section Call

variable {b : OrderBook} {order : Order} {price : Decimal} {fuel : ℕ}

/-- The pass of a post-only order that does not cross. -/
theorem runMatchingLoop_postOnly (hpre : b.preCheck order = none)
    (htype : order.orderType = .postOnly) (hprice : order.price = some price)
    (hne : order.remaining ≠ 0) :
    b.runMatchingLoop (fuel + 1) order =
      some (b.insertMaker order, [.rested order.id order.remaining], []) := by
  have hturn := matchTurn_postOnly hpre htype ⟨price, hprice⟩
  have hfinal : b.finalizeTaker order false =
      (b.insertMaker order, [.rested order.id order.remaining]) := by
    simp only [finalizeTaker, beq_iff_eq, if_neg hne, htype, Bool.false_eq_true, if_false]
  have hterm : takerTerminal order [.rested order.id order.remaining] = false := by
    simp [takerTerminal, hne]
  rw [runMatchingLoop, loop_succ_done hturn]
  simp only [afterLoop, enterLoop, hfinal, hterm, Bool.false_eq_true, if_false, drainAfter,
    List.append_nil, List.nil_append]

/-- A post-only order with nothing left ends without an event of its own. -/
theorem runMatchingLoop_postOnly_zero (hpre : b.preCheck order = none)
    (htype : order.orderType = .postOnly) (hprice : order.price = some price)
    (hzero : order.remaining = 0) :
    b.runMatchingLoop (fuel + 1) order =
      some ((b.maybeCancelOco order.id).1, (b.maybeCancelOco order.id).2, []) := by
  have hturn := matchTurn_postOnly hpre htype ⟨price, hprice⟩
  have hfinal : b.finalizeTaker order false = (b, []) := by
    simp only [finalizeTaker, hzero, beq_self_eq_true, if_true]
  have hterm : takerTerminal order [] = true := by
    simp [takerTerminal, hzero]
  rw [runMatchingLoop, loop_succ_done hturn]
  simp only [afterLoop, enterLoop, hfinal, hterm, if_true, drainAfter, List.nil_append]

/-- A call whose first pass triggers no stop is that pass. -/
theorem matchOrder_of_pass {book : OrderBook} {events : List EngineEvent}
    (hpre : b.preCheck order = none) (hactive : order.orderType.isStop = false)
    (hrun : b.runMatchingLoop (fuel + 2) order = some (book, events, [])) :
    b.matchOrder (fuel + 2) order = some (book, events) := by
  have hturn : cascadeTurn (fuel + 2) (b.enterCascade order) = some (.next {
      book := book
      events := events
      workQueue := []
      stopDepth := 0 }) := by
    simp [cascadeTurn, enterCascade, hrun, maxStopChainDepth, saturatingDepth]
  simp only [matchOrder, hpre, hactive, Bool.false_eq_true, if_false]
  rw [loop_succ_next hturn]
  exact loop_succ_done rfl

/-- What a call of a post-only order may do: nothing but say so, or put it at the back of its
level. -/
inductive PostOnlyOutcome (b : OrderBook) (order : Order) (price : Decimal) :
    OrderBook × List EngineEvent → Prop where
  | crossed : PostOnlyOutcome b order price (b, [.cancelled order.id .postOnlyCrossed])
  | rested (b' : OrderBook)
      (hlevels : ∀ side p, b'.queue side p = if side = order.side ∧ p = price then
        b.queue side p ++ [order] else b.queue side p)
      (hindex : b'.orderIndex = b.orderIndex.insert order.id (order.side, price))
      (hstops : b'.stops = b.stops) (hlinks : b'.ocoLinks = b.ocoLinks) :
      PostOnlyOutcome b order price (b', [.rested order.id order.quantity])

/-- A post-only order that passes its check goes through the loop without a turn. -/
theorem matchOrder_postOnly (hpre : b.preCheck order = none)
    (htype : order.orderType = .postOnly) (hprice : order.price = some price)
    (hne : order.remaining ≠ 0) :
    b.matchOrder (fuel + 2) order =
      some (b.insertMaker order, [.rested order.id order.remaining]) :=
  matchOrder_of_pass hpre (by rw [htype]; rfl) (runMatchingLoop_postOnly hpre htype hprice hne)

/-- The call of a post-only order returns, crossed or at rest. -/
theorem postOnlyOutcome (b : OrderBook) (htype : order.orderType = .postOnly)
    (hprice : order.price = some price) (hfull : order.remaining = order.quantity)
    (hquantity : order.quantity ≠ 0) :
    ∃ r, (∀ fuel ≥ 2, b.matchOrder fuel order = some r) ∧ PostOnlyOutcome b order price r := by
  cases hpre : b.preCheck order with
  -- the pre-check has seen a price it would cross
  | some reject =>
    refine ⟨(b, [reject]), fun fuel _ => by simp only [matchOrder, hpre], ?_⟩
    rcases preCheck_eq_some hpre with ⟨hfok, _⟩ | ⟨_, rfl⟩
    · rw [htype] at hfok
      cases hfok
    · exact .crossed
  -- otherwise the loop meets nothing, and the whole order goes into the book
  | none =>
    rw [← hfull] at hquantity
    refine ⟨(b.insertMaker order, [.rested order.id order.remaining]), ?_, ?_⟩
    · intro fuel hfuel
      obtain ⟨n, rfl⟩ : ∃ n, fuel = n + 2 := ⟨fuel - 2, by omega⟩
      exact matchOrder_postOnly hpre htype hprice hquantity
    · rw [hfull]
      refine .rested _ ?_ ?_ ?_ ?_
      · intro side p
        rw [insertMaker_eq hprice]
        change (b.withQueue order.side price _).queue side p = _
        rw [queue_withQueue]
        split_ifs with hlevel
        · rw [hlevel.1, hlevel.2]
        · rfl
      · rw [insertMaker_eq hprice]
      · rw [insertMaker_eq hprice]
        exact stops_withQueue ..
      · exact ocoLinks_insertMaker b order

end Call

/-! ## Who takes -/

section Takers

variable {b b' : OrderBook} {taker : Order} {s : MatchState} {fuel : ℕ} {P : Uuid → Prop}

/-- What the loop of `taker` entered with `b` keeps, whatever the orders are. -/
structure Takes (b : OrderBook) (taker : Order) (s : MatchState) : Prop where
  noEmpty : s.book.NoEmptyLevel
  id : s.taker.id = taker.id
  stops : s.book.stopPool ≤ b.stopPool
  fills : ∀ f, EngineEvent.fill f ∈ s.events → f.takerOrderId = taker.id

theorem Takes.events_append {new : List EngineEvent} (h : Takes b taker s)
    (hnew : ∀ f, EngineEvent.fill f ∈ new → f.takerOrderId = taker.id) :
    ∀ f, EngineEvent.fill f ∈ s.events ++ new → f.takerOrderId = taker.id := by
  intro f hf
  rcases List.mem_append.mp hf with hf | hf
  · exact h.fills f hf
  · exact hnew f hf

/-- A turn fills for the taker only. -/
theorem TurnSpec.takes {t : Turn MatchState (MatchState × MatchExit)} (ht : TurnSpec s t)
    (h : Takes b taker s) : Takes b taker (stateAfter t) := by
  have hnone : ∀ {new : List EngineEvent}, (∀ f, EngineEvent.fill f ∉ new) →
      ∀ f, EngineEvent.fill f ∈ new → f.takerOrderId = taker.id :=
    fun hnew f hf => absurd hf (hnew f)
  have hfill : ∀ {m price} f, EngineEvent.fill f ∈ [EngineEvent.fill (fillOf s.taker m price)] →
      f.takerOrderId = taker.id := by
    intro m price f hf
    cases List.mem_singleton.mp hf
    exact h.id
  -- the book loses a maker, or gets a level back with less in it
  have hwithin : ∀ {book : OrderBook}, book.Within s.book →
      book.NoEmptyLevel ∧ book.stopPool ≤ b.stopPool :=
    fun hw => ⟨hw.noEmpty h.noEmpty, hw.stops.trans h.stops⟩
  have hqueue : ∀ side price q, (s.book.withQueue side price q).NoEmptyLevel ∧
      (s.book.withQueue side price q).stopPool ≤ b.stopPool := by
    intro side price q
    exact ⟨noEmptyLevel_withQueue h.noEmpty side price q, (stopPool_withQueue ..).trans_le h.stops⟩
  cases ht with
  | exhausted => exact h
  | cancelTaker =>
    exact ⟨h.noEmpty, h.id, h.stops, h.events_append (hnone (by simp))⟩
  | cancelMaker hm =>
    rcases hwithin (within_dropFront hm.level) with ⟨hbook, hstops⟩
    exact ⟨hbook, h.id, hstops, h.events_append (hnone (by simp))⟩
  | decrementTaker =>
    rcases hqueue _ _ _ with ⟨hbook, hstops⟩
    exact ⟨hbook, h.id, hstops, h.events_append (hnone (by simp))⟩
  | decrementMaker hm =>
    rcases hwithin (within_dropFront hm.level) with ⟨hbook, hstops⟩
    exact ⟨hbook, h.id, hstops, h.events_append (hnone (by simp))⟩
  | decrementBoth hm =>
    rcases hwithin (within_dropFront hm.level) with ⟨hbook, hstops⟩
    exact ⟨hbook, h.id, hstops, h.events_append (hnone (by simp))⟩
  | fillPart =>
    rcases hqueue _ _ _ with ⟨hbook, hstops⟩
    exact ⟨hbook, h.id, hstops, h.events_append hfill⟩
  | @fillWhole price m rest hm =>
    rcases hwithin ((within_maybeCancelOco _ m.id).trans (within_dropFront hm.level)) with
      ⟨hbook, hstops⟩
    refine ⟨hbook, h.id, hstops, ?_⟩
    intro f hf
    rcases List.mem_append.mp hf with hf | hf
    · exact h.events_append hfill f hf
    · exact absurd hf (fill_notMem_oco _ _ f)

/-- What a pass of `taker` leaves: it took all that traded, and the stops it triggered were in
the book. -/
structure PassTakes (b : OrderBook) (taker : Order)
    (r : OrderBook × List EngineEvent × List Order) : Prop where
  noEmpty : r.1.NoEmptyLevel
  stops : r.1.stopPool ≤ b.stopPool
  fills : ∀ f, EngineEvent.fill f ∈ r.2.1 → f.takerOrderId = taker.id
  triggered : ∀ t ∈ r.2.2, ∃ o ∈ b.stopPool, t = convertStop o

theorem noEmptyLevel_insertMaker (hb : b.NoEmptyLevel) (o : Order) :
    (b.insertMaker o).NoEmptyLevel := by
  have hall : b.All fun _ => True := ⟨hb, fun _ _ => trivial⟩
  exact (hall.insertMaker (m := o) trivial).noEmpty

theorem passTakes_drain {events : List EngineEvent} (hnoEmpty : b'.NoEmptyLevel)
    (hstops : b'.stopPool ≤ b.stopPool)
    (hfills : ∀ f, EngineEvent.fill f ∈ events → f.takerOrderId = taker.id)
    (last : Option Decimal) :
    PassTakes b taker ((b'.drainAfter last).1, events, (b'.drainAfter last).2) where
  noEmpty := (within_drainAfter b' last).noEmpty hnoEmpty
  stops := (within_drainAfter b' last).stops.trans hstops
  fills := hfills
  triggered := by
    intro t ht
    rw [drainAfter_snd] at ht
    rcases List.mem_map.mp ht with ⟨o, ho, rfl⟩
    refine ⟨o, Multiset.mem_of_le hstops ?_, rfl⟩
    rw [b'.stopPool_drainAfter last]
    exact Multiset.mem_add.mpr (.inl ho)

/-- So does the run. -/
theorem Takes.afterLoop (h : Takes b taker s) (exit : MatchExit) :
    PassTakes b taker (OrderBook.afterLoop s exit) := by
  cases exit with
  | takerConsumed => exact passTakes_drain h.noEmpty h.stops h.fills s.lastTradePrice
  | exhausted =>
    have hfinal : (s.book.finalizeTaker s.taker s.hadFills).1.NoEmptyLevel ∧
        (s.book.finalizeTaker s.taker s.hadFills).1.stopPool ≤ b.stopPool := by
      have hspec := s.book.finalizeTaker_spec s.taker s.hadFills
      generalize s.book.finalizeTaker s.taker s.hadFills = final at hspec ⊢
      cases hspec with
      | filled => exact ⟨h.noEmpty, h.stops⟩
      | cancelled => exact ⟨h.noEmpty, h.stops⟩
      | rested =>
        exact ⟨noEmptyLevel_insertMaker h.noEmpty _,
          (stopPool_insertMaker _ _).trans_le h.stops⟩
    rcases within_ite_maybeCancelOco (s.book.finalizeTaker s.taker s.hadFills).1 s.taker.id
      (takerTerminal s.taker (s.book.finalizeTaker s.taker s.hadFills).2) with ⟨hwithin, hoco⟩
    refine passTakes_drain (hwithin.noEmpty hfinal.1) (hwithin.stops.trans hfinal.2) ?_
      s.lastTradePrice
    intro f hf
    rcases List.mem_append.mp hf with hf | hf
    · -- what follows the loop fills nothing
      rcases List.mem_append.mp hf with hf | hf
      · exact h.fills f hf
      · exact absurd hf (fill_notMem_finalize _ _ _ f)
    · exact absurd hf (hoco f)

/-- The fills of a run have its order as taker. -/
theorem runMatchingLoop_takes {r : OrderBook × List EngineEvent × List Order}
    (hb : b.NoEmptyLevel) (hrun : b.runMatchingLoop fuel taker = some r) :
    PassTakes b taker r := by
  rcases runMatchingLoop_eq_some hrun with ⟨s, exit, hloop, rfl⟩
  have hturn : ∀ t u, Takes b taker t → matchTurn t = some u → Takes b taker (stateAfter u) := by
    intro t u ht hu
    have hspec := turnSpec_of_eq ht.noEmpty hu
    exact hspec.takes ht
  have henter : Takes b taker (b.enterLoop taker) :=
    ⟨hb, rfl, le_refl _, fun f hf => absurd hf List.not_mem_nil⟩
  have htakes : Takes b taker s := by
    refine loop_invariant (Takes b taker) (fun r => Takes b taker r.1) henter ?_ ?_ hloop
    · intro t t' ht hnext
      exact hturn t _ ht hnext
    · intro t r ht hdone
      exact hturn t _ ht hdone
  exact htakes.afterLoop exit

/-- The takers between two passes: those that traded, those that wait to be matched and those
that wait to be triggered. -/
structure TakersAre (P : Uuid → Prop) (c : CascadeState) : Prop where
  noEmpty : c.book.NoEmptyLevel
  queue : ∀ o ∈ c.workQueue, P o.id
  stops : ∀ o ∈ c.book.stopPool, P o.id
  fills : ∀ f, EngineEvent.fill f ∈ c.events → P f.takerOrderId

/-- The takers of a cascade are its order and the stops it triggers. -/
theorem CascadeStep.takersAre {c c' : CascadeState} (h : CascadeStep fuel c c')
    (hc : TakersAre P c) : TakersAre P c' := by
  -- a pass fills for the order at the front of the queue
  have hpass : ∀ {order rest r}, c.workQueue = order :: rest → PassTakes c.book order r →
      r.1.NoEmptyLevel ∧ (∀ o ∈ r.1.stopPool, P o.id) ∧ (∀ t ∈ r.2.2, P t.id) ∧
        ∀ f, EngineEvent.fill f ∈ c.events ++ r.2.1 → P f.takerOrderId := by
    intro order rest r hqueue hr
    refine ⟨hr.noEmpty, fun o ho => hc.stops o (Multiset.mem_of_le hr.stops ho), ?_, ?_⟩
    · intro t ht
      rcases hr.triggered t ht with ⟨o, ho, rfl⟩
      exact hc.stops o ho
    · intro f hf
      rcases List.mem_append.mp hf with hf | hf
      · exact hc.fills f hf
      · rw [hr.fills f hf]
        exact hc.queue order (mem_workQueue_head hqueue)
  cases h with
  | push hqueue hrun =>
    rcases hpass hqueue (runMatchingLoop_takes hc.noEmpty hrun) with
      ⟨hbook, hstops, htriggered, hfills⟩
    refine ⟨hbook, ?_, hstops, ?_⟩
    · intro o ho
      rcases List.mem_append.mp ho with ho | ho
      · exact htriggered o (List.mem_reverse.mp ho)
      · exact hc.queue o (mem_workQueue_tail hqueue ho)
    · intro f hf
      rcases List.mem_append.mp hf with hf | hf
      · exact hfills f hf
      · rcases List.mem_map.mp hf with ⟨t, _, heq⟩
        cases heq
  | cut hqueue hrun =>
    rcases hpass hqueue (runMatchingLoop_takes hc.noEmpty hrun) with ⟨hbook, hstops, _, hfills⟩
    exact ⟨hbook, fun o ho => hc.queue o (mem_workQueue_tail hqueue ho), hstops, hfills⟩

/-- A call of a post-only order brings no taker. -/
theorem matchOrder_postOnly_quiet {price : Decimal} {r : OrderBook × List EngineEvent}
    (hb : b.NoEmptyLevel) (hpre : b.preCheck taker = none) (htype : taker.orderType = .postOnly)
    (hprice : taker.price = some price) (hrun : b.matchOrder fuel taker = some r) :
    r.1.NoEmptyLevel ∧ r.1.stopPool ≤ b.stopPool ∧ ∀ f, EngineEvent.fill f ∉ r.2 := by
  have hmore := matchOrder_mono (Nat.le_add_right fuel 2) hrun
  have hactive : taker.orderType.isStop = false := by
    rw [htype]
    rfl
  by_cases hzero : taker.remaining = 0
  · rw [matchOrder_of_pass hpre hactive
      (runMatchingLoop_postOnly_zero hpre htype hprice hzero)] at hmore
    cases hmore
    have hwithin := within_maybeCancelOco b taker.id
    exact ⟨hwithin.noEmpty hb, hwithin.stops, fill_notMem_oco b taker.id⟩
  · rw [matchOrder_postOnly hpre htype hprice hzero] at hmore
    cases hmore
    exact ⟨noEmptyLevel_insertMaker hb taker, (stopPool_insertMaker b taker).le, by simp⟩

/-- No fill has a post-only order as taker. -/
theorem matchOrder_takers {r : OrderBook × List EngineEvent} (hb : b.NoEmptyLevel)
    (hstops : ∀ o ∈ b.stopPool, P o.id) (htaker : taker.orderType ≠ .postOnly → P taker.id)
    (hprice : taker.orderType = .postOnly → ∃ price, taker.price = some price)
    (hrun : b.matchOrder fuel taker = some r) :
    r.1.NoEmptyLevel ∧ (∀ o ∈ r.1.stopPool, P o.id) ∧
      ∀ f, EngineEvent.fill f ∈ r.2 → P f.takerOrderId := by
  cases matchOrder_cases hrun with
  | rejected => exact ⟨hb, hstops, fun f hf => by cases List.mem_singleton.mp hf⟩
  | stop _ hstop =>
    unfold registerStopOrder
    cases hins : b.stops.insert taker with
    | error => exact ⟨hb, hstops, fun f hf => by cases List.mem_singleton.mp hf⟩
    | ok stops =>
      refine ⟨hb, ?_, fun f hf => by cases List.mem_singleton.mp hf⟩
      intro o ho
      rcases List.mem_cons.mp ((StopRegistry.insert_orders hins).subset ho) with rfl | ho
      · refine htaker ?_
        intro htype
        rw [htype] at hstop
        cases hstop
      · exact hstops o ho
  | matched hpre _ hloop =>
    by_cases htype : taker.orderType = .postOnly
    · -- a post-only order trades nothing
      rcases hprice htype with ⟨price, hprice⟩
      rcases matchOrder_postOnly_quiet hb hpre htype hprice hrun with ⟨hbook, hle, hquiet⟩
      exact ⟨hbook, fun o ho => hstops o (Multiset.mem_of_le hle ho),
        fun f hf => absurd hf (hquiet f)⟩
    · have henter : TakersAre P (b.enterCascade taker) := by
        refine ⟨hb, ?_, hstops, fun f hf => absurd hf List.not_mem_nil⟩
        intro o ho
        rw [List.mem_singleton.mp ho]
        exact htaker htype
      refine loop_invariant (TakersAre P)
        (fun r => r.1.NoEmptyLevel ∧ (∀ o ∈ r.1.stopPool, P o.id) ∧
          ∀ f, EngineEvent.fill f ∈ r.2 → P f.takerOrderId) henter ?_ ?_ hloop
      · intro c c' hc hnext
        exact (cascadeTurn_next hnext).takersAre hc
      · intro c r hc hdone
        rw [(cascadeTurn_done hdone).2]
        exact ⟨hc.noEmpty, hc.stops, hc.fills⟩

end Takers

/-! ## Runs -/

/-- The id is that of an order that was submitted and is not post-only. -/
def SubmittedTaker (cmds : List BookCommand) (id : Uuid) : Prop :=
  ∃ o ∈ submitted cmds, o.id = id ∧ o.orderType ≠ .postOnly

theorem SubmittedTaker.append {cmds : List BookCommand} {id : Uuid} (h : SubmittedTaker cmds id)
    (cmds' : List BookCommand) : SubmittedTaker (cmds ++ cmds') id := by
  rcases h with ⟨o, ho, hid, htype⟩
  refine ⟨o, ?_, hid, htype⟩
  rw [submitted_append]
  exact List.mem_append_left _ ho

/-- A book behind the calls `past`, which returned the given events. -/
structure TakersKnown (past : List BookCommand) (events : List EngineEvent) (b : OrderBook) :
    Prop where
  noEmpty : b.NoEmptyLevel
  stops : ∀ o ∈ b.stopPool, SubmittedTaker past o.id
  fills : ∀ f, EngineEvent.fill f ∈ events → SubmittedTaker past f.takerOrderId

/-- After every command the takers are orders that were submitted and are not post-only. -/
theorem exec_takersKnown {past : List BookCommand} {events : List EngineEvent} {b : OrderBook}
    {cmd : BookCommand} {r : OrderBook × List EngineEvent} {fuel : ℕ}
    (h : TakersKnown past events b)
    (hcmd : ∀ order, cmd = .matchOrder order → order.orderType = .postOnly →
      ∃ price, order.price = some price) (hrun : b.exec fuel cmd = some r) :
    TakersKnown (past ++ [cmd]) (events ++ r.2) r.1 := by
  -- commands that fill nothing
  have hquiet : ∀ {b' : OrderBook} {new : List EngineEvent}, b'.NoEmptyLevel →
      b'.stopPool ≤ b.stopPool → (∀ f, EngineEvent.fill f ∉ new) →
      TakersKnown (past ++ [cmd]) (events ++ new) b' := by
    intro b' new hnoEmpty hle hnew
    refine ⟨hnoEmpty, fun o ho => (h.stops o (Multiset.mem_of_le hle ho)).append _, ?_⟩
    intro f hf
    rcases List.mem_append.mp hf with hf | hf
    · exact (h.fills f hf).append _
    · exact absurd hf (hnew f)
  cases cmd with
  | registerOco legA legB =>
    cases hrun
    exact hquiet h.noEmpty (le_refl _) fun f => List.not_mem_nil
  | matchOrder order =>
    have htaker : order.orderType ≠ .postOnly →
        SubmittedTaker (past ++ [.matchOrder order]) order.id := by
      intro htype
      refine ⟨order, ?_, rfl, htype⟩
      rw [submitted_append]
      exact List.mem_append_right _ List.mem_cons_self
    rcases matchOrder_takers h.noEmpty (fun o ho => (h.stops o ho).append _) htaker
      (hcmd order rfl) hrun with ⟨hnoEmpty, hstops, hfills⟩
    refine ⟨hnoEmpty, hstops, ?_⟩
    intro f hf
    rcases List.mem_append.mp hf with hf | hf
    · exact (h.fills f hf).append _
    · exact hfills f hf
  | cancelOrder id =>
    cases hrun
    have hwithin := within_cancelOrder b id
    exact hquiet (hwithin.noEmpty h.noEmpty) hwithin.stops (fill_notMem_cancelOrder b id)

/-- In every run the taker of a fill is an order that was submitted and is not post-only, and no
post-only order if the ids are distinct; and the call of a post-only order on the book that the
run reaches returns, with the order crossed or at rest. -/
theorem postOnly_never_takes {cmds : List BookCommand} {fuel : ℕ} {b : OrderBook}
    {events : List (List EngineEvent)}
    (hpriced : ∀ o ∈ submitted cmds, o.orderType = .postOnly → ∃ price, o.price = some price)
    (hrun : OrderBook.new.runEvents fuel cmds = some (b, events)) :
    (∀ f, EngineEvent.fill f ∈ events.flatten → SubmittedTaker cmds f.takerOrderId) ∧
    ((submittedIds cmds).Nodup → ∀ f, EngineEvent.fill f ∈ events.flatten →
      ∀ o ∈ submitted cmds, o.orderType = .postOnly → o.id ≠ f.takerOrderId) ∧
    ∀ order price, order.orderType = .postOnly → order.price = some price →
      order.remaining = order.quantity → order.quantity ≠ 0 →
      ∃ r, (∀ fuel ≥ 2, b.matchOrder fuel order = some r) ∧ PostOnlyOutcome b order price r := by
  have hknown := runEvents_invariant TakersKnown
    (fun _ cmd => ∀ order, cmd = .matchOrder order → order.orderType = .postOnly →
      ∃ price, order.price = some price)
    (fun past events b cmd r h hcmd hr => exec_takersKnown h hcmd hr) [] []
    ⟨noEmptyLevel_new, by simp, by simp⟩ ?_ hrun
  · refine ⟨hknown.fills, ?_, ?_⟩
    · intro hnodup f hf o ho htype hid
      rcases hknown.fills f hf with ⟨o', ho', hid', htype'⟩
      have hsame : o' = o := List.inj_on_of_nodup_map hnodup ho' ho (hid'.trans hid.symm)
      rw [hsame] at htype'
      exact htype' htype
    · intro order price htype hprice hfull hquantity
      exact postOnlyOutcome b htype hprice hfull hquantity
  · intro l cmd l' hsplit order hcmd
    refine hpriced order ?_
    rw [hsplit, hcmd, submitted_append]
    exact List.mem_append_right _ List.mem_cons_self

/-- A post-only bid of 5 at the price. -/
def postOnlyBid (id userId : Uuid) (price : Decimal) : Order :=
  { limitOrder id userId .buy price 5 with orderType := .postOnly }

/-- A post-only bid rests below an offer, and another taker trades with it. -/
theorem postOnly_bid_rests : ∃ b events, OrderBook.new.runEvents 5
      [.matchOrder (limitOrder 1 10 .sell 101 5), .matchOrder (postOnlyBid 2 11 100),
        .matchOrder (limitOrder 3 12 .sell 100 5)] = some (b, events) ∧
    ∀ f, EngineEvent.fill f ∈ events.flatten → (2 : Uuid) ≠ f.takerOrderId := by
  have hrun : (OrderBook.new.runEvents 5
      [.matchOrder (limitOrder 1 10 .sell 101 5), .matchOrder (postOnlyBid 2 11 100),
        .matchOrder (limitOrder 3 12 .sell 100 5)]).isSome = true := by decide +kernel
  rcases Option.isSome_iff_exists.mp hrun with ⟨⟨b, events⟩, hrun⟩
  refine ⟨b, events, hrun, ?_⟩
  have htakes := postOnly_never_takes ?_ hrun
  · intro f hf
    exact htakes.2.1 (by decide) f hf (postOnlyBid 2 11 100)
      (List.mem_cons_of_mem _ List.mem_cons_self) rfl
  · intro o ho htype
    simp only [submitted, List.mem_cons, List.not_mem_nil, or_false] at ho
    rcases ho with rfl | rfl | rfl
    · cases htype
    · exact ⟨100, rfl⟩
    · cases htype

end CryptoCex.Core
