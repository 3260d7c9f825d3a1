import CryptoCex.Core.Walk

/-!
# Orders killed by their own type

A fill-or-kill order that could not be filled and a post-only order that would
cross are cancelled with a reason of their own, and the server reads these two
reasons as a rejection. `matchOrder_kills` says when a call that got past the
pre-checks emits one: only for its own taker, only for a fill-or-kill order, and
only when it falls short of the book it was promised. A post-only order that
passed its pre-check meets no order at all (`matchTurn_postOnly`).
-/

namespace CryptoCex.Core

open Loop OrderBook

/-- The event cancels the order for a reason of its own type. -/
def EngineEvent.Kills (id : Uuid) (e : EngineEvent) : Prop :=
  e = .cancelled id .fokUnfilled ∨ e = .cancelled id .postOnlyCrossed

variable {b b' : OrderBook} {taker : Order} {fuel : ℕ} {s : MatchState} {x : Uuid}
  {events : List EngineEvent} {triggered : List Order}

theorem not_kills_fill (f : Fill) : ¬ (EngineEvent.fill f).Kills x := by
  simp [EngineEvent.Kills]

theorem not_kills_rested (id : Uuid) (r : Decimal) : ¬ (EngineEvent.rested id r).Kills x := by
  simp [EngineEvent.Kills]

theorem not_kills_stopTriggered (id : Uuid) : ¬ (EngineEvent.stopTriggered id).Kills x := by
  simp [EngineEvent.Kills]

theorem not_kills_stp (id : Uuid) :
    ¬ (EngineEvent.cancelled id .selfTradePrevented).Kills x := by
  simp [EngineEvent.Kills]

theorem not_kills_oco (id : Uuid) : ¬ (EngineEvent.cancelled id .oco).Kills x := by
  simp [EngineEvent.Kills]

/-- An OCO cancel is no kill. -/
theorem Pool.OcoCancel.not_kills {P : Pool} {id : Uuid} {r : Pool × List EngineEvent}
    (h : Pool.OcoCancel P id r) : ∀ e ∈ r.2, ¬ e.Kills x := by
  intro e he
  cases h with
  | unlinked => cases he
  | linked sibling _ hcancel =>
    cases hcancel with
    | absent => cases he
    | resting o others hid =>
      rw [List.mem_singleton.mp he]
      exact not_kills_oco sibling
    | stop o others hid =>
      rw [List.mem_singleton.mp he]
      exact not_kills_oco sibling

/-- No turn of the matching loop kills an order. -/
theorem Pass.Turn.not_kills {a : Pass} {t : Loop.Turn Pass (Pass × MatchExit)} (ht : a.Turn t)
    (h : ∀ e ∈ a.events, ¬ e.Kills x) : ∀ e ∈ (Pass.after t).events, ¬ e.Kills x := by
  have happend : ∀ {new : List EngineEvent}, (∀ e ∈ new, ¬ e.Kills x) →
      ∀ e ∈ a.events ++ new, ¬ e.Kills x := by
    intro new hnew e he
    rcases List.mem_append.mp he with he | he
    · exact h e he
    · exact hnew e he
  have hstp : ∀ id, ∀ e ∈ [EngineEvent.cancelled id .selfTradePrevented], ¬ e.Kills x := by
    intro id e he
    rw [List.mem_singleton.mp he]
    exact not_kills_stp id
  -- no turn cancels the taker as killed: it fills, or prevents self-trades
  cases ht with
  | exhausted => exact h
  | cancelTaker => exact happend (hstp _)
  | cancelMaker => exact happend (hstp _)
  | decrementTaker => exact happend (hstp _)
  | decrementMaker => exact happend (hstp _)
  | decrementBoth =>
    refine happend ?_
    intro e he
    rcases List.mem_cons.mp he with rfl | he
    · exact not_kills_stp _
    · exact hstp _ e he
  | fillPart =>
    refine happend ?_
    intro e he
    rw [List.mem_singleton.mp he]
    exact not_kills_fill _
  | fillWhole hm hother hwhole hoco =>
    rw [Pass.after, List.append_assoc]
    refine happend ?_
    intro e he
    rcases List.mem_append.mp he with he | he
    · rw [List.mem_singleton.mp he]
      exact not_kills_fill _
    · exact hoco.not_kills e he

/-- The end of a pass kills at most its taker. -/
theorem Pass.Finish.kills {a : Pass} {exit : MatchExit}
    {r : Pool × List EngineEvent × List Order} (h : a.Finish exit r)
    (hclean : ∀ e ∈ a.events, ¬ e.Kills x) {e : EngineEvent} (he : e ∈ r.2.1)
    (hkill : e.Kills x) :
    exit = .exhausted ∧ x = a.taker.id ∧ a.taker.remaining ≠ 0 ∧ (a.taker.orderType = .fok ∨
      (a.taker.orderType = .postOnly ∧ a.lastTradePrice ≠ none)) := by
  cases h with
  | consumed => exact absurd hkill (hclean e he)
  | @finalized P new hfinal hit others hdrain =>
    have he' : e ∈ new := by
      rcases List.mem_append.mp he with he | he
      · exact absurd hkill (hclean e he)
      · exact he
    generalize hq : (P, new) = q at hfinal
    cases hfinal with
    | filled _ hoco =>
      cases hq
      exact absurd hkill (hoco.not_kills e he')
    -- the cancel is the taker's own, and its reason says which of the two it is
    | cancelled hne reason hfok hpost hoco =>
      cases hq
      rcases List.mem_cons.mp he' with rfl | he'
      · rcases hkill with hkill | hkill
        · cases hkill
          exact ⟨rfl, rfl, hne, Or.inl (hfok.mp rfl)⟩
        · cases hkill
          exact ⟨rfl, rfl, hne, Or.inr (hpost rfl)⟩
      · exact absurd hkill (hoco.not_kills e he')
    | rested =>
      cases hq
      rw [List.mem_singleton.mp he'] at hkill
      exact absurd hkill (not_kills_rested _ _)

/-- A pass kills at most its taker, when the loop ended with something left of a
fill-or-kill order or of a post-only order that traded. -/
theorem runMatchingLoop_kills (h : Enters b taker)
    (hrun : b.runMatchingLoop fuel taker = some (b', events, triggered))
    {e : EngineEvent} (he : e ∈ events) (hkill : e.Kills x) :
    x = taker.id ∧ ∃ s, loop matchTurn fuel (b.enterLoop taker) = some (s, .exhausted) ∧
      s.taker.remaining ≠ 0 ∧ (taker.orderType = .fok ∨
        (taker.orderType = .postOnly ∧ s.lastTradePrice ≠ none)) := by
  rcases runMatchingLoop_eq_some hrun with ⟨s, exit, hloop, hafter⟩
  have hs := h.loop_sound hloop
  have hclean : ∀ e ∈ s.events, ¬ e.Kills x :=
    matchLoop_induct h (fun _ s => ∀ e ∈ s.events, ¬ e.Kills x)
      (fun _ s _ => ∀ e ∈ s.events, ¬ e.Kills x) (by simp [enterLoop])
      (fun _ t _ _ ht hinv hspec => (hspec.refines ht.book).not_kills hinv)
      (fun _ t _ _ _ ht hinv hspec _ => (hspec.refines ht.book).not_kills hinv) hloop
  have hfinish := (afterLoop_refines hs h.ready exit).2
  rw [← hafter] at hfinish
  rcases hfinish.kills hclean he hkill with ⟨rfl, hid, hne, htype⟩
  have hsame : s.taker = taker.withRemaining s.taker.remaining := hs.pass.same
  have htype' : s.toPass.taker.orderType = taker.orderType := by
    change s.taker.orderType = _
    rw [hsame]
    rfl
  rw [htype'] at htype
  exact ⟨hid.trans hs.pass.id_eq, s, hloop, hne, htype⟩

/-- A triggered stop is a limit or a market order. -/
theorem PassSound.triggered_type {r : OrderBook × List EngineEvent × List Order}
    (hb : b.Consistent) (hr : PassSound b taker r) :
    ∀ o ∈ r.2.2, o.orderType = .limit ∨ o.orderType = .market := by
  intro o ho
  rcases hr.hit with ⟨hit, heq, hle⟩
  rw [heq] at ho
  rcases List.mem_map.mp ho with ⟨stop, hstop, rfl⟩
  have hmem : stop ∈ b.stopPool :=
    Multiset.mem_of_le ((Multiset.le_add_right _ _).trans hle) hstop
  rcases StopRegistry.mem_orders.mp hmem with ⟨side, price, hq⟩
  have htype := (hb.filed side price stop hq).1
  cases hstoptype : stop.orderType <;> simp_all [convertStop, OrderType.isStop]

/-- A post-only order that passed its pre-check meets no resting order. -/
theorem matchTurn_postOnly (hpre : b.preCheck taker = none) (htype : taker.orderType = .postOnly)
    (hprice : ∃ p, taker.price = some p) :
    matchTurn (b.enterLoop taker) = some (.done (b.enterLoop taker, .exhausted)) := by
  rcases hprice with ⟨limit, hlimit⟩
  have hcross : b.wouldCrossPostOnly taker = false := by
    unfold preCheck at hpre
    rw [htype] at hpre
    dsimp only at hpre
    split_ifs at hpre with h
    exact Bool.eq_false_iff.mpr h
  -- the pre-check compares with the same price as the first turn
  have hno : ∀ price, b.bestOppositePrice taker.side = some price →
      takerPriceSatisfied taker price = false := by
    intro price hbest
    unfold wouldCrossPostOnly at hcross
    unfold takerPriceSatisfied
    rw [hlimit] at hcross ⊢
    cases hside : taker.side with
    | buy =>
      have hask : b.bestAsk = some price := by rwa [hside] at hbest
      simpa [hside, hask] using hcross
    | sell =>
      have hbid : b.bestBid = some price := by rwa [hside] at hbest
      simpa [hside, hbid] using hcross
  by_cases hpos : 0 < taker.remaining
  · cases hbest : b.bestOppositePrice taker.side with
    | none => simp only [matchTurn, enterLoop, if_pos hpos, hbest]
    | some price =>
      simp only [matchTurn, enterLoop, if_pos hpos, hbest, hno price hbest, Bool.false_eq_true,
        if_false]
  · exact if_neg hpos

/-- The first pass of a post-only order that passed its pre-check trades
nothing. -/
theorem loop_postOnly (hpre : b.preCheck taker = none) (htype : taker.orderType = .postOnly)
    (hprice : ∃ p, taker.price = some p) {exit : MatchExit}
    (hloop : loop matchTurn fuel (b.enterLoop taker) = some (s, exit)) :
    s = b.enterLoop taker := by
  cases fuel with
  | zero => cases hloop
  | succ fuel =>
    rw [loop_succ_done (matchTurn_postOnly hpre htype hprice)] at hloop
    cases hloop
    rfl

/-- A fill-or-kill order that passes the pre-check and does not get through the
book. -/
def KilledLate (b : OrderBook) (taker : Order) : Prop :=
  b.preCheck taker = none ∧ taker.orderType = .fok ∧ FallsShort b taker

/-- Triggered stops are never killed: they are limit or market orders. -/
theorem runMatchingLoop_not_kills (h : Enters b taker)
    (htype : taker.orderType = .limit ∨ taker.orderType = .market)
    (hrun : b.runMatchingLoop fuel taker = some (b', events, triggered)) :
    ∀ e ∈ events, ¬ e.Kills x := by
  intro e he hkill
  rcases runMatchingLoop_kills h hrun he hkill with ⟨_, s, _, _, htype'⟩
  rcases htype with h | h <;> rcases htype' with h' | ⟨h', _⟩ <;> simp_all

/-- A pass of an order that got past the pre-checks kills at most that order, if
it falls short. -/
theorem runMatchingLoop_kills_late (h : Enters b taker) (htaker : taker.Admissible)
    (hpre : b.preCheck taker = none)
    (hrun : b.runMatchingLoop fuel taker = some (b', events, triggered)) {e : EngineEvent}
    (he : e ∈ events) (hkill : e.Kills x) : x = taker.id ∧ KilledLate b taker := by
  rcases runMatchingLoop_kills h hrun he hkill with ⟨hid, s, hs, hne, htype⟩
  rcases htype with htype | ⟨htype, htraded⟩
  · exact ⟨hid, hpre, htype, fallsShort_of_loop h.loopSound hs hne⟩
  · have hprice := htaker.priced (by rw [htype]; rfl)
    rw [loop_postOnly hpre htype hprice hs] at htraded
    exact absurd rfl htraded

/-- After the first pass only triggered stops are matched. -/
structure Settling (x : Uuid) (late : Prop) (c : CascadeState) : Prop where
  queue : ∀ o ∈ c.workQueue, o.orderType = .limit ∨ o.orderType = .market
  events : ∀ e ∈ c.events, e.Kills x → late

/-- A pass for an order that cannot be killed kills nothing. -/
theorem CascadeStep.settling {c c' : CascadeState} {late : Prop} (h : CascadeStep fuel c c')
    (hc : CascadeSound c) (hset : Settling x late c) : Settling x late c' := by
  -- triggered stops are limit and market orders
  have hpass : ∀ {order rest book new hit}, c.workQueue = order :: rest →
      c.book.runMatchingLoop fuel order = some (book, new, hit) →
      (∀ o ∈ hit, o.orderType = .limit ∨ o.orderType = .market) ∧ ∀ e ∈ new, ¬ e.Kills x := by
    intro order rest book new hit hq hrun
    have henters := hc.enters hq
    exact ⟨(runMatchingLoop_sound henters hrun).triggered_type hc.book,
      runMatchingLoop_not_kills henters (hset.queue order (mem_workQueue_head hq)) hrun⟩
  cases h with
  | push hq hrun =>
    rcases hpass hq hrun with ⟨hhit, hnew⟩
    refine ⟨?_, ?_⟩
    · intro o ho
      rcases List.mem_append.mp ho with ho | ho
      · exact hhit o (List.mem_reverse.mp ho)
      · exact hset.queue o (mem_workQueue_tail hq ho)
    · intro e he hkill
      rcases List.mem_append.mp he with he | he
      · rcases List.mem_append.mp he with he | he
        · exact hset.events e he hkill
        · exact absurd hkill (hnew e he)
      · rcases List.mem_map.mp he with ⟨o, _, rfl⟩
        exact absurd hkill (not_kills_stopTriggered _)
  | cut hq hrun =>
    rcases hpass hq hrun with ⟨_, hnew⟩
    refine ⟨fun o ho => hset.queue o (mem_workQueue_tail hq ho), ?_⟩
    intro e he hkill
    rcases List.mem_append.mp he with he | he
    · exact hset.events e he hkill
    · exact absurd hkill (hnew e he)

/-- A call that got past the pre-checks kills at most its own taker. -/
theorem matchOrder_kills (hb : b.Sound) (htaker : taker.Admissible)
    (hfresh : ∀ o ∈ b.pool, o.id ≠ taker.id) (hpre : b.preCheck taker = none)
    (hcall : b.matchOrder fuel taker = some (b', events)) {e : EngineEvent} (he : e ∈ events)
    (hkill : e.Kills x) : x = taker.id ∧ KilledLate b taker := by
  have hspec := matchOrder_spec htaker hcall
  generalize hr : (b', events) = r at hspec
  cases hspec with
  | rejected reject hpre' =>
    rw [hpre] at hpre'
    cases hpre'
  | registered =>
    cases hr
    rw [List.mem_singleton.mp he] at hkill
    exact absurd hkill (not_kills_rested _ _)
  | matched _ hactive hloop =>
    have hready : taker.Ready := ⟨htaker.positive, hactive, htaker.priced⟩
    have henters : Enters b taker := ⟨hb.book, hready, hfresh⟩
    have hc₀ := cascadeSound_enter hb hready hfresh
    rcases cascade_first hloop with
      ⟨c₁, n, book, new, hit, hrun, hstep, hrest, _, hevents, hqueue⟩
    -- the first pass is the order's own; those behind it are of triggered stops, which cannot be
    -- killed
    have hset : Settling x (x = taker.id ∧ KilledLate b taker) c₁ := by
      refine ⟨?_, ?_⟩
      · intro o ho
        rw [hqueue] at ho
        exact (runMatchingLoop_sound henters hrun).triggered_type hb.book o
          (List.mem_reverse.mp ho)
      · intro e he hkill
        rw [hevents] at he
        rcases List.mem_append.mp he with he | he
        · exact runMatchingLoop_kills_late henters htaker hpre hrun he hkill
        · rcases List.mem_map.mp he with ⟨o, _, rfl⟩
          exact absurd hkill (not_kills_stopTriggered _)
    rcases cascade_induct (hstep.sound hc₀) (Settling x _) hset
      (fun c c' _ hc hset h => h.settling hc hset) hrest with ⟨c, _, _, heq, _, hset'⟩
    cases hr.trans heq
    exact hset'.events e he hkill

/-! ## Orders killed after the fact -/

theorem coversTaker_head {beyond : Decimal → Bool} {available : Decimal}
    {entries : List (Decimal × List Order)}
    (h : coversTaker taker beyond available entries = true) :
    ∃ price queue rest, entries = (price, queue) :: rest ∧ beyond price = false := by
  cases entries with
  | nil => cases h
  | cons e rest =>
    rcases e with ⟨price, queue⟩
    unfold coversTaker at h
    split_ifs at h with hbeyond
    exact ⟨price, queue, rest, rfl, Bool.eq_false_iff.mpr hbeyond⟩

/-- An order that could be filled meets a resting order. -/
theorem meets_of_canFullyFill (hb : b.NoEmptyLevel) (hpos : 0 < taker.remaining)
    (h : b.canFullyFill taker = true) :
    ∃ price m rest, Meets (b.enterLoop taker) price m rest := by
  have hbest : ∃ price, b.bestOppositePrice taker.side = some price ∧
      takerPriceSatisfied taker price = true := by
    unfold canFullyFill at h
    cases hside : taker.side with
    -- the asks are walked from the lowest price
    | buy =>
      rw [hside] at h
      rcases coversTaker_head h with ⟨price, queue, rest, hentries, hbeyond⟩
      refine ⟨price, ?_, ?_⟩
      · simp only [bestOppositePrice, OrdMap.minKey?, OrdMap.keys, hentries, List.map_cons,
          List.head?_cons]
      · unfold takerPriceSatisfied
        cases hlimit : taker.price with
        | none => rfl
        | some limit => simpa [hside, hlimit] using hbeyond
    -- the bids are walked from the end
    | sell =>
      rw [hside] at h
      rcases coversTaker_head h with ⟨price, queue, rest, hentries, hbeyond⟩
      refine ⟨price, ?_, ?_⟩
      · have hlast : b.bids.entries = rest.reverse ++ [(price, queue)] := by
          rw [← List.reverse_reverse b.bids.entries, hentries, List.reverse_cons]
        simp [bestOppositePrice, OrdMap.maxKey?, OrdMap.keys, hlast]
      · unfold takerPriceSatisfied
        cases hlimit : taker.price with
        | none => rfl
        | some limit => simpa [hside, hlimit] using hbeyond
  rcases hbest with ⟨price, hbest, hok⟩
  rcases bestOppositePrice_level hb hbest with ⟨m, rest, hlevel⟩
  exact ⟨price, m, rest, hpos, hbest, hok, hlevel⟩

/-- A loop that ended with something left of the taker has used up the first
order it met. -/
theorem loop_exhausted_gone (h : Enters b taker) {price : Decimal} {m : Order}
    {rest : List Order} (hm : Meets (b.enterLoop taker) price m rest)
    (hloop : loop matchTurn fuel (b.enterLoop taker) = some (s, .exhausted))
    (hne : s.taker.remaining ≠ 0) : m.id ∉ s.book.toPool.ids := by
  have hs := h.loop_sound hloop
  have hend : (MatchExit.exhausted = .exhausted → s.toPass.Exhausted) ∧
      s.toPass.Framed b.toPool taker ∧ s.book.stopPool ≤ b.stopPool := by
    refine matchLoop_induct h
      (fun _ s => s.toPass.Framed b.toPool taker ∧ s.book.stopPool ≤ b.stopPool)
      (fun _ s exit => (exit = .exhausted → s.toPass.Exhausted) ∧
        s.toPass.Framed b.toPool taker ∧ s.book.stopPool ≤ b.stopPool)
      ⟨framed_enterLoop b taker, le_refl _⟩ ?_ ?_ hloop
    · rintro past s s' _ ht ⟨hframed, hstops⟩ hspec
      have hturn := hspec.refines ht.book
      exact ⟨hturn.framed ht.pass hframed, hturn.stops_le.trans hstops⟩
    · rintro past s s' exit _ ht ⟨hframed, hstops⟩ hspec _
      have hturn := hspec.refines ht.book
      refine ⟨?_, hturn.framed ht.pass hframed, hturn.stops_le.trans hstops⟩
      rintro rfl
      cases hspec with
      | exhausted hex => exact exhausted_toPass ht.book hex
  have hfront := h.book.front hm.level
  have hrest : m ∈ b.restingPool := hfront.1
  have hpos : ¬ s.taker.remaining ≤ 0 :=
    not_le.mpr (lt_of_le_of_ne hs.pass.remaining (Ne.symm hne))
  intro hmem
  rcases Multiset.mem_map.mp hmem with ⟨o, ho, hid⟩
  rcases Multiset.mem_add.mp ho with ho | ho
  · -- it would be the same order at the same price, still acceptable
    rcases hend.2.1.origin o ho with ⟨m₀, hm₀, heq⟩
    have hsame : m₀ = m := by
      refine Multiset.inj_on_of_nodup_map h.book.unique m₀ (mem_pool.mpr (Or.inl hm₀)) m
        (mem_pool.mpr (Or.inl hrest)) ?_
      rw [← hid, heq]
      rfl
    rw [hsame] at heq
    have htaker : s.taker = taker.withRemaining s.taker.remaining := hs.pass.same
    have hbad := (hend.1 rfl).resolve_left hpos o ho ?_ price ?_
    · have hok := hm.acceptable
      change takerPriceSatisfied s.taker price = false at hbad
      rw [htaker] at hbad
      have hgood : takerPriceSatisfied (taker.withRemaining s.taker.remaining) price = true := hok
      rw [hbad] at hgood
      cases hgood
    · change o.side = s.taker.side.opposite
      rw [heq, htaker]
      exact hfront.2.1
    · rw [heq]
      exact hfront.2.2.1
  · have hunique := h.book.unique
    rw [pool, Multiset.map_add, Multiset.nodup_add] at hunique
    refine Multiset.disjoint_left.mp hunique.2.2 (Multiset.mem_map_of_mem _ hrest) ?_
    rw [← hid]
    exact Multiset.mem_map_of_mem _ (Multiset.mem_of_le hend.2.2 ho)

theorem KilledLate.canFullyFill (h : KilledLate b taker) : b.canFullyFill taker = true := by
  have hpre := h.1
  unfold preCheck at hpre
  rw [h.2.1] at hpre
  dsimp only at hpre
  split_ifs at hpre with hcan
  exact hcan

/-- The pass that kills an order after the fact has used up an order of the other
side and announces the kill. -/
theorem KilledLate.pass (hkilled : KilledLate b taker) (h : Enters b taker)
    (hrun : b.runMatchingLoop fuel taker = some (b', events, triggered)) :
    (∃ m ∈ b.resting taker.side.opposite,
      m.id ∉ ↑(triggered.map (·.id)) + b'.toPool.ids) ∧
      EngineEvent.cancelled taker.id .fokUnfilled ∈ events := by
  rcases runMatchingLoop_eq_some hrun with ⟨s, exit, hloop, hend⟩
  rcases hkilled.2.2.loop rfl rfl h.loopSound hloop with ⟨rfl, hne⟩
  have hs := h.loop_sound hloop
  have hid : s.taker.id = taker.id := hs.pass.id_eq
  rcases meets_of_canFullyFill h.book.noEmpty h.ready.positive hkilled.canFullyFill with
    ⟨price, m, rest, hm⟩
  -- the order that was met first is gone when the loop is exhausted
  have hgone := loop_exhausted_gone h hm hloop hne
  have hlevel : (b.levels taker.side.opposite).find? price = some (m :: rest) := hm.level
  have hmine : m ∈ b.resting taker.side.opposite :=
    mem_resting.mpr ⟨price, by rw [queue_eq_of_find? hlevel]; exact List.mem_cons_self⟩
  have hmid : m.id ≠ taker.id :=
    h.fresh m (mem_pool.mpr (Or.inl (h.book.front hm.level).1))
  have hplaces := (afterLoop_refines hs h.ready .exhausted).2.places.2
  rw [← hend] at hplaces
  refine ⟨⟨m, hmine, ?_⟩, ?_⟩
  · intro hmem
    have hmem' := Multiset.mem_of_le hplaces hmem
    rw [show s.toPass.taker.id = taker.id from hid] at hmem'
    rcases Multiset.mem_cons.mp hmem' with h | h
    · exact hmid h
    · exact hgone h
  · -- what is left is cancelled as unfilled
    have hkind : s.taker.orderType = .fok := by
      rw [hs.taker_eq]
      exact hkilled.2.1
    have hfinal : s.book.finalizeTaker s.taker s.hadFills =
        (s.book, [.cancelled s.taker.id .fokUnfilled]) := by
      simp only [finalizeTaker, hkind, beq_iff_eq, if_neg hne]
    have hevents : events = (afterLoop s .exhausted).2.1 := congrArg (·.2.1) hend
    rw [hevents]
    simp only [afterLoop, hfinal, hid]
    exact List.mem_append_left _ (List.mem_append_right _ List.mem_cons_self)

theorem KilledLate.active (h : KilledLate b taker) : taker.orderType.isStop = false := by
  rw [h.2.1]
  rfl

/-- The call that kills an order after the fact has taken a resting order off the
book. -/
theorem KilledLate.changes (hkilled : KilledLate b taker) (hb : b.Sound)
    (htaker : taker.Admissible) (hfresh : ∀ o ∈ b.pool, o.id ≠ taker.id)
    (hcall : b.matchOrder fuel taker = some (b', events)) :
    (∃ m ∈ b.resting taker.side.opposite, m.id ∉ b'.toPool.ids) ∧
      EngineEvent.cancelled taker.id .fokUnfilled ∈ events := by
  have hready : taker.Ready := ⟨htaker.positive, hkilled.active, htaker.priced⟩
  have henters : Enters b taker := ⟨hb.book, hready, hfresh⟩
  have hspec := matchOrder_spec htaker hcall
  generalize hr : (b', events) = r at hspec
  cases hspec with
  | rejected reject hpre' =>
    rw [hkilled.1] at hpre'
    cases hpre'
  | registered _ _ hstop =>
    rw [hkilled.active] at hstop
    cases hstop
  | matched _ _ hcascade =>
    have hc₀ := cascadeSound_enter hb hready hfresh
    rcases cascade_first hcascade with
      ⟨c₁, n, book, new, hit, hrun, hstep, hrest, hbook, hevents, hqueue⟩
    -- the pass has used up an order, and no later pass brings it back
    rcases hkilled.pass henters hrun with ⟨⟨m, hmine, hout⟩, hkill⟩
    have hqueue' : m.id ∉ c₁.workQueue.map (·.id) := by
      rw [hqueue, List.map_reverse, List.mem_reverse]
      exact fun hmem => hout (Multiset.mem_add.mpr (Or.inl hmem))
    have hpool : m.id ∉ c₁.book.toPool.ids := by
      rw [hbook]
      exact fun hmem => hout (Multiset.mem_add.mpr (Or.inr hmem))
    rcases cascade_unnamed (hstep.sound hc₀) hqueue' hpool hrest with ⟨hgone, later, hlater, _⟩
    rw [← hr] at hgone hlater
    refine ⟨⟨m, hmine, hgone⟩, ?_⟩
    change events = c₁.events ++ later at hlater
    rw [hlater, hevents]
    exact List.mem_append_left _ (List.mem_append_left _ hkill)

end CryptoCex.Core
