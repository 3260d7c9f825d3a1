import CryptoCex.Core.FillOrKill

/-!
# What a pass makes of its taker

The walk of a taker through the book (`CryptoCex.Core.Walk`) ends in one of three
ways. The taker is used up (`UsedUp`), by trades alone when it is `Fillable` and
partly by its own orders otherwise; it falls short and what is left of it rests or
is cancelled; or self-trade prevention cancels it. `Trades` lists the quantities a
taker trades on a walk that falls short.

`ended_of_pass` states what the events of a pass tell of these ends, and what of
the taker is then in the book. `Vanishes` are the walks that leave no trace of the
taker: it neither trades nor rests (`Vanishes.pass`).
-/

namespace CryptoCex.Core

open Loop OrderBook

/-- The walk uses the taker up, whether by trades or by orders of its own. -/
inductive UsedUp : OrderBook → Order → Prop where
  | done {b : OrderBook} {taker : Order} (h : taker.remaining = 0) : UsedUp b taker
  | gives {b b' : OrderBook} {taker taker' : Order} (h : Gives b taker b' taker')
      (hrest : UsedUp b' taker') : UsedUp b taker
  | wears {b b' : OrderBook} {taker taker' : Order} (h : Wears b taker b' taker')
      (hrest : UsedUp b' taker') : UsedUp b taker

/-- The quantities the taker trades, in order, on a walk that falls short. -/
inductive Trades : OrderBook → Order → List Decimal → Prop where
  | dry {b : OrderBook} {taker : Order} (hpos : 0 < taker.remaining)
      (hno : ∀ price, b.bestOppositePrice taker.side = some price →
        takerPriceSatisfied taker price = false) : Trades b taker []
  | trade {b : OrderBook} {taker m : Order} {price : Decimal} {rest : List Order}
      {qs : List Decimal} (hm : Meets (b.enterLoop taker) price m rest)
      (hother : taker.userId ≠ m.userId)
      (hrest : Trades (b.afterTrade taker m price rest)
        (taker.withRemaining (taker.remaining - (fillOf taker m price).quantity)) qs) :
      Trades b taker ((fillOf taker m price).quantity :: qs)
  | skip {b : OrderBook} {taker m : Order} {price : Decimal} {rest : List Order}
      {qs : List Decimal} (hm : Meets (b.enterLoop taker) price m rest)
      (hown : taker.userId = m.userId) (hmode : taker.stpMode = .cancelMaker)
      (hrest : Trades (b.dropFront taker.side.opposite price m rest) taker qs) :
      Trades b taker qs
  | wears {b b' : OrderBook} {taker taker' : Order} {qs : List Decimal}
      (h : Wears b taker b' taker') (hrest : Trades b' taker' qs) : Trades b taker qs

/-- An order that falls short trades a list of quantities, if not all of its own. -/
theorem FallsShort.trades {b : OrderBook} {taker : Order} (h : FallsShort b taker) :
    ∃ qs, Trades b taker qs := by
  induction h with
  | dry hpos hno => exact ⟨[], .dry hpos hno⟩
  | gives hgives _ ih =>
    rcases ih with ⟨qs, hqs⟩
    cases hgives with
    | trade hm hother => exact ⟨_, .trade hm hother hqs⟩
    | skip hm hown hmode => exact ⟨qs, .skip hm hown hmode hqs⟩
  | wears hwears _ ih =>
    rcases ih with ⟨qs, hqs⟩
    exact ⟨qs, .wears hwears hqs⟩

/-- The quantities of the fills among the events. -/
def traded (events : List EngineEvent) : List Decimal :=
  events.filterMap fun e => match e with
    | .fill f => some f.quantity
    | _ => none

@[simp] theorem traded_append (events events' : List EngineEvent) :
    traded (events ++ events') = traded events ++ traded events' :=
  List.filterMap_append

theorem traded_eq_nil {events : List EngineEvent} (h : ∀ f, EngineEvent.fill f ∉ events) :
    traded events = [] := by
  refine List.filterMap_eq_nil_iff.mpr ?_
  intro e he
  cases e with
  | fill f => exact absurd he (h f)
  | rested | cancelled | stopTriggered => rfl

theorem fill_notMem_of_untraded {events : List EngineEvent} (h : traded events = []) (f : Fill) :
    EngineEvent.fill f ∉ events := by
  intro hf
  cases List.filterMap_eq_nil_iff.mp h _ hf

/-- If all fills are of one order, its fills sum to what is traded. -/
theorem fillSum_eq_traded {events : List EngineEvent} {p : Fill → Bool}
    (h : ∀ f, EngineEvent.fill f ∈ events → p f = true) :
    fillSum p events = (traded events).sum := by
  induction events with
  | nil => rfl
  | cons e events ih =>
    rw [← List.singleton_append, fillSum_append, traded_append, List.sum_append,
      ih fun f hf => h f (List.mem_cons_of_mem _ hf)]
    cases e with
    | fill f => simp [traded, h f List.mem_cons_self]
    | rested | cancelled | stopTriggered => rfl

variable {b b' : OrderBook} {taker taker' m : Order} {fuel : ℕ} {s s' : MatchState}
  {price : Decimal} {rest : List Order} {exit : MatchExit} {events : List EngineEvent}
  {triggered : List Order}

/-! ## The loop is the walk -/

/-- The turn of a trade tells the traded quantity, any other turn tells none. -/
theorem TurnSpec.traded_next (h : TurnSpec s (.next s')) :
    (∃ price m rest, Meets s price m rest ∧ s.taker.userId ≠ m.userId ∧
      traded s'.events = traded s.events ++ [(fillOf s.taker m price).quantity] ∧
      s'.lastTradePrice = some price) ∨
    ((∀ price m rest, Meets s price m rest → s.taker.userId = m.userId) ∧
      traded s'.events = traded s.events ∧ s'.lastTradePrice = s.lastTradePrice) := by
  have hown : ∀ {price m rest}, Meets s price m rest → s.taker.userId = m.userId →
      ∀ price' m' rest', Meets s price' m' rest' → s.taker.userId = m'.userId := by
    intro price m rest hm hown price' m' rest' hm'
    rcases hm.unique hm' with ⟨_, rfl, _⟩
    exact hown
  cases h with
  | cancelMaker hm hsame => exact .inr ⟨hown hm hsame, by simp [traded], rfl⟩
  | decrementMaker hm hsame => exact .inr ⟨hown hm hsame, by simp [traded], rfl⟩
  | fillPart hm hother => exact .inl ⟨_, _, _, hm, hother, by simp [traded], rfl⟩
  | fillWhole hm hother =>
    refine .inl ⟨_, _, _, hm, hother, ?_, rfl⟩
    rw [traded_append, traded_append, traded_eq_nil (fill_notMem_oco _ _), List.append_nil]
    rfl

/-- The loop of a taker that its walk uses up leaves nothing of it. -/
theorem UsedUp.loop {walker : Order} (h : UsedUp b walker) (hbook : s.book = b)
    (hwalker : s.taker = walker) (hs : LoopSound taker s)
    (hloop : loop matchTurn fuel s = some (s', exit)) :
    exit = .exhausted ∧ s'.taker.remaining = 0 := by
  induction h generalizing s fuel with
  | done hzero =>
    subst hbook hwalker
    have hend := loop_leaves hs hloop fun _ h => h.of_unmet fun _ _ _ hm =>
      absurd hm.pos (by rw [hzero]; exact lt_irrefl 0)
    cases hend
    exact ⟨rfl, hzero⟩
  | gives hgives _ ih =>
    subst hbook hwalker
    rcases loop_goes_on hs hloop fun _ => hgives.turn with
      ⟨n, u, _, hu, hbook, hwalker, hrest⟩
    exact ih hbook hwalker hu hrest
  | wears hwears _ ih =>
    subst hbook hwalker
    rcases loop_goes_on hs hloop fun _ => hwears.turn with
      ⟨n, u, _, hu, hbook, hwalker, hrest⟩
    exact ih hbook hwalker hu hrest

/-- A loop that leaves nothing of the taker has used it up. -/
theorem usedUp_of_loop (hs : LoopSound taker s)
    (hloop : loop matchTurn fuel s = some (s', .exhausted)) (hzero : s'.taker.remaining = 0) :
    UsedUp s.book s.taker := by
  refine loop_backward (fun u => UsedUp u.book u.taker) hs hloop ?_ ?_
  · intro u _ hspec
    cases hspec with
    | exhausted => exact .done hzero
  · intro n u v hu hspec _ _ hrest
    rcases hspec.walks hu with ⟨hgives, _⟩ | ⟨hwears, _⟩
    · exact .gives hgives hrest
    · exact .wears hwears hrest

/-- The loop of a taker that falls short tells the trades of its walk. -/
theorem Trades.loop {walker : Order} {qs : List Decimal} (h : Trades b walker qs)
    (hbook : s.book = b) (hwalker : s.taker = walker) (hs : LoopSound taker s)
    (hloop : loop matchTurn fuel s = some (s', exit)) :
    exit = .exhausted ∧ s'.taker.remaining ≠ 0 ∧ traded s'.events = traded s.events ++ qs := by
  induction h generalizing s fuel with
  -- the loop ends at once, as nothing acceptable rests
  | dry hpos hno =>
    subst hbook hwalker
    have hend := loop_leaves hs hloop fun _ h => h.of_unmet fun _ _ _ hm =>
      absurd (Or.inr hno) hm.not_exhausted
    cases hend
    exact ⟨rfl, hpos.ne', (List.append_nil _).symm⟩
  -- a fill adds its quantity in front
  | trade hm hother _ ih =>
    subst hbook hwalker
    have hmeets := meets_enterLoop.mp hm
    rcases loop_goes_on hs hloop fun _ h => h.of_trade hmeets hother with
      ⟨n, u, hspec, hu, hbook, hwalker, hrest⟩
    rcases ih hbook hwalker hu hrest with ⟨hexit, hne, htraded⟩
    refine ⟨hexit, hne, ?_⟩
    rcases hspec.traded_next with ⟨_, _, _, hm', _, hnew, _⟩ | ⟨hsame, _⟩
    · rcases hmeets.unique hm' with ⟨rfl, rfl, rfl⟩
      rw [htraded, hnew, List.append_assoc]
      rfl
    · exact absurd (hsame _ _ _ hmeets) hother
  -- an own order is skipped and trades nothing
  | skip hm hown hmode _ ih =>
    subst hbook hwalker
    have hmeets := meets_enterLoop.mp hm
    rcases loop_goes_on hs hloop fun _ h => (h.of_own hmeets hown).1 hmode with
      ⟨n, u, hspec, hu, hbook, hwalker, hrest⟩
    rcases ih hbook hwalker hu hrest with ⟨hexit, hne, htraded⟩
    refine ⟨hexit, hne, ?_⟩
    rcases hspec.traded_next with ⟨_, _, _, hm', hother, _⟩ | ⟨_, hnew, _⟩
    · rcases hmeets.unique hm' with ⟨rfl, rfl, rfl⟩
      exact absurd hown hother
    · rw [htraded, hnew]
  -- a decrement wears the walker down and trades nothing
  | wears hwears _ ih =>
    subst hbook hwalker
    rcases loop_goes_on hs hloop fun _ => hwears.turn with
      ⟨n, u, hspec, hu, hbook, hwalker, hrest⟩
    rcases ih hbook hwalker hu hrest with ⟨hexit, hne, htraded⟩
    refine ⟨hexit, hne, ?_⟩
    rcases hspec.traded_next with ⟨_, _, _, hm', hother, _⟩ | ⟨_, hnew, _⟩
    · cases hwears with
      | decrement hm hown =>
        rcases (meets_enterLoop.mp hm).unique hm' with ⟨rfl, rfl, rfl⟩
        exact absurd hown hother
    · rw [htraded, hnew]

/-! ## The end of a pass -/

/-- Nothing rests while the loop runs. -/
theorem loop_unrested (h : Enters b taker)
    (hloop : loop matchTurn fuel (b.enterLoop taker) = some (s, exit)) :
    ∀ x left, EngineEvent.rested x left ∉ s.events := by
  refine matchLoop_induct h (fun _ s => ∀ x left, EngineEvent.rested x left ∉ s.events)
    (fun _ s _ => ∀ x left, EngineEvent.rested x left ∉ s.events) ?_ ?_ ?_ hloop
  · intro x left hmem
    cases hmem
  · intro _ t t' _ ht hinv hspec x left hmem
    exact hinv x left ((hspec.refines ht.book).rested hmem)
  · intro _ t t' exit _ ht hinv hspec _ x left hmem
    exact hinv x left ((hspec.refines ht.book).rested hmem)

/-- A loop that runs out of orders or of the taker has not cancelled the taker. -/
theorem loop_exhausted_spared (h : Enters b taker)
    (hloop : loop matchTurn fuel (b.enterLoop taker) = some (s, .exhausted))
    (reason : CancelReason) : EngineEvent.cancelled taker.id reason ∉ s.events := by
  refine matchLoop_induct h (fun _ s => EngineEvent.cancelled taker.id reason ∉ s.events)
    (fun _ s exit => exit = .exhausted → EngineEvent.cancelled taker.id reason ∉ s.events)
    ?_ ?_ ?_ hloop rfl
  · intro hmem
    cases hmem
  · intro _ t t' _ ht hinv hspec hmem
    exact hinv ((hspec.refines ht.book).spares_taker ht.pass hmem)
  · intro _ t t' exit _ _ hinv hspec _ hexit
    subst hexit
    cases hspec with
    | exhausted => exact hinv

/-- A loop without a trade knows no last price. -/
theorem loop_untraded (h : Enters b taker)
    (hloop : loop matchTurn fuel (b.enterLoop taker) = some (s, exit))
    (hnone : traded s.events = []) : s.lastTradePrice = none := by
  refine matchLoop_induct h (fun _ s => traded s.events = [] → s.lastTradePrice = none)
    (fun _ s _ => traded s.events = [] → s.lastTradePrice = none) (fun _ => rfl) ?_ ?_ hloop hnone
  · intro _ t t' _ _ hinv hspec hnone
    rcases hspec.traded_next with ⟨_, _, _, _, _, hnew, _⟩ | ⟨_, hnew, hprice⟩
    · rw [hnew] at hnone
      exact absurd hnone (by simp)
    · rw [hprice]
      exact hinv (hnew ▸ hnone)
  · intro _ t t' exit _ _ hinv hspec _ hnone
    cases hspec with
    | exhausted => exact hinv hnone
    | cancelTaker | decrementTaker | decrementBoth =>
      refine hinv ?_
      rw [traded_append, List.append_eq_nil_iff] at hnone
      exact hnone.1

/-- A loop that self-trade prevention ends has not filled the taker. -/
theorem loop_consumed_short (h : Enters b taker)
    (hloop : loop matchTurn fuel (b.enterLoop taker) = some (s, .takerConsumed)) :
    fillSum (·.takerOrderId = taker.id) s.events < taker.remaining := by
  have hstart : (b.enterLoop taker).due taker.id = taker.remaining := by
    simp [MatchState.due, enterLoop]
  refine matchLoop_induct h (fun _ s => s.due taker.id ≤ taker.remaining)
    (fun _ s exit => exit = .takerConsumed →
      fillSum (·.takerOrderId = taker.id) s.events < taker.remaining) hstart.le ?_ ?_ hloop rfl
  · intro _ t t' _ ht hinv hspec
    rcases hspec.walks ht with ⟨_, heq⟩ | ⟨_, hlt⟩
    · exact heq.le.trans hinv
    · exact hlt.le.trans hinv
  · intro _ t t' exit _ _ hinv hspec _ hexit
    subst hexit
    -- the last turn came with something left of the taker, and trades nothing
    unfold MatchState.due at hinv
    cases hspec with
    | cancelTaker hm | decrementTaker hm | decrementBoth hm =>
      have hpos := hm.pos
      simp only [fillSum_append, fillSum_cancelled, fillSum_nil, add_zero]
      lia

/-- At the end of a pass the taker rests, as the last event says, or it is nowhere. -/
theorem Pass.Finish.taker_end {a : Pass} {r : Pool × List EngineEvent × List Order}
    (h : a.Finish exit r) (hs : a.Sound taker) :
    ∃ new, r.2.1 = a.events ++ new ∧
      ((taker.id ∉ ↑(r.2.2.map (·.id)) + r.1.ids ∧ (∀ x left, EngineEvent.rested x left ∉ new) ∧
          (exit = .exhausted → a.taker.remaining ≠ 0 →
            ∃ reason, EngineEvent.cancelled a.taker.id reason ∈ new)) ∨
        (exit = .exhausted ∧ a.taker.remaining ≠ 0 ∧ a.taker.orderType.canRest = true ∧
          new = [.rested a.taker.id a.taker.remaining] ∧ a.taker ∈ r.1.resting)) := by
  have hnowhere : ∀ {P : Pool}, P.ids ≤ a.pool.ids → taker.id ∉ P.ids := by
    intro P hle hmem
    exact hs.taker_notMem (Multiset.mem_of_le hle hmem)
  cases h with
  -- the taker was used up or stopped in the loop
  | consumed hdrain =>
    refine ⟨[], (List.append_nil _).symm, .inl ⟨?_, by simp, ?_⟩⟩
    · rw [map_id_convertStop, ← hdrain.ids_eq]
      exact hs.taker_notMem
    · intro hexit
      cases hexit
  | finalized hfinal hdrain =>
    refine ⟨_, rfl, ?_⟩
    rw [map_id_convertStop, ← hdrain.ids_eq]
    cases hfinal with
    | filled hzero hoco =>
      exact .inl ⟨hnowhere hoco.ids_le, fun _ _ => hoco.no_rested, fun _ hne => absurd hzero hne⟩
    -- what is left of it is cancelled
    | cancelled _ reason _ _ hoco =>
      refine .inl ⟨hnowhere hoco.ids_le, ?_, fun _ _ => ⟨reason, List.mem_cons_self⟩⟩
      intro x left hmem
      rcases List.mem_cons.mp hmem with hmem | hmem
      · cases hmem
      · exact hoco.no_rested hmem
    | rested hne hcan => exact .inr ⟨rfl, hne, hcan, rfl, Multiset.mem_cons_self _ _⟩

/-- An order of a resting type rests unless it is a post-only order that traded. -/
theorem finalizeTaker_canRest (b : OrderBook) (hadFills : Bool) (hne : taker.remaining ≠ 0)
    (hactive : taker.orderType.isStop = false) (hcan : taker.orderType.canRest = true) :
    (b.finalizeTaker taker hadFills).2 = [.rested taker.id taker.remaining] ∨
      (b.finalizeTaker taker hadFills).2 = [.cancelled taker.id .postOnlyCrossed] := by
  unfold finalizeTaker
  rw [if_neg (fun h => hne (beq_iff_eq.mp h))]
  cases htype : taker.orderType <;> rw [htype] at hcan hactive
  case postOnly =>
    cases hadFills with
    | true => exact .inr rfl
    | false => exact .inl rfl
  case limit => exact .inl rfl
  case oco => exact .inl rfl
  case iceberg => exact .inl rfl
  case stopLimit => cases hactive
  all_goals cases hcan

theorem mem_afterLoop_of_finalize {e : EngineEvent}
    (h : e ∈ (s.book.finalizeTaker s.taker s.hadFills).2) :
    e ∈ (afterLoop s .exhausted).2.1 :=
  List.mem_append_left _ (List.mem_append_right _ h)

/-- The ends of a pass: what the events tell of the taker, and what is left of it in
the book. -/
inductive Ended (b : OrderBook) (taker : Order) (b' : OrderBook) (events : List EngineEvent)
    (triggered : List Order) : Prop where
  | usedUp (hwalk : UsedUp b taker) (hshort : ∀ qs, ¬ Trades b taker qs)
      (hsum : fillSum (·.takerOrderId = taker.id) events ≤ taker.remaining)
      (hfilled : fillSum (·.takerOrderId = taker.id) events = taker.remaining ↔ Fillable b taker)
      (huncancelled : ∀ reason, EngineEvent.cancelled taker.id reason ∉ events)
      (hunrested : ∀ x left, EngineEvent.rested x left ∉ events)
      (hnowhere : taker.id ∉ ↑(triggered.map (·.id)) + b'.toPool.ids)
  | cancelled (hwalk : ¬ UsedUp b taker)
      (hsum : fillSum (·.takerOrderId = taker.id) events < taker.remaining)
      (reason : CancelReason) (hcancelled : EngineEvent.cancelled taker.id reason ∈ events)
      (hunrested : ∀ x left, EngineEvent.rested x left ∉ events)
      (hnowhere : taker.id ∉ ↑(triggered.map (·.id)) + b'.toPool.ids)
      (hshort : taker.orderType.canRest = true → ∀ qs, Trades b taker qs →
        EngineEvent.cancelled taker.id .postOnlyCrossed ∈ events)
  | rested (left : Decimal) (hleft : 0 < left) (hwalk : ¬ UsedUp b taker)
      (hcan : taker.orderType.canRest = true)
      (hshort : ∃ qs, Trades b taker qs) (htrades : ∀ qs, Trades b taker qs → traded events = qs)
      (hquiet : traded events = [] → triggered = [])
      (hsum : fillSum (·.takerOrderId = taker.id) events + left ≤ taker.remaining)
      (hrested : EngineEvent.rested taker.id left ∈ events)
      (hplace : taker.withRemaining left ∈ b'.restingPool)

/-- A pass ends in one of three ways: the order is cancelled, used up or rested. -/
theorem ended_of_pass (h : Enters b taker)
    (hrun : b.runMatchingLoop fuel taker = some (b', events, triggered)) :
    Ended b taker b' events triggered := by
  rcases runMatchingLoop_eq_some hrun with ⟨s, exit, hloop, hend⟩
  have hs := h.loop_sound hloop
  have hstart : (b.enterLoop taker).due taker.id = taker.remaining := by
    simp [MatchState.due, enterLoop]
  have hfinish := (afterLoop_refines hs h.ready exit).2
  rcases afterLoop_balanced hs exit with ⟨new, hnew, hbalanced⟩
  have hdue := loop_due_le h.loopSound hloop
  rw [← hend] at hfinish hnew
  rw [hstart] at hdue
  have hfills : fillSum (·.takerOrderId = taker.id) events =
      fillSum (·.takerOrderId = taker.id) s.events := by
    rw [show events = s.events ++ new from hnew, fillSum_append, hbalanced.fills, add_zero]
  have hloopUnrested := loop_unrested h hloop
  have hid : s.taker.id = taker.id := hs.pass.id_eq
  have htype : s.taker.orderType = taker.orderType := by
    rw [hs.taker_eq]
    rfl
  rcases hfinish.taker_end hs.pass with ⟨last, hlast, hnowhere | hrested⟩
  · rcases hnowhere with ⟨hnowhere, hlastUnrested, hlastCancelled⟩
    have hunrested : ∀ x left, EngineEvent.rested x left ∉ events := by
      intro x left hmem
      rw [show events = s.events ++ last from hlast] at hmem
      rcases List.mem_append.mp hmem with hmem | hmem
      · exact hloopUnrested x left hmem
      · exact hlastUnrested x left hmem
    cases exit with
    -- self-trade prevention cancels it in the loop
    | takerConsumed =>
      have hcancelled : EngineEvent.cancelled taker.id .selfTradePrevented ∈ events := by
        rw [show events = s.events from hfinish.events_consumed]
        exact loop_consumed_cancelled h hloop
      refine .cancelled ?_ (hfills ▸ loop_consumed_short h hloop) _ hcancelled hunrested hnowhere ?_
      · intro hwalk
        cases (hwalk.loop rfl rfl h.loopSound hloop).1
      · intro _ qs hqs
        cases (hqs.loop rfl rfl h.loopSound hloop).1
    | exhausted =>
      -- used up, or cancelled by its type when the loop is through
      by_cases hzero : s.taker.remaining = 0
      · rcases hfinish.events_filled hs.pass hzero with ⟨_, hevents, hunnamed⟩
        have hpaid : s.due taker.id = fillSum (·.takerOrderId = taker.id) events := by
          rw [MatchState.due, hzero, add_zero, hfills]
        refine .usedUp (usedUp_of_loop h.loopSound hloop hzero) ?_ (hpaid ▸ hdue) ⟨?_, ?_⟩ ?_
          hunrested hnowhere
        · intro qs hqs
          exact (hqs.loop rfl rfl h.loopSound hloop).2.1 hzero
        · intro hsum
          exact fillable_of_loop h.loopSound hloop hzero (hpaid.trans (hsum.trans hstart.symm))
        · intro hfillable
          exact hpaid.symm.trans
            ((hfillable.loop rfl rfl h.loopSound hloop).2.2.1.trans hstart)
        · intro reason hmem
          rw [show events = s.events ++ _ from hevents] at hmem
          rcases List.mem_append.mp hmem with hmem | hmem
          · exact loop_exhausted_spared h hloop reason hmem
          · exact cancelled_notMem_of_unnamed hunnamed hmem
      · have hpos : 0 < s.taker.remaining := lt_of_le_of_ne hs.pass.remaining (Ne.symm hzero)
        have hshortfall : fillSum (·.takerOrderId = taker.id) events < taker.remaining := by
          rw [hfills]
          unfold MatchState.due at hdue
          lia
        rcases hlastCancelled rfl hzero with ⟨reason, hreason⟩
        have hcancelled : EngineEvent.cancelled taker.id reason ∈ events := by
          rw [show events = s.events ++ last from hlast]
          exact List.mem_append_right _ (hid ▸ hreason)
        refine .cancelled ?_ hshortfall reason hcancelled hunrested hnowhere ?_
        · intro hwalk
          exact hzero (hwalk.loop rfl rfl h.loopSound hloop).2
        · intro hcan _ _
          have hevents : events = (afterLoop s .exhausted).2.1 := congrArg (·.2.1) hend
          rcases finalizeTaker_canRest s.book s.hadFills hzero (htype ▸ h.ready.active)
            (htype ▸ hcan) with hfinal | hfinal
          · refine absurd ?_ (hunrested s.taker.id s.taker.remaining)
            rw [hevents]
            exact mem_afterLoop_of_finalize (by rw [hfinal]; exact List.mem_singleton.mpr rfl)
          · rw [hevents, ← hid]
            exact mem_afterLoop_of_finalize (by rw [hfinal]; exact List.mem_singleton.mpr rfl)
  · -- it rests with what it has left
    rcases hrested with ⟨rfl, hne, hcan, rfl, hplace⟩
    have hne : s.taker.remaining ≠ 0 := hne
    have hpos : 0 < s.taker.remaining := lt_of_le_of_ne hs.pass.remaining (Ne.symm hne)
    have htraded : traded events = traded s.events := by
      rw [show events = s.events ++ _ from hlast, traded_append]
      exact List.append_nil _
    refine .rested s.taker.remaining hpos ?_ (htype ▸ hcan)
      (fallsShort_of_loop h.loopSound hloop hne).trades ?_ ?_ ?_ ?_ ?_
    · intro hwalk
      exact hne (hwalk.loop rfl rfl h.loopSound hloop).2
    · intro qs hqs
      rw [htraded, (hqs.loop rfl rfl h.loopSound hloop).2.2]
      rfl
    · intro hnone
      have hprice := loop_untraded h hloop (htraded ▸ hnone)
      have hdrain : triggered = (afterLoop s .exhausted).2.2 := congrArg (·.2.2) hend
      rw [hdrain]
      simp only [afterLoop, hprice, drainAfter]
    · rw [hfills]
      exact hdue
    · rw [show events = s.events ++ _ from hlast, ← hid]
      exact List.mem_append_right _ (List.mem_singleton.mpr rfl)
    · have hsame : taker.withRemaining s.taker.remaining = s.taker := hs.pass.same.symm
      rw [hsame]
      exact hplace

/-! ## Walks without a trace -/

/-- The walk ends without a trade, and with nothing of the taker to rest. -/
inductive Vanishes : OrderBook → Order → Prop where
  | dry {b : OrderBook} {taker : Order} (hpos : 0 < taker.remaining)
      (hno : ∀ price, b.bestOppositePrice taker.side = some price →
        takerPriceSatisfied taker price = false)
      (hcan : taker.orderType.canRest = false) : Vanishes b taker
  | stopped {b : OrderBook} {taker m : Order} {price : Decimal} {rest : List Order}
      (hm : Meets (b.enterLoop taker) price m rest) (hown : taker.userId = m.userId)
      (hends : taker.stpMode = .cancelTaker ∨
        taker.stpMode = .decrement ∧ taker.remaining ≤ m.remaining) : Vanishes b taker
  | skip {b : OrderBook} {taker m : Order} {price : Decimal} {rest : List Order}
      (hm : Meets (b.enterLoop taker) price m rest) (hown : taker.userId = m.userId)
      (hmode : taker.stpMode = .cancelMaker)
      (hrest : Vanishes (b.dropFront taker.side.opposite price m rest) taker) : Vanishes b taker
  | wears {b b' : OrderBook} {taker taker' : Order} (h : Wears b taker b' taker')
      (hrest : Vanishes b' taker') : Vanishes b taker

/-- A turn that meets an order of the taker's own that is not smaller ends the loop. -/
theorem TurnSpec.of_stopped {t : Turn MatchState (MatchState × MatchExit)} (h : TurnSpec s t)
    (hm : Meets s price m rest) (hown : s.taker.userId = m.userId)
    (hends : s.taker.stpMode = .cancelTaker ∨
      s.taker.stpMode = .decrement ∧ s.taker.remaining ≤ m.remaining) :
    ∃ u, t = .done (u, .takerConsumed) ∧ traded u.events = traded s.events := by
  cases h with
  | exhausted hex => exact absurd hex hm.not_exhausted
  | fillPart hm' hother | fillWhole hm' hother =>
    rcases hm.unique hm' with ⟨rfl, rfl, rfl⟩
    exact absurd hown hother
  | cancelMaker _ _ hmode => simp [hmode] at hends
  | decrementMaker hm' _ hmode hgt =>
    rcases hm.unique hm' with ⟨rfl, rfl, rfl⟩
    simp only [hmode, true_and, reduceCtorEq, false_or] at hends
    exact absurd hgt (not_lt.mpr hends)
  | cancelTaker | decrementTaker | decrementBoth => exact ⟨_, rfl, by simp [traded]⟩

/-- The own orders that a taker meets and outlasts leave no trade in the events. -/
theorem TurnSpec.untraded_of_own (h : TurnSpec s (.next s')) (hm : Meets s price m rest)
    (hown : s.taker.userId = m.userId) : traded s'.events = traded s.events := by
  rcases h.traded_next with ⟨_, _, _, hm', hother, _⟩ | ⟨_, hnew, _⟩
  · rcases hm.unique hm' with ⟨rfl, rfl, rfl⟩
    exact absurd hown hother
  · exact hnew

/-- A walker that vanishes does so in the loop. -/
theorem Vanishes.loop {walker : Order} (h : Vanishes b walker) (hbook : s.book = b)
    (hwalker : s.taker = walker) (hs : LoopSound taker s)
    (hloop : loop matchTurn fuel s = some (s', exit)) :
    traded s'.events = traded s.events ∧
      (exit = .exhausted → s'.taker.orderType.canRest = false) := by
  induction h generalizing s fuel with
  -- nothing is met any more, so the loop is exhausted
  | dry hpos hno hcan =>
    subst hbook hwalker
    have hend := loop_leaves hs hloop fun _ h => h.of_unmet fun _ _ _ hm =>
      absurd (Or.inr hno) hm.not_exhausted
    cases hend
    exact ⟨rfl, fun _ => hcan⟩
  -- an own order stops the walker
  | stopped hm hown hends =>
    subst hbook hwalker
    have hstops : ∀ {t}, matchTurn s = some t →
        ∃ u, t = .done (u, .takerConsumed) ∧ traded u.events = traded s.events := fun ht =>
      (turnSpec_of_eq hs.book.noEmpty ht).of_stopped (meets_enterLoop.mp hm) hown hends
    rcases loop_eq_some hloop with ⟨n, _, hdone | ⟨u, hnext, _⟩⟩
    · rcases hstops hdone with ⟨u, hu, htraded⟩
      cases hu
      exact ⟨htraded, fun hexit => by cases hexit⟩
    · rcases hstops hnext with ⟨u, hu, _⟩
      cases hu
  -- an own order is skipped without a trade
  | skip hm hown hmode _ ih =>
    subst hbook hwalker
    have hmeets := meets_enterLoop.mp hm
    rcases loop_goes_on hs hloop fun _ h => (h.of_own hmeets hown).1 hmode with
      ⟨n, u, hspec, hu, hbook, hwalker, hrest⟩
    have hafter := ih hbook hwalker hu hrest
    rw [hspec.untraded_of_own hmeets hown] at hafter
    exact hafter
  -- and decrementing wears the walker down without one
  | wears hwears _ ih =>
    subst hbook hwalker
    rcases loop_goes_on hs hloop fun _ => hwears.turn with
      ⟨n, u, hspec, hu, hbook, hwalker, hrest⟩
    have hafter := ih hbook hwalker hu hrest
    cases hwears with
    | decrement hm hown =>
      rw [hspec.untraded_of_own (meets_enterLoop.mp hm) hown] at hafter
      exact hafter

theorem Pass.Finalize.no_fill {a : Pass} {r : Pool × List EngineEvent} (h : a.Finalize r)
    (f : Fill) : EngineEvent.fill f ∉ r.2 := by
  cases h with
  | filled _ hoco => exact hoco.no_fill f
  | cancelled _ reason _ _ hoco =>
    intro hf
    rcases List.mem_cons.mp hf with hf | hf
    · cases hf
    · exact hoco.no_fill f hf
  | rested => simp

/-- The end of a pass makes no fills. -/
theorem Pass.Finish.traded {a : Pass} {r : Pool × List EngineEvent × List Order}
    (h : a.Finish exit r) : Core.traded r.2.1 = Core.traded a.events := by
  cases h with
  | consumed => rfl
  | finalized hfinal =>
    have hnone : Core.traded _ = [] := traded_eq_nil hfinal.no_fill
    rw [traded_append, hnone, List.append_nil]

/-- A taker that vanishes leaves no fill and no order behind, and triggers nothing. -/
theorem Vanishes.pass (hwalk : Vanishes b taker) (h : Enters b taker)
    (hrun : b.runMatchingLoop fuel taker = some (b', events, triggered)) :
    traded events = [] ∧ triggered = [] ∧ taker.id ∉ b'.toPool.ids := by
  rcases runMatchingLoop_eq_some hrun with ⟨s, exit, hloop, hend⟩
  have hs := h.loop_sound hloop
  have hfinish := (afterLoop_refines hs h.ready exit).2
  rw [← hend] at hfinish
  rcases hwalk.loop rfl rfl h.loopSound hloop with ⟨htraded, hcannot⟩
  have hnone : traded s.events = [] := htraded
  have htriggered : triggered = [] := by
    have hdrain : triggered = (afterLoop s exit).2.2 := congrArg (·.2.2) hend
    rw [hdrain]
    cases exit <;> simp only [afterLoop, loop_untraded h hloop hnone, drainAfter]
  refine ⟨hfinish.traded.trans hnone, htriggered, ?_⟩
  rcases hfinish.taker_end hs.pass with ⟨_, _, ⟨hnowhere, _⟩ | ⟨hexit, _, hcan, _⟩⟩
  · intro hmem
    exact hnowhere (Multiset.mem_add.mpr (.inr hmem))
  · have hcan : s.taker.orderType.canRest = true := hcan
    rw [hcannot hexit] at hcan
    cases hcan

end CryptoCex.Core
