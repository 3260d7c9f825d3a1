import CryptoCex.Core.Fate

/-!
# Which stops a call triggers

A stop should trigger as soon as a trade of the call is at or beyond its stop
price. The code looks at the registry once per pass, when the matching loop has
ended, with the price of the last trade only. `matchOrder_triggers` says that a
call triggers the stops that some pass below the depth guard ends by seeing hit,
and no others; that a stop is only triggered after a trade that hits it holds
without a condition.
-/

namespace CryptoCex.Core

open Loop OrderBook

/-! ## The trace of a call -/

/-- The call comes to the cascade state `c` and makes a pass of `order` there. -/
structure HasPass (fuel : ℕ) (b : OrderBook) (taker : Order) (c : CascadeState) (order : Order) :
    Prop where
  accepted : b.preCheck taker = none
  active : taker.orderType.isStop = false
  visits : Visits (cascadeTurn fuel) (b.enterCascade taker) c
  head : ∃ rest, c.workQueue = order :: rest

/-- The matching loop emits the fill in the state `s`. -/
def EmitsFill (s : MatchState) (f : Fill) : Prop :=
  ∃ s' cancels, matchTurn s = some (.next s') ∧ s'.events = s.events ++ .fill f :: cancels

/-- A fill of the call was emitted while the stop was registered, at a price that
hits it. -/
def Hit (fuel : ℕ) (b : OrderBook) (taker o : Order) : Prop :=
  ∃ c order s f, HasPass fuel b taker c order ∧ Visits matchTurn (c.book.enterLoop order) s ∧
    EmitsFill s f ∧ o ∈ s.book.stops.orders ∧ o.TriggeredBy f.price

/-- A pass below the depth guard ends with a trade that hits the stop, and the stop
is still registered. -/
def Seen (fuel : ℕ) (b : OrderBook) (taker o : Order) : Prop :=
  ∃ c order s exit p, HasPass fuel b taker c order ∧ c.stopDepth < maxStopChainDepth ∧
    loop matchTurn fuel (c.book.enterLoop order) = some (s, exit) ∧
    o ∈ (settle s exit).1.stops.orders ∧ s.lastTradePrice = some p ∧ o.TriggeredBy p

/-- A stop that was hit while registered was triggered and left the registry. -/
def TriggersHit (fuel : ℕ) (b : OrderBook) (taker : Order) (b' : OrderBook)
    (events : List EngineEvent) : Prop :=
  ∀ o, Hit fuel b taker o →
    EngineEvent.stopTriggered o.id ∈ events ∧ o.id ∉ b'.stops.orders.map (·.id)

/-- A triggered stop was registered, and a fill before it hits it. -/
def Heralded (b : OrderBook) (events : List EngineEvent) : Prop :=
  ∀ before after id, events = before ++ .stopTriggered id :: after →
    ∃ o ∈ b.stops.orders, o.id = id ∧ ∃ f, EngineEvent.fill f ∈ before ∧ o.TriggeredBy f.price

variable {b b' : OrderBook} {taker o : Order} {fuel : ℕ} {s : MatchState} {exit : MatchExit}
  {events : List EngineEvent} {triggered : List Order}

/-! ## One pass -/

/-- The stops checked at the end of a pass are drained when the last trade hits
them. -/
theorem mem_hitAfter (hfiled : b.stops.Filed) {last : Option Decimal} :
    o ∈ b.hitAfter last ↔ o ∈ b.stops.orders ∧ ∃ p, last = some p ∧ o.TriggeredBy p := by
  cases last with
  | none => simp [hitAfter]
  | some p =>
    simp only [hitAfter, Option.some.injEq, exists_eq_left']
    constructor
    · exact StopRegistry.triggeredBy_of_mem_hitBy hfiled.inPlace
    · rintro ⟨ho, hhit⟩
      rcases List.mem_append.mp ((b.stops.drainTriggered_orders p).mem_iff.mp ho) with h | h
      · exact h
      · exact absurd hhit (StopRegistry.not_triggeredBy_of_drained hfiled.inPlace h)

theorem eq_cancelled_of_mem_cancel {id : Uuid} {reason : CancelReason} {e : EngineEvent}
    (h : e ∈ (b.cancelOrderInternal id reason).2) : e = .cancelled id reason := by
  have hspec := b.cancelOrderInternal_spec id reason
  generalize b.cancelOrderInternal id reason = r at hspec h
  cases hspec with
  | stop => exact List.mem_singleton.mp h
  | missing => cases h
  | stale => cases h
  | resting => exact List.mem_singleton.mp h

/-- An OCO cancel announces no stop. -/
theorem stopTriggered_notMem_oco (b : OrderBook) (id x : Uuid) :
    EngineEvent.stopTriggered x ∉ (b.maybeCancelOco id).2 := by
  intro h
  unfold maybeCancelOco at h
  split at h
  · cases h
  · cases eq_cancelled_of_mem_cancel h

/-- What the events of a matching loop show of its last trade. -/
structure Shown (s : MatchState) : Prop where
  quiet : ∀ x, EngineEvent.stopTriggered x ∉ s.events
  last : ∀ p, s.lastTradePrice = some p → ∃ f, EngineEvent.fill f ∈ s.events ∧ f.price = p

theorem Shown.append (h : Shown s) {s' : MatchState} {new : List EngineEvent}
    (hevents : s'.events = s.events ++ new) (hlast : s'.lastTradePrice = s.lastTradePrice)
    (hnew : ∀ x, EngineEvent.stopTriggered x ∉ new) : Shown s' := by
  constructor
  · intro x hx
    rw [hevents] at hx
    rcases List.mem_append.mp hx with hx | hx
    · exact h.quiet x hx
    · exact hnew x hx
  · intro p hp
    rw [hlast] at hp
    rcases h.last p hp with ⟨f, hf, hprice⟩
    rw [hevents]
    exact ⟨f, List.mem_append_left _ hf, hprice⟩

/-- The last trade price is that of the last fill. -/
theorem TurnSpec.shown {t : Turn MatchState (MatchState × MatchExit)} (ht : TurnSpec s t)
    (h : Shown s) : Shown (stateAfter t) := by
  cases ht with
  | exhausted => exact h
  | cancelTaker => exact h.append rfl rfl (by simp)
  | cancelMaker => exact h.append rfl rfl (by simp)
  | decrementTaker => exact h.append rfl rfl (by simp)
  | decrementMaker => exact h.append rfl rfl (by simp)
  | decrementBoth => exact h.append rfl rfl (by simp)
  -- a fill is the last of its turn's events, and sets the price
  | fillPart =>
    constructor
    · intro x hx
      rcases List.mem_append.mp hx with hx | hx
      · exact h.quiet x hx
      · cases List.mem_singleton.mp hx
    · rintro p ⟨⟩
      exact ⟨_, List.mem_append_right _ List.mem_cons_self, rfl⟩
  | fillWhole =>
    constructor
    · intro x hx
      rcases List.mem_append.mp hx with hx | hx
      · rcases List.mem_append.mp hx with hx | hx
        · exact h.quiet x hx
        · cases List.mem_singleton.mp hx
      · exact stopTriggered_notMem_oco _ _ x hx
    · rintro p ⟨⟩
      exact ⟨_, List.mem_append_left _ (List.mem_append_right _ List.mem_cons_self), rfl⟩

/-- It is so when the loop ends. -/
theorem Enters.loop_shown (h : Enters b taker)
    (hloop : loop matchTurn fuel (b.enterLoop taker) = some (s, exit)) : Shown s :=
  matchLoop_induct h (fun _ s => Shown s) (fun _ s _ => Shown s)
    ⟨fun _ hx => List.not_mem_nil hx, fun _ hp => by cases hp⟩
    (fun _ _ _ _ _ hinv hspec => hspec.shown hinv)
    (fun _ _ _ _ _ _ hinv hspec _ => hspec.shown hinv) hloop

/-- Finalising the taker adds neither a trade nor a trigger. -/
theorem Shown.settle (h : Shown s) (exit : MatchExit) :
    (∀ x, EngineEvent.stopTriggered x ∉ (OrderBook.settle s exit).2) ∧
      ∀ p, s.lastTradePrice = some p →
        ∃ f, EngineEvent.fill f ∈ (OrderBook.settle s exit).2 ∧ f.price = p := by
  cases exit with
  -- the taker has left the book already
  | takerConsumed => exact ⟨h.quiet, h.last⟩
  | exhausted =>
    refine ⟨?_, ?_⟩
    · intro x hx
      simp only [OrderBook.settle] at hx
      -- the taker is filled, cancelled or rests, and its sibling may be cancelled
      have hspec := s.book.finalizeTaker_spec s.taker s.hadFills
      rcases List.mem_append.mp hx with hx | hx
      · rcases List.mem_append.mp hx with hx | hx
        · exact h.quiet x hx
        · generalize s.book.finalizeTaker s.taker s.hadFills = final at hspec hx
          cases hspec with
          | filled => cases hx
          | cancelled => cases List.mem_singleton.mp hx
          | rested => cases List.mem_singleton.mp hx
      · split_ifs at hx
        · exact stopTriggered_notMem_oco _ _ x hx
        · cases hx
    · intro p hp
      rcases h.last p hp with ⟨f, hf, hprice⟩
      exact ⟨f, List.mem_append_left _ (List.mem_append_left _ hf), hprice⟩

/-- Stops only leave in a pass. -/
theorem Enters.visits_stops_le (h : Enters b taker)
    (hv : Visits matchTurn (b.enterLoop taker) s) : s.book.stopPool ≤ b.stopPool := by
  refine h.visits_induct (fun s => s.book.stopPool ≤ b.stopPool) (le_refl _) ?_ hv
  intro t t' ht hspec hle
  exact (hspec.refines ht.book).stops_le.trans hle

/-- What a pass triggers: the stops registered at its end that its last trade
hits. -/
theorem runMatchingLoop_triggers (h : Enters b taker)
    (hrun : b.runMatchingLoop fuel taker = some (b', events, triggered)) :
    ∃ s exit, loop matchTurn fuel (b.enterLoop taker) = some (s, exit) ∧
      (settle s exit).1.Consistent ∧ (settle s exit).1.stopPool ≤ b.stopPool ∧
      (settle s exit).1.stopPool =
        ↑((settle s exit).1.hitAfter s.lastTradePrice) + b'.stopPool ∧
      triggered = ((settle s exit).1.hitAfter s.lastTradePrice).map convertStop ∧
      (∀ x, EngineEvent.stopTriggered x ∉ events) ∧
      ∀ p, s.lastTradePrice = some p → ∃ f, EngineEvent.fill f ∈ events ∧ f.price = p := by
  rcases runMatchingLoop_eq_some hrun with ⟨s, exit, hloop, hend⟩
  rw [afterLoop_eq] at hend
  have hs := h.loop_sound hloop
  rcases settle_spec hs h.ready exit with ⟨hcons, hle, _⟩
  have hstops : s.book.stopPool ≤ b.stopPool :=
    matchLoop_induct h (fun _ s => s.book.stopPool ≤ b.stopPool)
      (fun _ s _ => s.book.stopPool ≤ b.stopPool) (le_refl _)
      (fun _ _ _ _ ht hinv hspec => (hspec.refines ht.book).stops_le.trans hinv)
      (fun _ _ _ _ _ ht hinv hspec _ => (hspec.refines ht.book).stops_le.trans hinv) hloop
  cases hend
  rcases (h.loop_shown hloop).settle exit with ⟨hquiet, hlast⟩
  exact ⟨s, exit, hloop, hcons, hle.trans hstops, stopPool_drainAfter _ _, drainAfter_snd _ _,
    hquiet, hlast⟩

/-- A pass announces nothing itself. -/
theorem stopTriggered_notMem_pass (h : Enters b taker)
    {r : OrderBook × List EngineEvent × List Order} (hrun : b.runMatchingLoop fuel taker = some r)
    (x : Uuid) : EngineEvent.stopTriggered x ∉ r.2.1 := by
  obtain ⟨_, _, _, _, _, _, _, hquiet, _⟩ := runMatchingLoop_triggers h hrun
  exact hquiet x

/-! ## The call -/

/-- A pass only adds events. -/
theorem CascadeStep.events_prefix {c c' : CascadeState} (h : CascadeStep fuel c c') :
    ∃ new, c'.events = c.events ++ new := by
  cases h with
  | push => exact ⟨_, List.append_assoc _ _ _⟩
  | cut => exact ⟨_, rfl⟩

/-- From any state of a cascade to its end, events are added and stops leave. -/
theorem cascade_grows {c : CascadeState} (hc : CascadeSound c) {n : ℕ}
    {r : OrderBook × List EngineEvent} (hloop : loop (cascadeTurn fuel) n c = some r) :
    (∃ later, r.2 = c.events ++ later) ∧ r.1.stopPool ≤ c.book.stopPool := by
  let Inv : CascadeState → Prop := fun d =>
    (∃ later, d.events = c.events ++ later) ∧ d.book.stopPool ≤ c.book.stopPool
  have hstep : ∀ d d', CascadeSound d → Inv d → CascadeStep fuel d d' → Inv d' := by
    rintro d d' hd ⟨⟨later, hlater⟩, hle⟩ hstep
    rcases hstep.events_prefix with ⟨new, hnew⟩
    refine ⟨⟨later ++ new, ?_⟩, (hstep.stops_le hd).trans hle⟩
    rw [hnew, hlater, List.append_assoc]
  rcases cascade_induct hc Inv ⟨⟨[], (List.append_nil _).symm⟩, le_refl _⟩
    (fun d d' _ => hstep d d') hloop with ⟨d, _, _, rfl, _, hinv⟩
  exact hinv

/-- No two stops have the same id. -/
theorem stops_nodup {c : CascadeState} (hc : CascadeSound c) :
    (c.book.stopPool.map (·.id)).Nodup := by
  have hunique := hc.book.unique
  rw [pool, Multiset.map_add, Multiset.nodup_add] at hunique
  exact hunique.2.1

/-- A stop seen at the end of a pass is triggered by it. -/
theorem triggered_of_seen (hb : b.Sound) (htaker : taker.Admissible)
    (hfresh : ∀ o ∈ b.pool, o.id ≠ taker.id) (hactive : taker.orderType.isStop = false)
    {r : OrderBook × List EngineEvent} {n : ℕ}
    (hloop : loop (cascadeTurn fuel) n (b.enterCascade taker) = some r)
    (hseen : Seen fuel b taker o) :
    EngineEvent.stopTriggered o.id ∈ r.2 ∧ o.id ∉ r.1.stopPool.map (·.id) := by
  rcases hseen with ⟨c, order, s, exit, p, hpass, hdepth, hend, hmem, hlast, hhit⟩
  rcases hpass.head with ⟨rest, hqueue⟩
  have hc := cascadeSound_of_visits
    (cascadeSound_enter hb ⟨htaker.positive, hactive, htaker.priced⟩ hfresh) hpass.visits
  rcases loop_of_visits hpass.visits hloop with ⟨m, hm⟩
  have hne : c.workQueue ≠ [] := by
    rw [hqueue]
    exact List.cons_ne_nil _ _
  obtain ⟨c', k, _, hstep, _, hrest⟩ := exists_turn hne hm
  rcases cascade_grows (hstep.sound hc) hrest with ⟨⟨later, hlater⟩, hle⟩
  have hunique := stops_nodup hc
  -- a pass before the depth guard announces what it drains
  cases hstep with
  | cut _ _ hcut => exact absurd hdepth (not_lt.mpr hcut)
  | @push order' rest' book new hit hq hrun _ =>
    rw [hqueue] at hq
    cases hq
    rcases runMatchingLoop_triggers (hc.enters hqueue) hrun with
      ⟨s', exit', hend', hcons, hstops, hsplit, hhits, _, _⟩
    rw [hend] at hend'
    cases hend'
    have ho := (mem_hitAfter hcons.filed).mpr ⟨hmem, p, hlast, hhit⟩
    refine ⟨?_, ?_⟩
    · rw [hlater, hhits]
      refine List.mem_append_left _ (List.mem_append_right _ ?_)
      exact List.mem_map.mpr ⟨convertStop o, List.mem_map_of_mem ho, rfl⟩
    · -- and what is drained does not come back
      intro hgone
      have hleft := Multiset.mem_of_le (Multiset.map_le_map hle) hgone
      have hnodup := Multiset.nodup_of_le (Multiset.map_le_map hstops) hunique
      rw [hsplit, Multiset.map_add, Multiset.nodup_add] at hnodup
      exact Multiset.disjoint_left.mp hnodup.2.2 (Multiset.mem_map_of_mem _ ho) hleft

/-- Nothing is to be heralded where no stop is triggered. -/
theorem heralded_of_quiet (h : ∀ x, EngineEvent.stopTriggered x ∉ events) : Heralded b events := by
  intro before after id hsplit
  refine absurd ?_ (h id)
  rw [hsplit]
  exact List.mem_append_right _ List.mem_cons_self

theorem Heralded.append (h : Heralded b events) {new : List EngineEvent}
    (hnew : ∀ id, EngineEvent.stopTriggered id ∈ new → ∃ o ∈ b.stops.orders, o.id = id ∧
      ∃ f, EngineEvent.fill f ∈ events ∧ o.TriggeredBy f.price) : Heralded b (events ++ new) := by
  intro before after id hsplit
  -- the trigger is among the new events or among the old ones
  rcases List.append_eq_append_iff.mp hsplit with ⟨mid, rfl, hmid⟩ | ⟨mid, hevents, hmid⟩
  · have hmem : EngineEvent.stopTriggered id ∈ new := by
      rw [hmid]
      exact List.mem_append_right _ List.mem_cons_self
    rcases hnew id hmem with ⟨o, ho, hid, f, hf, hhit⟩
    exact ⟨o, ho, hid, f, List.mem_append_left _ hf, hhit⟩
  · cases mid with
    -- it is the first of the new events
    | nil =>
      have hmem : EngineEvent.stopTriggered id ∈ new := by
        rw [List.nil_append] at hmid
        rw [← hmid]
        exact List.mem_cons_self
      rcases hnew id hmem with ⟨o, ho, hid, f, hf, hhit⟩
      rw [hevents, List.append_nil] at hf
      exact ⟨o, ho, hid, f, hf, hhit⟩
    | cons e mid =>
      rw [List.cons_append, List.cons.injEq] at hmid
      rw [← hmid.1] at hevents
      exact h before mid id hevents

/-- The triggers a cascade has announced so far. -/
structure TriggerLog (fuel : ℕ) (b : OrderBook) (taker : Order) (c : CascadeState) : Prop where
  stops : c.book.stopPool ≤ b.stopPool
  seen : ∀ o ∈ b.stopPool, EngineEvent.stopTriggered o.id ∈ c.events → Seen fuel b taker o
  heralded : Heralded b c.events

/-- A pass announces just the stops it hits at its end. -/
theorem CascadeStep.triggerLog {c c' : CascadeState} (hstep : CascadeStep fuel c c')
    (hb : b.Consistent) (hc : CascadeSound c)
    (hpass : ∀ order rest, c.workQueue = order :: rest → HasPass fuel b taker c order)
    (h : TriggerLog fuel b taker c) : TriggerLog fuel b taker c' := by
  refine ⟨(hstep.stops_le hc).trans h.stops, ?_, ?_⟩
  · intro o ho hmem
    cases hstep with
    | @push order rest book new hit hq hrun hdepth =>
      rcases runMatchingLoop_triggers (hc.enters hq) hrun with
        ⟨s, exit, hend, hcons, hstops, hsplit, hhits, hquiet, _⟩
      rcases List.mem_append.mp hmem with hmem | hmem
      · rcases List.mem_append.mp hmem with hmem | hmem
        · exact h.seen o ho hmem
        · exact absurd hmem (hquiet o.id)
      · rcases List.mem_map.mp hmem with ⟨t, ht, hid⟩
        rw [hhits] at ht
        rcases List.mem_map.mp ht with ⟨o', ho', rfl⟩
        rcases (mem_hitAfter hcons.filed).mp ho' with ⟨hmem', p, hlast, hhit⟩
        -- the stop with this id is the one registered before the call
        have hsame : o' = o := by
          have hstop : o' ∈ b.stopPool := Multiset.mem_of_le (hstops.trans h.stops) hmem'
          exact hb.eq_of_id_eq (mem_pool.mpr (Or.inr hstop)) (mem_pool.mpr (Or.inr ho))
            (EngineEvent.stopTriggered.inj hid)
        subst hsame
        exact ⟨c, order, s, exit, p, hpass order rest hq, hdepth, hend, hmem', hlast, hhit⟩
    | @cut order rest book new hit hq hrun hdepth =>
      rcases runMatchingLoop_triggers (hc.enters hq) hrun with
        ⟨_, _, _, _, _, _, _, hquiet, _⟩
      rcases List.mem_append.mp hmem with hmem | hmem
      · exact h.seen o ho hmem
      · exact absurd hmem (hquiet o.id)
  · cases hstep with
    | @push order rest book new hit hq hrun hdepth =>
      rcases runMatchingLoop_triggers (hc.enters hq) hrun with
        ⟨s, exit, hend, hcons, hstops, hsplit, hhits, hquiet, hlast⟩
      refine (h.heralded.append fun id hmem => absurd hmem (hquiet id)).append ?_
      intro id hmem
      rcases List.mem_map.mp hmem with ⟨t, ht, hid⟩
      rw [hhits] at ht
      rcases List.mem_map.mp ht with ⟨o, ho, rfl⟩
      rcases (mem_hitAfter hcons.filed).mp ho with ⟨hmem', p, hp, hhit⟩
      rcases hlast p hp with ⟨f, hf, rfl⟩
      exact ⟨o, Multiset.mem_of_le (hstops.trans h.stops) hmem', EngineEvent.stopTriggered.inj hid,
        f, List.mem_append_right _ hf, hhit⟩
    | @cut order rest book new hit hq hrun hdepth =>
      rcases runMatchingLoop_triggers (hc.enters hq) hrun with
        ⟨_, _, _, _, _, _, _, hquiet, _⟩
      exact h.heralded.append fun id hmem => absurd hmem (hquiet id)

/-- The stops a pass of the call comes to were registered before the call. -/
theorem HasPass.stops_le {c : CascadeState} {order : Order} (h : HasPass fuel b taker c order)
    (hb : b.Sound) (htaker : taker.Admissible) (hfresh : ∀ o ∈ b.pool, o.id ≠ taker.id) :
    CascadeSound c ∧ c.book.stopPool ≤ b.stopPool := by
  refine visits_invariant (fun c => CascadeSound c ∧ c.book.stopPool ≤ b.stopPool)
    ⟨cascadeSound_enter hb ⟨htaker.positive, h.active, htaker.priced⟩ hfresh, le_refl _⟩ ?_ h.visits
  rintro c c' ⟨hc, hle⟩ hnext
  have hstep := cascadeTurn_next hnext
  exact ⟨hstep.sound hc, (hstep.stops_le hc).trans hle⟩

/-- A stop that is hit was registered before the call. -/
theorem Hit.registered (hb : b.Sound) (htaker : taker.Admissible)
    (hfresh : ∀ o ∈ b.pool, o.id ≠ taker.id) (h : Hit fuel b taker o) : o ∈ b.stopPool := by
  rcases h with ⟨c, order, s, f, hpass, hvisits, _, hmem, _⟩
  obtain ⟨hc, hcascade⟩ := hpass.stops_le hb htaker hfresh
  rcases hpass.head with ⟨rest, hq⟩
  have hthere : o ∈ s.book.stopPool := hmem
  exact Multiset.mem_of_le (((hc.enters hq).visits_stops_le hvisits).trans hcascade) hthere

/-- On a sound book, a call triggers every stop that is hit exactly when every
such stop is seen at the end of a pass; and it triggers no other. -/
theorem matchOrder_triggers (hb : b.Sound) (htaker : taker.Admissible)
    (hfresh : ∀ o ∈ b.pool, o.id ≠ taker.id)
    (hcall : b.matchOrder fuel taker = some (b', events)) :
    (TriggersHit fuel b taker b' events ↔ ∀ o, Hit fuel b taker o → Seen fuel b taker o) ∧
      Heralded b events := by
  have hspec := matchOrder_spec htaker hcall
  generalize hr : (b', events) = r at hspec
  cases hspec with
  -- nothing is hit by a call that comes to no pass
  | rejected reject hpre =>
    cases hr
    have hnone : ∀ o, ¬ Hit fuel b taker o := by
      rintro o ⟨_, _, _, _, hpass, _⟩
      rw [hpass.accepted] at hpre
      cases hpre
    refine ⟨⟨fun _ o ho => absurd ho (hnone o), fun _ o ho => absurd ho (hnone o)⟩, ?_⟩
    rcases preCheck_eq_some hpre with ⟨_, rfl⟩ | ⟨_, rfl⟩
    · exact heralded_of_quiet (by simp)
    · exact heralded_of_quiet (by simp)
  | registered stops _ hstop =>
    cases hr
    have hnone : ∀ o, ¬ Hit fuel b taker o := by
      rintro o ⟨_, _, _, _, hpass, _⟩
      rw [hpass.active] at hstop
      cases hstop
    exact ⟨⟨fun _ o ho => absurd ho (hnone o), fun _ o ho => absurd ho (hnone o)⟩,
      heralded_of_quiet (by simp)⟩
  | matched hpre hactive hloop =>
    have hc₀ := cascadeSound_enter hb ⟨htaker.positive, hactive, htaker.priced⟩ hfresh
    have hstart : TriggerLog fuel b taker (b.enterCascade taker) :=
      ⟨le_refl _, fun _ _ h => absurd h List.not_mem_nil,
        heralded_of_quiet fun _ => List.not_mem_nil⟩
    rcases cascade_induct hc₀ (TriggerLog fuel b taker) hstart
      (fun c c' hv hc hinv hstep => hstep.triggerLog hb.book hc
        (fun order rest hq => ⟨hpre, hactive, hv, rest, hq⟩) hinv) hloop with
      ⟨c, _, _, heq, _, hann⟩
    have hevents : events = c.events := congrArg Prod.snd (hr.trans heq)
    rw [← hr] at hloop
    refine ⟨⟨?_, ?_⟩, hevents ▸ hann.heralded⟩
    · intro hall o ho
      have hmem := (hall o ho).1
      rw [hevents] at hmem
      exact hann.seen o (ho.registered hb htaker hfresh) hmem
    · intro hall o ho
      exact triggered_of_seen hb htaker hfresh hactive hloop (hall o ho)

end CryptoCex.Core
