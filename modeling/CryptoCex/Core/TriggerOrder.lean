import CryptoCex.Core.PostOnly
import CryptoCex.Core.Reload
import CryptoCex.Core.StopTrigger
import CryptoCex.Lib.Queues

/-!
# The order in which triggered stops are executed

A pass announces the stops it triggers in the order in which they leave the registry, and puts them
on the work queue in that order. The work queue is popped at its end: the stop that was announced
last is matched first, with all that it triggers in turn, and the stop that was announced first is
matched when everything else is done (`second_stop_served_first`).

Every pass produces an event. So the results of a call come in the order of the announcements
exactly when no pass that announces its stops triggers more than one (`inTriggerOrder_iff`).
-/

namespace CryptoCex.Core

open Loop OrderBook
open scoped List
open Queues (not_both_orders)

/-- An event of a call, with the order whose matching produced it. Announcements of triggered stops
are not produced by matching. -/
structure LogEntry where
  producer : Option Uuid
  event : EngineEvent
deriving DecidableEq, Repr

/-- The entry is a fill with this order as the taker, or a rested or cancelled event, and matching
the order produced it. -/
def LogEntry.ResultOf (entry : LogEntry) (orderId : Uuid) : Prop :=
  entry.producer = some orderId ∧
    match entry.event with
    | .fill f => f.takerOrderId = orderId
    | .rested _ _ => True
    | .cancelled _ _ => True
    | .stopTriggered _ => False

/-- The entries of one turn of the cascade. -/
def CascadeState.log (fuel : ℕ) (c : CascadeState) : List LogEntry :=
  match c.workQueue with
  | [] => []
  | order :: _ =>
    match c.book.runMatchingLoop fuel order with
    | none => []
    | some (_, events, triggered) =>
      let results := events.map fun e => ⟨some order.id, e⟩
      if c.stopDepth < maxStopChainDepth then
        results ++ triggered.map fun t => ⟨none, .stopTriggered t.id⟩
      else results

/-- The entries of a call of `match_order`. -/
def OrderBook.callLog (fuel : ℕ) (b : OrderBook) (taker : Order) : List LogEntry :=
  match b.preCheck taker with
  | some reject => [⟨some taker.id, reject⟩]
  | none =>
    if taker.orderType.isStop then
      (b.registerStopOrder taker).2.map fun e => ⟨some taker.id, e⟩
    else (trace (cascadeTurn fuel) fuel (b.enterCascade taker)).flatMap (CascadeState.log fuel)

/-- No result of a stop comes before a result of a stop that was announced earlier. -/
def InTriggerOrder (log : List LogEntry) : Prop :=
  ∀ first second,
    [EngineEvent.stopTriggered first, .stopTriggered second] <+ log.map (·.event) →
      log.Pairwise fun entry later => ¬ (entry.ResultOf second ∧ later.ResultOf first)

/-- The call comes to a pass that announces two stops or more. -/
def TriggersSeveral (fuel : ℕ) (b : OrderBook) (taker : Order) : Prop :=
  ∃ c order r, HasPass fuel b taker c order ∧ c.stopDepth < maxStopChainDepth ∧
    c.book.runMatchingLoop fuel order = some r ∧ 2 ≤ r.2.2.length

/-- The stops that the events announce. -/
def announced (events : List EngineEvent) : List Uuid :=
  events.filterMap fun e => match e with
    | .stopTriggered id => some id
    | _ => none

/-- The orders that were matched in these states. -/
def matched (states : List CascadeState) : List Uuid :=
  states.filterMap fun c => c.workQueue.head?.map (·.id)

section Passes

variable {b : OrderBook} {taker : Order} {s : MatchState} {fuel : ℕ}

/-! ## A pass produces an event -/

/-- The taker has told something, or it still has all to do. -/
def Tells (s : MatchState) : Prop := s.events ≠ [] ∨ 0 < s.taker.remaining

/-- A turn that changes something logs it. -/
theorem TurnSpec.tells {t : Turn MatchState (MatchState × MatchExit)} (ht : TurnSpec s t)
    (h : Tells s) : Tells (stateAfter t) := by
  cases ht with
  | exhausted => exact h
  | fillWhole =>
    left
    simp [stateAfter]
  | _ =>
    left
    exact List.append_ne_nil_of_right_ne_nil _ (List.cons_ne_nil _ _)

/-- Every pass logs an event. -/
theorem runMatchingLoop_tells {r : OrderBook × List EngineEvent × List Order}
    (h : Enters b taker) (hrun : b.runMatchingLoop fuel taker = some r) : r.2.1 ≠ [] := by
  obtain ⟨s, exit, hloop, rfl⟩ := runMatchingLoop_eq_some hrun
  have hend : Tells s ∧ (exit = .takerConsumed → s.events ≠ []) := by
    refine matchLoop_induct h (fun _ s => Tells s)
      (fun _ s exit => Tells s ∧ (exit = .takerConsumed → s.events ≠ [])) ?_ ?_ ?_ hloop
    · exact .inr h.ready.positive
    · intro past s s' _ _ htells hspec
      exact hspec.tells htells
    · intro past s s' exit _ _ htells hspec _
      refine ⟨hspec.tells htells, ?_⟩
      intro hconsumed
      cases hspec with
      | exhausted => cases hconsumed
      | cancelTaker => exact List.append_ne_nil_of_right_ne_nil _ (List.cons_ne_nil _ _)
      | decrementTaker => exact List.append_ne_nil_of_right_ne_nil _ (List.cons_ne_nil _ _)
      | decrementBoth => exact List.append_ne_nil_of_right_ne_nil _ (List.cons_ne_nil _ _)
  cases exit with
  | takerConsumed => exact hend.2 rfl
  | exhausted =>
    simp only [afterLoop, List.append_assoc]
    rcases hend.1 with htold | hpos
    · exact List.append_ne_nil_of_left_ne_nil htold _
    · -- what the taker has left rests or is cancelled
      apply List.append_ne_nil_of_right_ne_nil
      apply List.append_ne_nil_of_left_ne_nil
      have hspec := s.book.finalizeTaker_spec s.taker s.hadFills
      generalize s.book.finalizeTaker s.taker s.hadFills = final at hspec ⊢
      cases hspec with
      | filled hzero => exact absurd hzero hpos.ne'
      | cancelled => exact List.cons_ne_nil _ _
      | rested => exact List.cons_ne_nil _ _

/-- Every event of a pass is a result of its order. -/
theorem resultOf_of_mem {r : OrderBook × List EngineEvent × List Order} {e : EngineEvent}
    (h : Enters b taker) (hrun : b.runMatchingLoop fuel taker = some r) (he : e ∈ r.2.1) :
    LogEntry.ResultOf ⟨some taker.id, e⟩ taker.id := by
  refine ⟨rfl, ?_⟩
  cases e with
  | fill f => exact (runMatchingLoop_takes h.book.noEmpty hrun).fills f he
  | rested => trivial
  | cancelled => trivial
  | stopTriggered id => exact stopTriggered_notMem_pass h hrun id he

/-! ## The log -/

variable {c c' : CascadeState} {order : Order} {rest : List Order}
  {r : OrderBook × List EngineEvent × List Order}

/-- Before the depth guard a pass announces the stops it triggers. -/
theorem log_announcing (hqueue : c.workQueue = order :: rest)
    (hrun : c.book.runMatchingLoop fuel order = some r) (hdepth : c.stopDepth < maxStopChainDepth) :
    c.log fuel = (r.2.1.map fun e => ⟨some order.id, e⟩) ++
      r.2.2.map fun t => ⟨none, .stopTriggered t.id⟩ := by
  simp only [CascadeState.log, hqueue, hrun, if_pos hdepth]

/-- At the depth guard it announces none. -/
theorem log_cut (hqueue : c.workQueue = order :: rest)
    (hrun : c.book.runMatchingLoop fuel order = some r) (hdepth : maxStopChainDepth ≤ c.stopDepth) :
    c.log fuel = r.2.1.map fun e => ⟨some order.id, e⟩ := by
  simp only [CascadeState.log, hqueue, hrun, if_neg (not_lt.mpr hdepth)]

/-- The log of a turn tells the events of the turn. -/
theorem CascadeStep.events_eq_log (h : CascadeStep fuel c c') :
    c'.events = c.events ++ (c.log fuel).map (·.event) := by
  cases h with
  | push hqueue hrun hdepth =>
    rw [log_announcing hqueue hrun hdepth]
    simp [Function.comp_def]
  | cut hqueue hrun hdepth =>
    rw [log_cut hqueue hrun hdepth]
    simp [Function.comp_def]

/-- The results in the log of a turn are those of the order that was matched. -/
theorem head_of_resultOf {entry : LogEntry} {id : Uuid} (hmem : entry ∈ c.log fuel)
    (hresult : entry.ResultOf id) : c.workQueue.head?.map (·.id) = some id := by
  have hproducer := hresult.1
  unfold CascadeState.log at hmem
  cases hqueue : c.workQueue with
  | nil =>
    rw [hqueue] at hmem
    cases hmem
  | cons order rest =>
    rw [hqueue] at hmem
    dsimp only at hmem
    -- the results of the pass carry the order that was matched
    have hresults : ∀ events : List EngineEvent,
        entry ∈ events.map (fun e => LogEntry.mk (some order.id) e) → order.id = id := by
      intro events he
      obtain ⟨e, _, rfl⟩ := List.mem_map.mp he
      exact Option.some.inj hproducer
    rw [List.head?_cons, Option.map_some, Option.some.injEq]
    split at hmem
    · cases hmem
    · split_ifs at hmem
      · -- announcements of stops are results of no order
        rcases List.mem_append.mp hmem with hmem | hmem
        · exact hresults _ hmem
        · obtain ⟨t, _, rfl⟩ := List.mem_map.mp hmem
          cases hproducer
      · exact hresults _ hmem

/-- The turn that matches an order logs a result of it. -/
theorem exists_result (hc : CascadeSound c) (hqueue : c.workQueue = order :: rest)
    (hrun : c.book.runMatchingLoop fuel order = some r) :
    ∃ entry ∈ c.log fuel, entry.ResultOf order.id := by
  have henters := hc.enters hqueue
  obtain ⟨e, he⟩ := List.exists_mem_of_ne_nil _ (runMatchingLoop_tells henters hrun)
  refine ⟨⟨some order.id, e⟩, ?_, resultOf_of_mem henters hrun he⟩
  have hmem : (⟨some order.id, e⟩ : LogEntry) ∈
      r.2.1.map fun e => (⟨some order.id, e⟩ : LogEntry) :=
    List.mem_map_of_mem (f := fun e => (⟨some order.id, e⟩ : LogEntry)) he
  rcases lt_or_ge c.stopDepth maxStopChainDepth with hdepth | hdepth
  · rw [log_announcing hqueue hrun hdepth]
    exact List.mem_append_left _ hmem
  · rw [log_cut hqueue hrun hdepth]
    exact hmem

end Passes

section Cascade

variable {b : OrderBook} {taker : Order} {fuel n : ℕ} {c c' : CascadeState}
  {r : OrderBook × List EngineEvent}

/-- The log of a cascade tells its events. -/
theorem events_eq_log (hloop : loop (cascadeTurn fuel) n c = some r) :
    r.2 = c.events ++
      ((trace (cascadeTurn fuel) n c).flatMap (CascadeState.log fuel)).map (·.event) := by
  refine loop_invariant_trace
    (fun past d => d.events = c.events ++ (past.flatMap (CascadeState.log fuel)).map (·.event))
    (fun past r => r.2 = c.events ++ (past.flatMap (CascadeState.log fuel)).map (·.event))
    ?_ ?_ ?_ hloop
  · exact (List.append_nil _).symm
  · intro past d d' _ hpast hnext
    rw [(cascadeTurn_next hnext).events_eq_log, hpast, List.flatMap_append, List.flatMap_singleton,
      List.map_append, List.append_assoc]
  · intro past d r _ hpast hdone
    obtain ⟨hqueue, rfl⟩ := cascadeTurn_done hdone
    have hlog : d.log fuel = [] := by simp only [CascadeState.log, hqueue]
    rw [List.flatMap_append, List.flatMap_singleton, hlog, List.append_nil]
    exact hpast

/-! ## Passes that announce two stops -/

/-- A turn logs a result of the top of the work queue and leaves the orders below it there. -/
theorem CascadeStep.results (h : CascadeStep fuel c c') (hc : CascadeSound c) :
    ∃ top rest, c.workQueue = top :: rest ∧ (∃ entry ∈ c.log fuel, entry.ResultOf top.id) ∧
      ∀ o ∈ rest, o ∈ c'.workQueue := by
  cases h with
  | push hqueue hrun =>
    exact ⟨_, _, hqueue, exists_result hc hqueue hrun, fun o ho => List.mem_append_right _ ho⟩
  | cut hqueue hrun => exact ⟨_, _, hqueue, exists_result hc hqueue hrun, fun o ho => ho⟩

/-- Every order on the work queue is matched before the call returns. -/
theorem exists_result_of_queued (hc : CascadeSound c)
    (hloop : loop (cascadeTurn fuel) n c = some r) {o : Order} (ho : o ∈ c.workQueue) :
    ∃ entry ∈ (trace (cascadeTurn fuel) n c).flatMap (CascadeState.log fuel),
      entry.ResultOf o.id := by
  induction n generalizing c with
  | zero => cases hloop
  | succ n ih =>
    have hne : c.workQueue ≠ [] := List.ne_nil_of_mem ho
    obtain ⟨c', m, hm, hstep, htrace, hrest⟩ := exists_turn hne hloop
    cases Nat.succ.inj hm
    obtain ⟨top, rest, hqueue, ⟨entry, hmem, hresult⟩, hkeep⟩ := hstep.results hc
    rw [htrace, List.flatMap_cons]
    rw [hqueue] at ho
    -- the order is matched in this turn or stays on the queue
    rcases List.mem_cons.mp ho with rfl | ho
    · exact ⟨entry, List.mem_append_left _ hmem, hresult⟩
    · obtain ⟨later, hlater, hresult'⟩ := ih (hstep.sound hc) hrest (hkeep o ho)
      exact ⟨later, List.mem_append_right _ hlater, hresult'⟩

/-- The top of the work queue has results before the orders below it. -/
theorem result_before_rest (hc : CascadeSound c) (hloop : loop (cascadeTurn fuel) n c = some r)
    {top o : Order} {rest : List Order} (hqueue : c.workQueue = top :: rest) (ho : o ∈ rest) :
    ¬ ((trace (cascadeTurn fuel) n c).flatMap (CascadeState.log fuel)).Pairwise
      fun entry later => ¬ (entry.ResultOf top.id ∧ later.ResultOf o.id) := by
  have hne : c.workQueue ≠ [] := by
    rw [hqueue]
    exact List.cons_ne_nil _ _
  obtain ⟨c', k, _, hstep, htrace, hrest⟩ := exists_turn hne hloop
  obtain ⟨top', rest', hqueue', ⟨entry, hentry, hresult⟩, hkeep⟩ := hstep.results hc
  cases hqueue.symm.trans hqueue'
  obtain ⟨later, hlater, hresult'⟩ :=
    exists_result_of_queued (hstep.sound hc) hrest (hkeep o ho)
  rw [htrace, List.flatMap_cons, List.pairwise_append]
  rintro ⟨_, _, hacross⟩
  exact hacross entry hentry later hlater ⟨hresult, hresult'⟩

/-- A list with two elements or more has a first and a last one. -/
theorem exists_first_last {α : Type*} {l : List α} (h : 2 ≤ l.length) :
    ∃ first mid last, l = first :: (mid ++ [last]) := by
  cases l with
  | nil => simp at h
  | cons first l =>
    rcases List.eq_nil_or_concat l with rfl | ⟨mid, last, rfl⟩
    · simp at h
    · exact ⟨first, mid, last, by rw [List.concat_eq_append]⟩

/-- A pass that announces two stops breaks the order of triggering. -/
theorem not_inTriggerOrder (hc₀ : CascadeSound (b.enterCascade taker))
    (hpre : b.preCheck taker = none) (hactive : taker.orderType.isStop = false)
    (hloop : loop (cascadeTurn fuel) fuel (b.enterCascade taker) = some r)
    (h : TriggersSeveral fuel b taker) : ¬ InTriggerOrder (b.callLog fuel taker) := by
  obtain ⟨c, order, ⟨book, events, triggered⟩, hpass, hdepth, hrun, htwo⟩ := h
  obtain ⟨rest, hqueue⟩ := hpass.head
  obtain ⟨first, mid, last, htriggered⟩ := exists_first_last htwo
  dsimp only at htriggered
  have hc := cascadeSound_of_visits hc₀ hpass.visits
  obtain ⟨past, n, htrace, hloop'⟩ := trace_of_visits hpass.visits hloop
  have hnext : cascadeTurn fuel c = some (.next {
      book := book
      events := c.events ++ events ++ triggered.map fun t => .stopTriggered t.id
      workQueue := triggered.reverse ++ rest
      stopDepth := saturatingDepth c.stopDepth triggered.length }) := by
    simp only [cascadeTurn, hqueue, hrun, if_pos hdepth]
  obtain ⟨m, htrace', hrest⟩ := trace_of_next hnext hloop'
  -- the last stop is announced last and stands on top of the work queue
  have hqueue' : triggered.reverse ++ rest = last :: (mid.reverse ++ first :: rest) := by
    rw [htriggered]
    simp
  have hlate := result_before_rest ((cascadeTurn_next hnext).sound hc) hrest hqueue'
    (List.mem_append_right _ List.mem_cons_self)
  intro horder
  simp only [callLog, hpre, hactive, Bool.false_eq_true, if_false] at horder
  rw [htrace, htrace', List.flatMap_append, List.flatMap_cons] at horder
  have hboth : [EngineEvent.stopTriggered first.id, .stopTriggered last.id] <+
      (c.log fuel).map (·.event) := by
    rw [log_announcing hqueue hrun hdepth, List.map_append]
    apply List.Sublist.trans _ (List.sublist_append_right _ _)
    rw [List.map_map, htriggered]
    have hends : [first, last] <+ first :: (mid ++ [last]) :=
      (List.sublist_append_right mid [last]).cons_cons first
    exact hends.map fun t => EngineEvent.stopTriggered t.id
  have hlog := horder first.id last.id (by
    rw [List.map_append, List.map_append]
    exact (hboth.trans (List.sublist_append_left _ _)).trans (List.sublist_append_right _ _))
  apply hlate
  apply List.Pairwise.sublist _ hlog
  exact (List.sublist_append_right _ _).trans (List.sublist_append_right _ _)

/-! ## Passes that announce no more than one stop -/

/-- One order at a time is announced and matched. -/
structure InLine (taker : Order) (past : List CascadeState) (c : CascadeState) : Prop where
  one : c.workQueue.length ≤ 1
  turns : taker.id :: announced c.events = matched past ++ c.workQueue.map (·.id)
  unique : (↑(taker.id :: announced c.events) + c.book.stopPool.map (·.id)).Nodup

theorem announced_append (events events' : List EngineEvent) :
    announced (events ++ events') = announced events ++ announced events' :=
  List.filterMap_append

theorem announced_stopTriggered (orders : List Order) :
    announced (orders.map fun t => .stopTriggered t.id) = orders.map (·.id) := by
  induction orders with
  | nil => rfl
  | cons o orders ih =>
    rw [List.map_cons, List.map_cons, ← ih]
    rfl

/-- A pass itself announces nothing. -/
theorem announced_pass {order : Order} {out : OrderBook × List EngineEvent × List Order}
    (h : Enters b order) (hrun : b.runMatchingLoop fuel order = some out) :
    announced out.2.1 = [] := by
  apply List.filterMap_eq_nil_iff.mpr
  intro e he
  cases e with
  | stopTriggered id => exact absurd he (stopTriggered_notMem_pass h hrun id)
  | _ => rfl

/-- The orders that were matched, with one more pass. -/
theorem matched_concat (past : List CascadeState) {order : Order} {rest : List Order}
    (hqueue : c.workQueue = order :: rest) :
    matched (past ++ [c]) = matched past ++ [order.id] := by
  rw [matched, List.filterMap_append, matched]
  simp [hqueue]

theorem inLine_enter (hfresh : ∀ o ∈ b.pool, o.id ≠ taker.id)
    (hunique : (b.stopPool.map (·.id)).Nodup) : InLine taker [] (b.enterCascade taker) where
  one := le_rfl
  turns := rfl
  unique := by
    have hnot : taker.id ∉ b.stopPool.map (·.id) := by
      intro hmem
      obtain ⟨o, ho, hid⟩ := Multiset.mem_map.mp hmem
      exact hfresh o (mem_pool.mpr (.inr ho)) hid
    have hempty : announced (b.enterCascade taker).events = [] := rfl
    rw [hempty, ← Multiset.cons_coe, Multiset.cons_add, Multiset.coe_nil, zero_add,
      Multiset.nodup_cons]
    exact ⟨hnot, hunique⟩

/-- A turn that announces no more than one stop keeps the line. -/
theorem CascadeStep.inLine {past : List CascadeState} (hstep : CascadeStep fuel c c')
    (hc : CascadeSound c) (h : InLine taker past c)
    (hone : ∀ order rest out, c.workQueue = order :: rest → c.stopDepth < maxStopChainDepth →
      c.book.runMatchingLoop fuel order = some out → out.2.2.length ≤ 1) :
    InLine taker (past ++ [c]) c' := by
  have hempty : ∀ {order : Order} {rest : List Order}, c.workQueue = order :: rest → rest = [] := by
    intro order rest hqueue
    have hlen := h.one
    rw [hqueue, List.length_cons] at hlen
    exact List.length_eq_zero_iff.mp (by omega)
  have hturns : ∀ {order : Order} {rest : List Order}, c.workQueue = order :: rest →
      taker.id :: announced c.events = matched (past ++ [c]) := by
    intro order rest hqueue
    rw [matched_concat past hqueue, h.turns, hqueue, hempty hqueue, List.map_singleton]
  cases hstep with
  | @push order rest book new triggered hqueue hrun hdepth =>
    have henters := hc.enters hqueue
    have hlen : triggered.length ≤ 1 := hone order rest _ hqueue hdepth hrun
    have hrev : triggered.reverse = triggered := by
      rcases Nat.le_one_iff_eq_zero_or_eq_one.mp hlen with hzero | hsingle
      · rw [List.length_eq_zero_iff.mp hzero, List.reverse_nil]
      · obtain ⟨t, ht⟩ := List.length_eq_one_iff.mp hsingle
        rw [ht, List.reverse_singleton]
    have hannounced : announced (c.events ++ new ++ triggered.map fun t => .stopTriggered t.id) =
        announced c.events ++ triggered.map (·.id) := by
      rw [announced_append, announced_append, announced_pass henters hrun, List.append_nil,
        announced_stopTriggered]
    refine ⟨?_, ?_, ?_⟩
    · rw [hempty hqueue, List.append_nil, List.length_reverse]
      exact hlen
    · dsimp only
      rw [hannounced, hempty hqueue, hrev, List.append_nil, ← List.cons_append, hturns hqueue]
    · dsimp only
      rw [hannounced, ← List.cons_append, ← Multiset.coe_add, add_assoc]
      obtain ⟨hit, hhit, hle⟩ := (runMatchingLoop_sound henters hrun).hit
      dsimp only at hhit hle
      -- the stops that are announced leave the registry
      have hids : ↑(triggered.map (·.id)) + book.stopPool.map (·.id) ≤
          c.book.stopPool.map (·.id) := by
        rw [hhit, map_id_convertStop, ← Multiset.map_coe, ← Multiset.map_add]
        exact Multiset.map_le_map hle
      exact Multiset.nodup_of_le (add_le_add_right hids _) h.unique
  | @cut order rest book new triggered hqueue hrun hdepth =>
    have henters := hc.enters hqueue
    have hannounced : announced (c.events ++ new) = announced c.events := by
      rw [announced_append, announced_pass henters hrun, List.append_nil]
    refine ⟨?_, ?_, ?_⟩
    · rw [hempty hqueue]
      exact Nat.zero_le 1
    · dsimp only
      rw [hannounced, hempty hqueue, hturns hqueue, List.map_nil, List.append_nil]
    · dsimp only
      rw [hannounced]
      obtain ⟨hit, _, hle⟩ := (runMatchingLoop_sound henters hrun).hit
      have hstops := Multiset.map_le_map (f := (·.id)) ((Multiset.le_add_left _ _).trans hle)
      exact Multiset.nodup_of_le (add_le_add_right hstops _) h.unique

/-- At the end of a call whose passes announce no more than one stop each, the orders were matched
in the order of the announcements. -/
theorem matched_of_call (hc₀ : CascadeSound (b.enterCascade taker))
    (hfresh : ∀ o ∈ b.pool, o.id ≠ taker.id) (hpre : b.preCheck taker = none)
    (hactive : taker.orderType.isStop = false)
    (hloop : loop (cascadeTurn fuel) fuel (b.enterCascade taker) = some r)
    (h : ¬ TriggersSeveral fuel b taker) :
    taker.id :: announced r.2 = matched (trace (cascadeTurn fuel) fuel (b.enterCascade taker)) ∧
      (taker.id :: announced r.2).Nodup := by
  refine loop_invariant_trace (InLine taker)
    (fun past r => taker.id :: announced r.2 = matched past ∧ (taker.id :: announced r.2).Nodup)
    (inLine_enter hfresh (stops_nodup hc₀)) ?_ ?_ hloop
  · -- a turn that triggered two stops is what is excluded
    intro past d d' hv hline hnext
    apply (cascadeTurn_next hnext).inLine (cascadeSound_of_visits hc₀ hv) hline
    intro order rest out hqueue hdepth hrun
    by_contra hmany
    exact h ⟨d, order, out, ⟨hpre, hactive, hv, rest, hqueue⟩, hdepth, hrun, by omega⟩
  · -- the queue is empty: all that was announced has been matched
    intro past d r _ hline hdone
    obtain ⟨hqueue, rfl⟩ := cascadeTurn_done hdone
    have hturns := hline.turns
    have hlast : matched (past ++ [d]) = matched past := by
      rw [matched, List.filterMap_append, matched]
      simp [hqueue]
    rw [hqueue, List.map_nil, List.append_nil] at hturns
    rw [hlast]
    refine ⟨hturns, ?_⟩
    have hnodup := (Multiset.nodup_add.mp hline.unique).1
    rwa [Multiset.coe_nodup] at hnodup

/-- If the stops are matched in the order they were announced, the events come in trigger order. -/
theorem inTriggerOrder_of_line {states : List CascadeState}
    (hturns : taker.id :: announced (((states.flatMap (CascadeState.log fuel))).map (·.event)) =
      matched states) (hnodup : (matched states).Nodup) :
    InTriggerOrder (states.flatMap (CascadeState.log fuel)) := by
  intro first second hannounced
  have horder : [first, second] <+ matched states := by
    rw [← hturns]
    have hids := hannounced.filterMap fun e => match e with
      | .stopTriggered id => some id
      | _ => none
    exact hids.trans (List.sublist_cons_self _ _)
  have hne : first ≠ second := by
    rintro rfl
    have hboth := hnodup.sublist horder
    simp at hboth
  apply List.pairwise_flatMap.mpr
  constructor
  · -- the results of one turn are all of one order
    intro c _
    apply List.pairwise_of_forall_mem_list
    rintro entry hentry later hlater ⟨hresult, hresult'⟩
    have hsecond := head_of_resultOf hentry hresult
    have hfirst := head_of_resultOf hlater hresult'
    rw [hsecond] at hfirst
    exact hne (Option.some.inj hfirst).symm
  · apply List.pairwise_iff_forall_sublist.mpr
    rintro c c' hsub entry hentry later hlater ⟨hresult, hresult'⟩
    have hback : [second, first] <+ matched states := by
      have hheads : matched [c, c'] = [second, first] := by
        simp [matched, head_of_resultOf hentry hresult, head_of_resultOf hlater hresult']
      rw [← hheads]
      exact hsub.filterMap _
    exact not_both_orders hnodup horder hback

/-- The registration of a stop has one event. -/
theorem registerStopOrder_tells (b : OrderBook) (order : Order) :
    ∃ e, (b.registerStopOrder order).2 = [e] := by
  unfold registerStopOrder
  split
  · exact ⟨_, rfl⟩
  · exact ⟨_, rfl⟩

end Cascade

/-- In a call of `match_order` on a book that a run has reached, stops are executed in the order in
which they are announced exactly if no pass announces two stops or more. The log tells the events
that the call returns. -/
theorem inTriggerOrder_iff {cmds : List BookCommand} {b b' : OrderBook} {taker : Order} {fuel : ℕ}
    {events : List EngineEvent} (hb : Arises cmds b) (htaker : taker.Waiting)
    (hfresh : taker.id ∉ submittedIds cmds)
    (hcall : b.matchOrder fuel taker = some (b', events)) :
    (b.callLog fuel taker).map (·.event) = events ∧
    (InTriggerOrder (b.callLog fuel taker) ↔ ¬ TriggersSeveral fuel b taker) := by
  have hafter := hb.after
  have hfresh' := hafter.fresh hfresh
  -- without a cascade there is only one event
  have hsingle : ∀ entry, InTriggerOrder [entry] := fun _ _ _ _ => List.pairwise_singleton _ _
  have hcases := matchOrder_cases hcall
  generalize hr : (b', events) = r at hcases
  cases hcases with
  | rejected reason hpre =>
    cases hr
    have hnone : ¬ TriggersSeveral fuel b taker := by
      rintro ⟨c, order, r, hpass, _⟩
      have haccepted := hpass.accepted
      rw [hpre] at haccepted
      cases haccepted
    simp only [callLog, hpre]
    exact ⟨rfl, iff_of_true (hsingle _) hnone⟩
  | stop hpre hstop =>
    have hnone : ¬ TriggersSeveral fuel b taker := by
      rintro ⟨c, order, r, hpass, _⟩
      have hactive := hpass.active
      rw [hstop] at hactive
      cases hactive
    obtain ⟨e, he⟩ := registerStopOrder_tells b taker
    simp only [callLog, hpre, hstop, if_true, he]
    rw [← hr] at he
    exact ⟨he.symm, iff_of_true (hsingle _) hnone⟩
  | matched hpre hactive hloop =>
    cases hr
    have hready : taker.Ready := ⟨htaker.positive, hactive, htaker.priced⟩
    have hc₀ := cascadeSound_enter hafter.sound hready hfresh'
    have hlog : b.callLog fuel taker =
        (trace (cascadeTurn fuel) fuel (b.enterCascade taker)).flatMap (CascadeState.log fuel) := by
      simp only [callLog, hpre, hactive, Bool.false_eq_true, if_false]
    have htold : (b.callLog fuel taker).map (·.event) = events := by
      rw [hlog]
      exact (events_eq_log hloop).symm
    refine ⟨htold, ?_⟩
    constructor
    · intro horder hseveral
      exact not_inTriggerOrder hc₀ hpre hactive hloop hseveral horder
    · intro hone
      obtain ⟨hturns, hnodup⟩ := matched_of_call hc₀ hfresh' hpre hactive hloop hone
      rw [hlog]
      rw [hlog] at htold
      apply inTriggerOrder_of_line
      · rw [htold]
        exact hturns
      · rw [← hturns]
        exact hnodup

/-- Asks for one at 100 and for one at 101, and two stops to buy one at 100. -/
def twoStops : List BookCommand :=
  [.matchOrder (limitOrder 1 10 .sell 100 1), .matchOrder (limitOrder 2 10 .sell 101 1),
    .matchOrder (buyStop 3 100), .matchOrder (buyStop 4 100)]

theorem waiting_twoStops : ∀ o ∈ submitted twoStops, o.Waiting := by
  have hform : ∀ o ∈ submitted twoStops,
      0 < o.remaining ∧ (o.orderType.canRest = true → o.price.isSome = true) := by decide
  intro o ho
  refine ⟨(hform o ho).1, ?_⟩
  intro hrest
  exact Option.isSome_iff_exists.mp ((hform o ho).2 hrest)

/-- What a bid for one at 100 brings about. -/
def twoStopsLog : List LogEntry :=
  [⟨some 5, .fill (fillOf (limitOrder 5 11 .buy 100 1) (limitOrder 1 10 .sell 100 1) 100)⟩,
    ⟨none, .stopTriggered 3⟩, ⟨none, .stopTriggered 4⟩,
    ⟨some 4, .fill (fillOf (convertStop (buyStop 4 100)) (limitOrder 2 10 .sell 101 1) 101)⟩,
    ⟨some 3, .cancelled 3 .noLiquidity⟩]

/-- A trade at 100 announces the stops 3 and 4. Stop 4 is matched first and gets the ask at 101;
stop 3 is cancelled after it. -/
theorem second_stop_served_first :
    ∃ b b', Arises twoStops b ∧
      b.matchOrder 9 (limitOrder 5 11 .buy 100 1) = some (b', twoStopsLog.map (·.event)) ∧
      b.callLog 9 (limitOrder 5 11 .buy 100 1) = twoStopsLog ∧
      ¬ InTriggerOrder (b.callLog 9 (limitOrder 5 11 .buy 100 1)) := by
  have hrun : ((OrderBook.new.runCommands 9 twoStops).bind fun b =>
      (b.matchOrder 9 (limitOrder 5 11 .buy 100 1)).map fun r =>
        (r.2, b.callLog 9 (limitOrder 5 11 .buy 100 1))) =
      some (twoStopsLog.map (·.event), twoStopsLog) := by decide +kernel
  obtain ⟨b, hb, hcall⟩ := Option.bind_eq_some_iff.mp hrun
  obtain ⟨⟨b', events⟩, hmatch, houtput⟩ := Option.map_eq_some_iff.mp hcall
  obtain ⟨rfl, hlog⟩ := Prod.mk.inj houtput
  refine ⟨b, b', ⟨waiting_twoStops, by decide, 9, hb⟩, hmatch, hlog, ?_⟩
  rw [hlog]
  intro horder
  have hresults := horder 3 4 (by decide)
  have hback : [LogEntry.mk (some 4)
        (.fill (fillOf (convertStop (buyStop 4 100)) (limitOrder 2 10 .sell 101 1) 101)),
      ⟨some 3, .cancelled 3 .noLiquidity⟩] <+ twoStopsLog := by decide
  exact List.pairwise_iff_forall_sublist.mp hresults hback ⟨⟨rfl, rfl⟩, ⟨rfl, trivial⟩⟩

/-- The theorem on that call. -/
theorem inTriggerOrder_iff_twoStops :
    ∃ b b' events, b.matchOrder 9 (limitOrder 5 11 .buy 100 1) = some (b', events) ∧
      (b.callLog 9 (limitOrder 5 11 .buy 100 1)).map (·.event) = events ∧
      (InTriggerOrder (b.callLog 9 (limitOrder 5 11 .buy 100 1)) ↔
        ¬ TriggersSeveral 9 b (limitOrder 5 11 .buy 100 1)) := by
  have hrun : ((OrderBook.new.runCommands 9 twoStops).bind fun b =>
      b.matchOrder 9 (limitOrder 5 11 .buy 100 1)).isSome = true := by decide +kernel
  obtain ⟨⟨b', events⟩, hrun⟩ := Option.isSome_iff_exists.mp hrun
  obtain ⟨b, hb, hcall⟩ := Option.bind_eq_some_iff.mp hrun
  exact ⟨b, b', events, hcall, inTriggerOrder_iff ⟨waiting_twoStops, by decide, 9, hb⟩
    ⟨by decide, fun _ => ⟨100, rfl⟩⟩ (by decide) hcall⟩

end CryptoCex.Core
