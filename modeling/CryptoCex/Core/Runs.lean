import CryptoCex.Core.Cascade

/-!
# Runs of the book

A book is used through three calls: `register_oco`, `match_order` and
`cancel_order`. A run is a list of them on an empty book. This module shows that
every run of well-formed orders with fresh ids returns, and that its book
satisfies the representation invariant of the source (`RepInvariant`).

A result does not depend on the fuel (`runCommands_mono`), so "the book a run
reaches" is the book of any run that returns.
-/

namespace CryptoCex.Core

open Loop OrderBook

/-! ## More fuel -/

section Fuel

variable {b : OrderBook} {taker : Order} {fuel fuel' : ℕ}

/-- More fuel does not change what a run returns. -/
theorem runMatchingLoop_mono {r : OrderBook × List EngineEvent × List Order}
    (hle : fuel ≤ fuel') (h : b.runMatchingLoop fuel taker = some r) :
    b.runMatchingLoop fuel' taker = some r := by
  unfold runMatchingLoop at *
  cases hloop : loop matchTurn fuel (b.enterLoop taker) with
  | none =>
    rw [hloop] at h
    cases h
  | some out =>
    rw [hloop] at h
    rw [loop_mono (fun _ _ h => h) hle hloop]
    exact h

theorem cascadeTurn_mono {c : CascadeState} {t : Turn CascadeState (OrderBook × List EngineEvent)}
    (hle : fuel ≤ fuel') (h : cascadeTurn fuel c = some t) : cascadeTurn fuel' c = some t := by
  unfold cascadeTurn at *
  cases hqueue : c.workQueue with
  | nil =>
    rw [hqueue] at h
    exact h
  | cons order rest =>
    rw [hqueue] at h
    dsimp only at h ⊢
    cases hrun : c.book.runMatchingLoop fuel order with
    | none =>
      rw [hrun] at h
      cases h
    | some r =>
      rw [hrun] at h
      rw [runMatchingLoop_mono hle hrun]
      exact h

/-- Nor what a call returns. -/
theorem matchOrder_mono {r : OrderBook × List EngineEvent} (hle : fuel ≤ fuel')
    (h : b.matchOrder fuel taker = some r) : b.matchOrder fuel' taker = some r := by
  unfold matchOrder at *
  cases hpre : b.preCheck taker with
  | some reject =>
    rw [hpre] at h
    exact h
  | none =>
    rw [hpre] at h
    dsimp only at h ⊢
    split_ifs at h ⊢
    · exact h
    · exact loop_mono (fun _ _ h => cascadeTurn_mono hle h) hle h

end Fuel

/-! ## Commands -/

/-- A call on the book. -/
inductive BookCommand where
  | registerOco (legA legB : Uuid)
  | matchOrder (order : Order)
  | cancelOrder (orderId : Uuid)
deriving DecidableEq, Repr

/-- Carries out one call. -/
def OrderBook.exec [Rounding] (fuel : ℕ) (b : OrderBook) :
    BookCommand → Option (OrderBook × List EngineEvent)
  | .registerOco legA legB => some (b.registerOco legA legB, [])
  | .matchOrder order => b.matchOrder fuel order
  | .cancelOrder orderId => some (b.cancelOrder orderId)

/-- Carries out a list of calls. -/
def OrderBook.runCommands [Rounding] (fuel : ℕ) : OrderBook → List BookCommand → Option OrderBook
  | b, [] => some b
  | b, cmd :: cmds =>
    match b.exec fuel cmd with
    | none => none
    | some (b', _) => runCommands fuel b' cmds

/-- The orders a run submits. -/
def submitted : List BookCommand → List Order
  | [] => []
  | .matchOrder order :: cmds => order :: submitted cmds
  | _ :: cmds => submitted cmds

theorem exec_mono {b : OrderBook} {cmd : BookCommand} {fuel fuel' : ℕ}
    {r : OrderBook × List EngineEvent} (hle : fuel ≤ fuel') (h : b.exec fuel cmd = some r) :
    b.exec fuel' cmd = some r := by
  cases cmd with
  | registerOco => exact h
  | matchOrder order => exact matchOrder_mono hle h
  | cancelOrder => exact h

theorem runCommands_cons {b : OrderBook} {cmd : BookCommand} {cmds : List BookCommand} {fuel : ℕ}
    {r : OrderBook × List EngineEvent} (h : b.exec fuel cmd = some r) :
    b.runCommands fuel (cmd :: cmds) = r.1.runCommands fuel cmds := by
  simp only [runCommands, h]

/-- A run of commands is its first one and the rest. -/
theorem runCommands_cons_eq_some {b b' : OrderBook} {cmd : BookCommand}
    {cmds : List BookCommand} {fuel : ℕ} (h : b.runCommands fuel (cmd :: cmds) = some b') :
    ∃ r, b.exec fuel cmd = some r ∧ r.1.runCommands fuel cmds = some b' := by
  unfold runCommands at h
  cases hexec : b.exec fuel cmd with
  | none =>
    rw [hexec] at h
    cases h
  | some r =>
    rw [hexec] at h
    exact ⟨r, rfl, h⟩

/-- Nor where a run of commands comes to. -/
theorem runCommands_mono {b b' : OrderBook} {cmds : List BookCommand} {fuel fuel' : ℕ}
    (hle : fuel ≤ fuel') (h : b.runCommands fuel cmds = some b') :
    b.runCommands fuel' cmds = some b' := by
  induction cmds generalizing b with
  | nil => exact h
  | cons cmd cmds ih =>
    rcases runCommands_cons_eq_some h with ⟨r, hr, hrest⟩
    rw [runCommands_cons (exec_mono hle hr)]
    exact ih hrest

/-- The invariant rule for runs that return. The invariant may speak of the
calls made so far. -/
theorem runCommands_invariant (Inv : List BookCommand → OrderBook → Prop)
    (Ok : List BookCommand → BookCommand → Prop) {fuel : ℕ}
    (hexec : ∀ past b cmd r, Inv past b → Ok past cmd → b.exec fuel cmd = some r →
      Inv (past ++ [cmd]) r.1)
    (past : List BookCommand) {cmds : List BookCommand} {b b' : OrderBook} (h0 : Inv past b)
    (hok : ∀ l cmd l', cmds = l ++ cmd :: l' → Ok (past ++ l) cmd)
    (h : b.runCommands fuel cmds = some b') : Inv (past ++ cmds) b' := by
  induction cmds generalizing past b with
  | nil =>
    cases h
    rw [List.append_nil]
    exact h0
  | cons cmd cmds ih =>
    rcases runCommands_cons_eq_some h with ⟨r, hr, hrest⟩
    have hcmd : Ok past cmd := by
      have := hok [] cmd cmds rfl
      rwa [List.append_nil] at this
    have hnext := ih (past ++ [cmd]) (hexec past b cmd r h0 hcmd hr) ?_ hrest
    · rwa [List.append_assoc] at hnext
    · intro l c l' hsplit
      have := hok (cmd :: l) c l' (by rw [hsplit, List.cons_append])
      rwa [List.append_assoc]

/-- The total rule: when every call from an invariant book returns for some
fuel, so does every run. -/
theorem runCommands_terminates (Inv : List BookCommand → OrderBook → Prop)
    (Ok : List BookCommand → BookCommand → Prop)
    (hexec : ∀ past b cmd, Inv past b → Ok past cmd →
      ∃ fuel r, b.exec fuel cmd = some r ∧ Inv (past ++ [cmd]) r.1)
    (past : List BookCommand) {cmds : List BookCommand} {b : OrderBook} (h0 : Inv past b)
    (hok : ∀ l cmd l', cmds = l ++ cmd :: l' → Ok (past ++ l) cmd) :
    ∃ n b', (∀ fuel ≥ n, b.runCommands fuel cmds = some b') ∧ Inv (past ++ cmds) b' := by
  induction cmds generalizing past b with
  | nil =>
    refine ⟨0, b, fun _ _ => rfl, ?_⟩
    rw [List.append_nil]
    exact h0
  | cons cmd cmds ih =>
    have hcmd : Ok past cmd := by
      have := hok [] cmd cmds rfl
      rwa [List.append_nil] at this
    rcases hexec past b cmd h0 hcmd with ⟨fuel, r, hr, hinv⟩
    have hrest : ∀ l c l', cmds = l ++ c :: l' → Ok (past ++ [cmd] ++ l) c := by
      intro l c l' hsplit
      have := hok (cmd :: l) c l' (by rw [hsplit, List.cons_append])
      rwa [List.append_assoc]
    rcases ih (past ++ [cmd]) hinv hrest with ⟨n, b', hrun, hb'⟩
    rw [List.append_assoc] at hb'
    -- fuel for this call and for the rest
    refine ⟨max fuel n, b', ?_, hb'⟩
    intro fuel' hfuel'
    rw [runCommands_cons (exec_mono ((le_max_left _ _).trans hfuel') hr)]
    exact hrun fuel' ((le_max_right _ _).trans hfuel')

theorem submitted_append (cmds cmds' : List BookCommand) :
    submitted (cmds ++ cmds') = submitted cmds ++ submitted cmds' := by
  induction cmds with
  | nil => rfl
  | cons cmd cmds ih =>
    cases cmd with
    | matchOrder order => simp only [List.cons_append, submitted, ih]
    | registerOco => simp only [List.cons_append, submitted, ih]
    | cancelOrder => simp only [List.cons_append, submitted, ih]

/-! ## Books reached by a run -/

/-- The ids of the orders a run submits. -/
def submittedIds (cmds : List BookCommand) : List Uuid := (submitted cmds).map (·.id)

theorem submittedIds_concat_match (past : List BookCommand) (order : Order) :
    submittedIds (past ++ [.matchOrder order]) = submittedIds past ++ [order.id] := by
  simp [submittedIds, submitted_append, submitted]

/-- A call that may follow `past`: an order submitted now has property `P` and
a fresh id. -/
def Follows (P : Order → Prop) (past : List BookCommand) (cmd : BookCommand) : Prop :=
  ∀ order, cmd = .matchOrder order → P order ∧ order.id ∉ submittedIds past

/-- When no id comes twice, every command follows with a new one. -/
theorem follows_of_nodup {P : Order → Prop} {cmds : List BookCommand}
    (hall : ∀ o ∈ submitted cmds, P o) (hfresh : (submittedIds cmds).Nodup) :
    ∀ l cmd l', cmds = l ++ cmd :: l' → Follows P ([] ++ l) cmd := by
  intro l cmd l' hsplit order hcmd
  subst hcmd
  have hsub : submitted cmds = submitted l ++ order :: submitted l' := by
    rw [hsplit, submitted_append]
    rfl
  refine ⟨hall order ?_, ?_⟩
  · rw [hsub]
    exact List.mem_append_right _ List.mem_cons_self
  · intro hmem
    rw [submittedIds, hsub, List.map_append, List.map_cons] at hfresh
    exact (List.nodup_append.mp hfresh).2.2 order.id hmem order.id List.mem_cons_self rfl

/-- The book stands after the calls `past`: it is sound and holds only orders
that were submitted. -/
structure After (past : List BookCommand) (b : OrderBook) : Prop where
  sound : b.Sound
  known : ∀ o ∈ b.pool, o.id ∈ submittedIds past

/-- No live order has an id that was not submitted. -/
theorem After.fresh {past : List BookCommand} {b : OrderBook} (h : After past b) {id : Uuid}
    (hid : id ∉ submittedIds past) : ∀ o ∈ b.pool, o.id ≠ id := by
  intro o ho heq
  rw [← heq] at hid
  exact hid (h.known o ho)

theorem OrderBook.Sound.cancelOrder {b : OrderBook} (hb : b.Sound) (id : Uuid) :
    (b.cancelOrder id).1.Sound := by
  have hstops := (within_cancelOrder b id).stops
  refine ⟨?_, fun o ho => hb.stops o (Multiset.mem_of_le hstops ho)⟩
  unfold OrderBook.cancelOrder
  cases b.ocoLinks.find? id with
  | none => exact (hb.book.cancels id .adminCancel).consistent hb.book
  | some linkedId =>
    have hlink : (b.unlink id linkedId).Consistent := consistent_unlink.mpr hb.book
    have hfirst := (hlink.cancels id .adminCancel).consistent hlink
    exact (hfirst.cancels linkedId .oco).consistent hfirst

/-- Every call of a run keeps the book sound. -/
theorem exec_after {P : Order → Prop} (hP : ∀ o, P o → o.Admissible) {fuel : ℕ}
    {past : List BookCommand} {b : OrderBook} {cmd : BookCommand}
    {r : OrderBook × List EngineEvent} (h : After past b) (hcmd : Follows P past cmd)
    (hexec : b.exec fuel cmd = some r) : After (past ++ [cmd]) r.1 := by
  have hkeep : ∀ {id}, id ∈ submittedIds past → id ∈ submittedIds (past ++ [cmd]) := by
    intro id hid
    rw [submittedIds, submitted_append, List.map_append]
    exact List.mem_append_left _ hid
  cases cmd with
  | registerOco legA legB =>
    cases hexec
    exact ⟨⟨consistent_withLinks.mpr h.sound.book, h.sound.stops⟩, fun o ho => hkeep (h.known o ho)⟩
  -- whatever is in the book afterwards was there before, or is the new order
  | matchOrder order =>
    rcases hcmd order rfl with ⟨hadm, hfresh⟩
    rcases matchOrder_sound h.sound (hP order hadm) (h.fresh hfresh) hexec with ⟨hsound, hids⟩
    refine ⟨hsound, ?_⟩
    intro o ho
    have hmem : o.id ∈ order.id ::ₘ b.toPool.ids :=
      Multiset.mem_of_le hids (Multiset.mem_map_of_mem _ ho)
    rw [submittedIds_concat_match]
    rcases Multiset.mem_cons.mp hmem with hid | hid
    · rw [hid]
      exact List.mem_append_right _ List.mem_cons_self
    · rcases Multiset.mem_map.mp hid with ⟨x, hx, hxid⟩
      rw [← hxid]
      exact List.mem_append_left _ (h.known x hx)
  -- a cancel only removes
  | cancelOrder id =>
    cases hexec
    refine ⟨h.sound.cancelOrder id, ?_⟩
    intro o ho
    exact hkeep (h.known o (Multiset.mem_of_le (within_cancelOrder b id).pool_le ho))

theorem after_new : After [] OrderBook.new where
  sound := ⟨consistent_new, by simp⟩
  known := by simp

/-- `b` is the book after a run of admissible orders with fresh ids. -/
structure Reaches [Rounding] (cmds : List BookCommand) (b : OrderBook) : Prop where
  admissible : ∀ o ∈ submitted cmds, o.Admissible
  fresh : (submittedIds cmds).Nodup
  run : ∃ fuel, OrderBook.new.runCommands fuel cmds = some b

/-- What is known of the book after commands is known of every book that is reached. -/
theorem Reaches.after {cmds : List BookCommand} {b : OrderBook} (h : Reaches cmds b) :
    After cmds b := by
  rcases h.run with ⟨fuel, hrun⟩
  exact runCommands_invariant After (Follows Order.Admissible)
    (fun past b cmd r hinv hok hexec => exec_after (fun _ h => h) hinv hok hexec) [] after_new
    (follows_of_nodup h.admissible h.fresh) hrun

/-! ## The representation invariant -/

/-- An order as callers submit it. -/
structure Order.WellFormed (o : Order) : Prop where
  full : o.remaining = o.quantity
  positive : 0 < o.quantity
  priced : o.orderType.canRest = true → ∃ p, o.price = some p
  stopPriced : o.orderType.isStop = true → ∃ p, o.stopPrice = some p
  display : ∀ d, o.displayQty = some d → 0 < d

/-- A well-formed order is admissible. -/
theorem Order.WellFormed.admissible {o : Order} (h : o.WellFormed) : o.Admissible where
  positive := by
    rw [h.full]
    exact h.positive
  priced := h.priced
  stopPriced := h.stopPriced

theorem limitOrder_wellFormed {id userId : Uuid} {side : Side} {price quantity : Decimal}
    (h : 0 < quantity) : (limitOrder id userId side price quantity).WellFormed where
  full := rfl
  positive := h
  priced := fun _ => ⟨price, rfl⟩
  stopPriced := by
    intro hstop
    cases hstop
  display := by
    intro d hd
    cases hd

/-- An order that can trade and has no more left than it came with. -/
structure Order.Fit (o : Order) : Prop where
  sized : o.Sized
  le : o.remaining ≤ o.quantity

theorem kept_fit : Kept Order.Fit where
  sized := fun _ h => h.sized
  shrink := fun o r h hr hle => ⟨kept_sized.shrink o r h.sized hr hle, hle.trans h.le⟩
  convert := fun o h => ⟨kept_sized.convert o h.sized, h.le⟩

theorem Order.WellFormed.fit {o : Order} (h : o.WellFormed) : o.Fit where
  sized := ⟨h.admissible.positive, h.display⟩
  le := h.full.le

/-- The representation invariant of the order book. -/
structure OrderBook.RepInvariant (b : OrderBook) : Prop where
  noEmpty : ∀ side price level, (b.levels side).find? price = some level → level ≠ []
  placed : ∀ side price o, o ∈ b.queue side price → o.side = side ∧ o.price = some price
  remaining : ∀ side price o, o ∈ b.queue side price → 0 < o.remaining ∧ o.remaining ≤ o.quantity
  unique : (b.live.map (·.id)).Nodup
  indexed : ∀ id side price, b.orderIndex.find? id = some (side, price) ↔
    ∃ o ∈ b.queue side price, o.id = id
  filed : ∀ side price o, o ∈ (b.stops.buckets side).queueAt price →
    o.orderType.isStop = true ∧ o.side = side ∧ o.stopPrice = some price

/-- The representation invariant of a consistent book of orders that fit. -/
theorem OrderBook.Consistent.repInvariant {b : OrderBook} (hb : b.Consistent)
    (hall : b.All Order.Fit) : b.RepInvariant where
  noEmpty := hb.noEmpty
  placed := hb.placed
  remaining := by
    intro side price o ho
    have hfit := hall.all o (mem_pool_of_mem_queue ho)
    exact ⟨hfit.sized.positive, hfit.le⟩
  unique := by
    have hunique := hb.unique
    rw [pool_eq_coe_live] at hunique
    exact hunique
  indexed := hb.indexed
  filed := hb.filed

/-- Every call returns, and keeps the property of all live orders. -/
theorem exec_terminates {K : Order → Prop} (hK : Kept K)
    {b : OrderBook} {cmd : BookCommand} (hb : b.All K)
    (hcmd : ∀ order, cmd = .matchOrder order → K order) :
    (∃ fuel r, b.exec fuel cmd = some r) ∧
      ∀ fuel r, b.exec fuel cmd = some r → r.1.All K := by
  cases cmd with
  | registerOco legA legB =>
    refine ⟨⟨0, _, rfl⟩, ?_⟩
    intro fuel r h
    cases h
    exact ⟨hb.noEmpty, hb.all⟩
  | matchOrder order =>
    have horder := hcmd order rfl
    refine ⟨?_, fun fuel r h => (matchOrder_all hK hb horder h).1⟩
    rcases matchOrder_terminates hK hb horder with ⟨n, hn⟩
    exact ⟨n, hn n (le_refl n)⟩
  | cancelOrder id =>
    refine ⟨⟨0, _, rfl⟩, ?_⟩
    intro fuel r h
    cases h
    exact (within_cancelOrder b id).all hb

/-- A run of orders that can trade keeps to such orders. -/
theorem Reaches.all {K : Order → Prop} (hK : Kept K) {cmds : List BookCommand} {b : OrderBook}
    (h : Reaches cmds b) (hall : ∀ o ∈ submitted cmds, K o) : b.All K := by
  rcases h.run with ⟨fuel, hrun⟩
  refine runCommands_invariant (fun _ b => b.All K) (Follows K) ?_ [] (all_new K)
    (follows_of_nodup hall h.fresh) hrun
  intro past b cmd r hb hcmd hexec
  exact (exec_terminates hK hb (fun order h => (hcmd order h).1)).2 fuel r hexec

/-- A call on a reached book returns when no display quantity is zero. -/
theorem Reaches.matchOrder_terminates {cmds : List BookCommand} {b : OrderBook} {taker : Order}
    (hb : Reaches cmds b) (htaker : 0 < taker.remaining)
    (hdisplay : ∀ o ∈ taker :: submitted cmds, ∀ d, o.displayQty = some d → 0 < d) :
    ∃ n, ∀ fuel ≥ n, ∃ r, b.matchOrder fuel taker = some r := by
  have hall : b.All Order.Sized := hb.all kept_sized fun o ho =>
    ⟨(hb.admissible o ho).positive, hdisplay o (List.mem_cons_of_mem taker ho)⟩
  exact Core.matchOrder_terminates kept_sized hall ⟨htaker, hdisplay taker List.mem_cons_self⟩

/-- Every run of well-formed orders with fresh ids on an empty book returns a
book that satisfies the representation invariant. -/
theorem repInvariant_of_runCommands (cmds : List BookCommand)
    (hwf : ∀ o ∈ submitted cmds, o.WellFormed) (hfresh : (submittedIds cmds).Nodup) :
    ∃ n b, (∀ fuel ≥ n, OrderBook.new.runCommands fuel cmds = some b) ∧ b.RepInvariant := by
  have hexec : ∀ past b cmd, (After past b ∧ b.All Order.Fit) →
      Follows Order.WellFormed past cmd → ∃ fuel r, b.exec fuel cmd = some r ∧
        After (past ++ [cmd]) r.1 ∧ r.1.All Order.Fit := by
    rintro past b cmd ⟨hafter, hall⟩ hcmd
    rcases exec_terminates kept_fit hall
      (fun order h => (hcmd order h).1.fit) with ⟨⟨fuel, r, hr⟩, hkeep⟩
    exact ⟨fuel, r, hr, exec_after (fun _ h => h.admissible) hafter hcmd hr, hkeep fuel r hr⟩
  rcases runCommands_terminates (fun past b => After past b ∧ b.All Order.Fit)
    (Follows Order.WellFormed) hexec [] ⟨after_new, all_new _⟩ (follows_of_nodup hwf hfresh) with
    ⟨n, b, hrun, hafter, hall⟩
  exact ⟨n, b, hrun, hafter.sound.book.repInvariant hall⟩

/-- The invariant on a run that fills a maker in part and cancels the rest. -/
theorem repInvariant_partial_fill :
    ∃ n b, (∀ fuel ≥ n, OrderBook.new.runCommands fuel
      [.matchOrder (limitOrder 1 10 .sell 100 5), .registerOco 1 2,
        .matchOrder (limitOrder 3 11 .buy 100 2), .cancelOrder 1] = some b) ∧ b.RepInvariant := by
  refine repInvariant_of_runCommands _ ?_ (by decide)
  intro o ho
  rcases List.mem_cons.mp ho with rfl | ho
  · exact limitOrder_wellFormed (by decide)
  · rw [List.mem_singleton.mp ho]
    exact limitOrder_wellFormed (by decide)

end CryptoCex.Core
