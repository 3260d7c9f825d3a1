import CryptoCex.Core.Cancel
import CryptoCex.Server.Mirror

/-!
# The table of live orders covers the books

`open_orders` does not always mirror the books, but a table that follows every event
never misses a live order: the order is listed under its id with its owner and symbol,
and with no less than it has left (`Covers`). Self-trade prevention takes quantity
without an event, so an entry may show more than is left; no event takes more from an
entry than the book takes from the order.

`matchOrder_covers` is the result for a call. It asks nothing of the call, so it holds
on every run. `Exchange.Step` is the exception to "every event": the table of the
server skips the events of a match that is answered with a rejection.
-/

namespace CryptoCex.Server

open CryptoCex.Core CryptoCex.Core.OrderBook Loop
open Proto (EngineOrder EngineRequest)

/-- The table lists the order, with no less than it has left. -/
def Covers (m : OpenOrders) (o : Order) : Prop :=
  ∃ e, m.find? o.id = some e ∧ e.userId = o.userId ∧ e.symbol = o.symbol ∧
    o.remaining ≤ e.remaining

variable {m m' : OpenOrders} {o t sub taker : Order} {q : Decimal} {T : Option Order}

theorem Covers.of_find?_eq (h : Covers m o) (heq : m'.find? o.id = m.find? o.id) :
    Covers m' o := by
  rcases h with ⟨e, hfind, he⟩
  exact ⟨e, heq.trans hfind, he⟩

/-- What covers an order covers less of it. -/
theorem Covers.mono (h : Covers m o) {r : Decimal} (hr : r ≤ o.remaining) :
    Covers m (o.withRemaining r) := by
  rcases h with ⟨e, hfind, huser, hsymbol, hle⟩
  exact ⟨e, hfind, huser, hsymbol, hr.trans hle⟩

/-- A fill of less than is left shrinks the entry with the order. -/
theorem Covers.decrement (h : Covers m o) (hq : q < o.remaining) :
    Covers (decrementOpenOrder m o.id q) (o.withRemaining (o.remaining - q)) := by
  rcases h with ⟨e, hfind, huser, hsymbol, hle⟩
  have hnot : ¬ e.remaining ≤ q := not_le.mpr (hq.trans_le hle)
  refine ⟨{ e with remaining := e.remaining - q }, ?_, huser, hsymbol, ?_⟩
  · simp only [decrementOpenOrder, hfind, if_neg hnot]
    exact OrdMap.find?_insert_self ..
  · simp only [Order.remaining_withRemaining]
    lia

/-! ## Events that do not concern an order -/

/-- The ids of the orders an event changes in the table. -/
def concerns : EngineEvent → List Uuid
  | .fill f => [f.makerOrderId, f.takerOrderId]
  | .cancelled orderId _ => [orderId]
  | .rested orderId _ => [orderId]
  | .stopTriggered _ => []

theorem find?_decrementOpenOrder {id x : Uuid} (hx : x ≠ id) :
    (decrementOpenOrder m id q).find? x = m.find? x := by
  unfold decrementOpenOrder
  split
  · rfl
  · split_ifs
    · rw [OrdMap.find?_erase, if_neg hx]
    · rw [OrdMap.find?_insert, if_neg hx]

/-- An event updates the entries it concerns only. -/
theorem find?_applyOpenOrderUpdate {e : EngineEvent} {x : Uuid} (hx : x ∉ concerns e) :
    (applyOpenOrderUpdate T m e).find? x = m.find? x := by
  cases e with
  | fill f =>
    simp only [concerns, List.mem_cons, List.not_mem_nil, or_false, not_or] at hx
    simp only [applyOpenOrderUpdate]
    rw [find?_decrementOpenOrder hx.2, find?_decrementOpenOrder hx.1]
  | cancelled id reason =>
    simp only [concerns, List.mem_singleton] at hx
    simp only [applyOpenOrderUpdate]
    rw [OrdMap.find?_erase, if_neg hx]
  | rested id r =>
    simp only [concerns, List.mem_singleton] at hx
    simp only [applyOpenOrderUpdate]
    split
    · rw [OrdMap.find?_insert, if_neg hx]
    · split
      · rfl
      · rw [OrdMap.find?_insert, if_neg hx]
  | stopTriggered => rfl

/-- Events that do not concern an order leave its entry alone. -/
theorem find?_applyOpenOrderUpdates {events : List EngineEvent} {x : Uuid}
    (hx : ∀ e ∈ events, x ∉ concerns e) :
    (applyOpenOrderUpdates m T events).find? x = m.find? x := by
  induction events generalizing m with
  | nil => rfl
  | cons e events ih =>
    have htail := ih (m := applyOpenOrderUpdate T m e)
      fun e' he' => hx e' (List.mem_cons_of_mem _ he')
    exact htail.trans (find?_applyOpenOrderUpdate (hx e List.mem_cons_self))

theorem find?_decrementOpenOrder_congr {x : Uuid} (h : m.find? x = m'.find? x) (id : Uuid) :
    (decrementOpenOrder m id q).find? x = (decrementOpenOrder m' id q).find? x := by
  by_cases hx : x = id
  · subst hx
    unfold decrementOpenOrder
    rw [← h]
    split
    · exact h
    · split_ifs
      · rw [OrdMap.find?_erase_self, OrdMap.find?_erase_self]
      · rw [OrdMap.find?_insert_self, OrdMap.find?_insert_self]
  · rw [find?_decrementOpenOrder hx, find?_decrementOpenOrder hx, h]

/-- What the events make of an entry depends on that entry alone. -/
theorem find?_applyOpenOrderUpdates_congr {x : Uuid} (h : m.find? x = m'.find? x)
    (events : List EngineEvent) :
    (applyOpenOrderUpdates m T events).find? x = (applyOpenOrderUpdates m' T events).find? x := by
  induction events generalizing m m' with
  | nil => exact h
  | cons e events ih =>
    -- an event that does not concern the order changes nothing about it
    have hstep : (applyOpenOrderUpdate T m e).find? x = (applyOpenOrderUpdate T m' e).find? x := by
      by_cases hx : x ∈ concerns e
      · cases e with
        | fill f =>
          exact find?_decrementOpenOrder_congr (find?_decrementOpenOrder_congr h _) _
        | cancelled id reason =>
          simp only [applyOpenOrderUpdate, OrdMap.find?_erase, h]
        | stopTriggered => cases hx
        | rested id left =>
          cases List.mem_singleton.mp hx
          simp only [applyOpenOrderUpdate]
          rw [← h]
          split
          · rw [OrdMap.find?_insert_self, OrdMap.find?_insert_self]
          · split
            · exact h
            · rw [OrdMap.find?_insert_self, OrdMap.find?_insert_self]
      · rw [find?_applyOpenOrderUpdate hx, find?_applyOpenOrderUpdate hx, h]
    exact ih hstep

/-- An order that no event concerns stays covered. -/
theorem Covers.unconcerned (h : Covers m o) {events : List EngineEvent}
    (hx : ∀ e ∈ events, o.id ∉ concerns e) : Covers (applyOpenOrderUpdates m T events) o :=
  h.of_find?_eq (find?_applyOpenOrderUpdates hx)

/-- The events of a cancel concern an order that leaves the pool. -/
theorem Cancel.concerns {P : Pool} {id : Uuid} {reason : CancelReason}
    {r : Pool × List EngineEvent} (hcancel : Pool.Cancel P id reason r) (hunique : P.ids.Nodup)
    {e : EngineEvent} (he : e ∈ r.2) {x : Uuid} (hx : x ∈ concerns e) :
    x ∈ P.ids ∧ x ∉ r.1.ids := by
  refine hcancel.named_gone hunique (List.mem_flatMap.mpr ⟨e, he, ?_⟩)
  cases hcancel with
  | absent => cases he
  | resting => rwa [List.mem_singleton.mp he] at hx ⊢
  | stop => rwa [List.mem_singleton.mp he] at hx ⊢

/-- The cancel of an order does not concern the orders that stay, nor those outside
the pool. -/
theorem Covers.cancel {P : Pool} {id : Uuid} {reason : CancelReason}
    {r : Pool × List EngineEvent} (h : Covers m o) (hcancel : Pool.Cancel P id reason r)
    (hunique : P.ids.Nodup) (ho : o.id ∈ r.1.ids ∨ o.id ∉ P.ids) :
    Covers (applyOpenOrderUpdates m T r.2) o := by
  refine h.unconcerned ?_
  intro e he hmem
  rcases Cancel.concerns hcancel hunique he hmem with ⟨hin, hout⟩
  exact ho.elim hout fun h => h hin

/-- An OCO cancel removes the entry of the sibling it takes off. -/
theorem Covers.ocoCancel {P : Pool} {id : Uuid} {r : Pool × List EngineEvent} (h : Covers m o)
    (hoco : Pool.OcoCancel P id r) (hunique : P.ids.Nodup)
    (ho : o.id ∈ r.1.ids ∨ o.id ∉ P.ids) : Covers (applyOpenOrderUpdates m T r.2) o := by
  cases hoco with
  | unlinked => exact h
  | linked sibling _ hcancel => exact h.cancel hcancel hunique ho

/-! ## One turn -/

variable {a a' : Pass} {mk : Order} {others : Multiset Order} {price : Decimal}

theorem mem_ids_of_mem_live {P : Pool} (ho : o ∈ P.live) : o.id ∈ P.ids :=
  Multiset.mem_map_of_mem _ ho

theorem mem_live_cons {P : Pool} {x : Order} :
    o ∈ Pool.live { P with resting := x ::ₘ others } ↔
      o = x ∨ o ∈ Pool.live { P with resting := others } := by
  simp only [Pool.live, Multiset.cons_add, Multiset.mem_cons]

/-- The orders beside the one the taker faces. -/
theorem Faces.beside (hm : a.Faces price mk others) (hs : a.Sound taker)
    (ho : o ∈ Pool.live { a.pool with resting := others }) :
    o ∈ a.pool.live ∧ o.id ≠ mk.id ∧ o.id ≠ a.taker.id := by
  have hunique := hs.unique
  rw [← hs.id_eq, hm.ids_eq, Multiset.nodup_cons, Multiset.nodup_cons] at hunique
  have hid := mem_ids_of_mem_live ho
  refine ⟨?_, ?_, ?_⟩
  · rw [Pool.live, hm.pool, Multiset.cons_add]
    exact Multiset.mem_cons_of_mem ho
  · intro heq
    exact hunique.2.1 (heq ▸ hid)
  · intro heq
    exact hunique.1 (Multiset.mem_cons_of_mem (heq ▸ hid))

theorem Faces.ne_taker (hm : a.Faces price mk others) (hs : a.Sound taker) :
    mk.id ≠ a.taker.id := by
  intro heq
  have hmem := hm.mem_ids
  rw [heq, hs.id_eq] at hmem
  exact hs.taker_notMem hmem

/-- What is left of the taker is covered. -/
def CoversLeft (m : OpenOrders) (t : Order) : Prop := t.remaining = 0 ∨ Covers m t

/-- A fill takes no more off the entry than off the order. -/
theorem CoversLeft.fill (h : CoversLeft m t) (hpos : 0 < t.remaining) (hq : q ≤ t.remaining) :
    CoversLeft (decrementOpenOrder m t.id q) (t.withRemaining (t.remaining - q)) := by
  have hcovers := h.resolve_left hpos.ne'
  by_cases heq : q = t.remaining
  · refine Or.inl ?_
    simp only [Order.remaining_withRemaining]
    lia
  · exact Or.inr (hcovers.decrement (lt_of_le_of_ne hq heq))

/-- The table covers what a fill leaves of the pool. -/
theorem Faces.covers_fill (hm : a.Faces price mk others) (hs : a.Sound taker)
    (h : ∀ o ∈ a.pool.live, Covers m o) {f : Fill} (hmaker : f.makerOrderId = mk.id)
    (htaker : f.takerOrderId = a.taker.id) :
    (∀ o ∈ Pool.live { a.pool with resting := others },
        Covers (applyOpenOrderUpdates m T [.fill f]) o) ∧
      (f.quantity < mk.remaining → Covers (applyOpenOrderUpdates m T [.fill f])
        (mk.withRemaining (mk.remaining - f.quantity))) := by
  refine ⟨?_, ?_⟩
  · intro o ho
    rcases Faces.beside hm hs ho with ⟨hpool, hne, hne'⟩
    refine (h o hpool).unconcerned ?_
    simp [concerns, hmaker, htaker, hne, hne']
  · intro hlt
    have hmk : mk ∈ a.pool.live := Multiset.mem_add.mpr (Or.inl hm.mem)
    have hdec := (h mk hmk).decrement hlt
    simp only [applyOpenOrderUpdates_fill, applyOpenOrderUpdates_nil, hmaker, htaker]
    have hfind : (decrementOpenOrder (decrementOpenOrder m mk.id f.quantity) a.taker.id
        f.quantity).find? mk.id = (decrementOpenOrder m mk.id f.quantity).find? mk.id :=
      find?_decrementOpenOrder (Faces.ne_taker hm hs)
    exact hdec.of_find?_eq hfind

/-- A fill leaves the taker covered. -/
theorem Faces.coversLeft_fill (hm : a.Faces price mk others) (hs : a.Sound taker)
    (h : CoversLeft m a.taker) :
    CoversLeft (applyOpenOrderUpdates m T [.fill (fillOf a.taker mk price)])
      (a.taker.withRemaining (a.taker.remaining - (fillOf a.taker mk price).quantity)) := by
  have hcovers := h.resolve_left hm.takerPos.ne'
  have hmaker := hcovers.of_find?_eq (find?_decrementOpenOrder (q := (fillOf a.taker mk price).quantity)
    (Faces.ne_taker hm hs).symm)
  exact CoversLeft.fill (Or.inr hmaker) hm.takerPos (fillOf_quantity_le_taker ..)

/-- The table follows a turn: it covers the pool, and the taker if it covered it. -/
theorem Turn.covers {u : Loop.Turn Pass (Pass × MatchExit)} (ht : a.Turn u)
    (hs : a.Sound taker) (h : ∀ o ∈ a.pool.live, Covers m o) :
    ∃ new, (Pass.after u).events = a.events ++ new ∧
      (∀ o ∈ (Pass.after u).pool.live, Covers (applyOpenOrderUpdates m T new) o) ∧
      ∀ a', u = .next a' → CoversLeft m a.taker →
        CoversLeft (applyOpenOrderUpdates m T new) a'.taker := by
  -- orders that are not concerned by a single event
  have hbeside : ∀ {price mk others} {id : Uuid} {reason : CancelReason},
      a.Faces price mk others → id = mk.id ∨ id = a.taker.id →
      ∀ o ∈ Pool.live { a.pool with resting := others },
        Covers (applyOpenOrderUpdates m T [.cancelled id reason]) o := by
    intro price mk others id reason hm hid o ho
    rcases Faces.beside hm hs ho with ⟨hpool, hne, hne'⟩
    refine (h o hpool).unconcerned ?_
    rcases hid with rfl | rfl <;> simpa [concerns]
  cases ht with
  | exhausted =>
    refine ⟨[], (List.append_nil _).symm, h, ?_⟩
    rintro a' ⟨⟩
  | cancelTaker hm =>
    refine ⟨_, rfl, ?_, ?_⟩
    · intro o ho
      refine (h o ho).unconcerned ?_
      have hne : o.id ≠ a.taker.id := by
        intro heq
        exact hs.taker_notMem (hs.id_eq ▸ heq ▸ mem_ids_of_mem_live ho)
      simpa [concerns]
    · rintro a' ⟨⟩
  | cancelMaker hm =>
    refine ⟨_, rfl, hbeside hm (Or.inl rfl), ?_⟩
    rintro a' ⟨⟩ hleft
    rcases hleft with hzero | hcovers
    · exact Or.inl hzero
    · refine Or.inr (hcovers.unconcerned ?_)
      simpa [concerns] using (Faces.ne_taker hm hs).symm
  | @decrementTaker price mk others hm hown hmode hlt =>
    refine ⟨_, rfl, ?_, ?_⟩
    · intro o ho
      rcases mem_live_cons.mp ho with rfl | ho
      · -- the entry of the larger order shows what it had before
        have hmk : mk ∈ a.pool.live := Multiset.mem_add.mpr (Or.inl hm.mem)
        have hle : mk.remaining - a.taker.remaining ≤ mk.remaining := by
          have := hm.takerPos
          lia
        refine ((h mk hmk).mono hle).unconcerned ?_
        simpa [concerns] using Faces.ne_taker hm hs
      · exact hbeside hm (Or.inr rfl) o ho
    · rintro a' ⟨⟩
  | @decrementMaker price mk others hm hown hmode hgt =>
    refine ⟨_, rfl, hbeside hm (Or.inl rfl), ?_⟩
    rintro a' ⟨⟩ hleft
    have hcovers := hleft.resolve_left hm.takerPos.ne'
    have hle : a.taker.remaining - mk.remaining ≤ a.taker.remaining := by
      have := hm.makerPos
      lia
    refine Or.inr ((hcovers.mono hle).unconcerned ?_)
    simpa [concerns] using (Faces.ne_taker hm hs).symm
  | decrementBoth hm =>
    refine ⟨_, rfl, ?_, ?_⟩
    · intro o ho
      rcases Faces.beside hm hs ho with ⟨hpool, hne, hne'⟩
      refine (h o hpool).unconcerned ?_
      simp [concerns, hne, hne']
    · rintro a' ⟨⟩
  | @fillPart price mk others hm hother hpart =>
    rcases Faces.covers_fill (T := T) hm hs h (f := fillOf a.taker mk price) rfl rfl with
      ⟨hpool, hmaker⟩
    refine ⟨_, rfl, ?_, ?_⟩
    · intro o ho
      rcases mem_live_cons.mp ho with rfl | ho
      · exact hmaker hpart
      · exact hpool o ho
    · rintro a' ⟨⟩ hleft
      exact Faces.coversLeft_fill hm hs hleft
  | @fillWhole price mk others hm hother hwhole r hoco =>
    rcases Faces.covers_fill (T := T) hm hs h (f := fillOf a.taker mk price) rfl rfl with
      ⟨hpool, _⟩
    have hunique := (Multiset.nodup_cons.mp hs.unique).2
    have hout : a.taker.id ∉ Pool.ids { a.pool with resting := others } := by
      intro hmem
      refine hs.taker_notMem (hs.id_eq ▸ ?_)
      rw [hm.ids_eq]
      exact Multiset.mem_cons_of_mem hmem
    rw [hm.ids_eq, Multiset.nodup_cons] at hunique
    refine ⟨.fill (fillOf a.taker mk price) :: r.2, List.append_assoc _ _ _, ?_, ?_⟩
    · intro o ho
      have hlive : o ∈ Pool.live { a.pool with resting := others } :=
        Multiset.mem_of_le (add_le_add hoco.resting_le hoco.stops_le) ho
      exact (hpool o hlive).ocoCancel hoco hunique.2 (Or.inl (mem_ids_of_mem_live ho))
    · rintro a' ⟨⟩ hleft
      rcases Faces.coversLeft_fill (T := T) hm hs hleft with hzero | hcovers
      · exact Or.inl hzero
      · exact Or.inr (hcovers.ocoCancel hoco hunique.2 (Or.inr hout))

/-! ## The end of a pass -/

/-- A taker that rests is covered: the submitted order enters the table, and the entry
of a triggered stop is set right. -/
theorem covers_rested (hsub : t.id = sub.id → t.userId = sub.userId ∧ t.symbol = sub.symbol)
    (h : t.id ≠ sub.id → Covers m t) :
    Covers (applyOpenOrderUpdates m (some sub) [.rested t.id t.remaining]) t := by
  by_cases hid : t.id = sub.id
  · rcases hsub hid with ⟨huser, hsymbol⟩
    rw [applyOpenOrderUpdates_rested_submitted m hid.symm huser.symm hsymbol.symm]
    exact ⟨entryOf t, OrdMap.find?_insert_self .., rfl, rfl, le_refl _⟩
  · rcases h hid with ⟨e, hfind, huser, hsymbol, _⟩
    refine ⟨{ e with remaining := t.remaining }, ?_, huser, hsymbol, le_refl _⟩
    simp only [applyOpenOrderUpdates, List.foldl_cons, List.foldl_nil, applyOpenOrderUpdate,
      Option.filter, Ne.symm hid, decide_false, hfind]
    exact OrdMap.find?_insert_self ..

/-- The table follows the end of a pass. -/
theorem Finalize.covers {r : Pool × List EngineEvent} (hfinal : a.Finalize r)
    (hs : a.Sound taker) (h : ∀ o ∈ a.pool.live, Covers m o)
    (hsub : taker.id = sub.id → taker = sub)
    (hleft : taker.id ≠ sub.id → CoversLeft m a.taker) :
    ∀ o ∈ r.1.live, Covers (applyOpenOrderUpdates m (some sub) r.2) o := by
  have hunique := (Multiset.nodup_cons.mp hs.unique).2
  have hne : ∀ o ∈ a.pool.live, o.id ≠ a.taker.id := by
    intro o ho heq
    exact hs.taker_notMem (hs.id_eq ▸ heq ▸ mem_ids_of_mem_live ho)
  cases hfinal with
  -- the sibling of a filled order leaves the table and the book
  | filled _ hoco =>
    intro o ho
    have hlive : o ∈ a.pool.live :=
      Multiset.mem_of_le (add_le_add hoco.resting_le hoco.stops_le) ho
    exact (h o hlive).ocoCancel hoco hunique (Or.inl (mem_ids_of_mem_live ho))
  -- the entry of the taker is erased, which is not in the book
  | @cancelled _ reason _ _ r hoco =>
    intro o ho
    have hlive : o ∈ a.pool.live :=
      Multiset.mem_of_le (add_le_add hoco.resting_le hoco.stops_le) ho
    have herased : Covers (m.erase a.taker.id) o := by
      refine (h o hlive).of_find?_eq ?_
      rw [OrdMap.find?_erase, if_neg (hne o hlive)]
    exact herased.ocoCancel hoco hunique (Or.inl (mem_ids_of_mem_live ho))
  -- the taker's rest comes into the book, with its entry
  | rested hpos =>
    intro o ho
    rcases mem_live_cons.mp ho with rfl | ho
    · have hsame := hs.same
      refine covers_rested ?_ ?_
      · intro hid
        have htaker := hsub (hs.id_eq.symm.trans hid)
        rw [hsame, htaker]
        exact ⟨rfl, rfl⟩
      · intro hid
        exact (hleft fun heq => hid (hs.id_eq.trans heq)).resolve_left hpos
    · refine (h o ho).unconcerned ?_
      simpa [concerns] using hne o ho

/-- The triggered stops are covered in the queue as they were in the book. -/
theorem Drains.covers {P : Pool} {last : Option Decimal} {hit : List Order}
    (hdrain : Pass.Drains P last hit others) (h : ∀ o ∈ P.live, Covers m o) :
    (∀ o ∈ Pool.live { P with stops := others }, Covers m o) ∧
      ∀ o ∈ hit.map convertStop, Covers m o := by
  have hsplit : P.live = P.resting + (↑hit + others) := by
    rw [Pool.live, hdrain.split]
  refine ⟨?_, ?_⟩
  · intro o ho
    refine h o ?_
    rw [hsplit]
    rcases Multiset.mem_add.mp ho with ho | ho
    · exact Multiset.mem_add.mpr (Or.inl ho)
    · exact Multiset.mem_add.mpr (Or.inr (Multiset.mem_add.mpr (Or.inr ho)))
  · intro o ho
    rcases List.mem_map.mp ho with ⟨stop, hstop, rfl⟩
    refine h stop ?_
    rw [hsplit]
    exact Multiset.mem_add.mpr (Or.inr (Multiset.mem_add.mpr (Or.inl hstop)))

/-! ## Passes and calls -/

variable {b b' : OrderBook} {fuel : ℕ} {events : List EngineEvent} {triggered : List Order}

/-- The table follows a pass. -/
theorem runMatchingLoop_covers (hpass : Enters b taker) (h : ∀ o ∈ b.pool, Covers m o)
    (hsub : taker.id = sub.id → taker = sub) (htaker : taker.id ≠ sub.id → Covers m taker)
    (hrun : b.runMatchingLoop fuel taker = some (b', events, triggered)) :
    (∀ o ∈ b'.pool, Covers (applyOpenOrderUpdates m (some sub) events) o) ∧
      ∀ o ∈ triggered, Covers (applyOpenOrderUpdates m (some sub) events) o := by
  refine runMatchingLoop_induct hpass
    (fun _ s => (∀ o ∈ s.toPass.pool.live,
        Covers (applyOpenOrderUpdates m (some sub) s.toPass.events) o) ∧
      (taker.id ≠ sub.id →
        CoversLeft (applyOpenOrderUpdates m (some sub) s.toPass.events) s.toPass.taker))
    (fun _ r => (∀ o ∈ r.1.live, Covers (applyOpenOrderUpdates m (some sub) r.2.1) o) ∧
      ∀ o ∈ r.2.2, Covers (applyOpenOrderUpdates m (some sub) r.2.1) o)
    ⟨h, fun hne => Or.inr (htaker hne)⟩ ?_ ?_ hrun
  · rintro _ s s' _ hs ⟨hpool, hleft⟩ hspec
    rcases Turn.covers (T := some sub) (hspec.refines hs.book) hs.pass hpool with
      ⟨new, hevents, hpool', hleft'⟩
    rw [← applyOpenOrderUpdates_append, ← hevents] at hpool' hleft'
    exact ⟨hpool', fun hne => hleft' _ rfl (hleft hne)⟩
  · rintro _ s s' exit r _ hs ⟨hpool, hleft⟩ hspec hs' hfinish
    rcases Turn.covers (T := some sub) (hspec.refines hs.book) hs.pass hpool with
      ⟨new, hevents, hpool', _⟩
    rw [← applyOpenOrderUpdates_append, ← hevents] at hpool'
    cases hfinish with
    -- the triggered stops keep their entries
    | consumed hdrain => exact Drains.covers hdrain hpool'
    | finalized hfinal hdrain =>
      have hleft' : taker.id ≠ sub.id → CoversLeft (applyOpenOrderUpdates m (some sub)
          s'.toPass.events) s'.toPass.taker := by
        intro hne
        cases hspec with
        | exhausted => exact hleft hne
      have hcovers := Finalize.covers hfinal hs'.pass hpool' hsub hleft'
      rw [applyOpenOrderUpdates_append]
      exact Drains.covers hdrain hcovers

/-- The events of a pass concern the taker and the orders of the book. -/
theorem runMatchingLoop_concerns (hpass : Enters b taker)
    (hrun : b.runMatchingLoop fuel taker = some (b', events, triggered)) :
    ∀ e ∈ events, ∀ x ∈ concerns e, x ∈ taker.id ::ₘ b.toPool.ids := by
  intro e he x hx
  have hknown := (runMatchingLoop_fate hpass hrun).known x
  cases e with
  | fill f => exact hknown (List.mem_flatMap.mpr ⟨_, he, hx⟩)
  | cancelled id reason => exact hknown (List.mem_flatMap.mpr ⟨_, he, hx⟩)
  | rested id left =>
    rw [List.mem_singleton.mp hx, runMatchingLoop_rested hpass hrun id left he]
    exact Multiset.mem_cons_self _ _
  | stopTriggered => cases hx

/-- Between two passes of a call with the order `sub` the table covers the book and the
work queue, where `sub` itself need not be listed. -/
structure CascadeCovers (b : OrderBook) (sub : Order) (m : OpenOrders) (c : CascadeState) :
    Prop where
  stops : c.book.stopPool ≤ b.stopPool
  book : ∀ o ∈ c.book.pool, Covers (applyOpenOrderUpdates m (some sub) c.events) o
  submitted : ∀ o ∈ c.workQueue, o.id = sub.id → o = sub
  queue : ∀ o ∈ c.workQueue, o.id ≠ sub.id →
    Covers (applyOpenOrderUpdates m (some sub) c.events) o

/-- The table follows every turn of the cascade. -/
theorem CascadeCovers.step {c c' : CascadeState} (hc : CascadeSound c)
    (hinv : CascadeCovers b sub m c) (hfresh : ∀ o ∈ b.pool, o.id ≠ sub.id)
    (hstep : CascadeStep fuel c c') : CascadeCovers b sub m c' := by
  -- what a pass leaves in the book, what it triggers and what waits behind its taker
  have hpass : ∀ {order rest book events hit}, c.workQueue = order :: rest →
      c.book.runMatchingLoop fuel order = some (book, events, hit) →
      book.stopPool ≤ b.stopPool ∧
        (∀ o ∈ book.pool, Covers (applyOpenOrderUpdates m (some sub) (c.events ++ events)) o) ∧
        (∀ o ∈ hit, o.id ≠ sub.id ∧
          Covers (applyOpenOrderUpdates m (some sub) (c.events ++ events)) o) ∧
        ∀ o ∈ rest, o.id ≠ sub.id →
          Covers (applyOpenOrderUpdates m (some sub) (c.events ++ events)) o := by
    intro order rest book events hit hqueue hrun
    have henters := hc.enters hqueue
    have hhead := mem_workQueue_head hqueue
    rcases runMatchingLoop_covers henters hinv.book (hinv.submitted order hhead)
      (hinv.queue order hhead) hrun with ⟨hbook, hhit⟩
    rcases (runMatchingLoop_sound henters hrun).hit with ⟨stops, heq, hle⟩
    have hle' := hle.trans hinv.stops
    rw [applyOpenOrderUpdates_append]
    refine ⟨(Multiset.le_add_left _ _).trans hle', hbook, ?_, ?_⟩
    · intro o ho
      refine ⟨?_, hhit o ho⟩
      rw [show hit = stops.map convertStop from heq] at ho
      rcases List.mem_map.mp ho with ⟨stop, hstop, rfl⟩
      have hpool : stop ∈ b.stopPool :=
        Multiset.mem_of_le ((Multiset.le_add_right _ _).trans hle') hstop
      exact hfresh stop (mem_pool.mpr (Or.inr hpool))
    · intro o ho hne
      refine (hinv.queue o (mem_workQueue_tail hqueue ho) hne).unconcerned ?_
      -- the orders on the queue are in no other place
      intro e he hmem
      have hplace := runMatchingLoop_concerns henters hrun e he o.id hmem
      have hunique := hc.unique
      have hrest : o.id ∈ rest.map (·.id) := List.mem_map_of_mem ho
      rw [hqueue, List.map_cons, ← Multiset.cons_coe, Multiset.cons_add, ← Multiset.add_cons,
        Multiset.nodup_add] at hunique
      exact Multiset.disjoint_left.mp hunique.2.2 hrest hplace
  cases hstep with
  | @push order rest book events hit hqueue hrun hdepth =>
    rcases hpass hqueue hrun with ⟨hstops, hbook, hhit, hrest⟩
    have hsame : applyOpenOrderUpdates m (some sub)
        (c.events ++ events ++ hit.map fun t => .stopTriggered t.id) =
          applyOpenOrderUpdates m (some sub) (c.events ++ events) := by
      rw [applyOpenOrderUpdates_append, applyOpenOrderUpdates_stopTriggered]
    refine ⟨hstops, ?_, ?_, ?_⟩
    · dsimp only
      rw [hsame]
      exact hbook
    · intro o ho hid
      rcases List.mem_append.mp ho with ho | ho
      · exact absurd hid (hhit o (List.mem_reverse.mp ho)).1
      · exact hinv.submitted o (mem_workQueue_tail hqueue ho) hid
    · dsimp only
      rw [hsame]
      intro o ho hne
      rcases List.mem_append.mp ho with ho | ho
      · exact (hhit o (List.mem_reverse.mp ho)).2
      · exact hrest o ho hne
  | @cut order rest book events hit hqueue hrun hdepth =>
    rcases hpass hqueue hrun with ⟨hstops, hbook, _, hrest⟩
    exact ⟨hstops, hbook, fun o ho => hinv.submitted o (mem_workQueue_tail hqueue ho), hrest⟩

/-- The table follows a call. -/
theorem matchOrder_covers (hb : b.Sound) (hadm : sub.Admissible)
    (hfresh : ∀ o ∈ b.pool, o.id ≠ sub.id) (h : ∀ o ∈ b.pool, Covers m o)
    (hcall : b.matchOrder fuel sub = some (b', events)) :
    ∀ o ∈ b'.pool, Covers (applyOpenOrderUpdates m (some sub) events) o := by
  have hspec := matchOrder_spec hadm hcall
  generalize hr : (b', events) = r at hspec
  cases hspec with
  | rejected reject hpre =>
    cases hr
    intro o ho
    refine (h o ho).unconcerned ?_
    rcases preCheck_eq_some hpre with ⟨_, rfl⟩ | ⟨_, rfl⟩ <;> simpa [concerns] using hfresh o ho
  | registered stops _ _ hins =>
    cases hr
    have hstops : (↑stops.orders : Multiset Order) = sub ::ₘ b.stopPool :=
      (Multiset.coe_eq_coe.mpr (StopRegistry.insert_orders hins)).trans (Multiset.cons_coe ..).symm
    intro o ho
    rcases mem_pool.mp ho with ho | ho
    · have hpool : o ∈ b.pool := mem_pool.mpr (Or.inl ho)
      refine (h o hpool).unconcerned ?_
      simpa [concerns] using hfresh o hpool
    · rw [stopPool, hstops] at ho
      -- the new stop is listed by its own event
      rcases Multiset.mem_cons.mp ho with rfl | ho
      · exact covers_rested (fun _ => ⟨rfl, rfl⟩) (fun hne => absurd rfl hne)
      · have hpool : o ∈ b.pool := mem_pool.mpr (Or.inr ho)
        refine (h o hpool).unconcerned ?_
        simpa [concerns] using hfresh o hpool
  | matched hpre hactive hloop =>
    have hc₀ := cascadeSound_enter hb ⟨hadm.positive, hactive, hadm.priced⟩ hfresh
    -- the order itself is covered once it rests
    have h0 : CascadeCovers b sub m (b.enterCascade sub) := by
      refine ⟨le_refl _, h, ?_, ?_⟩
      · intro o ho _
        exact List.mem_singleton.mp ho
      · intro o ho hne
        exact absurd (congrArg Order.id (List.mem_singleton.mp ho)) hne
    rcases cascade_induct hc₀ (CascadeCovers b sub m) h0
      (fun c c' _ hc hinv hstep => hinv.step hc hfresh hstep) hloop with
      ⟨c, _, hqueue, heq, _, hinv⟩
    cases hr.trans heq
    exact hinv.book

/-- The table follows the cancel of an order and of its OCO sibling. -/
theorem cancelOrder_covers (hb : b.Consistent) (id : Uuid) (h : ∀ o ∈ b.pool, Covers m o) :
    ∀ o ∈ (b.cancelOrder id).1.pool, Covers (applyOpenOrderUpdates m T (b.cancelOrder id).2) o := by
  have hinternal : ∀ {b : OrderBook} {m : OpenOrders} (id : Uuid) (reason : CancelReason),
      b.Consistent → (∀ o ∈ b.pool, Covers m o) →
      ∀ o ∈ (b.cancelOrderInternal id reason).1.pool,
        Covers (applyOpenOrderUpdates m T (b.cancelOrderInternal id reason).2) o := by
    intro b m id reason hb h o ho
    have hle := (within_cancelOrderInternal b id reason).pool_le
    exact (h o (Multiset.mem_of_le hle ho)).cancel (hb.cancels id reason).toPool hb.unique
      (Or.inl (Multiset.mem_map_of_mem _ ho))
  unfold OrderBook.cancelOrder
  cases b.ocoLinks.find? id with
  | none => exact hinternal id .adminCancel hb h
  | some linkedId =>
    have hlink : (b.unlink id linkedId).Consistent := consistent_unlink.mpr hb
    have hfirst := hinternal id .adminCancel hlink h
    dsimp only
    rw [applyOpenOrderUpdates_append]
    exact hinternal linkedId .oco ((hlink.cancels id .adminCancel).consistent hlink) hfirst

/-! ## What the events of a call concern -/

/-- The orders in play and the orders the events concern are among those with the ids
`M`. -/
structure CascadeConcerns (M : Multiset Uuid) (c : CascadeState) : Prop where
  ids : ↑(c.workQueue.map (·.id)) + c.book.toPool.ids ≤ M
  events : ∀ e ∈ c.events, ∀ x ∈ concerns e, x ∈ M

/-- A pass concerns orders that were there when the call began. -/
theorem CascadeConcerns.step {M : Multiset Uuid} {c c' : CascadeState} (hc : CascadeSound c)
    (hinv : CascadeConcerns M c) (hstep : CascadeStep fuel c c') : CascadeConcerns M c' := by
  refine ⟨(hstep.ids_le hc).trans hinv.ids, ?_⟩
  -- the pass names the taker and orders of the book, both there at the beginning
  have hpass : ∀ {order rest book new hit}, c.workQueue = order :: rest →
      c.book.runMatchingLoop fuel order = some (book, new, hit) →
      ∀ e ∈ c.events ++ new, ∀ x ∈ concerns e, x ∈ M := by
    intro order rest book new hit hqueue hrun e he x hx
    rcases List.mem_append.mp he with he | he
    · exact hinv.events e he x hx
    · have hplace := runMatchingLoop_concerns (hc.enters hqueue) hrun e he x hx
      refine Multiset.mem_of_le hinv.ids ?_
      rw [hqueue, List.map_cons, ← Multiset.cons_coe, Multiset.cons_add, ← Multiset.add_cons]
      exact Multiset.mem_add.mpr (Or.inr hplace)
  cases hstep with
  -- a triggered stop is announced, which concerns no entry
  | push hqueue hrun =>
    intro e he x hx
    rcases List.mem_append.mp he with he | he
    · exact hpass hqueue hrun e he x hx
    · rcases List.mem_map.mp he with ⟨_, _, rfl⟩
      cases hx
  | cut hqueue hrun => exact hpass hqueue hrun

/-- The events of a call concern the submitted order and the orders of the book. -/
theorem matchOrder_concerns (hb : b.Sound) (hadm : sub.Admissible)
    (hfresh : ∀ o ∈ b.pool, o.id ≠ sub.id) (hcall : b.matchOrder fuel sub = some (b', events)) :
    ∀ e ∈ events, ∀ x ∈ concerns e, x ∈ sub.id ::ₘ b.toPool.ids := by
  have hspec := matchOrder_spec hadm hcall
  generalize hr : (b', events) = r at hspec
  cases hspec with
  | rejected reject hpre =>
    cases hr
    rcases preCheck_eq_some hpre with ⟨_, rfl⟩ | ⟨_, rfl⟩ <;> simp [concerns]
  | registered stops =>
    cases hr
    simp [concerns]
  | matched _ hactive hloop =>
    have hc₀ := cascadeSound_enter hb ⟨hadm.positive, hactive, hadm.priced⟩ hfresh
    have h0 : CascadeConcerns (sub.id ::ₘ b.toPool.ids) (b.enterCascade sub) :=
      ⟨le_refl _, fun e he => by cases he⟩
    rcases cascade_induct hc₀ (CascadeConcerns (sub.id ::ₘ b.toPool.ids)) h0
      (fun c c' _ hc hinv hstep => hinv.step hc hstep) hloop with ⟨c, _, _, heq, _, hinv⟩
    cases hr.trans heq
    exact hinv.events

/-- The events of a cancel concern orders of the book. -/
theorem cancelOrder_concerns (hb : b.Consistent) (id : Uuid) :
    ∀ e ∈ (b.cancelOrder id).2, ∀ x ∈ concerns e, x ∈ b.toPool.ids := by
  have hinternal : ∀ {b : OrderBook} (id : Uuid) (reason : CancelReason), b.Consistent →
      ∀ e ∈ (b.cancelOrderInternal id reason).2, ∀ x ∈ concerns e, x ∈ b.toPool.ids := by
    intro b id reason hb e he x hx
    exact (Cancel.concerns (hb.cancels id reason).toPool hb.unique he hx).1
  unfold OrderBook.cancelOrder
  cases b.ocoLinks.find? id with
  | none => exact hinternal id .adminCancel hb
  | some linkedId =>
    have hlink : (b.unlink id linkedId).Consistent := consistent_unlink.mpr hb
    have hle : ((b.unlink id linkedId).cancelOrderInternal id .adminCancel).1.toPool.ids ≤
        b.toPool.ids :=
      Multiset.map_le_map (within_cancelOrderInternal (b.unlink id linkedId) id .adminCancel).pool_le
    intro e he x hx
    rcases List.mem_append.mp he with he | he
    · exact hinternal id .adminCancel hlink e he x hx
    · exact Multiset.mem_of_le hle (hinternal linkedId .oco
        ((hlink.cancels id .adminCancel).consistent hlink) e he x hx)

/-! ## Entries and the orders they stand for -/

/-- Every entry of the table was made for an order that was placed. -/
def Traced (placed : List Order) (m : OpenOrders) : Prop :=
  ∀ id e, m.find? id = some e → ∃ w ∈ placed, w.id = id ∧ w.userId = e.userId ∧
    w.symbol = e.symbol

variable {placed : List Order}

theorem traced_empty : Traced placed OrdMap.empty := by
  intro id e h
  cases h

theorem Traced.mono {placed' : List Order} (h : Traced placed m) (hsub : placed ⊆ placed') :
    Traced placed' m := by
  intro id e hfind
  rcases h id e hfind with ⟨w, hw, hentry⟩
  exact ⟨w, hsub hw, hentry⟩

theorem Traced.erase (h : Traced placed m) (id : Uuid) : Traced placed (m.erase id) := by
  intro id' e hfind
  rw [OrdMap.find?_erase] at hfind
  split_ifs at hfind
  exact h id' e hfind

/-- Setting an entry that stands for a placed order. -/
theorem Traced.insert (h : Traced placed m) {id : Uuid} {e : OpenOrder}
    (he : ∃ w ∈ placed, w.id = id ∧ w.userId = e.userId ∧ w.symbol = e.symbol) :
    Traced placed (m.insert id e) := by
  intro id' e' hfind
  rw [OrdMap.find?_insert] at hfind
  split_ifs at hfind with heq
  · cases hfind
    rw [heq]
    exact he
  · exact h id' e' hfind

/-- A decrement leaves the entry with its owner. -/
theorem Traced.decrement (h : Traced placed m) (id : Uuid) (q : Decimal) :
    Traced placed (decrementOpenOrder m id q) := by
  unfold decrementOpenOrder
  split
  · exact h
  · next e hfind =>
    split_ifs
    · exact h.erase id
    · exact h.insert (h id e hfind)

/-- The events make entries for no order but the submitted one. -/
theorem Traced.updates (h : Traced placed m) (hT : ∀ order, T = some order → order ∈ placed)
    (events : List EngineEvent) : Traced placed (applyOpenOrderUpdates m T events) := by
  induction events generalizing m with
  | nil => exact h
  | cons e events ih =>
    have hstep : Traced placed (applyOpenOrderUpdate T m e) := by
      cases e with
      | fill f => exact (h.decrement _ _).decrement _ _
      | cancelled id reason => exact h.erase id
      | stopTriggered => exact h
      | rested id left =>
        simp only [applyOpenOrderUpdate]
        split
        · -- an entry is made for the submitted order
          next order hfilter =>
          rcases Option.filter_eq_some_iff.mp hfilter with ⟨hsub, hid⟩
          exact h.insert ⟨order, hT order hsub, of_decide_eq_true hid, rfl, rfl⟩
        · split
          · exact h
          · -- an entry that exists is written again
            next e hfind => exact h.insert (h id e hfind)
    exact ih hstep

/-! ## Covered exchanges -/

/-- The table covers every live order. -/
def Exchange.Covered (x : Exchange) : Prop :=
  ∀ symbol b, x.books.find? symbol = some b → ∀ o ∈ b.pool, Covers x.openOrders o

theorem covered_empty : Exchange.empty.Covered := by
  intro symbol b h
  cases h

variable {x : Exchange} {symbol : String}

theorem Exchange.Covered.bookOf (h : x.Covered) (symbol : String) :
    ∀ o ∈ (x.bookOf symbol).pool, Covers x.openOrders o := by
  unfold Exchange.bookOf
  cases hbook : x.books.find? symbol with
  | none => simp
  | some b => exact h symbol b hbook

/-- Replacing the book of a symbol, with a table that differs on orders of that symbol
only. -/
theorem Exchange.Covered.insert (hx : x.Covered) {b : OrderBook} {m : OpenOrders}
    (hb : ∀ o ∈ b.pool, Covers m o)
    (hframe : ∀ symbol' b', symbol' ≠ symbol → x.books.find? symbol' = some b' →
      ∀ o ∈ b'.pool, m.find? o.id = x.openOrders.find? o.id) :
    Exchange.Covered { books := x.books.insert symbol b, openOrders := m } := by
  intro symbol' b' hbook o ho
  rw [OrdMap.find?_insert] at hbook
  split_ifs at hbook with heq
  · cases hbook
    exact hb o ho
  · exact (hx symbol' b' hbook o ho).of_find?_eq (hframe symbol' b' heq hbook o ho)

/-- Orders of other books are not in the book of a symbol. -/
theorem Exchange.Known.notMem_bookOf (h : x.Known placed) (hunique : (placed.map (·.id)).Nodup)
    {symbol' : String} {b' : OrderBook} (hne : symbol' ≠ symbol)
    (hb' : x.books.find? symbol' = some b') (ho : o ∈ b'.pool) :
    o.id ∉ (x.bookOf symbol).toPool.ids := by
  intro hmem
  rcases Multiset.mem_map.mp hmem with ⟨o', ho', hid⟩
  cases hbook : x.books.find? symbol with
  | none =>
    rw [Exchange.bookOf, hbook] at ho'
    simp at ho'
  | some b =>
    rw [mem_bookOf_of_find? hbook] at ho'
    exact hne (h.symbol_eq hunique hb' hbook ho ho' hid.symm)

end CryptoCex.Server
