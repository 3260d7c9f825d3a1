import CryptoCex.Core.Kill
import CryptoCex.Server.Exchange

/-!
# The table of live orders mirrors the books

`open_orders` is a fold over the events of the calls, so it is right as long as
the events tell all that happens to a live order. While a taker is matched, the
table shows the orders of the book and of the work queue as they are. A taker
that was just submitted is not in the table. A triggered stop is, and its entry
lags behind by what Decrement self-trade prevention has taken from it, which no
event tells (`Listed`).

Four things go untold, and `Announced` excludes them: a resting order decremented
by a smaller taker, a triggered stop that is filled up after it was decremented,
a triggered stop that is dropped, and the match of a fill-or-kill order that is
then rejected.
-/

namespace CryptoCex.Server

open CryptoCex.Core CryptoCex.Core.OrderBook Loop
open Proto (EngineOrder EngineRequest)

/-- The entry of a live order. -/
def entryOf (o : Order) : OpenOrder where
  userId := o.userId
  symbol := o.symbol
  remaining := o.remaining

/-- The entries of live orders, under their ids. -/
def entriesOf (M : Multiset Order) : Multiset (Uuid × OpenOrder) :=
  M.map fun o => (o.id, entryOf o)

@[simp] theorem entriesOf_cons (o : Order) (M : Multiset Order) :
    entriesOf (o ::ₘ M) = (o.id, entryOf o) ::ₘ entriesOf M := Multiset.map_cons ..

@[simp] theorem entriesOf_add (M N : Multiset Order) :
    entriesOf (M + N) = entriesOf M + entriesOf N := Multiset.map_add ..

@[simp] theorem map_fst_entriesOf (M : Multiset Order) :
    (entriesOf M).map Prod.fst = M.map (·.id) := by
  simp [entriesOf]

/-- The entry of a stop does not change when it is activated. -/
theorem entriesOf_convertStop (orders : List Order) :
    entriesOf ↑(orders.map convertStop) = entriesOf ↑orders := by
  simp only [entriesOf, Multiset.map_coe, List.map_map]
  rfl

variable {m : OpenOrders} {out : Uuid → Option OpenOrder} {o t : Order} {q : Decimal}

/-! ## Fills -/

/-- An order that is not listed is not decremented. -/
theorem decrementOpenOrder_absent {id : Uuid} (h : m.find? id = none) :
    decrementOpenOrder m id q = m := by
  simp only [decrementOpenOrder, h]

/-- A decrement takes the quantity off the entry. -/
theorem holds_decrement_part {E : Multiset (Uuid × OpenOrder)}
    (h : m.Holds ((o.id, entryOf o) ::ₘ E) out) (hid : o.id ∉ E.map Prod.fst)
    (hq : q < o.remaining) :
    (decrementOpenOrder m o.id q).Holds
      ((o.id, entryOf (o.withRemaining (o.remaining - q))) ::ₘ E) out := by
  have hnot : ¬ (entryOf o).remaining ≤ q := not_le.mpr hq
  simp only [decrementOpenOrder, h.find?_cons, if_neg hnot]
  exact h.update hid _

/-- One that takes all removes the entry. -/
theorem holds_decrement_whole {E : Multiset (Uuid × OpenOrder)}
    (h : m.Holds ((o.id, entryOf o) ::ₘ E) out) (hid : o.id ∉ E.map Prod.fst)
    (hnone : out o.id = none) (hq : o.remaining ≤ q) :
    (decrementOpenOrder m o.id q).Holds E out := by
  have hle : (entryOf o).remaining ≤ q := hq
  simp only [decrementOpenOrder, h.find?_cons, if_pos hle]
  exact h.erase hid hnone

/-! ## The taker -/

/-- What the table shows of the taker `t`: nothing when it was just submitted or
filled up, else an entry that lags behind by what was decremented. -/
inductive Listed (submitted decremented : Prop) (t : Order) : Multiset Order → Prop where
  | unlisted (h : submitted ∨ t.remaining = 0) : Listed submitted decremented t 0
  | listed (hstop : ¬ submitted) (lag : Decimal) (hlag : 0 ≤ lag) (hdec : lag ≠ 0 → decremented)
      (hpos : 0 < t.remaining + lag) :
      Listed submitted decremented t {t.withRemaining (t.remaining + lag)}

variable {submitted decremented : Prop} {G W : Multiset Order}

theorem Listed.id_eq (h : Listed submitted decremented t G) : ∀ g ∈ G, g.id = t.id := by
  intro g hg
  cases h with
  | unlisted => cases hg
  | listed =>
    rw [Multiset.mem_singleton.mp hg]
    rfl

/-- The ids of the taker and of the orders `W` are distinct, and the table holds
nothing under them but what it shows of these orders. -/
structure Clear (t : Order) (W : Multiset Order) (out : Uuid → Option OpenOrder) : Prop where
  unique : (t.id ::ₘ W.map (·.id)).Nodup
  taker : out t.id = none
  orders : ∀ o ∈ W, out o.id = none

/-- What is clear of orders is clear of fewer. -/
theorem Clear.mono {W' : Multiset Order} (h : Clear t W out) (hle : W' ≤ W) : Clear t W' out where
  unique := Multiset.nodup_of_le (Multiset.cons_le_cons _ (Multiset.map_le_map hle)) h.unique
  taker := h.taker
  orders := fun o ho => h.orders o (Multiset.mem_of_le hle ho)

theorem Clear.notMem (h : Clear t W out) : t.id ∉ W.map (·.id) :=
  (Multiset.nodup_cons.mp h.unique).1

/-- A fill of the taker. -/
theorem Listed.fill (hl : Listed submitted decremented t G) (hclear : Clear t W out)
    (hpos : 0 < t.remaining) (hq : q ≤ t.remaining) (h : m.Holds (entriesOf (G + W)) out) :
    ∃ G', Listed submitted decremented (t.withRemaining (t.remaining - q)) G' ∧
      (decrementOpenOrder m t.id q).Holds (entriesOf (G' + W)) out := by
  cases hl with
  | unlisted hun =>
    rw [zero_add] at h
    have habsent : m.find? t.id = none :=
      h.find?_absent (by rw [map_fst_entriesOf]; exact hclear.notMem) hclear.taker
    refine ⟨0, .unlisted (Or.inl (hun.resolve_right hpos.ne')), ?_⟩
    rw [decrementOpenOrder_absent habsent, zero_add]
    exact h
  | listed hstop lag hlag hdec hlagpos =>
    rw [Multiset.singleton_add, entriesOf_cons] at h
    have hid : (t.withRemaining (t.remaining + lag)).id ∉ (entriesOf W).map Prod.fst := by
      rw [map_fst_entriesOf]
      exact hclear.notMem
    by_cases hlt : q < t.remaining + lag
    · refine ⟨_, .listed hstop lag hlag hdec ?_, ?_⟩
      · simp only [Order.remaining_withRemaining]
        lia
      · have hpart := holds_decrement_part h hid hlt
        rw [Multiset.singleton_add, entriesOf_cons]
        simp only [Order.remaining_withRemaining, Order.withRemaining_withRemaining,
          Order.id_withRemaining] at hpart ⊢
        rw [show t.remaining - q + lag = t.remaining + lag - q by lia]
        exact hpart
    · -- nothing was decremented, and the fill takes all that is left
      refine ⟨0, .unlisted (Or.inr ?_), ?_⟩
      · simp only [Order.remaining_withRemaining]
        lia
      · have hwhole := holds_decrement_whole h hid hclear.taker (not_lt.mp hlt)
        rw [zero_add]
        exact hwhole

/-- A decrement of the taker, which the table does not follow. -/
theorem Listed.decrement (hl : Listed submitted decremented t G) (hpos : 0 < t.remaining)
    (hdec : decremented) {a : Decimal} (ha : 0 ≤ a) :
    Listed submitted decremented (t.withRemaining (t.remaining - a)) G := by
  cases hl with
  | unlisted hun => exact .unlisted (Or.inl (hun.resolve_right hpos.ne'))
  | listed hstop lag hlag _ hlagpos =>
    have heq : t.withRemaining (t.remaining + lag) =
        (t.withRemaining (t.remaining - a)).withRemaining
          ((t.withRemaining (t.remaining - a)).remaining + (lag + a)) := by
      simp only [Order.remaining_withRemaining, Order.withRemaining_withRemaining]
      rw [show t.remaining - a + (lag + a) = t.remaining + lag by lia]
    rw [heq]
    refine .listed hstop (lag + a) (by lia) (fun _ => hdec) ?_
    simp only [Order.remaining_withRemaining]
    lia

/-- A cancel of the taker. -/
theorem Listed.cancel (hl : Listed submitted decremented t G) (hclear : Clear t W out)
    (h : m.Holds (entriesOf (G + W)) out) : (m.erase t.id).Holds (entriesOf W) out := by
  cases hl with
  | unlisted =>
    rw [zero_add] at h
    exact h.erase_absent (by rw [map_fst_entriesOf]; exact hclear.notMem) hclear.taker
  | listed hstop lag =>
    rw [Multiset.singleton_add, entriesOf_cons] at h
    exact h.erase (by rw [map_fst_entriesOf]; exact hclear.notMem) hclear.taker

/-! ## Orders of the book -/

/-- The id of an order of the book is the id of no other order in play. -/
theorem Clear.notMem_cons (hclear : Clear t (o ::ₘ W) out)
    (hl : Listed submitted decremented t G) : o.id ∉ (entriesOf (G + W)).map Prod.fst := by
  have hunique := hclear.unique
  rw [Multiset.map_cons, Multiset.nodup_cons, Multiset.nodup_cons, Multiset.mem_cons] at hunique
  rw [map_fst_entriesOf, Multiset.map_add, Multiset.mem_add]
  rintro (hmem | hmem)
  · rcases Multiset.mem_map.mp hmem with ⟨g, hg, hid⟩
    exact hunique.1 (Or.inl ((hl.id_eq g hg).symm.trans hid))
  · exact hunique.2.1 hmem

theorem entriesOf_add_cons (G : Multiset Order) (o : Order) (W : Multiset Order) :
    entriesOf (G + o ::ₘ W) = (o.id, entryOf o) ::ₘ entriesOf (G + W) := by
  rw [Multiset.add_cons, entriesOf_cons]

/-- An order of the book is cancelled. -/
theorem Listed.cancel_order (hl : Listed submitted decremented t G)
    (hclear : Clear t (o ::ₘ W) out) (h : m.Holds (entriesOf (G + o ::ₘ W)) out) :
    (m.erase o.id).Holds (entriesOf (G + W)) out := by
  rw [entriesOf_add_cons] at h
  exact h.erase (hclear.notMem_cons hl) (hclear.orders o (Multiset.mem_cons_self _ _))

/-- An order of the book is filled up. -/
theorem Listed.fill_order (hl : Listed submitted decremented t G)
    (hclear : Clear t (o ::ₘ W) out) (h : m.Holds (entriesOf (G + o ::ₘ W)) out)
    (hq : o.remaining ≤ q) : (decrementOpenOrder m o.id q).Holds (entriesOf (G + W)) out := by
  rw [entriesOf_add_cons] at h
  exact holds_decrement_whole h (hclear.notMem_cons hl)
    (hclear.orders o (Multiset.mem_cons_self _ _)) hq

/-- An order of the book is filled in part. -/
theorem Listed.shrink_order (hl : Listed submitted decremented t G)
    (hclear : Clear t (o ::ₘ W) out) (h : m.Holds (entriesOf (G + o ::ₘ W)) out)
    (hq : q < o.remaining) :
    (decrementOpenOrder m o.id q).Holds
      (entriesOf (G + o.withRemaining (o.remaining - q) ::ₘ W)) out := by
  rw [entriesOf_add_cons] at h ⊢
  exact holds_decrement_part h (hclear.notMem_cons hl) hq

/-! ## Events -/

variable {T : Option Order} {Q : Multiset Order}

@[simp] theorem applyOpenOrderUpdates_nil (m : OpenOrders) (T : Option Order) :
    applyOpenOrderUpdates m T [] = m := rfl

/-- Events update the table one after the other. -/
@[simp] theorem applyOpenOrderUpdates_append (m : OpenOrders) (T : Option Order)
    (events events' : List EngineEvent) :
    applyOpenOrderUpdates m T (events ++ events') =
      applyOpenOrderUpdates (applyOpenOrderUpdates m T events) T events' := by
  simp [applyOpenOrderUpdates]

@[simp] theorem applyOpenOrderUpdates_cancelled (m : OpenOrders) (T : Option Order) (id : Uuid)
    (reason : CancelReason) (events : List EngineEvent) :
    applyOpenOrderUpdates m T (.cancelled id reason :: events) =
      applyOpenOrderUpdates (m.erase id) T events := rfl

@[simp] theorem applyOpenOrderUpdates_fill (m : OpenOrders) (T : Option Order) (f : Fill)
    (events : List EngineEvent) :
    applyOpenOrderUpdates m T (.fill f :: events) =
      applyOpenOrderUpdates (decrementOpenOrder
        (decrementOpenOrder m f.makerOrderId f.quantity) f.takerOrderId f.quantity) T events := rfl

/-- An announced stop keeps its entry. -/
theorem applyOpenOrderUpdates_stopTriggered (m : OpenOrders) (T : Option Order)
    (orders : List Order) :
    applyOpenOrderUpdates m T (orders.map fun t => .stopTriggered t.id) = m := by
  induction orders with
  | nil => rfl
  | cons o orders ih => exact ih

/-- The table follows the cancel of an order; `E` are the entries of orders
outside the pool. -/
theorem follow_cancel {P : Pool} {id : Uuid} {reason : CancelReason}
    {r : Pool × List EngineEvent} (hcancel : Pool.Cancel P id reason r)
    {E : Multiset (Uuid × OpenOrder)} (hunique : ((entriesOf P.live + E).map Prod.fst).Nodup)
    (hnone : ∀ o ∈ P.live, out o.id = none) (h : m.Holds (entriesOf P.live + E) out) :
    (applyOpenOrderUpdates m T r.2).Holds (entriesOf r.1.live + E) out := by
  -- the cancelled order loses its entry, wherever it was held
  have hdrop : ∀ {o : Order} {M : Multiset Order}, P.live = o ::ₘ M → o.id = id →
      (m.erase id).Holds (entriesOf M + E) out := by
    rintro o M hlive rfl
    rw [hlive, entriesOf_cons, Multiset.cons_add] at h hunique
    rw [Multiset.map_cons, Multiset.nodup_cons] at hunique
    refine h.erase hunique.1 (hnone o ?_)
    rw [hlive]
    exact Multiset.mem_cons_self _ _
  cases hcancel with
  | absent => exact h
  | resting o others hid hpool =>
    refine hdrop (o := o) ?_ hid
    rw [Pool.live, hpool, Multiset.cons_add]
    rfl
  | stop o others hid hpool =>
    refine hdrop (o := o) ?_ hid
    rw [Pool.live, hpool, Multiset.add_cons]
    rfl

/-- The table follows an OCO cancel. -/
theorem follow_ocoCancel {P : Pool} {id : Uuid} {r : Pool × List EngineEvent}
    (hcancel : Pool.OcoCancel P id r) {E : Multiset (Uuid × OpenOrder)}
    (hunique : ((entriesOf P.live + E).map Prod.fst).Nodup)
    (hnone : ∀ o ∈ P.live, out o.id = none) (h : m.Holds (entriesOf P.live + E) out) :
    (applyOpenOrderUpdates m T r.2).Holds (entriesOf r.1.live + E) out := by
  cases hcancel with
  | unlinked => exact h
  | linked sibling _ hcancel => exact follow_cancel hcancel hunique hnone h

/-- The table follows an OCO cancel while a taker is matched. -/
theorem Listed.follow_ocoCancel {P : Pool} {id : Uuid} {r : Pool × List EngineEvent}
    (hcancel : Pool.OcoCancel P id r) (hl : Listed submitted decremented t G)
    (hclear : Clear t (P.live + Q) out) (h : m.Holds (entriesOf (G + (P.live + Q))) out) :
    (applyOpenOrderUpdates m T r.2).Holds (entriesOf (G + (r.1.live + Q))) out := by
  rw [add_left_comm, entriesOf_add] at h ⊢
  refine Server.follow_ocoCancel hcancel ?_
    (fun o ho => hclear.orders o (Multiset.mem_add.mpr (Or.inl ho))) h
  rw [← entriesOf_add, add_left_comm, map_fst_entriesOf, Multiset.map_add]
  cases hl with
  | unlisted =>
    rw [Multiset.map_zero, zero_add]
    exact (Multiset.nodup_cons.mp hclear.unique).2
  | listed =>
    rw [Multiset.map_singleton, Multiset.singleton_add]
    exact hclear.unique

/-! ## One turn of the matching loop -/

/-- The turn at this state decrements a larger resting order of the taker's
user. -/
def Undercuts (s : MatchState) : Prop :=
  ∃ price m rest, Meets s price m rest ∧ s.taker.userId = m.userId ∧
    s.taker.stpMode = .decrement ∧ s.taker.remaining < m.remaining

/-- The turn at this state decrements the taker by a smaller resting order of its
user. -/
def Absorbs (s : MatchState) : Prop :=
  ∃ price m rest, Meets s price m rest ∧ s.taker.userId = m.userId ∧
    s.taker.stpMode = .decrement ∧ m.remaining < s.taker.remaining

/-- The table before a turn: it shows the orders of the book and of the queue,
and lists the taker. -/
def Shows (submitted decremented : Prop) (m : OpenOrders) (T : Option Order) (Q : Multiset Order)
    (out : Uuid → Option OpenOrder) (s : MatchState) : Prop :=
  ∃ G, Listed submitted decremented s.taker G ∧
    (applyOpenOrderUpdates m T s.events).Holds (entriesOf (G + (s.book.pool + Q))) out

variable {s s' : MatchState}

/-- A turn keeps the table showing the book. -/
theorem shows_next (hspec : TurnSpec s (.next s')) (hb : s.book.Consistent)
    (hclear : Clear s.taker (s.book.pool + Q) out) (hdec : Absorbs s → decremented)
    (hs : Shows submitted decremented m T Q out s) :
    Shows submitted decremented m T Q out s' := by
  rcases hs with ⟨G, hl, h⟩
  cases hspec with
  -- the entry of the maker is removed
  | @cancelMaker price mk rest hm =>
    have hpool := pool_dropFront hm.level
    rw [hpool, Multiset.cons_add] at hclear h
    refine ⟨G, hl, ?_⟩
    simp only [applyOpenOrderUpdates_append, applyOpenOrderUpdates_cancelled,
      applyOpenOrderUpdates_nil]
    exact hl.cancel_order hclear h
  | @decrementMaker price mk rest hm hown hmode hgt =>
    have hpos : 0 ≤ mk.remaining := (hb.front hm.level).2.2.2.le
    have hpool := pool_dropFront hm.level
    rw [hpool, Multiset.cons_add] at hclear h
    refine ⟨G, hl.decrement hm.pos (hdec ⟨price, mk, rest, hm, hown, hmode, hgt⟩) hpos, ?_⟩
    simp only [applyOpenOrderUpdates_append, applyOpenOrderUpdates_cancelled,
      applyOpenOrderUpdates_nil]
    exact hl.cancel_order hclear h
  -- both entries are decremented by the fill
  | @fillPart price mk rest hm hother hpart =>
    have hlt : (fillOf s.taker mk price).quantity < mk.remaining :=
      lt_of_le_of_ne (fillOf_quantity_le ..) (Ne.symm hpart)
    rcases pool_shrinkFront hm.level
      (levelAfterFill_perm mk rest (fillOf s.taker mk price).quantity) with ⟨others, hold, hnew⟩
    rw [hold, Multiset.cons_add] at hclear h
    have hmaker := hl.shrink_order hclear h hlt
    have hclear' : Clear s.taker (mk.withRemaining
        (mk.remaining - (fillOf s.taker mk price).quantity) ::ₘ (others + Q)) out := by
      refine ⟨?_, hclear.taker, ?_⟩
      · have hunique := hclear.unique
        rw [Multiset.map_cons] at hunique ⊢
        exact hunique
      · intro o ho
        rcases Multiset.mem_cons.mp ho with rfl | ho
        · exact hclear.orders mk (Multiset.mem_cons_self _ _)
        · exact hclear.orders o (Multiset.mem_cons_of_mem ho)
    rcases hl.fill hclear' hm.pos (fillOf_quantity_le_taker ..) hmaker with ⟨G', hl', h'⟩
    refine ⟨G', hl', ?_⟩
    simp only [applyOpenOrderUpdates_append, applyOpenOrderUpdates_fill,
      applyOpenOrderUpdates_nil]
    rw [hnew, Multiset.cons_add]
    exact h'
  -- the maker's entry runs out, and its sibling's is removed
  | @fillWhole price mk rest hm hother hwhole =>
    have hpool := pool_dropFront hm.level
    rw [hpool, Multiset.cons_add] at hclear h
    have hclear' := hclear.mono (Multiset.le_cons_self _ _)
    have hmaker := hl.fill_order hclear h hwhole.le
    rcases hl.fill hclear' hm.pos (fillOf_quantity_le_taker ..) hmaker with ⟨G', hl', h'⟩
    have hclear'' : Clear (s.taker.withRemaining
        (s.taker.remaining - (fillOf s.taker mk price).quantity))
        ((s.book.dropFront s.taker.side.opposite price mk rest).toPool.live + Q) out :=
      ⟨hclear'.unique, hclear'.taker, hclear'.orders⟩
    refine ⟨G', hl', ?_⟩
    simp only [applyOpenOrderUpdates_append, applyOpenOrderUpdates_fill,
      applyOpenOrderUpdates_nil]
    exact hl'.follow_ocoCancel ((hb.dropFront hm.level).ocoCancel mk.id) hclear'' h'

/-- A taker consumed by self-trade prevention leaves the table. -/
theorem shows_consumed (hspec : TurnSpec s (.done (s', .takerConsumed)))
    (hclear : Clear s.taker (s.book.pool + Q) out) (hno : ¬ Undercuts s)
    (hs : Shows submitted decremented m T Q out s) :
    (applyOpenOrderUpdates m T s'.events).Holds (entriesOf (s'.book.pool + Q)) out := by
  rcases hs with ⟨G, hl, h⟩
  cases hspec with
  | cancelTaker =>
    simp only [applyOpenOrderUpdates_append, applyOpenOrderUpdates_cancelled,
      applyOpenOrderUpdates_nil]
    exact hl.cancel hclear h
  | decrementTaker hm hown hmode hlt => exact absurd ⟨_, _, _, hm, hown, hmode, hlt⟩ hno
  | @decrementBoth price mk rest hm =>
    have hpool := pool_dropFront hm.level
    rw [hpool, Multiset.cons_add] at hclear h
    simp only [applyOpenOrderUpdates_append, applyOpenOrderUpdates_cancelled,
      applyOpenOrderUpdates_nil]
    exact hl.cancel (hclear.mono (Multiset.le_cons_self _ _)) (hl.cancel_order hclear h)

/-! ## The end of a pass -/

variable {sub taker : Order}

/-- The submitted order enters the table when it rests. -/
theorem applyOpenOrderUpdates_rested_submitted (m : OpenOrders) (hid : sub.id = t.id)
    (huser : sub.userId = t.userId) (hsymbol : sub.symbol = t.symbol) :
    applyOpenOrderUpdates m (some sub) [.rested t.id t.remaining] = m.insert t.id (entryOf t) := by
  simp [applyOpenOrderUpdates, applyOpenOrderUpdate, Option.filter, hid, huser, hsymbol, entryOf]

/-- The entry of a triggered stop is set right when it rests. -/
theorem applyOpenOrderUpdates_rested_stop (hid : sub.id ≠ t.id) {lag : Decimal}
    (h : m.find? t.id = some (entryOf (t.withRemaining (t.remaining + lag)))) :
    applyOpenOrderUpdates m (some sub) [.rested t.id t.remaining] = m.insert t.id (entryOf t) := by
  simp only [applyOpenOrderUpdates, List.foldl_cons, List.foldl_nil, applyOpenOrderUpdate,
    Option.filter, hid, decide_false, h]
  rfl

/-- A taker that is finalised leaves the table, or is shown as it rests. -/
theorem shows_finalized {P : Pool} {events : List EngineEvent}
    (hfinal : s.toPass.Finalize (P, events)) (hclear : Clear s.taker (s.book.pool + Q) out)
    (hsame : s.taker = taker.withRemaining s.taker.remaining)
    (hsub : taker.id = sub.id → taker = sub)
    (hlag : taker.id ≠ sub.id → decremented → s.taker.remaining ≠ 0)
    (hs : Shows (taker.id = sub.id) decremented m (some sub) Q out s) :
    (applyOpenOrderUpdates m (some sub) (s.events ++ events)).Holds (entriesOf (P.live + Q))
      out := by
  rcases hs with ⟨G, hl, h⟩
  have hid : s.taker.id = taker.id := by rw [hsame, Order.id_withRemaining]
  have hnone : Listed True True s.taker 0 := .unlisted (Or.inl trivial)
  generalize hr : (P, events) = r at hfinal
  rw [applyOpenOrderUpdates_append]
  cases hfinal with
  -- an entry of the taker has run out with it
  | filled hzero hoco =>
    cases hr
    have hzero' : s.taker.remaining = 0 := hzero
    have hG : G = 0 := by
      cases hl with
      | unlisted => rfl
      | listed hstop lag _ hdec hpos =>
        refine absurd hzero' (hlag hstop (hdec ?_))
        lia
    subst hG
    have hfollow := hnone.follow_ocoCancel (T := some sub) hoco hclear h
    rw [zero_add] at hfollow
    exact hfollow
  | cancelled _ reason _ _ hoco =>
    cases hr
    have hcancel := hl.cancel hclear h
    have hfollow := hnone.follow_ocoCancel (T := some sub) hoco hclear
      (by rw [zero_add]; exact hcancel)
    rw [zero_add] at hfollow
    rw [applyOpenOrderUpdates_cancelled]
    exact hfollow
  | rested hne =>
    cases hr
    have hshown : entriesOf (Pool.live { s.toPass.pool with
        resting := s.toPass.taker ::ₘ s.toPass.pool.resting } + Q) =
        (s.taker.id, entryOf s.taker) ::ₘ entriesOf (s.book.pool + Q) := by
      rw [Pool.live, Multiset.cons_add, Multiset.cons_add, entriesOf_cons]
      rfl
    have hnew : s.taker.id ∉ (entriesOf (s.book.pool + Q)).map Prod.fst := by
      rw [map_fst_entriesOf]
      exact hclear.notMem
    rw [hshown]
    change (applyOpenOrderUpdates _ (some sub) [.rested s.taker.id s.taker.remaining]).Holds _ _
    cases hl with
    | unlisted hun =>
      have hsubmitted := hsub (hun.resolve_right hne)
      rw [hsubmitted] at hsame
      rw [applyOpenOrderUpdates_rested_submitted _ (by rw [hsame]; rfl) (by rw [hsame]; rfl)
        (by rw [hsame]; rfl)]
      rw [zero_add] at h
      exact h.insert hnew
    | listed hstop lag _ _ hpos =>
      rw [Multiset.singleton_add, entriesOf_cons] at h
      rw [applyOpenOrderUpdates_rested_stop (fun heq => hstop (hid.symm.trans heq.symm))
        h.find?_cons]
      exact h.update hnew _

/-- Draining the stops keeps their entries. -/
theorem entriesOf_drained {P : Pool} {last : Option Decimal} {hit : List Order}
    {others : Multiset Order} (hdrain : Pass.Drains P last hit others) (Q : Multiset Order) :
    entriesOf (Pool.live { P with stops := others } + (↑(hit.map convertStop) + Q)) =
      entriesOf (P.live + Q) := by
  simp only [Pool.live, hdrain.split, entriesOf_add, entriesOf_convertStop, add_assoc]
  rw [add_left_comm (entriesOf others)]

/-- The end of a pass, where the stops it hit move to the queue. -/
theorem shows_finish {exit : MatchExit} {r : Pool × List EngineEvent × List Order}
    (hfinish : s.toPass.Finish exit r) (hclear : Clear s.taker (s.book.pool + Q) out)
    (hsame : s.taker = taker.withRemaining s.taker.remaining)
    (hsub : taker.id = sub.id → taker = sub)
    (hlag : exit = .exhausted → taker.id ≠ sub.id → decremented → s.taker.remaining ≠ 0)
    (hexhausted : exit = .exhausted →
      Shows (taker.id = sub.id) decremented m (some sub) Q out s)
    (hconsumed : exit = .takerConsumed →
      (applyOpenOrderUpdates m (some sub) s.events).Holds (entriesOf (s.book.pool + Q)) out) :
    (applyOpenOrderUpdates m (some sub) r.2.1).Holds (entriesOf (r.1.live + (↑r.2.2 + Q)))
      out := by
  cases hfinish with
  | consumed hdrain =>
    rw [entriesOf_drained hdrain]
    exact hconsumed rfl
  | finalized hfinal hdrain =>
    rw [entriesOf_drained hdrain]
    exact shows_finalized hfinal hclear hsame hsub (hlag rfl) (hexhausted rfl)

/-! ## Passes -/

variable {b b' : OrderBook} {fuel : ℕ} {events : List EngineEvent} {triggered : List Order}

/-- What a pass of `order` must not do for the table to follow it. -/
structure PassAnnounced (fuel : ℕ) (sub : Order) (b : OrderBook) (order : Order) : Prop where
  /-- No larger resting order is decremented. -/
  undercut : ∀ s, Visits matchTurn (b.enterLoop order) s → ¬ Undercuts s
  /-- A triggered stop that was decremented is not filled up. -/
  absorb : order.id ≠ sub.id → ∀ s, Visits matchTurn (b.enterLoop order) s → Absorbs s →
    ∀ final, loop matchTurn fuel (b.enterLoop order) = some (final, .exhausted) →
      final.taker.remaining ≠ 0

/-- The taker stays clear of the orders of the book. -/
theorem clear_of_sound (hclear : Clear taker (b.pool + Q) out)
    (hs : LoopSound taker s) (hids : s.book.toPool.ids ≤ b.toPool.ids) :
    Clear s.taker (s.book.pool + Q) out := by
  have hid : s.taker.id = taker.id := hs.pass.id_eq
  have hmap : (s.book.pool + Q).map (·.id) ≤ (b.pool + Q).map (·.id) := by
    rw [Multiset.map_add, Multiset.map_add]
    exact add_le_add_left hids _
  refine ⟨?_, by rw [hid]; exact hclear.taker, ?_⟩
  · rw [hid]
    exact Multiset.nodup_of_le (Multiset.cons_le_cons _ hmap) hclear.unique
  · intro o ho
    rcases Multiset.mem_map.mp (Multiset.mem_of_le hmap (Multiset.mem_map_of_mem _ ho)) with
      ⟨o', ho', heq⟩
    rw [← heq]
    exact hclear.orders o' ho'

/-- The table follows a pass: it shows the book after it, the triggered stops and
the queue. -/
theorem runMatchingLoop_shows (h : Enters b taker) (hclear : Clear taker (b.pool + Q) out)
    (hsub : taker.id = sub.id → taker = sub) (hann : PassAnnounced fuel sub b taker)
    (h0 : Shows (taker.id = sub.id)
      (∃ s, Visits matchTurn (b.enterLoop taker) s ∧ Absorbs s) m (some sub) Q out
      (b.enterLoop taker))
    (hrun : b.runMatchingLoop fuel taker = some (b', events, triggered)) :
    (applyOpenOrderUpdates m (some sub) events).Holds
      (entriesOf (b'.pool + (↑triggered + Q))) out := by
  rcases runMatchingLoop_eq_some hrun with ⟨final, exit, hloop, hafter⟩
  have hfinal := h.loop_sound hloop
  -- the table at the end of the loop
  have hend : (exit = .exhausted → Shows (taker.id = sub.id)
        (∃ s, Visits matchTurn (b.enterLoop taker) s ∧ Absorbs s) m (some sub) Q out final) ∧
      (exit = .takerConsumed → (applyOpenOrderUpdates m (some sub) final.events).Holds
        (entriesOf (final.book.pool + Q)) out) ∧ final.book.toPool.ids ≤ b.toPool.ids := by
    refine matchLoop_induct h
      (fun _ s => Shows (taker.id = sub.id)
        (∃ s, Visits matchTurn (b.enterLoop taker) s ∧ Absorbs s) m (some sub) Q out s ∧
        s.book.toPool.ids ≤ b.toPool.ids)
      (fun _ final exit => (exit = .exhausted → Shows (taker.id = sub.id)
        (∃ s, Visits matchTurn (b.enterLoop taker) s ∧ Absorbs s) m (some sub) Q out final) ∧
        (exit = .takerConsumed → (applyOpenOrderUpdates m (some sub) final.events).Holds
          (entriesOf (final.book.pool + Q)) out) ∧ final.book.toPool.ids ≤ b.toPool.ids)
      ⟨h0, le_refl _⟩ ?_ ?_ hloop
    · rintro past s s' hv hs ⟨hshows, hids⟩ hspec
      have hclear' := clear_of_sound hclear hs hids
      exact ⟨shows_next hspec hs.book hclear' (fun habs => ⟨s, hv, habs⟩) hshows,
        ((hspec.refines hs.book).ids_le).trans hids⟩
    · rintro past s s' exit hv hs ⟨hshows, hids⟩ hspec hs'
      have hclear' := clear_of_sound hclear hs hids
      refine ⟨?_, ?_, ((hspec.refines hs.book).ids_le).trans hids⟩
      · rintro rfl
        cases hspec
        exact hshows
      · rintro rfl
        exact shows_consumed hspec hclear' (hann.undercut s hv) hshows
  have hclear' := clear_of_sound hclear hfinal hend.2.2
  have hfinish := (afterLoop_refines hfinal h.ready exit).2
  rw [← hafter] at hfinish
  refine shows_finish hfinish hclear' hfinal.pass.same hsub ?_ hend.1 hend.2.1
  rintro rfl hstop ⟨s, hv, habs⟩
  exact hann.absorb hstop s hv habs final hloop

/-! ## Calls -/

/-- What a call that matches `sub` must not do for the table to follow it. -/
structure Announced (fuel : ℕ) (b : OrderBook) (sub : Order) : Prop where
  pass : ∀ c order rest, Visits (cascadeTurn fuel) (b.enterCascade sub) c →
    c.workQueue = order :: rest → PassAnnounced fuel sub c.book order
  /-- No triggered stop is dropped. -/
  drop : ∀ c order rest r, Visits (cascadeTurn fuel) (b.enterCascade sub) c →
    c.workQueue = order :: rest → maxStopChainDepth ≤ c.stopDepth →
    c.book.runMatchingLoop fuel order = some r → r.2.2 = []
  /-- A fill-or-kill order does not fall short of the book. -/
  kill : sub.orderType = .fok → ¬ FallsShort b sub

/-- The table between two passes of a call: it shows the orders of the book and
of the work queue, but for a submitted order that is still to be matched. -/
structure CascadeShows (b : OrderBook) (sub : Order) (m : OpenOrders)
    (out : Uuid → Option OpenOrder) (c : CascadeState) : Prop where
  stops : c.book.stopPool ≤ b.stopPool
  ids : ↑(c.workQueue.map (·.id)) + c.book.toPool.ids ≤ sub.id ::ₘ b.toPool.ids
  table : (c = b.enterCascade sub ∧ m.Holds (entriesOf b.pool) out) ∨
    (sub.id ∉ c.workQueue.map (·.id) ∧ (applyOpenOrderUpdates m (some sub) c.events).Holds
      (entriesOf (c.book.pool + ↑c.workQueue)) out)

theorem CascadeShows.clear {c : CascadeState} (hc : CascadeSound c)
    (hinv : CascadeShows b sub m out c) (hout : ∀ id ∈ sub.id ::ₘ b.toPool.ids, out id = none)
    {order : Order} {rest : List Order} (hqueue : c.workQueue = order :: rest) :
    Clear order (c.book.pool + ↑rest) out := by
  have hids : (order.id ::ₘ (c.book.pool + ↑rest).map (·.id)) =
      ↑(c.workQueue.map (·.id)) + c.book.toPool.ids := by
    rw [hqueue, List.map_cons, ← Multiset.cons_coe, Multiset.map_add, Multiset.map_coe,
      Multiset.cons_add, add_comm]
    rfl
  have hnone : ∀ id ∈ order.id ::ₘ (c.book.pool + ↑rest).map (·.id), out id = none := by
    intro id hid
    rw [hids] at hid
    exact hout id (Multiset.mem_of_le hinv.ids hid)
  refine ⟨by rw [hids]; exact hc.unique, hnone _ (Multiset.mem_cons_self _ _), ?_⟩
  intro o ho
  exact hnone o.id (Multiset.mem_cons_of_mem (Multiset.mem_map_of_mem _ ho))

/-- The table when a pass is entered. -/
theorem CascadeShows.enter {c : CascadeState} (hc : CascadeSound c)
    (hinv : CascadeShows b sub m out c) {order : Order} {rest : List Order}
    (hqueue : c.workQueue = order :: rest) {decremented : Prop} :
    (order.id = sub.id → order = sub) ∧ sub.id ∉ rest.map (·.id) ∧
      Shows (order.id = sub.id) decremented (applyOpenOrderUpdates m (some sub) c.events)
        (some sub) ↑rest out (c.book.enterLoop order) := by
  rcases hinv.table with ⟨rfl, h⟩ | ⟨hnot, h⟩
  · cases hqueue
    refine ⟨fun _ => rfl, by simp, 0, .unlisted (Or.inl rfl), ?_⟩
    rw [zero_add]
    have hpool : b.pool + ((↑([] : List Order) : Multiset Order)) = b.pool := add_zero _
    exact hpool.symm ▸ h
  · rw [hqueue, List.map_cons, List.mem_cons, not_or] at hnot
    refine ⟨fun h => absurd h.symm hnot.1, hnot.2, _,
      .listed (fun h => hnot.1 h.symm) 0 (le_refl 0) (fun h => absurd rfl h) ?_, ?_⟩
    · rw [add_zero]
      exact (hc.enters hqueue).ready.positive
    · rw [hqueue, ← Multiset.cons_coe, Multiset.add_cons] at h
      change OrdMap.Holds _ (entriesOf ({order.withRemaining (order.remaining + 0)} + _)) out
      rw [add_zero, Multiset.singleton_add]
      exact h

/-- The table follows every turn of the cascade. -/
theorem CascadeShows.step {c c' : CascadeState} (hv : Visits (cascadeTurn fuel)
    (b.enterCascade sub) c) (hc : CascadeSound c) (hinv : CascadeShows b sub m out c)
    (hout : ∀ id ∈ sub.id ::ₘ b.toPool.ids, out id = none)
    (hfresh : ∀ o ∈ b.pool, o.id ≠ sub.id) (hann : Announced fuel b sub)
    (hstep : CascadeStep fuel c c') : CascadeShows b sub m out c' := by
  have hids := (hstep.ids_le hc).trans hinv.ids
  -- a pass keeps the stops among those of `b`, so no triggered stop is `sub`
  have hpass : ∀ {order rest book events hit}, c.workQueue = order :: rest →
      c.book.runMatchingLoop fuel order = some (book, events, hit) →
      book.stopPool ≤ b.stopPool ∧ sub.id ∉ hit.map (·.id) ∧ sub.id ∉ rest.map (·.id) ∧
        (applyOpenOrderUpdates m (some sub) (c.events ++ events)).Holds
          (entriesOf (book.pool + (↑hit + ↑rest))) out := by
    intro order rest book events hit hqueue hrun
    have henters := hc.enters hqueue
    rcases hinv.enter hc hqueue with ⟨hsub, hrest, hshows⟩
    rcases (runMatchingLoop_sound henters hrun).hit with ⟨stops, heq, hle⟩
    have hle' := hle.trans hinv.stops
    refine ⟨(Multiset.le_add_left _ _).trans hle', ?_, hrest, ?_⟩
    · intro hmem
      rw [show hit = stops.map convertStop from heq, map_id_convertStop] at hmem
      rcases List.mem_map.mp hmem with ⟨stop, hstop, hid⟩
      have hpool : stop ∈ b.stopPool :=
        Multiset.mem_of_le ((Multiset.le_add_right _ _).trans hle') hstop
      exact hfresh stop (mem_pool.mpr (Or.inr hpool)) hid
    · rw [applyOpenOrderUpdates_append]
      exact runMatchingLoop_shows henters (hinv.clear hc hout hqueue) hsub
        (hann.pass c order rest hv hqueue) hshows hrun
  cases hstep with
  | @push order rest book events hit hqueue hrun hdepth =>
    rcases hpass hqueue hrun with ⟨hstops, hhit, hrest, htable⟩
    refine ⟨hstops, hids, Or.inr ⟨?_, ?_⟩⟩
    · dsimp only
      rw [List.map_append, List.map_reverse, List.mem_append, List.mem_reverse]
      exact not_or.mpr ⟨hhit, hrest⟩
    · dsimp only
      rw [applyOpenOrderUpdates_append, applyOpenOrderUpdates_stopTriggered,
        ← Multiset.coe_add, Multiset.coe_reverse]
      exact htable
  | @cut order rest book events hit hqueue hrun hdepth =>
    rcases hpass hqueue hrun with ⟨hstops, _, hrest, htable⟩
    have hnone : hit = [] := hann.drop c order rest _ hv hqueue hdepth hrun
    refine ⟨hstops, hids, Or.inr ⟨hrest, ?_⟩⟩
    rw [hnone, Multiset.coe_nil, zero_add] at htable
    exact htable

/-- The table follows a whole call. -/
theorem matchOrder_shows (hb : b.Sound) (hadm : sub.Admissible)
    (hfresh : ∀ o ∈ b.pool, o.id ≠ sub.id)
    (hout : ∀ id ∈ sub.id ::ₘ b.toPool.ids, out id = none)
    (hann : b.preCheck sub = none → sub.orderType.isStop = false → Announced fuel b sub)
    (h : m.Holds (entriesOf b.pool) out) (hcall : b.matchOrder fuel sub = some (b', events)) :
    (applyOpenOrderUpdates m (some sub) events).Holds (entriesOf b'.pool) out := by
  have hnew : sub.id ∉ (entriesOf b.pool).map Prod.fst := by
    rw [map_fst_entriesOf]
    intro hmem
    rcases Multiset.mem_map.mp hmem with ⟨o, ho, hid⟩
    exact hfresh o ho hid
  have hspec := matchOrder_spec hadm hcall
  generalize hr : (b', events) = r at hspec
  cases hspec with
  -- the entry is inserted and erased again
  | rejected reject hpre =>
    cases hr
    have hevent : ∃ reason, reject = .cancelled sub.id reason := by
      rcases preCheck_eq_some hpre with ⟨_, h⟩ | ⟨_, h⟩
      · exact ⟨_, h⟩
      · exact ⟨_, h⟩
    rcases hevent with ⟨reason, rfl⟩
    rw [applyOpenOrderUpdates_cancelled, applyOpenOrderUpdates_nil]
    exact h.erase_absent hnew (hout sub.id (Multiset.mem_cons_self _ _))
  -- a stop that waits is listed with all of its quantity
  | registered stops _ _ hins =>
    cases hr
    have hpool : OrderBook.pool { b with stops } = sub ::ₘ b.pool := by
      have hstops : (↑stops.orders : Multiset Order) = sub ::ₘ b.stopPool :=
        (Multiset.coe_eq_coe.mpr (StopRegistry.insert_orders hins)).trans
          (Multiset.cons_coe ..).symm
      simp only [pool, stopPool, hstops]
      rw [Multiset.add_cons]
      rfl
    rw [applyOpenOrderUpdates_rested_submitted m rfl rfl rfl, hpool, entriesOf_cons]
    exact h.insert hnew
  -- the table follows the cascade, and at its end no order waits
  | matched hpre hactive hloop =>
    have hc₀ := cascadeSound_enter hb ⟨hadm.positive, hactive, hadm.priced⟩ hfresh
    have hann' := hann hpre hactive
    have h0 : CascadeShows b sub m out (b.enterCascade sub) :=
      ⟨le_refl _, le_refl _, Or.inl ⟨rfl, h⟩⟩
    rcases cascade_induct hc₀ (CascadeShows b sub m out) h0
      (fun c c' hv hc hinv hstep => hinv.step hv hc hout hfresh hann' hstep) hloop with
      ⟨c, _, hqueue, heq, _, hinv⟩
    cases hr.trans heq
    rcases hinv.table with ⟨rfl, _⟩ | ⟨_, htable⟩
    · cases hqueue
    · rw [hqueue, Multiset.coe_nil, add_zero] at htable
      exact htable

/-- A match is read as a rejection when one of its events kills the order. -/
theorem immediatePreReject_eq_none {requestId id : Uuid} :
    immediatePreReject requestId id events = none ↔ ∀ e ∈ events, ¬ e.Kills id := by
  rw [immediatePreReject, List.findSome?_eq_none_iff]
  refine forall₂_congr fun e _ => ?_
  cases e with
  | cancelled x reason =>
    by_cases hx : x = id
    · cases reason <;> simp [preRejectOf, EngineEvent.Kills, hx]
    · simp [preRejectOf, EngineEvent.Kills, hx]
  | fill f => simp [preRejectOf, EngineEvent.Kills]
  | rested x r => simp [preRejectOf, EngineEvent.Kills]
  | stopTriggered x => simp [preRejectOf, EngineEvent.Kills]

/-- A placement is rejected after its match only if its order was killed. -/
theorem exists_kills_of_preReject {requestId id : Uuid}
    (h : immediatePreReject requestId id events ≠ none) : ∃ e ∈ events, e.Kills id := by
  by_contra hnone
  refine h (immediatePreReject_eq_none.mpr ?_)
  intro e he hkill
  exact hnone ⟨e, he, hkill⟩

/-! ## Steps of the exchange -/

/-- The table holds exactly the live orders of the books, with their owner,
symbol and remaining quantity. -/
def Exchange.Mirrors (x : Exchange) : Prop :=
  ∀ id entry, x.openOrders.find? id = some entry ↔
    ∃ symbol b o, x.books.find? symbol = some b ∧ o ∈ b.live ∧ o.id = id ∧ o.symbol = symbol ∧
      entry = entryOf o

theorem mirrors_empty : Exchange.empty.Mirrors := by
  intro id entry
  simp [Exchange.empty]

variable {x y : Exchange} {placed : List Order} {symbol : String}

/-- The live orders are those of the pool. -/
theorem mem_live_iff {b : OrderBook} {o : Order} : o ∈ b.live ↔ o ∈ b.pool := by
  rw [pool_eq_coe_live, Multiset.mem_coe]

/-- Live orders with the same id are in the same book. -/
theorem Exchange.Known.symbol_eq (h : x.Known placed) (hunique : (placed.map (·.id)).Nodup)
    {symbol' : String} {b b' : OrderBook} {o o' : Order} (hb : x.books.find? symbol = some b)
    (hb' : x.books.find? symbol' = some b') (ho : o ∈ b.pool) (ho' : o' ∈ b'.pool)
    (hid : o.id = o'.id) : symbol = symbol' := by
  rcases h.origin symbol b hb o ho with ⟨hsymbol, w, hw, hwid, hwsymbol⟩
  rcases h.origin symbol' b' hb' o' ho' with ⟨hsymbol', w', hw', hwid', hwsymbol'⟩
  have hsame : w = w' := List.inj_on_of_nodup_map hunique hw hw' (by rw [hwid, hwid', hid])
  rw [← hsymbol, ← hsymbol', ← hwsymbol, ← hwsymbol', hsame]

/-- What the table holds beside the orders of one book. -/
def outsideOf (x : Exchange) (symbol : String) (id : Uuid) : Option OpenOrder :=
  if id ∈ (x.bookOf symbol).pool.map (·.id) then none else x.openOrders.find? id

/-- A table that mirrors the books holds the orders of each book. -/
theorem Exchange.Mirrors.holds (hx : x.Mirrors) (hknown : x.Known placed) (symbol : String) :
    x.openOrders.Holds (entriesOf (x.bookOf symbol).pool) (outsideOf x symbol) where
  entry := by
    intro e he
    rcases Multiset.mem_map.mp he with ⟨o, ho, rfl⟩
    rw [hx o.id (entryOf o)]
    unfold Exchange.bookOf at ho
    cases hbook : x.books.find? symbol with
    | none =>
      rw [hbook] at ho
      simp at ho
    | some b =>
      rw [hbook] at ho
      exact ⟨symbol, b, o, hbook, mem_live_iff.mpr ho, rfl,
        (hknown.origin symbol b hbook o ho).1, rfl⟩
  other := by
    intro id hid
    rw [map_fst_entriesOf] at hid
    rw [outsideOf, if_neg hid]

theorem mem_bookOf_of_find? {b : OrderBook} (h : x.books.find? symbol = some b) :
    x.bookOf symbol = b := by
  rw [Exchange.bookOf, h]
  rfl

/-- Replacing the book of a symbol by one whose orders the table holds. -/
theorem Exchange.Mirrors.insert (hx : x.Mirrors) {b : OrderBook} {m : OpenOrders}
    (hknown : x.Known placed)
    (hnew : Exchange.Known placed { books := x.books.insert symbol b, openOrders := m })
    (hunique : (placed.map (·.id)).Nodup)
    (h : m.Holds (entriesOf b.pool) (outsideOf x symbol)) :
    Exchange.Mirrors { books := x.books.insert symbol b, openOrders := m } := by
  have hself : (x.books.insert symbol b).find? symbol = some b := OrdMap.find?_insert_self ..
  have hother : ∀ {symbol'}, symbol' ≠ symbol →
      (x.books.insert symbol b).find? symbol' = x.books.find? symbol' := by
    intro symbol' hne
    rw [OrdMap.find?_insert, if_neg hne]
  intro id entry
  constructor
  · intro hfind
    by_cases hid : id ∈ b.pool.map (·.id)
    · rcases Multiset.mem_map.mp hid with ⟨o, ho, rfl⟩
      have hentry := h.entry _ (Multiset.mem_map_of_mem (fun o => (o.id, entryOf o)) ho)
      exact ⟨symbol, b, o, hself, mem_live_iff.mpr ho, rfl, (hnew.origin symbol b hself o ho).1,
        Option.some.inj (hfind.symm.trans hentry)⟩
    · have hout := h.other id (by rw [map_fst_entriesOf]; exact hid)
      rw [show m.find? id = some entry from hfind, outsideOf] at hout
      split_ifs at hout with hold
      rcases (hx id entry).mp hout.symm with ⟨symbol', b', o, hb', ho, hoid, hsymbol, hentry⟩
      have hne : symbol' ≠ symbol := by
        rintro rfl
        refine hold (Multiset.mem_map.mpr ⟨o, ?_, hoid⟩)
        rw [mem_bookOf_of_find? hb']
        exact mem_live_iff.mp ho
      exact ⟨symbol', b', o, by rw [hother hne]; exact hb', ho, hoid, hsymbol, hentry⟩
  · rintro ⟨symbol', b', o, hb', ho, rfl, hsymbol, rfl⟩
    by_cases hsame : symbol' = symbol
    · subst hsame
      cases hself.symm.trans hb'
      exact h.entry _ (Multiset.mem_map_of_mem (fun o => (o.id, entryOf o)) (mem_live_iff.mp ho))
    · have hb'' : x.books.find? symbol' = some b' := by
        rw [← hother hsame]
        exact hb'
      -- the order is in another book, so the step did not touch its entry
      have hnot : o.id ∉ b.pool.map (·.id) := by
        intro hmem
        rcases Multiset.mem_map.mp hmem with ⟨o', ho', hid⟩
        exact hsame (hnew.symbol_eq hunique hb' hself (mem_live_iff.mp ho) ho' hid.symm)
      have hnot' : o.id ∉ (x.bookOf symbol).pool.map (·.id) := by
        intro hmem
        rcases Multiset.mem_map.mp hmem with ⟨o', ho', hid⟩
        cases hbook : x.books.find? symbol with
        | none =>
          rw [Exchange.bookOf, hbook] at ho'
          simp at ho'
        | some b₀ =>
          rw [mem_bookOf_of_find? hbook] at ho'
          exact hsame (hknown.symbol_eq hunique hb'' hbook (mem_live_iff.mp ho) ho' hid.symm)
      have hout := h.other o.id (by rw [map_fst_entriesOf]; exact hnot)
      rw [show m.find? o.id = _ from hout, outsideOf, if_neg hnot']
      exact (hx o.id (entryOf o)).mpr ⟨symbol', b', o, hb'', ho, rfl, hsymbol, rfl⟩

/-- The table follows the cancel of one order of a book. -/
theorem cancelOrderInternal_shows (hb : b.Consistent) (hnone : ∀ o ∈ b.pool, out o.id = none)
    (id : Uuid) (reason : CancelReason) (h : m.Holds (entriesOf b.pool) out) :
    (applyOpenOrderUpdates m T (b.cancelOrderInternal id reason).2).Holds
      (entriesOf (b.cancelOrderInternal id reason).1.pool) out := by
  have hcancel := (hb.cancels id reason).toPool
  have hfollow := follow_cancel (T := T) hcancel (E := 0) (by
    rw [add_zero, map_fst_entriesOf]
    exact hb.unique) hnone (by rw [add_zero]; exact h)
  rw [add_zero] at hfollow
  exact hfollow

/-- The table follows a cancel and the cancel of the OCO sibling. -/
theorem cancelOrder_shows (hb : b.Consistent) (hnone : ∀ o ∈ b.pool, out o.id = none)
    (id : Uuid) (h : m.Holds (entriesOf b.pool) out) :
    (applyOpenOrderUpdates m T (b.cancelOrder id).2).Holds
      (entriesOf (b.cancelOrder id).1.pool) out := by
  unfold OrderBook.cancelOrder
  cases b.ocoLinks.find? id with
  | none => exact cancelOrderInternal_shows hb hnone id .adminCancel h
  | some linkedId =>
    have hlink : (b.unlink id linkedId).Consistent := consistent_unlink.mpr hb
    have hfirst := cancelOrderInternal_shows (T := T) hlink hnone id .adminCancel h
    have hcancels := hlink.cancels id .adminCancel
    have hle : ((b.unlink id linkedId).cancelOrderInternal id .adminCancel).1.pool ≤ b.pool :=
      (within_cancelOrderInternal (b.unlink id linkedId) id .adminCancel).pool_le
    dsimp only
    rw [applyOpenOrderUpdates_append]
    exact cancelOrderInternal_shows (hcancels.consistent hlink)
      (fun o ho => hnone o (Multiset.mem_of_le hle ho)) linkedId .oco hfirst

/-- Cancels keep the mirror. -/
theorem Exchange.Mirrors.cancel (hx : x.Mirrors) (hknown : x.Known placed)
    (hunique : (placed.map (·.id)).Nodup) {orderId : Uuid}
    (hstep : Exchange.Step fuel x (.cancelOrder orderId) y) : y.Mirrors := by
  have hnew : y.Known placed := hstep.known_cancel hknown
  cases hstep with
  | @cancelled _ entry book hentry hbook =>
    refine hx.insert hknown hnew hunique ?_
    have hbookOf := mem_bookOf_of_find? hbook
    refine cancelOrder_shows (hknown.book _ _ hbook).book ?_ orderId ?_
    · intro o ho
      rw [outsideOf, if_pos]
      rw [hbookOf]
      exact Multiset.mem_map_of_mem _ ho
    · rw [← hbookOf]
      exact hx.holds hknown entry.symbol
  | bookless => exact hx

/-- A placed order keeps the mirror when the events tell all that happens. -/
theorem Exchange.Mirrors.place (hx : x.Mirrors) (hknown : x.Known placed) {order : Order}
    (hunique : ((placed ++ [order]).map (·.id)).Nodup) (hadm : order.Admissible)
    (hann : (EngineState.linkOco (x.bookOf order.symbol) order).preCheck order = none →
      order.orderType.isStop = false →
      Announced fuel (EngineState.linkOco (x.bookOf order.symbol) order) order)
    (hstep : Exchange.Step fuel x (.placeOrder order) y) : y.Mirrors := by
  have hfresh : order.id ∉ placed.map (·.id) := by
    rw [List.map_append, List.nodup_append] at hunique
    intro hmem
    exact hunique.2.2 order.id hmem order.id List.mem_cons_self rfl
  have hnew : y.Known (placed ++ [order]) :=
    hstep.known hknown (by rintro _ ⟨⟩; exact ⟨hadm, hfresh⟩)
  have hknown' := hknown.mono (List.subset_append_left placed [order])
  rcases hknown.bookOf order.symbol with ⟨hsound, horigin⟩
  have hsound' := Exchange.sound_linkOco hsound order
  -- no live order has the id of the new one
  have habsent : ∀ {symbol b o}, x.books.find? symbol = some b → o ∈ b.pool → o.id ≠ order.id := by
    intro symbol b o hb ho hid
    rcases (hknown.origin symbol b hb o ho).2 with ⟨w, hw, hwid, _⟩
    exact hfresh (List.mem_map.mpr ⟨w, hw, hwid.trans hid⟩)
  have hfresh' : ∀ o ∈ (EngineState.linkOco (x.bookOf order.symbol) order).pool,
      o.id ≠ order.id := by
    intro o ho hid
    rw [Exchange.pool_linkOco] at ho
    rcases (horigin o ho).2 with ⟨w, hw, hwid, _⟩
    exact hfresh (List.mem_map.mpr ⟨w, hw, hwid.trans hid⟩)
  have hout : ∀ id ∈ order.id ::ₘ
      (EngineState.linkOco (x.bookOf order.symbol) order).toPool.ids,
      outsideOf x order.symbol id = none := by
    intro id hid
    unfold outsideOf
    split_ifs with hmem
    · rfl
    · rcases Multiset.mem_cons.mp hid with rfl | hid
      · refine Option.eq_none_iff_forall_ne_some.mpr ?_
        intro entry hentry
        rcases (hx order.id entry).mp hentry with ⟨symbol, b, o, hb, ho, hoid, _⟩
        exact habsent hb (mem_live_iff.mp ho) hoid
      · refine absurd ?_ hmem
        rw [← Exchange.pool_linkOco (x.bookOf order.symbol) order]
        exact hid
  have h := hx.holds hknown order.symbol
  rw [← Exchange.pool_linkOco (x.bookOf order.symbol) order] at h
  cases hstep with
  | placed requestId hmatch =>
    exact hx.insert hknown' hnew hunique
      (matchOrder_shows hsound' hadm hfresh' hout hann h hmatch)
  | @rejected requestId _ book events hmatch hrejected =>
    refine hx.insert hknown' hnew hunique ?_
    rcases exists_kills_of_preReject hrejected with ⟨e, he, hkill⟩
    cases hpre : (EngineState.linkOco (x.bookOf order.symbol) order).preCheck order with
    | none =>
      -- the match went past the pre-checks and was rejected after the fact
      rcases matchOrder_kills hsound' hadm hfresh' hpre hmatch he hkill with ⟨_, hkilled⟩
      exact absurd hkilled.2.2 ((hann hpre hkilled.active).kill hkilled.2.1)
    | some reject =>
      have hsame : some (book, events) =
          some (EngineState.linkOco (x.bookOf order.symbol) order, [reject]) := by
        rw [← hmatch, EngineState.matchInBook, matchOrder, hpre]
      cases hsame
      exact h

/-! ## Runs of the server -/

/-- The events of the match of a request tell all that happens to live orders. -/
def Announces (fuel : ℕ) (st : EngineState) (req : EngineRequest) : Prop :=
  ∀ requestId order, req = .place requestId order → validateWireOrder requestId order = none →
    order.symbol ∉ st.haltedSymbols →
    (EngineState.linkOco (st.bookOf order.symbol) (toCoreOrder order)).preCheck
      (toCoreOrder order) = none →
    (toCoreOrder order).orderType.isStop = false →
    Announced fuel (EngineState.linkOco (st.bookOf order.symbol) (toCoreOrder order))
      (toCoreOrder order)

/-- Every request keeps the table mirroring the books, up to the defects. -/
theorem handleRequest_mirrors {st st' : EngineState} {past : List EngineRequest}
    {req : EngineRequest} {result : Except ServerError ResponseBundle}
    (hknown : st.KnownAfter past)
    (hunique : (EngineState.placedIds (past ++ [req])).Nodup) (hann : Announces fuel st req)
    (hmirrors : st.exchange.Mirrors) (h : st.handleRequest fuel req = some (result, st')) :
    st'.exchange.Mirrors := by
  have hids : ∀ reqs, EngineState.placedIds reqs =
      ((EngineState.placements reqs).map toCoreOrder).map (·.id) := by
    intro reqs
    rw [List.map_map]
    rfl
  rw [hids, EngineState.placements_append, List.map_append] at hunique
  cases EngineState.handleRequest_effect h with
  | @place requestId order hvalid htrading _ _ hstep =>
    exact hmirrors.place hknown hunique (EngineState.admissible_of_valid hvalid)
      (hann requestId order rfl hvalid htrading) hstep
  | cancels ids _ hdoes =>
    rw [List.map_append, List.nodup_append] at hunique
    refine (hdoes.steps.cancels_invariant (fun x => x.Known _ ∧ x.Mirrors) ?_ ⟨hknown, hmirrors⟩).2
    rintro x orderId y ⟨hx, hmirror⟩ hstep
    exact ⟨hstep.known_cancel hx, hmirror.cancel hx hunique.1 hstep⟩

/-- In every run of requests with fresh order ids whose matches tell all that
happens to live orders, the table mirrors the books. -/
theorem mirrors_of_runRequests {idSource : Stream' Uuid} {clock : Stream' String}
    {disk : Stream' Bool} {snapshotDepth : ℕ} {init st : EngineState}
    (hinit : EngineState.open fuel [] [] idSource clock disk snapshotDepth = some init)
    (reqs : List EngineRequest) (hfresh : (EngineState.placedIds reqs).Nodup)
    (hann : ∀ l req l' mid, reqs = l ++ req :: l' → init.runRequests fuel l = some mid →
      Announces fuel mid req)
    (hrun : init.runRequests fuel reqs = some st) : st.exchange.Mirrors := by
  have hstart := EngineState.exchange_open hinit
  refine EngineState.runRequests_invariant (fun _ st => st.exchange.Mirrors)
    (fun past st req => st.KnownAfter past ∧ (EngineState.placedIds (past ++ [req])).Nodup ∧
      Announces fuel st req)
    (fun past st req bundle st' hinv hok h =>
      handleRequest_mirrors hok.1 hok.2.1 hok.2.2 hinv h) ?_ ?_ hrun
  · rw [hstart]
    exact mirrors_empty
  · intro l req l' mid hsplit hmid
    have hfirst : (EngineState.placedIds (l ++ [req])).Nodup := by
      rw [hsplit, ← List.singleton_append, ← List.append_assoc, EngineState.placedIds,
        EngineState.placements_append, List.map_append] at hfresh
      exact (List.nodup_append.mp hfresh).1
    refine ⟨?_, hfirst, hann l req l' mid hsplit hmid⟩
    refine EngineState.knownAfter_of_runRequests hstart ?_ hmid
    rw [EngineState.placedIds, EngineState.placements_append, List.map_append] at hfirst
    exact (List.nodup_append.mp hfirst).1

/-! ## When the events tell all -/

/-- Without Decrement self-trade prevention, with at most sixteen stops and no
fill-or-kill order, the events of a match tell all. -/
theorem announced_of_modes (hb : b.Sound) (hadm : sub.Admissible)
    (hfresh : ∀ o ∈ b.pool, o.id ≠ sub.id) (hactive : sub.orderType.isStop = false)
    (hpre : b.preCheck sub = none) (hmode : sub.stpMode ≠ .decrement)
    (hstops : ∀ o ∈ b.stopPool, o.stpMode ≠ .decrement)
    (hlen : b.stops.len ≤ maxStopChainDepth) (htype : sub.orderType ≠ .fok) :
    Announced fuel b sub := by
  have hc₀ := cascadeSound_enter hb ⟨hadm.positive, hactive, hadm.priced⟩ hfresh
  -- every order of the queue is the taker or a stop that was in the registry
  have hmodes : ∀ {c}, Visits (cascadeTurn fuel) (b.enterCascade sub) c →
      CascadeSound c ∧ c.book.stopPool ≤ b.stopPool ∧ ∀ o ∈ c.workQueue, o.stpMode ≠ .decrement := by
    intro c hv
    refine visits_invariant (fun c => CascadeSound c ∧ c.book.stopPool ≤ b.stopPool ∧
      ∀ o ∈ c.workQueue, o.stpMode ≠ .decrement) ?_ ?_ hv
    · refine ⟨hc₀, le_refl _, ?_⟩
      intro o ho
      rw [List.mem_singleton.mp ho]
      exact hmode
    · rintro c c' ⟨hc, hle, hqueue⟩ hnext
      have hstep := cascadeTurn_next hnext
      refine ⟨hstep.sound hc, ?_⟩
      cases hstep with
      -- those that a pass adds were stops
      | push hq hrun =>
        rcases (runMatchingLoop_sound (hc.enters hq) hrun).hit with ⟨hit, heq, hhit⟩
        refine ⟨((Multiset.le_add_left _ _).trans hhit).trans hle, ?_⟩
        intro o ho
        rcases List.mem_append.mp ho with ho | ho
        · dsimp only at heq
          rw [List.mem_reverse, heq] at ho
          rcases List.mem_map.mp ho with ⟨stop, hstop, rfl⟩
          exact hstops stop (Multiset.mem_of_le
            (((Multiset.le_add_right _ _).trans hhit).trans hle) hstop)
        · exact hqueue o (mem_workQueue_tail hq ho)
      | cut hq hrun =>
        rcases (runMatchingLoop_sound (hc.enters hq) hrun).hit with ⟨hit, _, hhit⟩
        exact ⟨((Multiset.le_add_left _ _).trans hhit).trans hle,
          fun o ho => hqueue o (mem_workQueue_tail hq ho)⟩
  have htaker : ∀ {c order rest s}, Visits (cascadeTurn fuel) (b.enterCascade sub) c →
      c.workQueue = order :: rest → Visits matchTurn (c.book.enterLoop order) s →
      s.taker.stpMode ≠ .decrement := by
    intro c order rest s hv hq hs
    rcases hmodes hv with ⟨hc, _, hqueue⟩
    have hsame : s.taker = order.withRemaining s.taker.remaining :=
      ((hc.enters hq).visits_sound hs).pass.same
    rw [hsame]
    exact hqueue order (mem_workQueue_head hq)
  -- the three ways in which a match leaves something unsaid
  refine ⟨?_, ?_, fun hfok => absurd hfok htype⟩
  · intro c order rest hv hq
    refine ⟨?_, ?_⟩
    · rintro s hs ⟨_, _, _, _, _, hdec, _⟩
      exact htaker hv hq hs hdec
    · rintro _ s hs ⟨_, _, _, _, _, hdec, _⟩
      exact absurd hdec (htaker hv hq hs)
  · intro c order rest r hv hq hdepth hrun
    by_contra hne
    exact not_dropsStop_of_len_le hb hadm hfresh hlen
      ⟨hpre, hactive, c, order, rest, r, hv, hq, hdepth, hrun, hne⟩

/-- A request that places neither a fill-or-kill order nor one with Decrement
self-trade prevention, on a book without stops. -/
theorem announces_of_modes {st : EngineState} {past : List EngineRequest} {req : EngineRequest}
    (hknown : st.KnownAfter past) (hfresh : EngineState.Fresh past req)
    (hreq : ∀ requestId order, req = .place requestId order →
      order.stpMode ≠ .decrement ∧ order.orderType ≠ .fok ∧
        (st.bookOf order.symbol).stops.orders = []) : Announces fuel st req := by
  intro requestId order hplace hvalid _ hpre hactive
  rcases hreq requestId order hplace with ⟨hmode, htype, hstops⟩
  rcases hknown.bookOf order.symbol with ⟨hsound, horigin⟩
  have hstops' := Exchange.stops_linkOco (st.bookOf order.symbol) (toCoreOrder order)
  refine announced_of_modes (Exchange.sound_linkOco hsound _)
    (EngineState.admissible_of_valid hvalid) ?_ hactive hpre ?_ ?_ ?_ ?_
  · -- an order of the book with this id would have been placed before
    intro o ho hid
    rw [Exchange.pool_linkOco] at ho
    rcases (horigin o ho).2 with ⟨w, hw, hwid, _⟩
    rcases List.mem_map.mp hw with ⟨wire, hwire, rfl⟩
    exact hfresh requestId order hplace (List.mem_map.mpr ⟨wire, hwire, hwid.trans hid⟩)
  · cases hstp : order.stpMode <;> simp_all [toCoreOrder, toCoreStpMode]
  · intro o ho
    rw [stopPool, hstops', hstops] at ho
    cases ho
  · rw [hstops', StopRegistry.len_eq_length, hstops]
    exact Nat.zero_le _
  · cases hkind : order.orderType <;> simp_all [toCoreOrder, toCoreOrderType]

/-- A user's buy order of 2 decrements the user's resting sell order of 5; the
table still shows 5. -/
theorem undercut_not_mirrored :
    ∃ st, emptyEngine.runRequests 10 [.place 0 (wireLimit 1 10 .sell 100 5 .decrement),
        .place 0 (wireLimit 2 10 .buy 100 2 .decrement)] = some st ∧ ¬ st.exchange.Mirrors := by
  -- what the run leaves in the table and on the book
  have hcheck : ((emptyEngine.runRequests 10
      [.place 0 (wireLimit 1 10 .sell 100 5 .decrement),
        .place 0 (wireLimit 2 10 .buy 100 2 .decrement)]).map fun st =>
      (st.openOrders.find? 1, (st.books.find? "BTCUSDT").map fun b =>
        b.live.map fun o => (o.id, o.remaining))) =
      some (some ⟨10, "BTCUSDT", 5⟩, some [(1, 3)]) := by
    decide +kernel
  rcases Option.map_eq_some_iff.mp hcheck with ⟨st, hrun, hview⟩
  simp only [Prod.mk.injEq] at hview
  refine ⟨st, hrun, ?_⟩
  intro hmirrors
  rcases (hmirrors 1 _).mp hview.1 with ⟨symbol, b, o, hb, ho, hid, hsymbol, hentry⟩
  have hbtc : symbol = "BTCUSDT" := hsymbol.symm.trans (congrArg OpenOrder.symbol hentry).symm
  rw [hbtc] at hb
  have hlive := hview.2
  rw [show st.books.find? "BTCUSDT" = some b from hb, Option.map_some,
    Option.some.injEq] at hlive
  have hmem : (o.id, o.remaining) ∈ b.live.map fun o => (o.id, o.remaining) :=
    List.mem_map_of_mem ho
  have hfive : (5 : Decimal) = o.remaining := congrArg OpenOrder.remaining hentry
  rw [hlive, List.mem_singleton, Prod.mk.injEq, ← hfive] at hmem
  exact absurd hmem.2 (by decide)

/-- The run theorem on two orders that trade. -/
theorem mirrors_after_trade :
    ∃ st, emptyEngine.runRequests 10 [.place 0 (wireLimit 1 10 .sell 100 5 .cancelTaker),
        .place 0 (wireLimit 2 11 .buy 100 2 .cancelTaker)] = some st ∧ st.exchange.Mirrors := by
  have hrun : (emptyEngine.runRequests 10
      [.place 0 (wireLimit 1 10 .sell 100 5 .cancelTaker),
        .place 0 (wireLimit 2 11 .buy 100 2 .cancelTaker)]).isSome := by
    decide +kernel
  rcases Option.isSome_iff_exists.mp hrun with ⟨st, hst⟩
  refine ⟨st, hst, mirrors_of_runRequests (emptyEngine_open 10) _ (by decide) ?_ hst⟩
  intro l req l' mid hsplit hmid
  -- the two placements, one by one
  rcases List.cons_eq_append_iff.mp hsplit with ⟨rfl, hreq⟩ | ⟨l₁, rfl, hreq⟩
  · cases hmid
    cases hreq
    have hknown : emptyEngine.KnownAfter [] := Exchange.known_empty
    refine announces_of_modes hknown (by simp [EngineState.Fresh, EngineState.placedIds,
      EngineState.placements]) ?_
    rintro requestId order ⟨⟩
    exact ⟨by decide, by decide, by decide +kernel⟩
  · rcases List.cons_eq_append_iff.mp hreq with ⟨rfl, hlast⟩ | ⟨l₂, rfl, hnil⟩
    · cases hlast
      have hknown := EngineState.knownAfter_of_runRequests
        (EngineState.exchange_open (emptyEngine_open 10)) (by decide) hmid
      refine announces_of_modes hknown ?_ ?_
      · rintro requestId order ⟨⟩
        decide
      · rintro requestId order ⟨⟩
        refine ⟨by decide, by decide, ?_⟩
        have hstops : (emptyEngine.runRequests 10
            [.place 0 (wireLimit 1 10 .sell 100 5 .cancelTaker)]).map
              (fun st => (st.bookOf "BTCUSDT").stops.orders) = some [] := by
          decide +kernel
        rw [hmid, Option.map_some] at hstops
        exact Option.some.inj hstops
    · exact absurd (List.append_eq_nil_iff.mp hnil.symm).2 (List.cons_ne_nil _ _)

end CryptoCex.Server
