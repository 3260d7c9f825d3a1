import CryptoCex.Core.Pool

/-!
# Cancels by id

`cancel_order` takes out the order with the given id and the order its OCO link
names, each only if it is live, and reports exactly the orders it took out. A link
is used up even when neither order is live.
-/

namespace CryptoCex.Core

namespace OrderBook

variable {b : OrderBook} {id : Uuid} {reason : CancelReason} {r : OrderBook × List EngineEvent}

/-- A cancel takes out the order with the given id and no other. -/
theorem Cancels.mem_pool_iff (h : Cancels b id reason r) (hb : b.Consistent) (o : Order) :
    o ∈ r.1.pool ↔ o ∈ b.pool ∧ o.id ≠ id := by
  -- the pool before the cancel holds one order more
  have hcons : ∀ {x : Order} {b' : OrderBook}, x.id = id → b.pool = x ::ₘ b'.pool →
      (o ∈ b'.pool ↔ o ∈ b.pool ∧ o.id ≠ id) := by
    intro x b' hid hpool
    have hunique := hb.unique
    rw [hpool, Multiset.map_cons, Multiset.nodup_cons] at hunique
    rw [hpool, Multiset.mem_cons]
    constructor
    · intro ho
      refine ⟨Or.inr ho, ?_⟩
      intro heq
      refine hunique.1 (Multiset.mem_map.mpr ⟨o, ho, ?_⟩)
      rw [heq, hid]
    · rintro ⟨rfl | ho, hne⟩
      · exact absurd hid hne
      · exact ho
  cases h with
  | none hid => exact ⟨fun ho => ⟨ho, hid o ho⟩, fun ho => ho.1⟩
  | resting b' x hid _ hresting hstops =>
    refine hcons hid ?_
    rw [pool, hresting, Multiset.cons_add, pool, stopPool, stopPool, hstops]
  | stop b' x hid _ hresting hstops =>
    refine hcons hid ?_
    rw [pool, hstops, Multiset.add_cons, pool, hresting]

theorem Cancels.links_eq (h : Cancels b id reason r) : r.1.ocoLinks = b.ocoLinks := by
  cases h with
  | none => rfl
  | resting _ _ _ _ _ _ hlinks => exact hlinks
  | stop _ _ _ _ _ _ hlinks => exact hlinks

/-- A cancel reports the order it took out. -/
theorem Cancels.events_eq (h : Cancels b id reason r) :
    (id ∈ b.toPool.ids ∧ r.2 = [.cancelled id reason]) ∨
      (id ∉ b.toPool.ids ∧ r = (b, [])) := by
  have hlive : ∀ {x : Order}, x ∈ b.pool → x.id = id → id ∈ b.toPool.ids := by
    intro x hx hid
    exact Multiset.mem_map.mpr ⟨x, hx, hid⟩
  cases h with
  | none hid =>
    refine Or.inr ⟨?_, rfl⟩
    intro hmem
    rcases Multiset.mem_map.mp hmem with ⟨o, ho, heq⟩
    exact hid o ho heq
  | resting b' x hid _ hresting =>
    refine Or.inl ⟨hlive (mem_pool.mpr (Or.inl ?_)) hid, rfl⟩
    rw [hresting]
    exact Multiset.mem_cons_self _ _
  | stop b' x hid _ _ hstops =>
    refine Or.inl ⟨hlive (mem_pool.mpr (Or.inr ?_)) hid, rfl⟩
    rw [hstops]
    exact Multiset.mem_cons_self _ _

/-- The order `x` is the one with the given id, or its OCO sibling. -/
def CancelScope (b : OrderBook) (id x : Uuid) : Prop := x = id ∨ b.ocoLinks.find? id = some x

/-- The OCO links after a cancel. -/
def linksWithout (b : OrderBook) (id : Uuid) : OrdMap Uuid Uuid :=
  match b.ocoLinks.find? id with
  | none => b.ocoLinks
  | some linkedId => (b.ocoLinks.erase id).erase linkedId

/-- What the cancel of an order does. -/
structure CancelOrderSpec (b : OrderBook) (id : Uuid) (r : OrderBook × List EngineEvent) :
    Prop where
  book : r.1.Consistent
  links : r.1.ocoLinks = b.linksWithout id
  pool : ∀ o, o ∈ r.1.pool ↔ o ∈ b.pool ∧ ¬ b.CancelScope id o.id
  cancels : ∀ e ∈ r.2, ∃ x reason, e = .cancelled x reason
  told : ∀ x, (∃ reason, .cancelled x reason ∈ r.2) ↔ x ∈ b.toPool.ids ∧ b.CancelScope id x

theorem mem_ids_iff {x : Uuid} : x ∈ b.toPool.ids ↔ ∃ o ∈ b.pool, o.id = x := Multiset.mem_map

/-- The events of one cancel, as a membership statement. -/
theorem Cancels.told_iff (h : Cancels b id reason r) (x : Uuid) :
    (∃ reason, .cancelled x reason ∈ r.2) ↔ x ∈ b.toPool.ids ∧ x = id := by
  rcases h.events_eq with ⟨hid, hevents⟩ | ⟨hid, rfl⟩
  · rw [hevents]
    simp only [List.mem_singleton, EngineEvent.cancelled.injEq]
    constructor
    · rintro ⟨_, rfl, _⟩
      exact ⟨hid, rfl⟩
    · rintro ⟨_, rfl⟩
      exact ⟨reason, rfl, rfl⟩
  · simp only [List.not_mem_nil, exists_false, false_iff, not_and]
    rintro hx rfl
    exact hid hx

/-- A cancellation tells of cancelled orders only. -/
theorem Cancels.events_cancelled (h : Cancels b id reason r) :
    ∀ e ∈ r.2, ∃ x reason, e = .cancelled x reason := by
  rcases h.events_eq with ⟨_, hevents⟩ | ⟨_, rfl⟩
  · intro e he
    rw [hevents] at he
    exact ⟨id, reason, List.mem_singleton.mp he⟩
  · intro e he
    cases he

/-- What `cancel_order` does: it takes the order out and cancels its OCO sibling. -/
theorem Consistent.cancelOrder_spec (hb : b.Consistent) (id : Uuid) :
    CancelOrderSpec b id (b.cancelOrder id) := by
  cases hlink : b.ocoLinks.find? id with
  | none =>
    have heq : b.cancelOrder id = b.cancelOrderInternal id .adminCancel := by
      simp only [cancelOrder, hlink]
    have hcancel := hb.cancels id .adminCancel
    have hscope : ∀ x, b.CancelScope id x ↔ x = id := by
      intro x
      simp [CancelScope, hlink]
    rw [heq]
    refine ⟨hcancel.consistent hb, ?_, ?_, hcancel.events_cancelled, ?_⟩
    · rw [hcancel.links_eq, linksWithout, hlink]
    · intro o
      rw [hcancel.mem_pool_iff hb, hscope]
    · intro x
      rw [hcancel.told_iff, hscope]
  | some linkedId =>
    -- the first cancel leaves the sibling in the book unless it is the order itself
    have hb₀ : (b.unlink id linkedId).Consistent := consistent_unlink.mpr hb
    have hfirst := hb₀.cancels id .adminCancel
    have hb₁ := hfirst.consistent hb₀
    have hsecond := hb₁.cancels linkedId .oco
    have hscope : ∀ x, b.CancelScope id x ↔ x = id ∨ x = linkedId := by
      intro x
      simp [CancelScope, hlink, eq_comm]
    have heq : b.cancelOrder id =
        ((((b.unlink id linkedId).cancelOrderInternal id .adminCancel).1.cancelOrderInternal
            linkedId .oco).1,
          ((b.unlink id linkedId).cancelOrderInternal id .adminCancel).2 ++
            (((b.unlink id linkedId).cancelOrderInternal id .adminCancel).1.cancelOrderInternal
              linkedId .oco).2) := by
      simp only [cancelOrder, hlink, unlink]
    have hpool : ∀ o, o ∈ ((b.unlink id linkedId).cancelOrderInternal id .adminCancel).1.pool ↔
        o ∈ b.pool ∧ o.id ≠ id := hfirst.mem_pool_iff hb₀
    rw [heq]
    refine ⟨hsecond.consistent hb₁, ?_, ?_, ?_, ?_⟩
    · rw [hsecond.links_eq, hfirst.links_eq, linksWithout, hlink]
      rfl
    · intro o
      rw [hsecond.mem_pool_iff hb₁, hpool, hscope, not_or, and_assoc]
    · intro e he
      rcases List.mem_append.mp he with he | he
      · exact hfirst.events_cancelled e he
      · exact hsecond.events_cancelled e he
    · intro x
      simp only [List.mem_append, exists_or]
      rw [hfirst.told_iff, hsecond.told_iff, hscope, mem_ids_iff, mem_ids_iff, mem_ids_iff]
      simp only [hpool]
      have hsame : (b.unlink id linkedId).pool = b.pool := rfl
      rw [hsame]
      grind

instance (b : OrderBook) (id x : Uuid) : Decidable (b.CancelScope id x) :=
  inferInstanceAs (Decidable (_ ∨ _))

/-! ## What a cancel leaves alone -/

/-- The second book holds the orders of the first whose id passes the test, as they were
and with the queues in their order. -/
structure Retains (p : Uuid → Bool) (b b' : OrderBook) : Prop where
  queue : ∀ side price, b'.queue side price = (b.queue side price).filter fun o => p o.id
  stops : b'.stopPool = b.stopPool.filter fun o => p o.id

namespace Retains

variable {p q : Uuid → Bool} {b' b'' : OrderBook}

/-- Two removals after each other keep what both keep. -/
theorem trans (h : Retains p b b') (h' : Retains q b' b'') :
    Retains (fun x => p x && q x) b b'' where
  queue := by
    intro side price
    rw [h'.queue, h.queue, List.filter_filter]
    refine List.filter_congr ?_
    intro o _
    exact Bool.and_comm _ _
  stops := by
    rw [h'.stops, h.stops, Multiset.filter_filter]
    refine Multiset.filter_congr ?_
    intro o _
    rw [Bool.and_eq_true, and_comm]

/-- Only the ids in the book matter. -/
theorem congr (h : Retains p b b') (hpq : ∀ o ∈ b.pool, p o.id = q o.id) : Retains q b b' where
  queue := by
    intro side price
    rw [h.queue]
    refine List.filter_congr ?_
    intro o ho
    exact hpq o (mem_pool_of_mem_queue ho)
  stops := by
    rw [h.stops]
    refine Multiset.filter_congr ?_
    intro o ho
    rw [hpq o (mem_pool.mpr (Or.inr ho))]

theorem refl (h : ∀ o ∈ b.pool, p o.id = true) : Retains p b b where
  queue := by
    intro side price
    rw [List.filter_eq_self.mpr]
    intro o ho
    exact h o (mem_pool_of_mem_queue ho)
  stops := by
    rw [Multiset.filter_eq_self.mpr]
    intro o ho
    exact h o (mem_pool.mpr (Or.inr ho))

/-- The orders that are left are those that are kept. -/
theorem mem_pool_iff (h : Retains p b b') (o : Order) :
    o ∈ b'.pool ↔ o ∈ b.pool ∧ p o.id = true := by
  simp only [mem_pool, mem_restingPool, h.queue, h.stops, List.mem_filter, Multiset.mem_filter]
  constructor
  · rintro (⟨side, price, ho, hp⟩ | ⟨ho, hp⟩)
    · exact ⟨Or.inl ⟨side, price, ho⟩, hp⟩
    · exact ⟨Or.inr ho, hp⟩
  · rintro ⟨⟨side, price, ho⟩ | ho, hp⟩
    · exact Or.inl ⟨side, price, ho, hp⟩
    · exact Or.inr ⟨ho, hp⟩

end Retains

/-- In a list of distinct ids, taking out the first order with an id takes out all. -/
theorem eraseP_id_eq_filter {q : List Order} (hunique : (q.map (·.id)).Nodup) (id : Uuid) :
    q.eraseP (fun o => o.id = id) = q.filter fun o => decide (o.id ≠ id) := by
  induction q with
  | nil => rfl
  | cons o q ih =>
    rcases List.nodup_cons.mp hunique with ⟨hhead, htail⟩
    by_cases hid : o.id = id
    · rw [List.eraseP_cons_of_pos (by simpa using hid), List.filter_cons_of_neg (by simpa using hid),
        List.filter_eq_self.mpr]
      intro o' ho'
      refine decide_eq_true ?_
      intro hid'
      exact hhead (List.mem_map.mpr ⟨o', ho', hid'.trans hid.symm⟩)
    · rw [List.eraseP_cons_of_neg (by simpa using hid), List.filter_cons_of_pos (by simpa using hid),
        ih htail]

/-- No id is in a level twice. -/
theorem Consistent.queue_unique (hb : b.Consistent) (side : Side) (price : Decimal) :
    ((b.queue side price).map (·.id)).Nodup := by
  have hsub : (↑(b.queue side price) : Multiset Order) ≤ b.pool := by
    refine le_trans ?_ (Multiset.le_add_right _ _)
    rw [restingPool_perm_side b side]
    refine le_trans ?_ (Multiset.le_add_right _ _)
    rw [resting, Multiset.coe_eq_coe.mpr (OrdMap.flat_eq_queueAt (b.levels side) price),
      ← Multiset.coe_add]
    exact Multiset.le_add_right _ _
  have hle := Multiset.map_le_map (f := fun o : Order => o.id) hsub
  rw [Multiset.map_coe] at hle
  exact Multiset.coe_nodup.mp (Multiset.nodup_of_le hle hb.unique)

/-- A cancellation keeps all orders but the one. -/
theorem Consistent.cancelOrderInternal_retains (hb : b.Consistent) (id : Uuid)
    (reason : CancelReason) :
    Retains (fun x => decide (x ≠ id)) b (b.cancelOrderInternal id reason).1 := by
  have hspec := b.cancelOrderInternal_spec id reason
  have hpool := (hb.cancels id reason).mem_pool_iff hb
  generalize b.cancelOrderInternal id reason = r at hspec hpool ⊢
  -- in a book that did not lose an order, none has the id
  have hsame : r.1.pool = b.pool → ∀ o ∈ b.pool, decide (o.id ≠ id) = true := by
    intro heq o ho
    rw [← heq] at ho
    exact decide_eq_true ((hpool o).mp ho).2
  cases hspec with
  | missing => exact .refl (hsame rfl)
  | stale =>
    have hrefl : Retains (fun x => decide (x ≠ id)) b b := .refl (hsame rfl)
    exact ⟨hrefl.queue, hrefl.stops⟩
  | stop stops x hid hperm =>
    have hx : x ∈ b.stopPool := by
      rw [stopPool, Multiset.coe_eq_coe.mpr hperm]
      exact Multiset.mem_coe.mpr List.mem_cons_self
    have hunique := hb.unique
    rw [pool, Multiset.map_add, stopPool, Multiset.coe_eq_coe.mpr hperm] at hunique
    refine ⟨?_, ?_⟩
    · intro side price
      refine (List.filter_eq_self.mpr ?_).symm
      intro o ho
      refine decide_eq_true ?_
      intro hid'
      refine Multiset.disjoint_left.mp (Multiset.nodup_add.mp hunique).2.2
        (Multiset.mem_map.mpr ⟨o, mem_restingPool.mpr ⟨side, price, ho⟩, hid'⟩) ?_
      exact Multiset.mem_map.mpr ⟨x, Multiset.mem_coe.mpr List.mem_cons_self, hid⟩
    · have hstops := (Multiset.nodup_add.mp hunique).2.1
      rw [← Multiset.cons_coe, Multiset.map_cons, Multiset.nodup_cons] at hstops
      show (↑stops.orders : Multiset Order) = b.stopPool.filter _
      rw [stopPool, Multiset.coe_eq_coe.mpr hperm, ← Multiset.cons_coe,
        Multiset.filter_cons_of_neg _ (by simpa using hid), Multiset.filter_eq_self.mpr]
      intro o ho
      refine decide_eq_true ?_
      intro hid'
      exact hstops.1 (Multiset.mem_map.mpr ⟨o, ho, hid'.trans hid.symm⟩)
  | resting side price hstops hindex hlevel =>
    refine ⟨?_, ?_⟩
    · intro side' price'
      show (b.withQueue side price _).queue side' price' = _
      rw [queue_withQueue]
      split
      · next heq =>
        rw [heq.1, heq.2]
        exact eraseP_id_eq_filter (hb.queue_unique side price) id
      · next hne =>
        refine (List.filter_eq_self.mpr ?_).symm
        intro o ho
        refine decide_eq_true ?_
        intro hid
        have hindex' := (hb.indexed id side' price').mpr ⟨o, ho, hid⟩
        rw [hindex] at hindex'
        cases hindex'
        exact hne ⟨rfl, rfl⟩
    · have hkept : (b.withQueue side price ((b.queue side price).eraseP fun o => o.id = id)).stops =
          b.stops := stops_withQueue ..
      show (↑(b.withQueue side price _).stops.orders : Multiset Order) = _
      rw [hkept]
      refine (Multiset.filter_eq_self.mpr ?_).symm
      intro o ho
      exact decide_eq_true (hstops o ho)

/-- A cancel takes the order and its OCO sibling out and leaves the others as they are. -/
theorem Consistent.cancelOrder_retains (hb : b.Consistent) (id : Uuid) :
    Retains (fun x => decide (¬ b.CancelScope id x)) b (b.cancelOrder id).1 := by
  cases hlink : b.ocoLinks.find? id with
  | none =>
    have heq : b.cancelOrder id = b.cancelOrderInternal id .adminCancel := by
      simp only [cancelOrder, hlink]
    rw [heq]
    refine (hb.cancelOrderInternal_retains id .adminCancel).congr ?_
    intro o _
    simp [CancelScope, hlink]
  -- the order and then its sibling, on a book that links them no more
  | some linkedId =>
    have hb₀ : (b.unlink id linkedId).Consistent := consistent_unlink.mpr hb
    have hfirst := hb₀.cancelOrderInternal_retains id .adminCancel
    have hsecond := ((hb₀.cancels id .adminCancel).consistent hb₀).cancelOrderInternal_retains
      linkedId .oco
    have heq : (b.cancelOrder id).1 =
        (((b.unlink id linkedId).cancelOrderInternal id .adminCancel).1.cancelOrderInternal
          linkedId .oco).1 := by
      simp only [cancelOrder, hlink, unlink]
    have hboth := hfirst.trans hsecond
    rw [← heq] at hboth
    have hwhole : Retains (fun x => decide (x ≠ id) && decide (x ≠ linkedId)) b
        (b.cancelOrder id).1 := ⟨hboth.queue, hboth.stops⟩
    refine hwhole.congr ?_
    intro o _
    simp [CancelScope, hlink, not_or, eq_comm]

end OrderBook

end CryptoCex.Core
