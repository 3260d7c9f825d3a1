import CryptoCex.Core.Runs

/-!
# The fate of every order

After a call of `match_order`, every order that was live before it and the
taker itself should be live still or be named by a fill or a cancel of the call.

One pass keeps to this (`PassFate`), with the triggered stops as a third place
an order can be in. The cascade keeps to it as long as the triggered stops are
pushed on the work queue. Once sixteen stops have been triggered in a call it
drops them: they have left the registry, they are never matched, and no event
names them. `accounted_iff_not_dropsStop` says that this is the only way an
order disappears.
-/

namespace CryptoCex.Core

open Loop OrderBook

/-- The orders a fill or a cancel names. -/
def EngineEvent.names : EngineEvent → List Uuid
  | .fill f => [f.makerOrderId, f.takerOrderId]
  | .cancelled orderId _ => [orderId]
  | .rested _ _ => []
  | .stopTriggered _ => []

/-- The orders named by the fills and cancels of an event list. -/
def named (events : List EngineEvent) : List Uuid := events.flatMap EngineEvent.names

@[simp] theorem named_nil : named [] = [] := rfl

@[simp] theorem named_append (events events' : List EngineEvent) :
    named (events ++ events') = named events ++ named events' :=
  List.flatMap_append

@[simp] theorem named_cons (e : EngineEvent) (events : List EngineEvent) :
    named (e :: events) = e.names ++ named events := rfl

/-- An announced stop is not named by it. -/
theorem named_stopTriggered (orders : List Order) :
    named (orders.map fun t => EngineEvent.stopTriggered t.id) = [] := by
  induction orders with
  | nil => rfl
  | cons o orders ih =>
    rw [List.map_cons, named_cons, ih]
    rfl

/-! ## Ids of a pool -/

namespace Pool

variable {P : Pool} {id x : Uuid} {reason : CancelReason} {r : Pool × List EngineEvent}

theorem ids_eq_add (P : Pool) : P.ids = P.resting.map (·.id) + P.stops.map (·.id) :=
  Multiset.map_add _ _ _

/-- Every order of the pool is still there after a cancel, or named by it. -/
theorem Cancel.kept (h : Cancel P id reason r) (hx : x ∈ P.ids) :
    x ∈ r.1.ids ∨ x ∈ named r.2 := by
  cases h with
  | absent => exact Or.inl hx
  | resting o others hid hpool =>
    rw [ids_eq_add, hpool, Multiset.map_cons, Multiset.cons_add] at hx
    rcases Multiset.mem_cons.mp hx with hx | hx
    · exact Or.inr (by simp [EngineEvent.names, hx, hid])
    · exact Or.inl (by rw [ids_eq_add]; exact hx)
  | stop o others hid hpool =>
    rw [ids_eq_add, hpool, Multiset.map_cons, Multiset.add_cons] at hx
    rcases Multiset.mem_cons.mp hx with hx | hx
    · exact Or.inr (by simp [EngineEvent.names, hx, hid])
    · exact Or.inl (by rw [ids_eq_add]; exact hx)

/-- What a cancel names was in the pool and is not any more. -/
theorem Cancel.named_gone (h : Cancel P id reason r) (hunique : P.ids.Nodup)
    (hx : x ∈ named r.2) : x ∈ P.ids ∧ x ∉ r.1.ids := by
  cases h with
  | absent => cases hx
  | resting o others hid hpool =>
    have hxid : x = o.id := by simpa [EngineEvent.names, hid] using hx
    rw [ids_eq_add, hpool, Multiset.map_cons, Multiset.cons_add] at hunique ⊢
    rw [hxid, ids_eq_add]
    exact ⟨Multiset.mem_cons_self _ _, (Multiset.nodup_cons.mp hunique).1⟩
  | stop o others hid hpool =>
    have hxid : x = o.id := by simpa [EngineEvent.names, hid] using hx
    rw [ids_eq_add, hpool, Multiset.map_cons, Multiset.add_cons] at hunique ⊢
    rw [hxid, ids_eq_add]
    exact ⟨Multiset.mem_cons_self _ _, (Multiset.nodup_cons.mp hunique).1⟩

/-- An OCO cancel keeps an order or names it. -/
theorem OcoCancel.kept (h : OcoCancel P id r) (hx : x ∈ P.ids) :
    x ∈ r.1.ids ∨ x ∈ named r.2 := by
  cases h with
  | unlinked => exact Or.inl hx
  | linked sibling _ hcancel => exact hcancel.kept hx

/-- What it names is gone. -/
theorem OcoCancel.named_gone (h : OcoCancel P id r) (hunique : P.ids.Nodup)
    (hx : x ∈ named r.2) : x ∈ P.ids ∧ x ∉ r.1.ids := by
  cases h with
  | unlinked => cases hx
  | linked sibling _ hcancel => exact hcancel.named_gone hunique hx

theorem OcoCancel.no_rested (h : OcoCancel P id r) {y : Uuid} {left : Decimal} :
    EngineEvent.rested y left ∉ r.2 := by
  intro hmem
  cases h with
  | unlinked => cases hmem
  | linked _ _ hcancel =>
    cases hcancel with
    | absent => cases hmem
    | resting => cases List.mem_singleton.mp hmem
    | stop => cases List.mem_singleton.mp hmem

theorem OcoCancel.no_fill (h : OcoCancel P id r) (f : Fill) : EngineEvent.fill f ∉ r.2 := by
  cases h with
  | unlinked => exact List.not_mem_nil
  | linked _ _ hcancel => cases hcancel <;> simp

theorem mem_ids_of_mem_stops (h : x ∈ P.stops.map (·.id)) : x ∈ P.ids := by
  rw [ids_eq_add]
  exact Multiset.mem_add.mpr (Or.inr h)

end Pool

/-! ## One turn -/

namespace Pass

variable {a : Pass} {taker m : Order} {others : Multiset Order} {price : Decimal} {x : Uuid}

theorem Faces.ids_eq (hm : a.Faces price m others) :
    a.pool.ids = m.id ::ₘ Pool.ids { a.pool with resting := others } := by
  rw [Pool.ids_eq_add, Pool.ids_eq_add, hm.pool, Multiset.map_cons, Multiset.cons_add]

theorem Faces.mem_ids (hm : a.Faces price m others) : m.id ∈ a.pool.ids := by
  rw [hm.ids_eq]
  exact Multiset.mem_cons_self _ _

/-- A resting order is not a stop. -/
theorem Faces.notMem_stops (hm : a.Faces price m others) (hs : Sound taker a) :
    m.id ∉ a.pool.stops.map (·.id) := by
  intro hmem
  have hunique := (Multiset.nodup_cons.mp hs.unique).2
  rw [hm.ids_eq, Multiset.nodup_cons] at hunique
  exact hunique.1 (Pool.mem_ids_of_mem_stops hmem)

/-- The taker is not on the book while it is matched. -/
theorem Sound.taker_notMem (hs : Sound taker a) : taker.id ∉ a.pool.ids :=
  (Multiset.nodup_cons.mp hs.unique).1

theorem Sound.id_eq (hs : Sound taker a) : a.taker.id = taker.id := by
  rw [hs.same, Order.id_withRemaining]

/-- What a step of a pass that appends `new` to the events does to the ids: what
leaves the pool is named, and what is named is known and no stop any more. -/
structure Fate (a : Pass) (P : Pool) (new : List EngineEvent) : Prop where
  kept : ∀ x ∈ a.pool.ids, x ∈ P.ids ∨ x ∈ named new
  known : ∀ x ∈ named new, x ∈ a.taker.id ::ₘ a.pool.ids
  noStop : ∀ x ∈ named new, x ∉ P.stops.map (·.id)

/-- The taker and the order it faces may be named by any step that keeps the
stops. -/
theorem Faces.fate (hm : a.Faces price m others) (hs : Sound taker a) {P : Pool}
    {new : List EngineEvent} (hstops : P.stops = a.pool.stops)
    (hkept : ∀ x ∈ a.pool.ids, x ∈ P.ids ∨ x ∈ named new)
    (hnamed : ∀ x ∈ named new, x = m.id ∨ x = a.taker.id) : Fate a P new where
  kept := hkept
  known := by
    intro x hx
    rcases hnamed x hx with rfl | rfl
    · exact Multiset.mem_cons_of_mem hm.mem_ids
    · exact Multiset.mem_cons_self _ _
  noStop := by
    intro x hx hmem
    rw [hstops] at hmem
    rcases hnamed x hx with rfl | rfl
    · exact hm.notMem_stops hs hmem
    · rw [hs.id_eq] at hmem
      exact hs.taker_notMem (Pool.mem_ids_of_mem_stops hmem)

/-- Dropping the faced order, which is named. -/
theorem Faces.kept_drop (hm : a.Faces price m others) {new : List EngineEvent}
    (hnew : m.id ∈ named new) :
    ∀ x ∈ a.pool.ids, x ∈ Pool.ids { a.pool with resting := others } ∨ x ∈ named new := by
  intro x hx
  rw [hm.ids_eq] at hx
  rcases Multiset.mem_cons.mp hx with rfl | hx
  · exact Or.inr hnew
  · exact Or.inl hx

/-- Shrinking the faced order keeps all ids. -/
theorem Faces.kept_shrink (hm : a.Faces price m others) (r : Decimal) (new : List EngineEvent) :
    ∀ x ∈ a.pool.ids,
      x ∈ Pool.ids { a.pool with resting := m.withRemaining r ::ₘ others } ∨ x ∈ named new := by
  intro x hx
  refine Or.inl ?_
  rw [ids_withRemaining, ← hm.pool_eq]
  exact hx

/-- Every turn accounts for the orders it touches. -/
theorem Turn.fate {t : Loop.Turn Pass (Pass × MatchExit)} (ht : a.Turn t) (hs : Sound taker a) :
    ∃ new, (after t).events = a.events ++ new ∧ Fate a (after t).pool new := by
  cases ht with
  | exhausted =>
    refine ⟨[], (List.append_nil _).symm, fun x hx => Or.inl hx, ?_, ?_⟩
    · intro x hx
      cases hx
    · intro x hx
      cases hx
  | cancelTaker hm =>
    refine ⟨_, rfl, hm.fate hs rfl (fun x hx => Or.inl hx) ?_⟩
    intro x hx
    exact Or.inr (by simpa [EngineEvent.names] using hx)
  | cancelMaker hm =>
    refine ⟨_, rfl, hm.fate hs rfl (hm.kept_drop (by simp [EngineEvent.names])) ?_⟩
    intro x hx
    exact Or.inl (by simpa [EngineEvent.names] using hx)
  | decrementTaker hm =>
    refine ⟨_, rfl, hm.fate hs rfl (hm.kept_shrink _ _) ?_⟩
    intro x hx
    exact Or.inr (by simpa [EngineEvent.names] using hx)
  | decrementMaker hm =>
    refine ⟨_, rfl, hm.fate hs rfl (hm.kept_drop (by simp [EngineEvent.names])) ?_⟩
    intro x hx
    exact Or.inl (by simpa [EngineEvent.names] using hx)
  | decrementBoth hm =>
    refine ⟨_, rfl, hm.fate hs rfl (hm.kept_drop (by simp [EngineEvent.names])) ?_⟩
    intro x hx
    simpa [EngineEvent.names] using hx
  | fillPart hm =>
    refine ⟨_, rfl, hm.fate hs rfl (hm.kept_shrink _ _) ?_⟩
    intro x hx
    simpa [EngineEvent.names, fillOf] using hx
  | @fillWhole price m others hm _ _ r hoco =>
    refine ⟨.fill (fillOf a.taker m price) :: r.2, List.append_assoc _ _ _, ?_⟩
    -- the fill names the faced order, the OCO cancel a sibling of the pool
    have hfill : Fate a { a.pool with resting := others } [.fill (fillOf a.taker m price)] := by
      refine hm.fate hs rfl (hm.kept_drop (by simp [EngineEvent.names, fillOf])) ?_
      intro x hx
      simpa [EngineEvent.names, fillOf] using hx
    have hunique : (Pool.ids { a.pool with resting := others }).Nodup := by
      have h := (Multiset.nodup_cons.mp hs.unique).2
      rw [hm.ids_eq, Multiset.nodup_cons] at h
      exact h.2
    have hsplit : named (.fill (fillOf a.taker m price) :: r.2) =
        named [.fill (fillOf a.taker m price)] ++ named r.2 := by simp
    refine ⟨?_, ?_, ?_⟩
    · intro x hx
      rw [hsplit, List.mem_append]
      rcases hfill.kept x hx with hx | hx
      · rcases hoco.kept hx with hx | hx
        · exact Or.inl hx
        · exact Or.inr (Or.inr hx)
      · exact Or.inr (Or.inl hx)
    · intro x hx
      rw [hsplit, List.mem_append] at hx
      rcases hx with hx | hx
      · exact hfill.known x hx
      · rw [hm.ids_eq]
        exact Multiset.mem_cons_of_mem
          (Multiset.mem_cons_of_mem (hoco.named_gone hunique hx).1)
    · intro x hx hmem
      rw [hsplit, List.mem_append] at hx
      rcases hx with hx | hx
      · exact hfill.noStop x hx
          (Multiset.mem_of_le (Multiset.map_le_map hoco.stops_le) hmem)
      · exact (hoco.named_gone hunique hx).2 (Pool.mem_ids_of_mem_stops hmem)

/-- A taker is used up only by fills. -/
theorem Turn.taker_named {t : Loop.Turn Pass (Pass × MatchExit)} (ht : a.Turn t)
    (h : 0 < a.taker.remaining ∨ a.taker.id ∈ named a.events) :
    0 < (after t).taker.remaining ∨ a.taker.id ∈ named (after t).events := by
  cases ht with
  | exhausted => exact h
  | cancelTaker => exact Or.inr (by simp [after, EngineEvent.names])
  | cancelMaker =>
    rcases h with h | h
    · exact Or.inl h
    · exact Or.inr (by simp [after, h])
  | decrementTaker => exact Or.inr (by simp [after, EngineEvent.names])
  | decrementMaker _ _ _ hgt => exact Or.inl (Int.sub_pos_of_lt hgt)
  | decrementBoth => exact Or.inr (by simp [after, EngineEvent.names])
  | fillPart => exact Or.inr (by simp [after, EngineEvent.names, fillOf])
  | fillWhole => exact Or.inr (by simp [after, EngineEvent.names, fillOf])

/-- A taker consumed by self-trade prevention is cancelled. -/
theorem Turn.consumed_named {a' : Pass} (ht : a.Turn (.done (a', .takerConsumed))) :
    a.taker.id ∈ named a'.events := by
  cases ht with
  | cancelTaker => simp [EngineEvent.names]
  | decrementTaker => simp [EngineEvent.names]
  | decrementBoth => simp [EngineEvent.names]

/-- The sibling of the taker goes with a name. -/
theorem ocoCancel_fate {r : Pool × List EngineEvent}
    (h : Pool.OcoCancel a.pool a.taker.id r) (hs : Sound taker a) : Fate a r.1 r.2 := by
  have hunique := (Multiset.nodup_cons.mp hs.unique).2
  refine ⟨fun x hx => h.kept hx, ?_, ?_⟩
  · intro x hx
    exact Multiset.mem_cons_of_mem (h.named_gone hunique hx).1
  · intro x hx hmem
    exact (h.named_gone hunique hx).2 (Pool.mem_ids_of_mem_stops hmem)

/-- Finalising a taker accounts for it, unless it was filled. -/
theorem Finalize.fate {r : Pool × List EngineEvent} (h : a.Finalize r) (hs : Sound taker a) :
    Fate a r.1 r.2 ∧
      (0 < a.taker.remaining → a.taker.id ∈ r.1.ids ∨ a.taker.id ∈ named r.2) := by
  cases h with
  | filled hzero hoco =>
    refine ⟨ocoCancel_fate hoco hs, ?_⟩
    intro hpos
    rw [hzero] at hpos
    exact absurd hpos (lt_irrefl 0)
  | @cancelled _ reason _ _ r hoco =>
    have hfate := ocoCancel_fate hoco hs
    -- cancelled: the taker is named, and its sibling too
    have hnamed : ∀ x, x ∈ named (.cancelled a.taker.id reason :: r.2) ↔
        x = a.taker.id ∨ x ∈ named r.2 := by
      intro x
      simp [EngineEvent.names]
    refine ⟨⟨?_, ?_, ?_⟩, fun _ => Or.inr ((hnamed _).mpr (Or.inl rfl))⟩
    · intro x hx
      rcases hfate.kept x hx with hx | hx
      · exact Or.inl hx
      · exact Or.inr ((hnamed x).mpr (Or.inr hx))
    · intro x hx
      rcases (hnamed x).mp hx with rfl | hx
      · exact Multiset.mem_cons_self _ _
      · exact hfate.known x hx
    · intro x hx hmem
      rcases (hnamed x).mp hx with rfl | hx
      · have hmem' : a.taker.id ∈ a.pool.stops.map (·.id) :=
          Multiset.mem_of_le (Multiset.map_le_map hoco.stops_le) hmem
        rw [hs.id_eq] at hmem'
        exact hs.taker_notMem (Pool.mem_ids_of_mem_stops hmem')
      · exact hfate.noStop x hx hmem
  | rested =>
    -- rested: the taker is live, and nothing else changes
    have hids : Pool.ids { a.pool with resting := a.taker ::ₘ a.pool.resting } =
        a.taker.id ::ₘ a.pool.ids := by
      rw [Pool.ids_eq_add, Pool.ids_eq_add, Multiset.map_cons, Multiset.cons_add]
    refine ⟨⟨?_, ?_, ?_⟩, ?_⟩
    · intro x hx
      rw [hids]
      exact Or.inl (Multiset.mem_cons_of_mem hx)
    · intro x hx
      cases hx
    · intro x hx
      cases hx
    · intro _
      rw [hids]
      exact Or.inl (Multiset.mem_cons_self _ _)

/-- What the events of a pass from the ids `before` may name. -/
structure Accounts (taker : Order) (before : Multiset Uuid) (a : Pass) : Prop where
  kept : ∀ x ∈ before, x ∈ a.pool.ids ∨ x ∈ named a.events
  known : ∀ x ∈ named a.events, x ∈ taker.id ::ₘ before
  noStop : ∀ x ∈ named a.events, x ∉ a.pool.stops.map (·.id)
  ids : a.pool.ids ≤ before
  taker : 0 < a.taker.remaining ∨ taker.id ∈ named a.events

/-- Appending an accounted step. -/
theorem Fate.append {before : Multiset Uuid} {P : Pool} {new : List EngineEvent}
    (h : Fate a P new) (hs : Sound taker a) (hacc : Accounts taker before a)
    (hstops : P.stops ≤ a.pool.stops) :
    (∀ x ∈ before, x ∈ P.ids ∨ x ∈ named (a.events ++ new)) ∧
      (∀ x ∈ named (a.events ++ new), x ∈ taker.id ::ₘ before) ∧
      ∀ x ∈ named (a.events ++ new), x ∉ P.stops.map (·.id) := by
  simp only [named_append, List.mem_append]
  refine ⟨?_, ?_, ?_⟩
  · intro x hx
    rcases hacc.kept x hx with hx | hx
    · rcases h.kept x hx with hx | hx
      · exact Or.inl hx
      · exact Or.inr (Or.inr hx)
    · exact Or.inr (Or.inl hx)
  · rintro x (hx | hx)
    · exact hacc.known x hx
    · have hknown := h.known x hx
      rw [hs.id_eq] at hknown
      exact Multiset.mem_of_le (Multiset.cons_le_cons _ hacc.ids) hknown
  · rintro x (hx | hx) hmem
    · exact hacc.noStop x hx (Multiset.mem_of_le (Multiset.map_le_map hstops) hmem)
    · exact h.noStop x hx hmem

/-- A turn keeps account of every order. -/
theorem Turn.accounts {before : Multiset Uuid} {t : Loop.Turn Pass (Pass × MatchExit)}
    (ht : a.Turn t) (hs : Sound taker a) (hacc : Accounts taker before a) :
    Accounts taker before (after t) := by
  rcases ht.fate hs with ⟨new, hevents, hfate⟩
  rcases hfate.append hs hacc ht.stops_le with ⟨hkept, hknown, hnoStop⟩
  rw [← hevents] at hkept hknown hnoStop
  refine ⟨hkept, hknown, hnoStop, ht.ids_le.trans hacc.ids, ?_⟩
  have htaker := hacc.taker
  rw [← hs.id_eq] at htaker ⊢
  exact ht.taker_named htaker

/-- A turn rests nothing. -/
theorem Turn.rested {t : Loop.Turn Pass (Pass × MatchExit)} (ht : a.Turn t) {left : Decimal}
    (h : EngineEvent.rested x left ∈ (after t).events) : EngineEvent.rested x left ∈ a.events := by
  cases ht with
  | exhausted => exact h
  | fillWhole hm hother hwhole hoco =>
    rcases List.mem_append.mp h with h | h
    · exact (List.mem_append.mp h).resolve_right (by simp)
    · exact absurd h hoco.no_rested
  | _ => exact (List.mem_append.mp h).resolve_right (by simp)

/-- Only the taker is rested at the end of a pass, and then it is in the pool. -/
theorem Finalize.rested_taker {r : Pool × List EngineEvent} (hfinal : a.Finalize r) {left : Decimal}
    (h : EngineEvent.rested x left ∈ r.2) : x = a.taker.id ∧ left = a.taker.remaining ∧
      r.1.resting = a.taker ::ₘ a.pool.resting := by
  cases hfinal with
  | filled _ hoco => exact absurd h hoco.no_rested
  | cancelled _ _ _ _ hoco =>
    rcases List.mem_cons.mp h with h | h
    · cases h
    · exact absurd h hoco.no_rested
  | rested =>
    cases List.mem_singleton.mp h
    exact ⟨rfl, rfl, rfl⟩

end Pass

/-! ## One pass -/

/-- What a pass of `taker` from book `b` accounts for. -/
structure PassFate (b : OrderBook) (taker : Order)
    (r : Pool × List EngineEvent × List Order) : Prop where
  kept : ∀ x ∈ taker.id ::ₘ b.toPool.ids,
    x ∈ r.1.ids ∨ x ∈ r.2.2.map (·.id) ∨ x ∈ named r.2.1
  known : ∀ x ∈ named r.2.1, x ∈ taker.id ::ₘ b.toPool.ids
  noStop : ∀ x ∈ named r.2.1, x ∉ r.1.stops.map (·.id) ∧ x ∉ r.2.2.map (·.id)

variable {b b' : OrderBook} {taker : Order} {fuel : ℕ} {events : List EngineEvent}
  {triggered : List Order}

/-- Draining the stops ends an accounted pass. -/
theorem passFate_drain {P : Pool} {last : Option Decimal} {hit : List Order}
    {others : Multiset Order} (hdrain : Pass.Drains P last hit others)
    (hkept : ∀ x ∈ b.toPool.ids, x ∈ P.ids ∨ x ∈ named events)
    (hknown : ∀ x ∈ named events, x ∈ taker.id ::ₘ b.toPool.ids)
    (hnoStop : ∀ x ∈ named events, x ∉ P.stops.map (·.id))
    (htaker : taker.id ∈ P.ids ∨ taker.id ∈ named events) :
    PassFate b taker ({ P with stops := others }, events, hit.map convertStop) := by
  have hsplit : ∀ x ∈ P.ids, x ∈ Pool.ids { P with stops := others } ∨ x ∈ hit.map (·.id) := by
    intro x hx
    rw [hdrain.ids_eq] at hx
    rcases Multiset.mem_add.mp hx with hx | hx
    · exact Or.inr hx
    · exact Or.inl hx
  refine ⟨?_, hknown, ?_⟩
  · intro x hx
    have hplace : x ∈ P.ids ∨ x ∈ named events := by
      rcases Multiset.mem_cons.mp hx with rfl | hx
      · exact htaker
      · exact hkept x hx
    rw [map_id_convertStop]
    rcases hplace with hx | hx
    · rcases hsplit x hx with hx | hx
      · exact Or.inl hx
      · exact Or.inr (Or.inl hx)
    · exact Or.inr (Or.inr hx)
  · -- what was no stop is not drained either
    intro x hx
    have hstops := hnoStop x hx
    rw [hdrain.split, Multiset.map_add, Multiset.map_coe] at hstops
    rw [map_id_convertStop]
    exact ⟨fun h => hstops (Multiset.mem_add.mpr (Or.inr h)),
      fun h => hstops (Multiset.mem_add.mpr (Or.inl h))⟩

/-- Every order is live, triggered or named when the run ends. -/
theorem runMatchingLoop_fate (h : Enters b taker)
    (hrun : b.runMatchingLoop fuel taker = some (b', events, triggered)) :
    PassFate b taker (b'.toPool, events, triggered) := by
  refine runMatchingLoop_induct h (fun _ s => s.toPass.Accounts taker b.toPool.ids)
    (fun _ r => PassFate b taker r) ?_ ?_ ?_ hrun
  · exact {
      kept := fun x hx => Or.inl hx
      known := fun x hx => by cases hx
      noStop := fun x hx => by cases hx
      ids := le_refl _
      taker := Or.inl h.ready.positive }
  · intro past s s' _ hs hacc hspec
    exact (hspec.refines hs.book).accounts hs.pass hacc
  · intro past s s' exit r _ hs hacc hspec hs' hfinish
    have hturn := hspec.refines hs.book
    have hacc' : s'.toPass.Accounts taker b.toPool.ids := hturn.accounts hs.pass hacc
    have ha' := hs'.pass
    cases hfinish with
    -- the taker is named by the turn that used it up
    | consumed hdrain =>
      refine passFate_drain hdrain hacc'.kept hacc'.known hacc'.noStop (Or.inr ?_)
      rw [← hs.pass.id_eq]
      exact hturn.consumed_named
    -- or by what follows the loop, unless it rests
    | finalized hfinal hdrain =>
      rcases hfinal.fate ha' with ⟨hfate, htaker⟩
      rcases hfate.append ha' hacc' hfinal.stops_le with ⟨hkept, hknown, hnoStop⟩
      refine passFate_drain hdrain hkept hknown hnoStop ?_
      rw [named_append, List.mem_append]
      rcases hacc'.taker with hpos | hnamed
      · rw [ha'.id_eq] at htaker
        rcases htaker hpos with hid | hid
        · exact Or.inl hid
        · exact Or.inr (Or.inr hid)
      · exact Or.inr (Or.inl hnamed)

/-! ## Calls -/

/-- A pass rests the taker or nothing. -/
theorem runMatchingLoop_rested (h : Enters b taker)
    (hrun : b.runMatchingLoop fuel taker = some (b', events, triggered)) :
    ∀ x left, EngineEvent.rested x left ∈ events → x = taker.id := by
  refine runMatchingLoop_induct h (fun _ s => ∀ x left, EngineEvent.rested x left ∉ s.events)
    (fun _ r => ∀ x left, EngineEvent.rested x left ∈ r.2.1 → x = taker.id)
    (fun _ _ hmem => by cases hmem) ?_ ?_ hrun
  · intro _ s s' _ hs hinv hspec x left hmem
    exact hinv x left ((hspec.refines hs.book).rested hmem)
  · intro _ s s' exit r _ hs hinv hspec hs' hfinish x left hmem
    have hquiet : EngineEvent.rested x left ∉ s'.events := fun hmem =>
      hinv x left ((hspec.refines hs.book).rested hmem)
    cases hfinish with
    | consumed => exact absurd hmem hquiet
    | finalized hfinal =>
      rcases List.mem_append.mp hmem with hmem | hmem
      · exact absurd hmem hquiet
      · exact (hfinal.rested_taker hmem).1.trans hs'.pass.id_eq

/-- Every order that was live before the call, and the taker, is live after it
or named by a fill or a cancel of the call. -/
def Accounted (b : OrderBook) (taker : Order) (b' : OrderBook) (events : List EngineEvent) : Prop :=
  ∀ x, x = taker.id ∨ x ∈ b.live.map (·.id) → x ∈ b'.live.map (·.id) ∨ x ∈ named events

/-- The call comes to a pass that triggers stops while sixteen or more have been
triggered before it. -/
def DropsStop (fuel : ℕ) (b : OrderBook) (taker : Order) : Prop :=
  b.preCheck taker = none ∧ taker.orderType.isStop = false ∧
    ∃ c order rest r, Visits (cascadeTurn fuel) (b.enterCascade taker) c ∧
      c.workQueue = order :: rest ∧ maxStopChainDepth ≤ c.stopDepth ∧
      c.book.runMatchingLoop fuel order = some r ∧ r.2.2 ≠ []

theorem ids_toPool (b : OrderBook) : b.toPool.ids = ↑(b.live.map (·.id)) := by
  rw [Pool.ids, live_toPool, pool_eq_coe_live, Multiset.map_coe]

theorem accounted_iff : Accounted b taker b' events ↔
    ∀ x ∈ taker.id ::ₘ b.toPool.ids, x ∈ b'.toPool.ids ∨ x ∈ named events := by
  simp only [Accounted, ids_toPool, Multiset.mem_cons, Multiset.mem_coe]

/-- Where the orders known before the call are while the cascade runs. -/
def CascadeKept (before : Multiset Uuid) (c : CascadeState) : Prop :=
  ∀ x ∈ before, x ∈ c.workQueue.map (·.id) ∨ x ∈ c.book.toPool.ids ∨ x ∈ named c.events

/-- A turn that drops no stop keeps every order accounted for. -/
theorem CascadeStep.kept {before : Multiset Uuid} {c c' : CascadeState}
    (h : CascadeStep fuel c c') (hc : CascadeSound c) (hkept : CascadeKept before c)
    (hdrop : ∀ order rest r, c.workQueue = order :: rest → maxStopChainDepth ≤ c.stopDepth →
      c.book.runMatchingLoop fuel order = some r → r.2.2 = []) : CascadeKept before c' := by
  cases h with
  | @push order rest book events triggered hqueue hrun _ =>
    have hfate := runMatchingLoop_fate (hc.enters hqueue) hrun
    -- a pass that triggers stops: they go before the rest of the queue
    have hpass : ∀ x ∈ order.id ::ₘ c.book.toPool.ids,
        x ∈ (triggered.reverse ++ rest).map (·.id) ∨ x ∈ book.toPool.ids ∨ x ∈ named events := by
      intro x hx
      rcases hfate.kept x hx with hx | hx | hx
      · exact Or.inr (Or.inl hx)
      · refine Or.inl ?_
        rw [List.map_append, List.map_reverse]
        exact List.mem_append_left _ (List.mem_reverse.mpr hx)
      · exact Or.inr (Or.inr hx)
    intro x hx
    simp only [named_append, named_stopTriggered, List.append_nil, List.mem_append]
    rcases hkept x hx with hx | hx | hx
    · rw [hqueue, List.map_cons, List.mem_cons] at hx
      rcases hx with rfl | hx
      · rcases hpass _ (Multiset.mem_cons_self _ _) with hx | hx | hx
        · exact Or.inl hx
        · exact Or.inr (Or.inl hx)
        · exact Or.inr (Or.inr (Or.inr hx))
      · refine Or.inl ?_
        rw [List.map_append]
        exact List.mem_append_right _ hx
    · rcases hpass x (Multiset.mem_cons_of_mem hx) with hx | hx | hx
      · exact Or.inl hx
      · exact Or.inr (Or.inl hx)
      · exact Or.inr (Or.inr (Or.inr hx))
    · exact Or.inr (Or.inr (Or.inl hx))
  | @cut order rest book events triggered hqueue hrun hdepth =>
    -- a pass at the depth guard: by assumption there was none to drop
    have hnone : triggered = [] := hdrop order rest _ hqueue hdepth hrun
    have hfate := runMatchingLoop_fate (hc.enters hqueue) hrun
    have hpass : ∀ x ∈ order.id ::ₘ c.book.toPool.ids,
        x ∈ book.toPool.ids ∨ x ∈ named events := by
      intro x hx
      rcases hfate.kept x hx with hx | hx | hx
      · exact Or.inl hx
      · rw [hnone] at hx
        cases hx
      · exact Or.inr hx
    intro x hx
    simp only [named_append, List.mem_append]
    rcases hkept x hx with hx | hx | hx
    · rw [hqueue, List.map_cons, List.mem_cons] at hx
      rcases hx with rfl | hx
      · rcases hpass _ (Multiset.mem_cons_self _ _) with hx | hx
        · exact Or.inr (Or.inl hx)
        · exact Or.inr (Or.inr (Or.inr hx))
      · exact Or.inl hx
    · rcases hpass x (Multiset.mem_cons_of_mem hx) with hx | hx
      · exact Or.inr (Or.inl hx)
      · exact Or.inr (Or.inr (Or.inr hx))
    · exact Or.inr (Or.inr (Or.inl hx))

/-- The id is in no place any more, and no event names it. -/
structure Gone (x : Uuid) (c : CascadeState) : Prop where
  queue : x ∉ c.workQueue.map (·.id)
  pool : x ∉ c.book.toPool.ids
  events : x ∉ named c.events

/-- An id that waits nowhere and rests nowhere is not named by a turn either. -/
theorem CascadeStep.unnamed {c c' : CascadeState} {x : Uuid} (h : CascadeStep fuel c c')
    (hc : CascadeSound c) (hqueue : x ∉ c.workQueue.map (·.id)) (hpool : x ∉ c.book.toPool.ids) :
    x ∉ c'.workQueue.map (·.id) ∧ x ∉ c'.book.toPool.ids ∧
      ∃ new, c'.events = c.events ++ new ∧ x ∉ named new := by
  have hids := h.ids_le hc
  have hplace : x ∉ ↑(c'.workQueue.map (·.id)) + c'.book.toPool.ids := by
    intro hmem
    rcases Multiset.mem_add.mp (Multiset.mem_of_le hids hmem) with hmem | hmem
    · exact hqueue hmem
    · exact hpool hmem
  -- a pass names its taker and orders of its book
  have hnew : ∀ {order rest r}, c.workQueue = order :: rest →
      c.book.runMatchingLoop fuel order = some r → x ∉ named r.2.1 := by
    intro order rest r hq hrun hmem
    rcases Multiset.mem_cons.mp
      ((runMatchingLoop_fate (hc.enters hq) hrun).known x hmem) with heq | hmem
    · refine hqueue ?_
      rw [hq, heq]
      exact List.mem_cons_self
    · exact hpool hmem
  refine ⟨fun h => hplace (Multiset.mem_add.mpr (Or.inl h)),
    fun h => hplace (Multiset.mem_add.mpr (Or.inr h)), ?_⟩
  cases h with
  | push hq hrun =>
    refine ⟨_, List.append_assoc _ _ _, ?_⟩
    rw [named_append, named_stopTriggered, List.append_nil]
    exact hnew hq hrun
  | cut hq hrun => exact ⟨_, rfl, hnew hq hrun⟩

/-- What is gone stays gone. -/
theorem CascadeStep.gone {c c' : CascadeState} {x : Uuid} (h : CascadeStep fuel c c')
    (hc : CascadeSound c) (hx : Gone x c) : Gone x c' := by
  rcases h.unnamed hc hx.queue hx.pool with ⟨hqueue, hpool, new, hevents, hnew⟩
  refine ⟨hqueue, hpool, ?_⟩
  rw [hevents, named_append, List.mem_append]
  exact not_or.mpr ⟨hx.events, hnew⟩

/-- The rest of a cascade does not name an id that is nowhere. -/
theorem cascade_unnamed {c₁ : CascadeState} {x : Uuid} (hc₁ : CascadeSound c₁)
    (hqueue : x ∉ c₁.workQueue.map (·.id)) (hpool : x ∉ c₁.book.toPool.ids) {n : ℕ}
    {r : OrderBook × List EngineEvent} (hloop : loop (cascadeTurn fuel) n c₁ = some r) :
    x ∉ r.1.toPool.ids ∧ ∃ later, r.2 = c₁.events ++ later ∧ x ∉ named later := by
  let Inv : CascadeState → Prop := fun c => x ∉ c.workQueue.map (·.id) ∧
    x ∉ c.book.toPool.ids ∧ ∃ later, c.events = c₁.events ++ later ∧ x ∉ named later
  have hstep : ∀ c c', CascadeSound c → Inv c → CascadeStep fuel c c' → Inv c' := by
    rintro c c' hc ⟨hqueue, hpool, later, hevents, hlater⟩ hstep
    rcases hstep.unnamed hc hqueue hpool with ⟨hqueue', hpool', new, hnew, hunnamed⟩
    refine ⟨hqueue', hpool', later ++ new, ?_, ?_⟩
    · rw [hnew, hevents, List.append_assoc]
    · rw [named_append, List.mem_append]
      exact not_or.mpr ⟨hlater, hunnamed⟩
  rcases cascade_induct hc₁ Inv ⟨hqueue, hpool, [], (List.append_nil _).symm, List.not_mem_nil⟩
    (fun c c' _ => hstep c c') hloop with ⟨c, _, _, rfl, _, _, hout, hlater⟩
  exact ⟨hout, hlater⟩

/-- A call fills and cancels the taker and orders of the book, no others. -/
theorem matchOrder_unnamed (hb : b.Sound) (htaker : taker.Admissible) {x : Uuid}
    (hfresh : ∀ o ∈ b.pool, o.id ≠ taker.id) (hx : x ≠ taker.id) (hpool : x ∉ b.toPool.ids)
    (hcall : b.matchOrder fuel taker = some (b', events)) : x ∉ named events := by
  have hspec := matchOrder_spec htaker hcall
  generalize hr : (b', events) = r at hspec
  cases hspec with
  -- the rejection names the taker
  | rejected reject hpre =>
    cases hr
    rcases preCheck_eq_some hpre with ⟨_, rfl⟩ | ⟨_, rfl⟩ <;>
      simpa [named, EngineEvent.names] using hx
  | registered stops =>
    cases hr
    simp [named, EngineEvent.names]
  -- an id that waits nowhere is not named by a cascade
  | matched _ hactive hloop =>
    have hready : taker.Ready := ⟨htaker.positive, hactive, htaker.priced⟩
    have hqueue : x ∉ (b.enterCascade taker).workQueue.map (·.id) := by
      simpa [enterCascade] using hx
    rcases cascade_unnamed (cascadeSound_enter hb hready hfresh) hqueue hpool hloop with
      ⟨_, later, hlater, hnamed⟩
    rw [← hr] at hlater
    rw [show events = [] ++ later from hlater]
    exact hnamed

/-- A pass registers no stop. -/
theorem CascadeStep.stops_le {c c' : CascadeState} (h : CascadeStep fuel c c')
    (hc : CascadeSound c) : c'.book.stopPool ≤ c.book.stopPool := by
  cases h with
  | push hqueue hrun =>
    rcases (runMatchingLoop_sound (hc.enters hqueue) hrun).hit with ⟨hit, _, hle⟩
    exact (Multiset.le_add_left _ _).trans hle
  | cut hqueue hrun =>
    rcases (runMatchingLoop_sound (hc.enters hqueue) hrun).hit with ⟨hit, _, hle⟩
    exact (Multiset.le_add_left _ _).trans hle

/-- No registered stop was named, and the stops are those of before the call. -/
structure StopsUnnamed (b : OrderBook) (c : CascadeState) : Prop where
  events : ∀ x ∈ named c.events, x ∉ c.book.stopPool.map (·.id)
  stops : c.book.stopPool ≤ b.stopPool

/-- A stop that is still registered was not named. -/
theorem CascadeStep.stopsUnnamed {c c' : CascadeState} (h : CascadeStep fuel c c')
    (hc : CascadeSound c) (hu : StopsUnnamed b c) : StopsUnnamed b c' := by
  have hstops := h.stops_le hc
  have hold : ∀ x ∈ named c.events, x ∉ c'.book.stopPool.map (·.id) := by
    intro x hx hmem
    exact hu.events x hx (Multiset.mem_of_le (Multiset.map_le_map hstops) hmem)
  refine ⟨?_, hstops.trans hu.stops⟩
  cases h with
  | push hqueue hrun =>
    simp only [named_append, named_stopTriggered, List.append_nil, List.mem_append]
    rintro x (hx | hx)
    · exact hold x hx
    · exact ((runMatchingLoop_fate (hc.enters hqueue) hrun).noStop x hx).1
  | cut hqueue hrun =>
    simp only [named_append, List.mem_append]
    rintro x (hx | hx)
    · exact hold x hx
    · exact ((runMatchingLoop_fate (hc.enters hqueue) hrun).noStop x hx).1

/-- A dropped stop was live before the call, is not live after it, and no event
names it. -/
theorem not_accounted_of_dropsStop (hb : b.Sound) (htaker : taker.Admissible)
    (hfresh : ∀ o ∈ b.pool, o.id ≠ taker.id) {r : OrderBook × List EngineEvent}
    (hcall : b.matchOrder fuel taker = some r) (hdrop : DropsStop fuel b taker) :
    ¬ Accounted b taker r.1 r.2 := by
  rcases hdrop with ⟨hpre, hactive, c, order, rest, out, hv, hqueue, hdepth, hrun, hne⟩
  have hc₀ := cascadeSound_enter hb ⟨htaker.positive, hactive, htaker.priced⟩ hfresh
  have hc := cascadeSound_of_visits hc₀ hv
  have hunnamed : StopsUnnamed b c := by
    refine (visits_invariant (fun c => CascadeSound c ∧ StopsUnnamed b c) ⟨hc₀, ?_, le_refl _⟩
      ?_ hv).2
    · intro x hx
      cases hx
    · rintro t t' ⟨ht, hu⟩ hnext
      have hstep := cascadeTurn_next hnext
      exact ⟨hstep.sound ht, hstep.stopsUnnamed ht hu⟩
  rcases out with ⟨book, events, triggered⟩
  have hpass := runMatchingLoop_sound (hc.enters hqueue) hrun
  have hfate := runMatchingLoop_fate (hc.enters hqueue) hrun
  rcases hpass.hit with ⟨hit, heq, hle⟩
  -- the first stop the pass triggers
  rcases List.exists_mem_of_ne_nil _ hne with ⟨t, ht⟩
  have htid : t.id ∈ triggered.map (·.id) := List.mem_map_of_mem ht
  have hstop : t.id ∈ c.book.stopPool.map (·.id) := by
    dsimp only at heq hle
    rw [heq, map_id_convertStop] at htid
    refine Multiset.mem_of_le (Multiset.map_le_map ((Multiset.le_add_right _ _).trans hle)) ?_
    rw [Multiset.map_coe]
    exact htid
  have hnext : cascadeTurn fuel c = some (.next {
      book := book
      events := c.events ++ events
      workQueue := rest
      stopDepth := c.stopDepth }) := by
    simp only [cascadeTurn, hqueue, hrun, if_neg (not_lt.mpr hdepth)]
  have hgone : Gone t.id {
      book := book
      events := c.events ++ events
      workQueue := rest
      stopDepth := c.stopDepth } := by
    have hplaces := Multiset.nodup_of_le (add_le_add_right hpass.ids ↑(rest.map (·.id))) (by
      have hunique := hc.unique
      rw [hqueue, List.map_cons, ← Multiset.cons_coe, Multiset.cons_add,
        ← Multiset.add_cons] at hunique
      exact hunique)
    rw [add_left_comm, Multiset.nodup_add] at hplaces
    have hdisj := Multiset.disjoint_left.mp hplaces.2.2 htid
    refine ⟨fun h => hdisj (Multiset.mem_add.mpr (Or.inl h)),
      fun h => hdisj (Multiset.mem_add.mpr (Or.inr h)), ?_⟩
    simp only [named_append, List.mem_append]
    rintro (hmem | hmem)
    · exact hunnamed.events t.id hmem hstop
    · exact (hfate.noStop t.id hmem).2 htid
  have hspec := matchOrder_spec htaker hcall
  cases hspec with
  | rejected reject hpre' =>
    rw [hpre] at hpre'
    cases hpre'
  | registered stops _ hstop' =>
    rw [hactive] at hstop'
    cases hstop'
  | matched _ _ hloop =>
    rcases cascade_induct hc₀ (fun _ => True) trivial (fun _ _ _ _ _ _ => trivial) hloop with
      ⟨final, hvf, hqf, heqf, _, _⟩
    have hdone : cascadeTurn fuel final = some (.done (final.book, final.events)) := by
      simp only [cascadeTurn, hqf]
    have hlast := visits_invariant (fun c => CascadeSound c ∧ Gone t.id c)
      ⟨(cascadeTurn_next hnext).sound hc, hgone⟩ (fun u u' hu hstep =>
        ⟨(cascadeTurn_next hstep).sound hu.1, (cascadeTurn_next hstep).gone hu.1 hu.2⟩)
      (visits_of_next hv hnext hvf hdone)
    rw [accounted_iff, heqf]
    intro hacc
    have hknown : t.id ∈ taker.id ::ₘ b.toPool.ids :=
      Multiset.mem_cons_of_mem (Pool.mem_ids_of_mem_stops
        (Multiset.mem_of_le (Multiset.map_le_map hunnamed.stops) hstop))
    rcases hacc t.id hknown with h | h
    · exact hlast.2.pool h
    · exact hlast.2.events h

/-- A call that drops no stop accounts for every order. -/
theorem accounted_of_not_dropsStop (hb : b.Sound) (htaker : taker.Admissible)
    (hfresh : ∀ o ∈ b.pool, o.id ≠ taker.id) {r : OrderBook × List EngineEvent}
    (hcall : b.matchOrder fuel taker = some r) (hdrop : ¬ DropsStop fuel b taker) :
    Accounted b taker r.1 r.2 := by
  rw [accounted_iff]
  have hspec := matchOrder_spec htaker hcall
  cases hspec with
  | rejected reject hpre =>
    intro x hx
    rcases Multiset.mem_cons.mp hx with rfl | hx
    · rcases preCheck_eq_some hpre with ⟨_, rfl⟩ | ⟨_, rfl⟩
      · exact Or.inr (by simp [EngineEvent.names])
      · exact Or.inr (by simp [EngineEvent.names])
    · exact Or.inl hx
  | registered stops _ _ hins =>
    intro x hx
    refine Or.inl ?_
    -- a stop is registered, and live
    have hperm := StopRegistry.insert_orders hins
    rw [Pool.ids_eq_add] at hx ⊢
    have hmap : (↑stops.orders : Multiset Order).map (·.id) =
        taker.id ::ₘ b.stopPool.map (·.id) := by
      rw [Multiset.coe_eq_coe.mpr hperm, ← Multiset.cons_coe, Multiset.map_cons]
      rfl
    change x ∈ b.restingPool.map (·.id) + (↑stops.orders : Multiset Order).map (·.id)
    rw [hmap, Multiset.add_cons]
    exact hx
  | matched hpre hactive hloop =>
    -- no pass of the cascade drops a stop
    have hc₀ := cascadeSound_enter hb ⟨htaker.positive, hactive, htaker.priced⟩ hfresh
    have hstart : CascadeKept (taker.id ::ₘ b.toPool.ids) (b.enterCascade taker) := by
      intro x hx
      rcases Multiset.mem_cons.mp hx with rfl | hx
      · exact Or.inl List.mem_cons_self
      · exact Or.inr (Or.inl hx)
    rcases cascade_induct hc₀ (CascadeKept (taker.id ::ₘ b.toPool.ids)) hstart
      (fun c c' hv hc hkept hstep => hstep.kept hc hkept
        (fun order rest out hqueue hdepth hrun => by
          by_contra hne
          exact hdrop ⟨hpre, hactive, c, order, rest, out, hv, hqueue, hdepth, hrun, hne⟩))
      hloop with ⟨final, _, hqueue, heq, _, hkept⟩
    intro x hx
    rw [heq]
    rcases hkept x hx with hx | hx
    · rw [hqueue] at hx
      cases hx
    · exact hx

/-- The depth of the chain counts stops that left the registry. -/
theorem CascadeStep.depth_le {c c' : CascadeState} (h : CascadeStep fuel c c')
    (hc : CascadeSound c) :
    c'.stopDepth + c'.book.stopPool.card ≤ c.stopDepth + c.book.stopPool.card := by
  cases h with
  | push hqueue hrun =>
    rcases (runMatchingLoop_sound (hc.enters hqueue) hrun).hit with ⟨hit, heq, hle⟩
    have hcard := Multiset.card_le_card hle
    rw [Multiset.card_add, Multiset.coe_card] at hcard
    dsimp only at heq hcard ⊢
    rw [heq, List.length_map, saturatingDepth]
    omega
  | cut hqueue hrun =>
    rcases (runMatchingLoop_sound (hc.enters hqueue) hrun).hit with ⟨hit, heq, hle⟩
    have hcard := Multiset.card_le_card ((Multiset.le_add_left _ _).trans hle)
    dsimp only at hcard ⊢
    omega

/-- No call drops a stop while at most sixteen are registered. -/
theorem not_dropsStop_of_len_le (hb : b.Sound) (htaker : taker.Admissible)
    (hfresh : ∀ o ∈ b.pool, o.id ≠ taker.id) (hlen : b.stops.len ≤ maxStopChainDepth) :
    ¬ DropsStop fuel b taker := by
  rintro ⟨hpre, hactive, c, order, rest, r, hv, hqueue, hdepth, hrun, hne⟩
  have hc₀ := cascadeSound_enter hb ⟨htaker.positive, hactive, htaker.priced⟩ hfresh
  have hc := visits_invariant
    (fun c => CascadeSound c ∧ c.stopDepth + c.book.stopPool.card ≤ b.stopPool.card)
    ⟨hc₀, (Nat.zero_add _).le⟩ (fun u u' hu hstep =>
      ⟨(cascadeTurn_next hstep).sound hu.1,
        ((cascadeTurn_next hstep).depth_le hu.1).trans hu.2⟩) hv
  have hcard : b.stopPool.card = b.stops.len := (StopRegistry.len_eq_length _).symm
  rcases (runMatchingLoop_sound (hc.1.enters hqueue) hrun).hit with ⟨hit, heq, hle⟩
  have hhit := Multiset.card_le_card ((Multiset.le_add_right _ _).trans hle)
  rw [Multiset.coe_card] at hhit
  have hzero : hit.length = 0 := by
    have := hc.2
    omega
  rw [heq, List.length_eq_zero_iff.mp hzero] at hne
  exact hne rfl

/-- From every book a run reaches, a call accounts for every order if and only
if it drops no stop; with positive display quantities the call returns. -/
theorem accounted_iff_not_dropsStop {cmds : List BookCommand} (hb : Reaches cmds b)
    (htaker : taker.Admissible) (hfresh : taker.id ∉ submittedIds cmds) :
    (∀ fuel b' events, b.matchOrder fuel taker = some (b', events) →
      (Accounted b taker b' events ↔ ¬ DropsStop fuel b taker)) ∧
    ((∀ o ∈ taker :: submitted cmds, ∀ d, o.displayQty = some d → 0 < d) →
      ∃ n, ∀ fuel ≥ n, ∃ r, b.matchOrder fuel taker = some r) := by
  have hafter := hb.after
  have hfresh' := hafter.fresh hfresh
  refine ⟨?_, ?_⟩
  · intro fuel b' events hcall
    constructor
    · intro hacc hdrop
      exact not_accounted_of_dropsStop hafter.sound htaker hfresh' hcall hdrop hacc
    · intro hdrop
      exact accounted_of_not_dropsStop hafter.sound htaker hfresh' hcall hdrop
  · exact hb.matchOrder_terminates htaker.positive

/-- A buy stop-market order of quantity one. -/
def buyStop (id : Uuid) (stopPrice : Decimal) : Order :=
  { limitOrder id 12 .buy 0 1 with
    orderType := .stopMarket
    price := none
    stopPrice := some stopPrice }

/-- Two asks at 100 and 200, sixteen stops at 100 and one at 200. -/
def deepCascade : List BookCommand :=
  [.matchOrder (limitOrder 100 10 .sell 100 1), .matchOrder (limitOrder 101 10 .sell 200 1)] ++
    (List.range 16).map (fun i => .matchOrder (buyStop i 100)) ++ [.matchOrder (buyStop 16 200)]

/-- A buy at 100 triggers sixteen stops; the first of them trades at 200 and
triggers the seventeenth, which vanishes. -/
theorem seventeenth_stop_vanishes :
    ∃ b b' events, Reaches deepCascade b ∧
      b.matchOrder 40 (limitOrder 200 11 .buy 100 1) = some (b', events) ∧
      ¬ Accounted b (limitOrder 200 11 .buy 100 1) b' events := by
  have hcheck : ((OrderBook.new.runCommands 40 deepCascade).bind fun b =>
      (b.matchOrder 40 (limitOrder 200 11 .buy 100 1)).map fun r =>
        (decide (16 ∈ b.live.map (·.id)), decide (16 ∈ r.1.live.map (·.id)),
          decide (16 ∈ named r.2))) = some (true, false, false) := by
    decide +kernel
  rcases Option.bind_eq_some_iff.mp hcheck with ⟨b, hrun, hcall⟩
  rcases Option.map_eq_some_iff.mp hcall with ⟨⟨b', events⟩, hmatch, hfate⟩
  simp only [Prod.mk.injEq, decide_eq_true_eq, decide_eq_false_iff_not] at hfate
  refine ⟨b, b', events, ⟨by decide, by decide, 40, hrun⟩, hmatch, ?_⟩
  intro hacc
  rcases hacc 16 (Or.inr hfate.1) with h | h
  · exact hfate.2.1 h
  · exact hfate.2.2 h

/-- The characterisation on the book of one resting ask, met by a buy order. -/
theorem accounted_of_partial_fill :
    ∃ b, Reaches [.matchOrder (limitOrder 1 10 .sell 100 5)] b ∧
      (∀ fuel b' events, b.matchOrder fuel (limitOrder 2 11 .buy 100 2) = some (b', events) →
        (Accounted b (limitOrder 2 11 .buy 100 2) b' events ↔
          ¬ DropsStop fuel b (limitOrder 2 11 .buy 100 2))) ∧
      ∃ n, ∀ fuel ≥ n, ∃ r, b.matchOrder fuel (limitOrder 2 11 .buy 100 2) = some r := by
  have hrun : (OrderBook.new.runCommands 5 [.matchOrder (limitOrder 1 10 .sell 100 5)]).isSome :=
    by decide
  rcases Option.isSome_iff_exists.mp hrun with ⟨b, hb⟩
  have hreach : Reaches [.matchOrder (limitOrder 1 10 .sell 100 5)] b :=
    ⟨by decide, by decide, 5, hb⟩
  have hiff := accounted_iff_not_dropsStop hreach
    (by decide : (limitOrder 2 11 .buy 100 2).Admissible) (by decide)
  refine ⟨b, hreach, hiff.1, hiff.2 ?_⟩
  simp [submitted, limitOrder]

end CryptoCex.Core
