import CryptoCex.Core.StopQueue

/-!
# What a drain takes

A drain at a price takes every stop that the price triggers and no other, whatever calls led to
the registry, and a cancel may have left empty buckets (`drainTriggered_partitions`). It works on
whole buckets: the orders of a bucket share their stop price, so the price triggers all of them or
none.
-/

namespace CryptoCex.Core

open scoped List

/-- The active form of a stop: only the type differs. -/
structure Activates (stop active : Order) : Prop where
  limit : stop.orderType = .stopLimit → active.orderType = .limit
  market : stop.orderType = .stopMarket → active.orderType = .market
  other : stop.orderType.isStop = false → active.orderType = stop.orderType
  rest : active = { stop with orderType := active.orderType }

/-- A converted stop is the stop in active form. -/
theorem activates_convertStop (o : Order) : Activates o (convertStop o) where
  limit := by
    intro h
    simp [convertStop, h]
  market := by
    intro h
    simp [convertStop, h]
  other := by
    intro h
    unfold convertStop
    dsimp only
    split
    · next htype =>
      rw [htype] at h
      cases h
    · next htype =>
      rw [htype] at h
      cases h
    · rfl
  rest := rfl

namespace StopRegistry

/-- What a drain at a price does to a registry. -/
structure Partitions (r : StopRegistry) (p : Decimal) : Prop where
  /-- The orders returned are the triggered ones in their active form. -/
  returned : ∃ hit, hit ~ r.orders.filter (fun o => o.TriggeredBy p) ∧
    List.Forall₂ Activates hit (r.drainTriggered p).2
  once : ((r.drainTriggered p).2.map (·.id)).Nodup
  /-- The other orders stay where they are. -/
  left : ∀ side price, (r.drainTriggered p).1.bucket side price =
    (r.bucket side price).filter fun o => ¬o.TriggeredBy p
  orders : (r.drainTriggered p).1.orders ~ r.orders.filter fun o => ¬o.TriggeredBy p
  len : (r.drainTriggered p).1.len + (r.drainTriggered p).2.length = r.len
  /-- A second drain finds nothing. -/
  again : (r.drainTriggered p).1.drainTriggered p = ((r.drainTriggered p).1, [])

variable {r : StopRegistry} {p : Decimal}

theorem Queued.inPlace {arrivals : List Uuid} (h : Queued arrivals r) : r.InPlace := h.filed

/-- The stops of the buckets the price hits are those it triggers. -/
theorem hitBy_perm (hr : r.InPlace) (p : Decimal) :
    r.hitBy p ~ r.orders.filter fun o => o.TriggeredBy p := by
  have hhit : (r.hitBy p).filter (fun o => o.TriggeredBy p) = r.hitBy p := by
    rw [List.filter_eq_self]
    intro o ho
    exact decide_eq_true (triggeredBy_of_mem_hitBy hr ho).2
  have hrest : (r.drainTriggered p).1.orders.filter (fun o => o.TriggeredBy p) = [] := by
    rw [List.filter_eq_nil_iff]
    intro o ho
    simpa using not_triggeredBy_of_drained hr ho
  have hsplit := (drainTriggered_orders r p).filter fun o => o.TriggeredBy p
  rw [List.filter_append, hhit, hrest, List.append_nil] at hsplit
  exact hsplit.symm

/-- The stops that stay are those it does not. -/
theorem orders_drainTriggered (hr : r.InPlace) (p : Decimal) :
    (r.drainTriggered p).1.orders ~ r.orders.filter fun o => ¬o.TriggeredBy p := by
  have hhit : (r.hitBy p).filter (fun o => ¬o.TriggeredBy p) = [] := by
    rw [List.filter_eq_nil_iff]
    intro o ho
    simpa using (triggeredBy_of_mem_hitBy hr ho).2
  have hrest : (r.drainTriggered p).1.orders.filter (fun o => ¬o.TriggeredBy p) =
      (r.drainTriggered p).1.orders := by
    rw [List.filter_eq_self]
    intro o ho
    exact decide_eq_true (not_triggeredBy_of_drained hr ho)
  have hsplit := (drainTriggered_orders r p).filter fun o => ¬o.TriggeredBy p
  rw [List.filter_append, hhit, hrest, List.nil_append] at hsplit
  exact hsplit.symm

/-- A price triggers a whole bucket or nothing of it. -/
theorem bucket_drainTriggered (hr : r.InPlace) (p : Decimal) (side : Side) (price : Decimal) :
    (r.drainTriggered p).1.bucket side price =
      (r.bucket side price).filter fun o => ¬o.TriggeredBy p := by
  -- the stops of a bucket have its price, so the price decides for all of them
  have hbucket : ∀ keep : Decimal → Bool,
      (∀ o : Order, o.side = side → o.stopPrice = some price →
        (keep price = true ↔ ¬o.TriggeredBy p)) →
      ((r.buckets side).filterKeys keep).queueAt price =
        (r.bucket side price).filter fun o => ¬o.TriggeredBy p := by
    intro keep hkeep
    rw [OrdMap.queueAt, OrdMap.find?_filterKeys]
    split_ifs with h
    · refine (List.filter_eq_self.mpr ?_).symm
      intro o ho
      obtain ⟨hside, hprice⟩ := hr side price o ho
      exact decide_eq_true ((hkeep o hside hprice).mp h)
    · refine (List.filter_eq_nil_iff.mpr ?_).symm
      intro o ho hnot
      obtain ⟨hside, hprice⟩ := hr side price o ho
      exact h ((hkeep o hside hprice).mpr (of_decide_eq_true hnot))
  rw [drainTriggered_fst]
  cases side with
  | buy =>
    apply hbucket
    intro o hside hprice
    simp [Order.TriggeredBy, hside, hprice]
  | sell =>
    apply hbucket
    intro o hside hprice
    simp [Order.TriggeredBy, hside, hprice]

/-- No stop is lost or doubled in the draining. -/
theorem len_drainTriggered (r : StopRegistry) (p : Decimal) :
    (r.drainTriggered p).1.len + (r.drainTriggered p).2.length = r.len := by
  rw [len_eq_length, len_eq_length, drainTriggered_snd, List.length_map,
    (drainTriggered_orders r p).length_eq, List.length_append, Nat.add_comm]

/-- The keys that a drain leaves are out of reach of the same price. -/
theorem drainTriggered_again (r : StopRegistry) (p : Decimal) :
    (r.drainTriggered p).1.drainTriggered p = ((r.drainTriggered p).1, []) := by
  have hkept : ∀ (m : OrdMap Decimal (List Order)) (hit : Decimal → Bool),
      (m.filterKeys fun k => !hit k).keys.filter hit = [] := by
    intro m hit
    rw [List.filter_eq_nil_iff]
    intro k hk
    obtain ⟨q, hq⟩ := OrdMap.mem_keys.mp hk
    rw [OrdMap.find?_filterKeys] at hq
    split_ifs at hq with hnot
    simpa using hnot
  rw [drainTriggered_fst]
  simp only [drainTriggered, drainBuyStops, drainSellStops, hkept, drainKeys, List.foldl_nil,
    List.append_nil]

/-- A drain splits a registry that calls lead to into the stops that the price triggers and the
others, whatever the price. -/
theorem drainTriggered_partitions {calls : List StopCall}
    (hids : ((new.runCalls calls).orders.map (·.id)).Nodup) (p : Decimal) :
    (new.runCalls calls).Partitions p := by
  have hr : (new.runCalls calls).InPlace := (queued_runCalls calls).inPlace
  have hhit := hitBy_perm hr p
  constructor
  · refine ⟨_, hhit, ?_⟩
    rw [drainTriggered_snd, List.forall₂_map_right_iff]
    exact List.forall₂_same.mpr fun o _ => activates_convertStop o
  · have hids' : (((new.runCalls calls).hitBy p).map (·.id)).Nodup :=
      ((hhit.map _).nodup_iff).mpr (hids.sublist (List.filter_sublist.map _))
    rw [drainTriggered_snd, List.map_map]
    exact hids'
  · exact bucket_drainTriggered hr p
  · exact orders_drainTriggered hr p
  · exact len_drainTriggered _ p
  · exact drainTriggered_again _ p

/-- Buy stops at 100 and at 90, of which the second one was cancelled, and a sell stop at 100. -/
def emptiedBucket : List StopCall :=
  [.insert (stopAtHundred 1), .insert { stopAtHundred 2 with stopPrice := some 90 },
    .insert { stopAtHundred 3 with side := .sell }, .cancel 2]

/-- The theorem on these calls, at the stop price itself. -/
theorem partitions_emptiedBucket : (new.runCalls emptiedBucket).Partitions 100 :=
  drainTriggered_partitions (by decide +kernel) 100

end StopRegistry

end CryptoCex.Core
