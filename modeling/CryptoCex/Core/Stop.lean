import CryptoCex.Core.Types
import CryptoCex.Lib.OrdMap

/-!
# The stop registry

Stop orders wait in two maps of buckets keyed by their stop price. A trade at
`p` triggers the buy stops with `stop_price ≤ p` and the sell stops with
`stop_price ≥ p`; a triggered stop leaves the registry as an active order.

The first half embeds `stop.rs`. The second half describes each operation on
the registry's contents: `orders` is the list of registered stops, and

* `insert_orders`: an insertion adds one order;
* `cancel_spec`: a cancel removes one order of that id, or finds none;
* `drainTriggered_orders`: a drain splits the registry into the stops the price
  triggers and the stops it does not.
-/

namespace CryptoCex.Core

open scoped List

/-- Registry of stop orders waiting to be triggered by trade prices. -/
structure StopRegistry where
  buyStops : OrdMap Decimal (List Order)
  sellStops : OrdMap Decimal (List Order)
deriving DecidableEq

/-- `Vec::swap_remove`: the element at `i` is replaced by the last one. -/
def swapRemove {α : Type*} (l : List α) (i : ℕ) : List α :=
  match l.getLast? with
  | none => []
  | some last => (l.set i last).dropLast

/-- A trade at `price` meets the stop's trigger condition. -/
def Order.TriggeredBy (o : Order) (price : Decimal) : Prop :=
  match o.stopPrice, o.side with
  | none, _ => False
  | some stopPrice, .buy => stopPrice ≤ price
  | some stopPrice, .sell => price ≤ stopPrice

instance (o : Order) (price : Decimal) : Decidable (o.TriggeredBy price) := by
  unfold Order.TriggeredBy
  split <;> infer_instance

/-- A stop order in its active form. -/
def convertStop (order : Order) : Order :=
  { order with
    orderType :=
      match order.orderType with
      | .stopLimit => .limit
      | .stopMarket => .market
      | other => other }

@[simp] theorem id_convertStop (o : Order) : (convertStop o).id = o.id := rfl

@[simp] theorem userId_convertStop (o : Order) : (convertStop o).userId = o.userId := rfl

@[simp] theorem symbol_convertStop (o : Order) : (convertStop o).symbol = o.symbol := rfl

@[simp] theorem price_convertStop (o : Order) : (convertStop o).price = o.price := rfl

@[simp] theorem quantity_convertStop (o : Order) : (convertStop o).quantity = o.quantity := rfl

@[simp] theorem remaining_convertStop (o : Order) : (convertStop o).remaining = o.remaining := rfl

@[simp] theorem displayQty_convertStop (o : Order) :
    (convertStop o).displayQty = o.displayQty := rfl

/-- A stop that was triggered is a limit or a market order. -/
@[simp] theorem isStop_convertStop (o : Order) : (convertStop o).orderType.isStop = false := by
  unfold convertStop
  cases o.orderType <;> rfl

@[simp] theorem canRest_convertStop (o : Order) :
    (convertStop o).orderType.canRest = o.orderType.canRest := by
  unfold convertStop
  cases o.orderType <;> rfl

namespace StopRegistry

/-- An empty registry. -/
def new : StopRegistry := ⟨OrdMap.empty, OrdMap.empty⟩

/-- The buckets of one side. -/
def buckets (r : StopRegistry) : Side → OrdMap Decimal (List Order)
  | .buy => r.buyStops
  | .sell => r.sellStops

/-- Inserts a stop order at the end of the bucket of its stop price. -/
def insert (r : StopRegistry) (order : Order) : Except Error StopRegistry :=
  match order.stopPrice with
  | none => .error .missingStopPrice
  | some stopPrice =>
    match order.side with
    | .buy => .ok { r with
        buyStops := r.buyStops.insert stopPrice (r.buyStops.queueAt stopPrice ++ [order]) }
    | .sell => .ok { r with
        sellStops := r.sellStops.insert stopPrice (r.sellStops.queueAt stopPrice ++ [order]) }

/-- Removes the order with the given id from a bucket that holds one. -/
def removeFromBucket (orderId : Uuid) (bucket : List Order) : Option (List Order) :=
  (bucket.findIdx? fun o => o.id = orderId).map (swapRemove bucket)

/-- Cancels a stop order by id; the flag says whether one was found. -/
def cancel (r : StopRegistry) (orderId : Uuid) : StopRegistry × Bool :=
  match r.buyStops.updateFirst? (removeFromBucket orderId) with
  | some buyStops => ({ r with buyStops }, true)
  | none =>
    match r.sellStops.updateFirst? (removeFromBucket orderId) with
    | some sellStops => ({ r with sellStops }, true)
    | none => (r, false)

/-- Removes the bucket under `key`, if there is one, and converts its orders. -/
def drainKey (acc : OrdMap Decimal (List Order) × List Order) (key : Decimal) :
    OrdMap Decimal (List Order) × List Order :=
  match acc.1.find? key with
  | some orders => (acc.1.erase key, acc.2 ++ orders.map convertStop)
  | none => acc

/-- Removes the buckets under `keys` one after the other. -/
def drainKeys (m : OrdMap Decimal (List Order)) (keys : List Decimal) :
    OrdMap Decimal (List Order) × List Order :=
  keys.foldl drainKey (m, [])

/-- Drains buy stops where `stop_price ≤ last_trade_price`. -/
def drainBuyStops (r : StopRegistry) (lastTradePrice : Decimal) : StopRegistry × List Order :=
  let triggerKeys := r.buyStops.keys.filter (· ≤ lastTradePrice)
  let (buyStops, out) := drainKeys r.buyStops triggerKeys
  ({ r with buyStops }, out)

/-- Drains sell stops where `stop_price ≥ last_trade_price`. -/
def drainSellStops (r : StopRegistry) (lastTradePrice : Decimal) : StopRegistry × List Order :=
  let triggerKeys := r.sellStops.keys.filter (lastTradePrice ≤ ·)
  let (sellStops, out) := drainKeys r.sellStops triggerKeys
  ({ r with sellStops }, out)

/-- Drains all stops triggered by `last_trade_price`, buy stops first. -/
def drainTriggered (r : StopRegistry) (lastTradePrice : Decimal) : StopRegistry × List Order :=
  let (r, buys) := r.drainBuyStops lastTradePrice
  let (r, sells) := r.drainSellStops lastTradePrice
  (r, buys ++ sells)

/-- The number of stop orders in the registry. -/
def len (r : StopRegistry) : ℕ :=
  (r.buyStops.values.map List.length).sum + (r.sellStops.values.map List.length).sum

/-! ## The contents of the registry -/

/-- All registered stops. -/
def orders (r : StopRegistry) : List Order := r.buyStops.flat ++ r.sellStops.flat

/-- Every registered order is a stop filed under its own side and stop price. -/
def Filed (r : StopRegistry) : Prop :=
  ∀ side price o, o ∈ (r.buckets side).queueAt price →
    o.orderType.isStop = true ∧ o.side = side ∧ o.stopPrice = some price

/-- Every registered order is filed under its own side and stop price. -/
def InPlace (r : StopRegistry) : Prop :=
  ∀ side price o, o ∈ (r.buckets side).queueAt price → o.side = side ∧ o.stopPrice = some price

theorem Filed.inPlace {r : StopRegistry} (h : r.Filed) : r.InPlace :=
  fun side price o ho => (h side price o ho).2

@[simp] theorem orders_new : new.orders = [] := rfl

theorem filed_new : new.Filed := by
  intro side price o ho
  cases side <;> cases ho

theorem len_eq_length (r : StopRegistry) : r.len = r.orders.length := by
  simp [len, orders, OrdMap.flat, List.length_flatten]

/-- The registered stops are those of the buckets. -/
theorem mem_orders {r : StopRegistry} {o : Order} :
    o ∈ r.orders ↔ ∃ side price, o ∈ (r.buckets side).queueAt price := by
  rw [orders, List.mem_append, OrdMap.mem_flat, OrdMap.mem_flat]
  constructor
  · rintro (⟨k, h⟩ | ⟨k, h⟩)
    · exact ⟨.buy, k, h⟩
    · exact ⟨.sell, k, h⟩
  · rintro ⟨_ | _, k, h⟩
    · exact Or.inl ⟨k, h⟩
    · exact Or.inr ⟨k, h⟩

/-! ## Insertion -/

theorem insert_eq_ok {r r' : StopRegistry} {o : Order} (h : r.insert o = .ok r') :
    ∃ price, o.stopPrice = some price ∧
      (r'.buckets o.side = (r.buckets o.side).insert price
        ((r.buckets o.side).queueAt price ++ [o])) ∧
      r'.buckets o.side.opposite = r.buckets o.side.opposite := by
  unfold insert at h
  cases hp : o.stopPrice with
  | none =>
    rw [hp] at h
    cases h
  | some price =>
    rw [hp] at h
    refine ⟨price, rfl, ?_⟩
    cases hs : o.side with
    | buy =>
      rw [hs] at h
      cases h
      exact ⟨rfl, rfl⟩
    | sell =>
      rw [hs] at h
      cases h
      exact ⟨rfl, rfl⟩

/-- The registered orders, one side at a time. -/
theorem orders_perm_side (r : StopRegistry) (side : Side) :
    r.orders.Perm ((r.buckets side).flat ++ (r.buckets side.opposite).flat) := by
  cases side with
  | buy => exact List.Perm.refl _
  | sell => exact List.perm_append_comm

/-- An insertion adds one order. -/
theorem insert_orders {r r' : StopRegistry} {o : Order} (h : r.insert o = .ok r') :
    r'.orders.Perm (o :: r.orders) := by
  rcases insert_eq_ok h with ⟨price, _, hown, hother⟩
  have hnew := OrdMap.flat_insert (r.buckets o.side) price
    ((r.buckets o.side).queueAt price ++ [o])
  have hold := OrdMap.flat_eq_queueAt (r.buckets o.side) price
  rw [← hown] at hnew
  have hside : (r'.buckets o.side).flat.Perm (o :: (r.buckets o.side).flat) := by
    refine hnew.trans ?_
    rw [List.append_assoc]
    exact List.perm_middle.trans (hold.symm.cons o)
  have hr' := r'.orders_perm_side o.side
  rw [hother] at hr'
  refine hr'.trans ((hside.append_right _).trans ?_)
  exact ((r.orders_perm_side o.side).symm.cons o)

/-- Inserting a stop keeps every stop under its side and price. -/
theorem insert_filed {r r' : StopRegistry} {o : Order} (h : r.insert o = .ok r')
    (hstop : o.orderType.isStop = true) (hr : r.Filed) : r'.Filed := by
  rcases insert_eq_ok h with ⟨price, hprice, hown, hother⟩
  intro side k x hx
  by_cases hside : side = o.side
  · subst hside
    rw [hown, OrdMap.queueAt, OrdMap.find?_insert] at hx
    split_ifs at hx with hk
    · subst hk
      rcases List.mem_append.mp hx with hx | hx
      · exact hr o.side k x hx
      · rw [List.mem_singleton.mp hx]
        exact ⟨hstop, rfl, hprice⟩
    · exact hr o.side k x hx
  · rw [Side.eq_opposite_of_ne hside, hother] at hx
    rw [Side.eq_opposite_of_ne hside]
    exact hr _ k x hx

/-- A stop with a stop price is registered. -/
theorem insert_ok_of_stopPrice {r : StopRegistry} {o : Order} {price : Decimal}
    (h : o.stopPrice = some price) : ∃ r', r.insert o = .ok r' := by
  unfold insert
  rw [h]
  cases o.side with
  | buy => exact ⟨_, rfl⟩
  | sell => exact ⟨_, rfl⟩

/-! ## Cancel -/

/-- `swap_remove` takes one element out, and reorders the others. -/
theorem swapRemove_perm {α : Type*} {l : List α} {i : ℕ} (h : i < l.length) :
    l.Perm (l[i] :: swapRemove l i) := by
  rcases List.eq_nil_or_concat l with rfl | ⟨init, last, rfl⟩
  · simp at h
  · have hlen : i ≤ init.length := by simpa [Nat.lt_succ_iff] using h
    have hlast : (init ++ [last]).getLast? = some last := by simp
    simp only [List.concat_eq_append, swapRemove, hlast]
    rcases Nat.lt_or_eq_of_le hlen with hlt | heq
    · -- a slot before the end takes the last element
      rw [List.set_append_left _ _ hlt, List.dropLast_concat, List.getElem_append_left hlt]
      have hset : (init[i] :: init.set i last).Perm (last :: init) := by
        rw [List.set_eq_take_append_cons_drop, if_pos hlt]
        have hsplit : init = init.take i ++ init[i] :: init.drop (i + 1) := by
          rw [← List.drop_eq_getElem_cons hlt, List.take_append_drop]
        calc init[i] :: (init.take i ++ last :: init.drop (i + 1))
          _ ~ init[i] :: last :: (init.take i ++ init.drop (i + 1)) := List.perm_middle.cons _
          _ ~ last :: init[i] :: (init.take i ++ init.drop (i + 1)) := List.Perm.swap _ _ _
          _ ~ last :: (init.take i ++ init[i] :: init.drop (i + 1)) :=
                List.perm_middle.symm.cons _
          _ = last :: init := by rw [← hsplit]
      exact (List.perm_append_singleton last init).trans hset.symm
    · subst heq
      simp

theorem removeFromBucket_eq_none {id : Uuid} {bucket : List Order} :
    removeFromBucket id bucket = none ↔ ∀ o ∈ bucket, o.id ≠ id := by
  simp [removeFromBucket]

/-- A bucket loses the one stop of that id. -/
theorem removeFromBucket_eq_some {id : Uuid} {bucket bucket' : List Order}
    (h : removeFromBucket id bucket = some bucket') :
    ∃ o, o.id = id ∧ bucket.Perm (o :: bucket') := by
  rcases Option.map_eq_some_iff.mp h with ⟨i, hi, rfl⟩
  rw [List.findIdx?_eq_some_iff_getElem] at hi
  rcases hi with ⟨hlt, hid, _⟩
  exact ⟨bucket[i], by simpa using hid, swapRemove_perm hlt⟩

/-- What a cancel does to the side that holds the order. -/
theorem updateFirst?_flat {id : Uuid} {m m' : OrdMap Decimal (List Order)}
    (h : m.updateFirst? (removeFromBucket id) = some m') :
    ∃ o, o.id = id ∧ m.flat.Perm (o :: m'.flat) ∧
      ∀ k x, x ∈ m'.queueAt k → x ∈ m.queueAt k := by
  rcases OrdMap.updateFirst?_eq_some h with ⟨k, bucket, bucket', hfind, hrem, rfl⟩
  rcases removeFromBucket_eq_some hrem with ⟨o, hid, hperm⟩
  refine ⟨o, hid, ?_, ?_⟩
  · have hnew := OrdMap.flat_insert m k bucket'
    have hold := OrdMap.flat_eq_queueAt m k
    rw [OrdMap.queueAt, hfind] at hold
    exact hold.trans ((hperm.append_right _).trans (hnew.symm.cons o))
  · intro k' x hx
    rw [OrdMap.queueAt, OrdMap.find?_insert] at hx
    split_ifs at hx with hk
    · subst hk
      rw [OrdMap.queueAt, hfind]
      exact hperm.symm.subset (List.mem_cons_of_mem o hx)
    · exact hx

/-- A cancel removes one order of that id, or there is none. -/
theorem cancel_spec (r : StopRegistry) (id : Uuid) :
    ((r.cancel id).2 = true ∧ (∃ o, o.id = id ∧ r.orders.Perm (o :: (r.cancel id).1.orders)) ∧
      (r.Filed → (r.cancel id).1.Filed)) ∨
    (r.cancel id = (r, false) ∧ ∀ o ∈ r.orders, o.id ≠ id) := by
  unfold cancel
  cases hb : r.buyStops.updateFirst? (removeFromBucket id) with
  -- among the buy stops, which are searched first
  | some m =>
    left
    rcases updateFirst?_flat hb with ⟨o, hid, hperm, hsub⟩
    -- in neither map, so that no stop has the id
    refine ⟨rfl, ⟨o, hid, hperm.append_right _⟩, ?_⟩
    intro hr side k x hx
    cases side with
    | buy => exact hr .buy k x (hsub k x hx)
    | sell => exact hr .sell k x hx
  | none =>
    cases hs : r.sellStops.updateFirst? (removeFromBucket id) with
    -- among the sell stops
    | some m =>
      left
      rcases updateFirst?_flat hs with ⟨o, hid, hperm, hsub⟩
      refine ⟨rfl, ⟨o, hid, (hperm.append_left _).trans List.perm_middle⟩, ?_⟩
      intro hr side k x hx
      cases side with
      | buy => exact hr .buy k x hx
      | sell => exact hr .sell k x (hsub k x hx)
    | none =>
      right
      refine ⟨rfl, ?_⟩
      intro o ho
      rw [OrdMap.updateFirst?_eq_none] at hb hs
      rcases mem_orders.mp ho with ⟨side, k, hk⟩
      have hnone : ∀ m : OrdMap Decimal (List Order),
          (∀ k v, m.find? k = some v → removeFromBucket id v = none) →
          o ∈ m.queueAt k → o.id ≠ id := by
        intro m hm hmem
        cases hq : m.find? k with
        | none => simp [OrdMap.queueAt, hq] at hmem
        | some q =>
          rw [OrdMap.queueAt, hq] at hmem
          exact removeFromBucket_eq_none.mp (hm k q hq) o hmem
      cases side with
      | buy => exact hnone _ hb hk
      | sell => exact hnone _ hs hk

/-! ## Drain -/

/-- Draining keys one after the other removes exactly these keys. -/
theorem foldl_drainKey_fst (keys : List Decimal)
    (acc : OrdMap Decimal (List Order) × List Order) :
    (keys.foldl drainKey acc).1 = acc.1.filterKeys fun k => k ∉ keys := by
  induction keys generalizing acc with
  | nil =>
    apply OrdMap.ext_find?
    intro k
    simp [OrdMap.find?_filterKeys]
  | cons key keys ih =>
    rw [List.foldl_cons, ih]
    apply OrdMap.ext_find?
    intro k
    cases hq : acc.1.find? key with
    -- there is nothing under this key to drain
    | none =>
      by_cases hk : k = key
      · subst hk
        simp [drainKey, OrdMap.find?_filterKeys, hq]
      · simp [drainKey, OrdMap.find?_filterKeys, hk, hq]
    -- draining the key erases its queue
    | some q =>
      by_cases hk : k = key
      · subst hk
        simp [drainKey, OrdMap.find?_filterKeys, hq]
      · simp [drainKey, OrdMap.find?_filterKeys, OrdMap.find?_erase, hk, hq]

/-- Draining distinct keys returns their buckets, converted, in the order of
the keys. -/
theorem foldl_drainKey_snd {keys : List Decimal} (hnodup : keys.Nodup)
    (acc : OrdMap Decimal (List Order) × List Order) :
    (keys.foldl drainKey acc).2 = acc.2 ++ (keys.flatMap acc.1.queueAt).map convertStop := by
  induction keys generalizing acc with
  | nil => simp
  | cons key keys ih =>
    rw [List.nodup_cons] at hnodup
    rw [List.foldl_cons, ih hnodup.2]
    cases hq : acc.1.find? key with
    | none =>
      have hempty : acc.1.queueAt key = [] := by simp [OrdMap.queueAt, hq]
      simp [drainKey, hempty, hq]
    | some q =>
      have hkey : acc.1.queueAt key = q := by simp [OrdMap.queueAt, hq]
      -- the later keys differ from `key`, so their buckets are still there
      have hrest : keys.flatMap (acc.1.erase key).queueAt = keys.flatMap acc.1.queueAt := by
        apply List.flatMap_congr
        intro k hk
        have hne : k ≠ key := fun h => hnodup.1 (h ▸ hk)
        simp [OrdMap.queueAt, OrdMap.find?_erase, hne]
      simp [drainKey, hkey, hrest, hq, List.append_assoc]

/-- The elements of a map are those under the keys that satisfy `p` and the rest. -/
theorem flat_split (m : OrdMap Decimal (List Order)) (p : Decimal → Bool) :
    m.flat.Perm ((m.keys.filter p).flatMap m.queueAt ++ (m.filterKeys fun k => !p k).flat) := by
  have hbucket : ∀ e ∈ m.entries, m.queueAt e.1 = e.2 := by
    intro e he
    have hfind : m.find? e.1 = some e.2 := OrdMap.find?_eq_some.mpr he
    simp [OrdMap.queueAt, hfind]
  have hhit : (m.keys.filter p).flatMap m.queueAt
      = ((m.entries.filter fun e => p e.1).map Prod.snd).flatten := by
    rw [OrdMap.keys, List.filter_map, List.flatMap_map]
    rw [← List.flatMap_def]
    apply List.flatMap_congr
    intro e he
    exact hbucket e (List.mem_of_mem_filter he)
  rw [hhit, OrdMap.flat, OrdMap.values, OrdMap.flat, OrdMap.values, OrdMap.filterKeys,
    ← List.flatten_append, ← List.map_append]
  exact ((List.filter_append_perm (fun e => p e.1) m.entries).symm.map _).flatten

/-- Draining the keys that satisfy `p` leaves the keys that do not. -/
theorem drainKeys_filter (m : OrdMap Decimal (List Order)) (p : Decimal → Bool) :
    drainKeys m (m.keys.filter p) =
      (m.filterKeys fun k => !p k, ((m.keys.filter p).flatMap m.queueAt).map convertStop) := by
  apply Prod.ext
  · rw [drainKeys, foldl_drainKey_fst]
    apply OrdMap.ext_find?
    intro k
    cases hq : m.find? k with
    | none => simp [OrdMap.find?_filterKeys, hq]
    | some q =>
      have hk : k ∈ m.keys := OrdMap.mem_keys.mpr ⟨q, hq⟩
      simp [OrdMap.find?_filterKeys, hk]
  · have hnodup : (m.keys.filter p).Nodup :=
      (m.keys_sorted.imp fun h => ne_of_lt h).filter _
    have h := foldl_drainKey_snd hnodup (m, [])
    rw [List.nil_append] at h
    exact h

theorem drainTriggered_fst (r : StopRegistry) (p : Decimal) :
    (r.drainTriggered p).1 =
      ⟨r.buyStops.filterKeys fun k => !decide (k ≤ p),
        r.sellStops.filterKeys fun k => !decide (p ≤ k)⟩ := by
  simp only [drainTriggered, drainBuyStops, drainSellStops, drainKeys_filter]

/-- The stops a trade at `p` triggers, in the order in which they leave. -/
def hitBy (r : StopRegistry) (p : Decimal) : List Order :=
  (r.buyStops.keys.filter (· ≤ p)).flatMap r.buyStops.queueAt ++
    (r.sellStops.keys.filter (p ≤ ·)).flatMap r.sellStops.queueAt

/-- The drained stops are those the price hits, in active form. -/
theorem drainTriggered_snd (r : StopRegistry) (p : Decimal) :
    (r.drainTriggered p).2 = (r.hitBy p).map convertStop := by
  simp only [drainTriggered, drainBuyStops, drainSellStops, drainKeys_filter, hitBy,
    List.map_append]

/-- A drain splits the registry into the triggered stops and the others. -/
theorem drainTriggered_orders (r : StopRegistry) (p : Decimal) :
    r.orders ~ r.hitBy p ++ (r.drainTriggered p).1.orders := by
  have hbuy := flat_split r.buyStops fun k => decide (k ≤ p)
  have hsell := flat_split r.sellStops fun k => decide (p ≤ k)
  rw [drainTriggered_fst]
  simp only [orders, hitBy]
  refine (hbuy.append hsell).trans ?_
  simp only [List.append_assoc]
  refine List.Perm.append_left _ ?_
  rw [← List.append_assoc, ← List.append_assoc]
  exact List.perm_append_comm.append_right _

/-- A stop that stays was there and is not hit. -/
theorem queueAt_drainTriggered {r : StopRegistry} {p k : Decimal} {side : Side} {o : Order}
    (ho : o ∈ ((r.drainTriggered p).1.buckets side).queueAt k) :
    o ∈ (r.buckets side).queueAt k ∧
      match side with
      | .buy => ¬ k ≤ p
      | .sell => ¬ p ≤ k := by
  rw [drainTriggered_fst] at ho
  cases side with
  | buy =>
    simp only [buckets, OrdMap.queueAt, OrdMap.find?_filterKeys] at ho
    split_ifs at ho with h
    · exact ⟨ho, by simpa using h⟩
    · cases ho
  | sell =>
    simp only [buckets, OrdMap.queueAt, OrdMap.find?_filterKeys] at ho
    split_ifs at ho with h
    · exact ⟨ho, by simpa using h⟩
    · cases ho

/-- Draining keeps every stop under its side and price. -/
theorem drainTriggered_filed {r : StopRegistry} (hr : r.Filed) (p : Decimal) :
    (r.drainTriggered p).1.Filed :=
  fun side k o ho => hr side k o (queueAt_drainTriggered ho).1

/-- The stops left behind are not triggered by the price. -/
theorem not_triggeredBy_of_drained {r : StopRegistry} (hr : r.InPlace) {p : Decimal} {o : Order}
    (ho : o ∈ (r.drainTriggered p).1.orders) : ¬ o.TriggeredBy p := by
  rcases mem_orders.mp ho with ⟨side, k, hk⟩
  rcases queueAt_drainTriggered hk with ⟨hmem, hcond⟩
  rcases hr side k o hmem with ⟨hside, hprice⟩
  cases side with
  | buy => simpa [Order.TriggeredBy, hside, hprice] using hcond
  | sell => simpa [Order.TriggeredBy, hside, hprice] using hcond

/-- The stops that leave are triggered by the price. -/
theorem triggeredBy_of_mem_hitBy {r : StopRegistry} (hr : r.InPlace) {p : Decimal} {o : Order}
    (ho : o ∈ r.hitBy p) : o ∈ r.orders ∧ o.TriggeredBy p := by
  rcases List.mem_append.mp ho with ho | ho
  · rcases List.mem_flatMap.mp ho with ⟨k, hk, hmem⟩
    rcases hr .buy k o hmem with ⟨hside, hprice⟩
    refine ⟨mem_orders.mpr ⟨.buy, k, hmem⟩, ?_⟩
    simpa [Order.TriggeredBy, hside, hprice] using (List.mem_filter.mp hk).2
  · rcases List.mem_flatMap.mp ho with ⟨k, hk, hmem⟩
    rcases hr .sell k o hmem with ⟨hside, hprice⟩
    refine ⟨mem_orders.mpr ⟨.sell, k, hmem⟩, ?_⟩
    simpa [Order.TriggeredBy, hside, hprice] using (List.mem_filter.mp hk).2

end StopRegistry

end CryptoCex.Core
