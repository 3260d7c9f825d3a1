import CryptoCex.Core.Stop
import CryptoCex.Lib.Queues
import Mathlib.Data.List.Induction

/-!
# The order in which stops leave the registry

`drain_triggered` promises the stops of one price in insertion order. An insertion appends to the
bucket of its price and a drain empties buckets from the front, which keeps the promise. A cancel
fills the slot of the cancelled stop with the last stop of the bucket: this stop passes all others
that were behind the cancelled one (`jumped_stop`).

So the promise holds at every point of a run of calls exactly when no cancel takes a stop with two
or more others behind it (`drainsInOrder_iff`).
-/

namespace CryptoCex.Core

open scoped List
open Queues (InTurn lastFirst)

/-- A call on the registry. -/
inductive StopCall where
  | insert (order : Order)
  | cancel (orderId : Uuid)
  | drainTriggered (lastTradePrice : Decimal)
deriving DecidableEq, Repr

/-- The ids of the orders that were inserted, in order. -/
def insertedIds (calls : List StopCall) : List Uuid :=
  calls.filterMap fun call => match call with
    | .insert order => some order.id
    | _ => none

/-- Two orders of the same side and stop price stand in the order of their arrivals. -/
def InInsertionOrder (arrivals : List Uuid) (drained : List Order) : Prop :=
  drained.Pairwise fun a a' =>
    a.side = a'.side → a.stopPrice = a'.stopPrice → [a.id, a'.id] <+ arrivals

namespace StopRegistry

/-- Carries out one call; an insertion that fails changes nothing. -/
def call (r : StopRegistry) : StopCall → StopRegistry
  | .insert order =>
    match r.insert order with
    | .ok r' => r'
    | .error _ => r
  | .cancel orderId => (r.cancel orderId).1
  | .drainTriggered lastTradePrice => (r.drainTriggered lastTradePrice).1

def runCalls (r : StopRegistry) (calls : List StopCall) : StopRegistry := calls.foldl call r

/-- The stops of one side and stop price. -/
def bucket (r : StopRegistry) (side : Side) (price : Decimal) : List Order :=
  (r.buckets side).queueAt price

/-- No more than one stop of its bucket stands behind the stop with this id. -/
def NearEnd (r : StopRegistry) (orderId : Uuid) : Prop :=
  ∀ side price before o behind, r.bucket side price = before ++ o :: behind → o.id = orderId →
    behind.length ≤ 1

/-- The registry holds orders that arrived, each in the bucket of its side and stop price. -/
structure Queued (arrivals : List Uuid) (r : StopRegistry) : Prop where
  filed : ∀ side price, ∀ o ∈ r.bucket side price, o.side = side ∧ o.stopPrice = some price
  held : r.orders.map (·.id) <+~ arrivals

/-- Every bucket is in the order of the arrivals. -/
def KeepsTurns (arrivals : List Uuid) (r : StopRegistry) : Prop :=
  ∀ side price, InTurn (·.id) arrivals (r.bucket side price)

variable {r r' : StopRegistry} {arrivals : List Uuid} {o : Order} {side : Side} {price : Decimal}

/-- An empty registry has nobody queued. -/
theorem queued_new : Queued [] new where
  filed := by
    intro side price o ho
    cases side <;> cases ho
  held := List.Subperm.refl []

theorem keepsTurns_new : KeepsTurns [] new := by
  intro side price
  cases side <;> exact List.Pairwise.nil

theorem Queued.known (h : Queued arrivals r) (ho : o ∈ r.bucket side price) :
    o.id ∈ arrivals :=
  h.held.subset (List.mem_map_of_mem (mem_orders.mpr ⟨side, price, ho⟩))

/-- Registered stops with the same id are the same. -/
theorem Queued.eq_of_id_eq (h : Queued arrivals r) (hnodup : arrivals.Nodup) {o' : Order}
    (ho : o ∈ r.orders) (ho' : o' ∈ r.orders) (hid : o.id = o'.id) : o = o' := by
  obtain ⟨l, hperm, hsub⟩ := h.held
  have hids : (r.orders.map (·.id)).Nodup := hperm.nodup_iff.mp (hnodup.sublist hsub)
  exact List.inj_on_of_nodup_map hids ho ho' hid

/-! ## What a call does to the buckets -/

/-- A stop goes to the end of its bucket. -/
theorem bucket_insert (h : r.insert o = .ok r') : ∃ price, o.stopPrice = some price ∧
    ∀ side k, r'.bucket side k =
      if side = o.side ∧ k = price then r.bucket side k ++ [o] else r.bucket side k := by
  obtain ⟨price, hprice, hown, hother⟩ := insert_eq_ok h
  refine ⟨price, hprice, ?_⟩
  intro side k
  unfold bucket
  by_cases hside : side = o.side
  · subst hside
    rw [hown, OrdMap.queueAt, OrdMap.find?_insert]
    by_cases hk : k = price
    · rw [if_pos hk, if_pos ⟨rfl, hk⟩, hk, Option.getD_some]
    · rw [if_neg hk, if_neg (fun hboth => hk hboth.2), OrdMap.queueAt]
  · rw [if_neg (fun hboth => hside hboth.1), Side.eq_opposite_of_ne hside, hother]

/-- Taking an element out by `swap_remove`. -/
theorem swapRemove_append {α : Type*} (before : List α) (a : α) (behind : List α) :
    swapRemove (before ++ a :: behind) before.length = before ++ lastFirst behind := by
  rcases List.eq_nil_or_concat behind with rfl | ⟨mid, last, rfl⟩
  · simp [swapRemove, lastFirst]
  · rw [List.concat_eq_append, Queues.lastFirst_concat, swapRemove]
    have hlast : (before ++ a :: (mid ++ [last])).getLast? = some last := by
      rw [← List.cons_append, ← List.append_assoc]
      exact List.getLast?_concat
    rw [hlast]
    dsimp only
    rw [List.set_append_right _ _ le_rfl, Nat.sub_self, List.set_cons_zero, ← List.cons_append,
      ← List.append_assoc, List.dropLast_concat]

/-- `swap_remove` puts the last stop of the bucket in the place of the one that goes. -/
theorem removeFromBucket_split {id : Uuid} {bucket bucket' : List Order}
    (h : removeFromBucket id bucket = some bucket') :
    ∃ before o behind, o.id = id ∧ bucket = before ++ o :: behind ∧
      bucket' = before ++ lastFirst behind := by
  obtain ⟨i, hi, rfl⟩ := Option.map_eq_some_iff.mp h
  obtain ⟨hlt, hid, _⟩ := List.findIdx?_eq_some_iff_getElem.mp hi
  have hsplit : bucket = bucket.take i ++ bucket[i] :: bucket.drop (i + 1) := by
    rw [← List.drop_eq_getElem_cons hlt, List.take_append_drop]
  refine ⟨bucket.take i, bucket[i], bucket.drop (i + 1), by simpa using hid, hsplit, ?_⟩
  have hswap := swapRemove_append (bucket.take i) bucket[i] (bucket.drop (i + 1))
  rwa [← hsplit, List.length_take_of_le hlt.le] at hswap

/-- A cancel lets the last stop of one bucket take the place of the cancelled one, or finds no
stop with this id. -/
theorem bucket_cancel (r : StopRegistry) (id : Uuid) :
    ((r.cancel id).1 = r ∧ ∀ side price, ∀ o ∈ r.bucket side price, o.id ≠ id) ∨
    ∃ side price before o behind, o.id = id ∧ r.bucket side price = before ++ o :: behind ∧
      ∀ s k, (r.cancel id).1.bucket s k =
        if s = side ∧ k = price then before ++ lastFirst behind else r.bucket s k := by
  -- in the map where it is found, one bucket changes
  have hfound : ∀ {m m' : OrdMap Decimal (List Order)},
      m.updateFirst? (removeFromBucket id) = some m' →
      ∃ price before o behind, o.id = id ∧ m.queueAt price = before ++ o :: behind ∧
        ∀ k, m'.queueAt k = if k = price then before ++ lastFirst behind else m.queueAt k := by
    intro m m' hupdate
    obtain ⟨price, q, q', hfind, hremove, rfl⟩ := OrdMap.updateFirst?_eq_some hupdate
    obtain ⟨before, o, behind, hid, hq, hq'⟩ := removeFromBucket_split hremove
    refine ⟨price, before, o, behind, hid, ?_, ?_⟩
    · rw [OrdMap.queueAt, hfind, Option.getD_some, hq]
    · intro k
      rw [OrdMap.queueAt, OrdMap.find?_insert, ← hq']
      by_cases hk : k = price
      · rw [if_pos hk, if_pos hk, Option.getD_some]
      · rw [if_neg hk, if_neg hk, OrdMap.queueAt]
  unfold cancel
  cases hbuy : r.buyStops.updateFirst? (removeFromBucket id) with
  | some buyStops =>
    obtain ⟨price, before, o, behind, hid, hsplit, hafter⟩ := hfound hbuy
    refine .inr ⟨.buy, price, before, o, behind, hid, hsplit, ?_⟩
    intro s k
    cases s with
    | buy => simpa [bucket, buckets] using hafter k
    | sell => simp [bucket, buckets]
  | none =>
    cases hsell : r.sellStops.updateFirst? (removeFromBucket id) with
    | some sellStops =>
      obtain ⟨price, before, o, behind, hid, hsplit, hafter⟩ := hfound hsell
      refine .inr ⟨.sell, price, before, o, behind, hid, hsplit, ?_⟩
      intro s k
      cases s with
      | buy => simp [bucket, buckets]
      | sell => simpa [bucket, buckets] using hafter k
    | none =>
      left
      refine ⟨rfl, ?_⟩
      -- it is in neither map
      have hnone : ∀ {m : OrdMap Decimal (List Order)},
          m.updateFirst? (removeFromBucket id) = none → ∀ price, ∀ o ∈ m.queueAt price,
            o.id ≠ id := by
        intro m hm price o ho
        rw [OrdMap.updateFirst?_eq_none] at hm
        rw [OrdMap.queueAt] at ho
        cases hq : m.find? price with
        | none => simp [hq] at ho
        | some q =>
          rw [hq, Option.getD_some] at ho
          exact removeFromBucket_eq_none.mp (hm price q hq) o ho
      intro side
      cases side with
      | buy => exact hnone hbuy
      | sell => exact hnone hsell

/-- A drain empties buckets. -/
theorem bucket_drain (r : StopRegistry) (p : Decimal) (side : Side) (price : Decimal) :
    (r.drainTriggered p).1.bucket side price <+ r.bucket side price := by
  have hfilter : ∀ (m : OrdMap Decimal (List Order)) (keep : Decimal → Bool),
      (m.filterKeys keep).queueAt price <+ m.queueAt price := by
    intro m keep
    rw [OrdMap.queueAt, OrdMap.queueAt, OrdMap.find?_filterKeys]
    split_ifs
    · exact List.Sublist.refl _
    · exact List.nil_sublist _
  rw [drainTriggered_fst]
  cases side with
  | buy => exact hfilter r.buyStops _
  | sell => exact hfilter r.sellStops _

/-! ## What a call does to the contents -/

theorem Queued.mono {arrivals' : List Uuid} (h : Queued arrivals r) (hsub : arrivals <+ arrivals') :
    Queued arrivals' r :=
  ⟨h.filed, h.held.trans hsub.subperm⟩

/-- Inserting queues a stop behind the others. -/
theorem Queued.insert (h : Queued arrivals r) (hinsert : r.insert o = .ok r') :
    Queued (arrivals ++ [o.id]) r' where
  filed := by
    obtain ⟨price, hprice, hbucket⟩ := bucket_insert hinsert
    intro side k x hx
    rw [hbucket] at hx
    split_ifs at hx with hplace
    · rcases List.mem_append.mp hx with hx | hx
      · exact h.filed side k x hx
      · rw [List.mem_singleton.mp hx, hplace.1, hplace.2]
        exact ⟨rfl, hprice⟩
    · exact h.filed side k x hx
  held := by
    have hids : r'.orders.map (·.id) ~ o.id :: r.orders.map (·.id) := (insert_orders hinsert).map _
    have harrived : o.id :: arrivals ~ arrivals ++ [o.id] :=
      (List.perm_append_singleton o.id arrivals).symm
    exact hids.subperm.trans (((List.subperm_cons o.id).mpr h.held).trans harrived.subperm)

/-- A cancellation queues nobody. -/
theorem Queued.cancel (h : Queued arrivals r) (id : Uuid) : Queued arrivals (r.cancel id).1 where
  filed := by
    intro side k x hx
    -- the queues change at the place of the cancelled order only
    rcases bucket_cancel r id with ⟨hsame, _⟩ | ⟨s, price, before, o, behind, _, hsplit, hafter⟩
    · rw [hsame] at hx
      exact h.filed side k x hx
    · rw [hafter] at hx
      split_ifs at hx with hplace
      · apply h.filed side k x
        rw [hplace.1, hplace.2, hsplit]
        rcases List.mem_append.mp hx with hx | hx
        · exact List.mem_append_left _ hx
        · exact List.mem_append_right _ (List.mem_cons_of_mem o (Queues.mem_of_mem_lastFirst hx))
      · exact h.filed side k x hx
  held := by
    rcases cancel_spec r id with ⟨_, ⟨o, _, hperm⟩, _⟩ | ⟨hsame, _⟩
    · -- one order fewer is held
      have hless : (r.cancel id).1.orders.map (·.id) <+~ r.orders.map (·.id) := by
        have hids := (hperm.map (·.id)).symm.subperm
        exact (List.sublist_cons_self _ _).subperm.trans hids
      exact hless.trans h.held
    · rw [hsame]
      exact h.held

theorem Queued.drain (h : Queued arrivals r) (p : Decimal) :
    Queued arrivals (r.drainTriggered p).1 where
  filed := fun side k x hx => h.filed side k x ((bucket_drain r p side k).subset hx)
  held := by
    have hless : (r.drainTriggered p).1.orders.map (·.id) <+~ r.orders.map (·.id) := by
      have hids := ((drainTriggered_orders r p).map (·.id)).symm.subperm
      rw [List.map_append] at hids
      exact (List.sublist_append_right _ _).subperm.trans hids
    exact hless.trans h.held

theorem insertedIds_concat (calls : List StopCall) (c : StopCall) :
    insertedIds (calls ++ [c]) = insertedIds calls ++ insertedIds [c] :=
  List.filterMap_append

/-- Every call keeps the orders in their buckets. -/
theorem Queued.call (h : Queued arrivals r) (c : StopCall) :
    Queued (arrivals ++ insertedIds [c]) (r.call c) := by
  have hstay : arrivals <+ arrivals ++ insertedIds [c] := List.sublist_append_left _ _
  cases c with
  | insert order =>
    unfold StopRegistry.call
    dsimp only
    split
    · next hinsert => exact h.insert hinsert
    · exact h.mono hstay
  | cancel id => exact (h.cancel id).mono hstay
  | drainTriggered p => exact (h.drain p).mono hstay

/-! ## Turns -/

/-- Inserting keeps the turns. -/
theorem KeepsTurns.insert (h : KeepsTurns arrivals r) (hq : Queued arrivals r)
    (hinsert : r.insert o = .ok r') : KeepsTurns (arrivals ++ [o.id]) r' := by
  obtain ⟨price, _, hbucket⟩ := bucket_insert hinsert
  intro side k
  rw [hbucket]
  split_ifs
  · exact (h side k).concat (fun x hx => hq.known hx) o
  · exact (h side k).mono (List.sublist_append_left _ _)

/-- A cancel keeps the turns only of a stop that is near the end of its bucket. -/
theorem keepsTurns_cancel_iff (hq : Queued arrivals r) (hnodup : arrivals.Nodup)
    (h : KeepsTurns arrivals r) (id : Uuid) :
    KeepsTurns arrivals (r.cancel id).1 ↔ r.NearEnd id := by
  rcases bucket_cancel r id with ⟨hsame, hnone⟩ | ⟨s, price, before, o, behind, hid, hsplit, hafter⟩
  · rw [hsame]
    refine iff_of_true h ?_
    intro side k before o behind hsplit hid
    refine absurd hid (hnone side k o ?_)
    rw [hsplit]
    exact List.mem_append_right _ List.mem_cons_self
  · have hturn := h s price
    rw [hsplit] at hturn
    have hlast := Queues.inTurn_lastFirst_iff hnodup hturn
    have hmem : o ∈ r.bucket s price := by
      rw [hsplit]
      exact List.mem_append_right _ List.mem_cons_self
    constructor
    · intro hkept side k before' o' behind' hsplit' hid'
      have hnear : behind.length ≤ 1 := by
        have hbucket := hkept s price
        rw [hafter, if_pos ⟨rfl, rfl⟩] at hbucket
        exact hlast.mp hbucket
      have hmem' : o' ∈ r.bucket side k := by
        rw [hsplit']
        exact List.mem_append_right _ List.mem_cons_self
      -- the id is in one bucket only, and there only once
      have hsame : o' = o := hq.eq_of_id_eq hnodup (mem_orders.mpr ⟨side, k, hmem'⟩)
        (mem_orders.mpr ⟨s, price, hmem⟩) (hid'.trans hid.symm)
      subst hsame
      obtain ⟨hside, hprice⟩ := hq.filed side k o' hmem'
      obtain ⟨hside', hprice'⟩ := hq.filed s price o' hmem
      have hs : side = s := hside.symm.trans hside'
      have hk : k = price := Option.some.inj (hprice.symm.trans hprice')
      have honce := hturn.nodup hnodup
      rw [hs, hk, hsplit] at hsplit'
      rw [List.nodup_middle, List.nodup_cons, List.mem_append, not_or] at honce
      obtain ⟨_, _, hbehind⟩ := (List.append_cons_inj_of_notMem honce.1.1 honce.1.2).mp hsplit'
      rw [← hbehind]
      exact hnear
    · intro hnear side k
      rw [hafter]
      split_ifs
      · exact hlast.mpr (hnear s price before o behind hsplit hid)
      · exact h side k

theorem KeepsTurns.drain (h : KeepsTurns arrivals r) (p : Decimal) :
    KeepsTurns arrivals (r.drainTriggered p).1 :=
  fun side k => (h side k).sublist (bucket_drain r p side k)

/-- A call keeps the turns if it is not a cancel far from the end of a bucket. -/
theorem KeepsTurns.call (h : KeepsTurns arrivals r) (hq : Queued arrivals r)
    (hnodup : arrivals.Nodup) {c : StopCall} (hnear : ∀ id, c = .cancel id → r.NearEnd id) :
    KeepsTurns (arrivals ++ insertedIds [c]) (r.call c) := by
  have hstay : ∀ {r' : StopRegistry}, KeepsTurns arrivals r' →
      KeepsTurns (arrivals ++ insertedIds [c]) r' := fun hturns side k =>
    (hturns side k).mono (List.sublist_append_left _ _)
  cases c with
  | insert order =>
    unfold StopRegistry.call
    dsimp only
    split
    · next hinsert => exact h.insert hq hinsert
    · exact hstay h
  | cancel id => exact hstay ((keepsTurns_cancel_iff hq hnodup h id).mpr (hnear id rfl))
  | drainTriggered p => exact hstay (h.drain p)

/-- A drain at any price is in insertion order exactly if every bucket is. -/
theorem keepsTurns_iff_drains (hq : Queued arrivals r) :
    KeepsTurns arrivals r ↔ ∀ p, InInsertionOrder arrivals (r.drainTriggered p).2 := by
  constructor
  · intro h p
    have hkeys : ∀ side (keep : Decimal → Bool),
        (((r.buckets side).keys.filter keep).flatMap (r.bucket side)).Pairwise fun a a' =>
          a.side = a'.side → a.stopPrice = a'.stopPrice → [a.id, a'.id] <+ arrivals := by
      intro side keep
      apply List.pairwise_flatMap.mpr
      constructor
      · intro k _
        exact List.Pairwise.imp (fun hpair _ _ => hpair) (h side k)
      · -- stops of different buckets have different stop prices
        apply List.Pairwise.imp _ ((r.buckets side).keys_sorted.filter _)
        intro k k' hlt a ha a' ha' _ hprice
        rw [(hq.filed side k a ha).2, (hq.filed side k' a' ha').2] at hprice
        exact absurd (Option.some.inj hprice) hlt.ne
    unfold InInsertionOrder
    rw [drainTriggered_snd, List.pairwise_map]
    refine List.pairwise_append.mpr ⟨hkeys .buy _, hkeys .sell _, ?_⟩
    intro a ha a' ha' hside
    obtain ⟨k, _, hbuy⟩ := List.mem_flatMap.mp ha
    obtain ⟨k', _, hsell⟩ := List.mem_flatMap.mp ha'
    have hbuySide : a.side = .buy := (hq.filed .buy k a hbuy).1
    have hsellSide : a'.side = .sell := (hq.filed .sell k' a' hsell).1
    have hsame : Side.buy = Side.sell := hbuySide.symm.trans (Eq.trans hside hsellSide)
    cases hsame
  · intro h side price
    -- the drain at the stop price returns the whole bucket
    have hwhole : r.bucket side price <+ r.hitBy price := by
      by_cases hkey : price ∈ (r.buckets side).keys
      · have hbucket : ∀ keep : Decimal → Bool, keep price = true →
            r.bucket side price <+
              ((r.buckets side).keys.filter keep).flatMap (r.bucket side) := by
          intro keep hkeep
          rw [List.flatMap_def]
          apply List.sublist_flatten_of_mem
          exact List.mem_map_of_mem (List.mem_filter.mpr ⟨hkey, hkeep⟩)
        cases side with
        | buy => exact (hbucket _ (by simp)).trans (List.sublist_append_left _ _)
        | sell => exact (hbucket _ (by simp)).trans (List.sublist_append_right _ _)
      · have hnone : (r.buckets side).find? price = none := by
          rw [OrdMap.mem_keys] at hkey
          exact Option.eq_none_iff_forall_ne_some.mpr fun q hq => hkey ⟨q, hq⟩
        rw [bucket, OrdMap.queueAt, hnone]
        exact List.nil_sublist _
    have hdrained := h price
    unfold InInsertionOrder at hdrained
    rw [drainTriggered_snd, List.pairwise_map] at hdrained
    apply List.Pairwise.imp_of_mem _ (hdrained.sublist hwhole)
    intro a a' ha ha' hpair
    obtain ⟨hside, hprice⟩ := hq.filed side price a ha
    obtain ⟨hside', hprice'⟩ := hq.filed side price a' ha'
    exact hpair (hside.trans hside'.symm) (hprice.trans hprice'.symm)

/-! ## Runs -/

theorem runCalls_concat (r : StopRegistry) (calls : List StopCall) (c : StopCall) :
    r.runCalls (calls ++ [c]) = (r.runCalls calls).call c :=
  List.foldl_concat _ _ _ _

/-- Every call leaves each bucket a queue of stops that were inserted. -/
theorem queued_runCalls (calls : List StopCall) :
    Queued (insertedIds calls) (new.runCalls calls) := by
  induction calls using List.reverseRecOn with
  | nil => exact queued_new
  | append_singleton calls c ih =>
    rw [runCalls_concat, insertedIds_concat]
    exact ih.call c

/-- Turns are kept as long as a cancelled stop is last or the one before in its bucket. -/
theorem keepsTurns_runCalls {calls : List StopCall} (hnodup : (insertedIds calls).Nodup)
    (hnear : ∀ before id after, calls = before ++ .cancel id :: after →
      (new.runCalls before).NearEnd id) :
    KeepsTurns (insertedIds calls) (new.runCalls calls) := by
  induction calls using List.reverseRecOn with
  | nil => exact keepsTurns_new
  | append_singleton calls c ih =>
    rw [insertedIds_concat] at hnodup
    have hbefore : (insertedIds calls).Nodup := hnodup.sublist (List.sublist_append_left _ _)
    have hturns := ih hbefore fun before id after hsplit =>
      hnear before id (after ++ [c]) (by rw [hsplit, List.append_assoc, List.cons_append])
    rw [runCalls_concat, insertedIds_concat]
    apply hturns.call (queued_runCalls calls) hbefore
    intro id hcancel
    exact hnear calls id [] (by rw [hcancel])

end StopRegistry

open StopRegistry

/-- At every point of the run, a drain returns the stops of one side and stop price in the order in
which they were inserted. -/
def DrainsInOrder (calls : List StopCall) : Prop :=
  ∀ before after, calls = before ++ after → ∀ p,
    InInsertionOrder (insertedIds before) ((new.runCalls before).drainTriggered p).2

/-- A run of calls that insert orders with distinct ids drains in insertion order exactly if no
cancel takes a stop that has two others or more behind it in its bucket. -/
theorem drainsInOrder_iff {calls : List StopCall} (hfresh : (insertedIds calls).Nodup) :
    DrainsInOrder calls ↔ ∀ before id after, calls = before ++ .cancel id :: after →
      (new.runCalls before).NearEnd id := by
  have hnodup : ∀ before after, calls = before ++ after → (insertedIds before).Nodup := by
    intro before after hsplit
    have happend : insertedIds calls = insertedIds before ++ insertedIds after := by
      rw [hsplit]
      exact List.filterMap_append
    rw [happend] at hfresh
    exact hfresh.sublist (List.sublist_append_left _ _)
  constructor
  · -- before and after each cancel the bucket drains in order, so the cancel kept the turns
    intro h before id after hsplit
    have hafter : calls = (before ++ [.cancel id]) ++ after := by
      rw [hsplit, List.append_assoc, List.singleton_append]
    have hturns := (keepsTurns_iff_drains (queued_runCalls before)).mpr (h before _ hsplit)
    have hkept := (keepsTurns_iff_drains (queued_runCalls _)).mpr (h _ after hafter)
    rw [runCalls_concat, insertedIds_concat] at hkept
    have hsame : insertedIds before ++ insertedIds [.cancel id] = insertedIds before :=
      List.append_nil _
    rw [hsame] at hkept
    exact (keepsTurns_cancel_iff (queued_runCalls before) (hnodup before _ hsplit) hturns id).mp
      hkept
  · -- and if every cancel keeps them, so does the run
    intro hnear before after hsplit
    apply (keepsTurns_iff_drains (queued_runCalls before)).mp
    apply keepsTurns_runCalls (hnodup before after hsplit)
    intro before' id after' hsplit'
    exact hnear before' id (after' ++ after)
      (by rw [hsplit, hsplit', List.append_assoc, List.cons_append])

/-- A buy stop at 100. -/
def stopAtHundred (id : Uuid) : Order :=
  { limitOrder id 10 .buy 100 1 with
    orderType := .stopMarket
    price := none
    stopPrice := some 100 }

/-- Three stops at 100, of which the first one is cancelled. -/
def jumpedStop : List StopCall :=
  [.insert (stopAtHundred 1), .insert (stopAtHundred 2), .insert (stopAtHundred 3), .cancel 1]

/-- The third stop leaves the registry before the second one. -/
theorem third_stop_first :
    ((new.runCalls jumpedStop).drainTriggered 100).2 = [
      convertStop (stopAtHundred 3), convertStop (stopAtHundred 2)] ∧
    ¬ ∀ calls, (insertedIds calls).Nodup → DrainsInOrder calls := by
  have hdrain : ((new.runCalls jumpedStop).drainTriggered 100).2 = [
      convertStop (stopAtHundred 3), convertStop (stopAtHundred 2)] := by decide +kernel
  refine ⟨hdrain, ?_⟩
  intro hclaim
  have horder := hclaim jumpedStop (by decide) jumpedStop [] rfl 100
  rw [hdrain] at horder
  have hpair := (List.pairwise_cons.mp horder).1 _ List.mem_cons_self rfl rfl
  exact absurd hpair (by decide)

/-- The theorem on the run of these calls. -/
theorem drainsInOrder_jumpedStop :
    DrainsInOrder jumpedStop ↔ ∀ before id after, jumpedStop = before ++ .cancel id :: after →
      (new.runCalls before).NearEnd id :=
  drainsInOrder_iff (by decide)

end CryptoCex.Core
