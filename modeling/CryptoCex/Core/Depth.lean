import CryptoCex.Core.Reload
import Mathlib.Algebra.Order.Group.Int

/-!
# The published depth

`depth_levels` publishes the total remaining quantity of each level. The total counts all of an
iceberg, not only its visible slice: it is the quantity of the orders without a display quantity
(the same in two books that differ in nothing but what their icebergs have left) and the quantity
that the icebergs of the level have left (`queueQty_split`). So two such books show the same depth
exactly when the icebergs of each level have the same total left (`depthLevels_eq_iff`).
-/

namespace CryptoCex.Core

open OrderBook (queueQty)

/-- An order with a display quantity, without what it has left; any other order as it is. -/
def Order.conceal (o : Order) : Order :=
  match o.displayQty with
  | none => o
  | some _ => o.withRemaining 0

/-- The quantity that the orders with a display quantity have left. -/
def icebergQty (queue : List Order) : Decimal :=
  queueQty (queue.filter fun o => o.displayQty.isSome)

/-- A level shows what its plain orders have left, and the rest of the icebergs. -/
theorem queueQty_split (queue : List Order) :
    queueQty queue = queueQty (queue.map Order.conceal) + icebergQty queue := by
  unfold icebergQty
  simp only [OrderBook.queueQty_eq]
  induction queue with
  | nil => rfl
  | cons o queue ih =>
    unfold Order.conceal at ih ⊢
    cases hd : o.displayQty with
    | none =>
      rw [List.filter_cons_of_neg (by simp [hd])]
      simp only [List.map_cons, List.sum_cons, hd, ih]
      exact (add_assoc _ _ _).symm
    | some d =>
      rw [List.filter_cons_of_pos (by simp [hd])]
      simp only [List.map_cons, List.sum_cons, hd, ih, Order.remaining_withRemaining]
      lia

/-- Lists are equal if they agree to every length. -/
theorem eq_of_take_eq {α : Type*} {l l' : List α} (h : ∀ n, l.take n = l'.take n) : l = l' := by
  have hlong := h (max l.length l'.length)
  rwa [List.take_of_length_le (le_max_left _ _), List.take_of_length_le (le_max_right _ _)]
    at hlong

namespace OrderBook

variable {b b₁ b₂ : OrderBook}

/-- The book without what its orders with a display quantity have left. -/
def conceal (b : OrderBook) : OrderBook where
  bids := b.bids.mapValues fun queue => queue.map Order.conceal
  asks := b.asks.mapValues fun queue => queue.map Order.conceal
  orderIndex := b.orderIndex
  stops := {
    buyStops := b.stops.buyStops.mapValues fun bucket => bucket.map Order.conceal
    sellStops := b.stops.sellStops.mapValues fun bucket => bucket.map Order.conceal }
  ocoLinks := b.ocoLinks

theorem levels_conceal (b : OrderBook) (side : Side) :
    b.conceal.levels side = (b.levels side).mapValues fun queue => queue.map Order.conceal := by
  cases side <;> rfl

/-- The total remaining quantity of each level. -/
def totals (b : OrderBook) (side : Side) : OrdMap Decimal Decimal :=
  (b.levels side).mapValues queueQty

/-- Every level of a consistent book has a quantity. -/
theorem Consistent.queueQty_pos (hb : b.Consistent) {side : Side} {price : Decimal}
    {queue : List Order} (h : (b.levels side).find? price = some queue) : 0 < queueQty queue := by
  have hpos : ∀ o ∈ queue, 0 < o.remaining := by
    intro o ho
    apply hb.positive
    rw [mem_restingPool]
    refine ⟨side, price, ?_⟩
    rwa [queue_eq_of_find? h]
  rw [queueQty_eq]
  apply List.sum_pos
  · intro x hx
    obtain ⟨o, ho, rfl⟩ := List.mem_map.mp hx
    exact hpos o ho
  · rw [ne_eq, List.map_eq_nil_iff]
    exact hb.noEmpty side price queue h

/-- The depth of a consistent book is what its totals say: no level drops out. -/
theorem Consistent.depthLevels_eq (hb : b.Consistent) (depth : ℕ) :
    b.depthLevels depth = {
      bids := (b.totals .buy).entries.reverse.take depth
      asks := (b.totals .sell).entries.take depth } := by
  -- every queue holds something, so the filter drops no level
  have hkeep : ∀ side, ∀ e ∈ (b.totals side).entries, 0 < e.2 := by
    intro side e he
    have hfind := OrdMap.find?_eq_some.mpr he
    rw [totals, OrdMap.find?_mapValues, Option.map_eq_some_iff] at hfind
    obtain ⟨queue, hqueue, htotal⟩ := hfind
    rw [← htotal]
    exact hb.queueQty_pos hqueue
  have hbids : ∀ e ∈ (b.totals .buy).entries.reverse.take depth, 0 < e.2 := fun e he =>
    hkeep .buy e (List.mem_reverse.mp (List.mem_of_mem_take he))
  have hasks : ∀ e ∈ (b.totals .sell).entries.take depth, 0 < e.2 := fun e he =>
    hkeep .sell e (List.mem_of_mem_take he)
  unfold depthLevels
  rw [List.map_take, List.map_take, List.map_reverse]
  congr 1
  · apply List.filter_eq_self.mpr
    intro e he
    exact decide_eq_true (hbids e he)
  · apply List.filter_eq_self.mpr
    intro e he
    exact decide_eq_true (hasks e he)

/-- The depth shows the totals of all levels, and nothing else. -/
theorem depthLevels_eq_iff_totals (h₁ : b₁.Consistent) (h₂ : b₂.Consistent) :
    (∀ depth, b₁.depthLevels depth = b₂.depthLevels depth) ↔
      ∀ side, b₁.totals side = b₂.totals side := by
  constructor
  · intro h side
    have hsides : ∀ depth,
        (b₁.totals .buy).entries.reverse.take depth = (b₂.totals .buy).entries.reverse.take depth ∧
        (b₁.totals .sell).entries.take depth = (b₂.totals .sell).entries.take depth := by
      intro depth
      have hdepth := h depth
      rw [h₁.depthLevels_eq, h₂.depthLevels_eq, BookDepth.mk.injEq] at hdepth
      exact hdepth
    apply OrdMap.ext
    cases side with
    | buy => exact List.reverse_injective (eq_of_take_eq fun depth => (hsides depth).1)
    | sell => exact eq_of_take_eq fun depth => (hsides depth).2
  · intro h depth
    rw [h₁.depthLevels_eq, h₂.depthLevels_eq, h, h]

/-- In books that differ in what their icebergs have left, the totals are equal where the icebergs
have the same left. -/
theorem totals_eq_iff (hsame : b₁.conceal = b₂.conceal) :
    (∀ side, b₁.totals side = b₂.totals side) ↔
      ∀ side price, icebergQty (b₁.queue side price) = icebergQty (b₂.queue side price) := by
  apply forall_congr'
  intro side
  unfold totals
  rw [OrdMap.mapValues_eq_iff]
  apply forall_congr'
  intro price
  have hlevel : ((b₁.levels side).find? price).map (fun queue => queue.map Order.conceal) =
      ((b₂.levels side).find? price).map fun queue => queue.map Order.conceal := by
    rw [← OrdMap.find?_mapValues, ← OrdMap.find?_mapValues, ← levels_conceal, ← levels_conceal,
      hsame]
  unfold OrderBook.queue OrdMap.queueAt
  -- a level is in both books or in none
  cases hq₁ : (b₁.levels side).find? price with
  | none =>
    rw [hq₁] at hlevel
    rw [Option.map_eq_none_iff.mp hlevel.symm]
    simp
  | some q₁ =>
    rw [hq₁] at hlevel
    obtain ⟨q₂, hq₂, hmap⟩ := Option.map_eq_some_iff.mp hlevel.symm
    rw [hq₂, Option.map_some, Option.map_some, Option.some.injEq, Option.getD_some,
      Option.getD_some, queueQty_split q₁, queueQty_split q₂, hmap]
    exact add_right_inj _

/-- Two books that differ in what their icebergs have left show the same depth exactly when the
icebergs of each level have the same total left. -/
theorem depthLevels_eq_iff (h₁ : b₁.Consistent) (h₂ : b₂.Consistent)
    (hsame : b₁.conceal = b₂.conceal) :
    (∀ depth, b₁.depthLevels depth = b₂.depthLevels depth) ↔
      ∀ side price, icebergQty (b₁.queue side price) = icebergQty (b₂.queue side price) :=
  (depthLevels_eq_iff_totals h₁ h₂).trans (totals_eq_iff hsame)

end OrderBook

end CryptoCex.Core
