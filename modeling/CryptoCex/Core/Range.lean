import CryptoCex.Core.Progress
import CryptoCex.Lib.CheckedSum
import Mathlib.Algebra.Order.Group.Int

/-!
# The range of decimals

An addition of decimals panics where the magnitude of the result exceeds `2⁹⁶ - 1`. Two functions
of the book add: `can_fully_fill` adds up the opposite levels until they cover the taker, and
`depth_levels` adds up the orders of each level. Here they are again with every addition checked;
`none` is the panic. Where they return they return the exact sums (`canFullyFill?_exact`,
`depthLevels?_exact`), and on a book of positive orders it is clear when they do: a fill-or-kill
order must walk no more than the range (`canFullyFill?_isSome_iff`), and no level that is published
may hold more (`depthLevels?_isSome_iff`).
-/

namespace CryptoCex.Core

open CheckedSum Loop

/-- The largest magnitude of a decimal: `2⁹⁶ - 1`, without digits after the point. -/
def maxDecimal : Decimal := (2 ^ 96 - 1) * 10 ^ 28

theorem maxDecimal_nonneg : 0 ≤ maxDecimal := by decide

namespace OrderBook

/-! ## Checked additions -/

/-- `queue.iter().map(|o| o.remaining).sum()` -/
def queueQty? (queue : List Order) : Option Decimal := sum? maxDecimal (queue.map (·.remaining))

def coversTaker? (taker : Order) (beyond : Decimal → Bool) :
    Decimal → List (Decimal × List Order) → Option Bool
  | _, [] => some false
  | available, (price, queue) :: rest =>
    if beyond price then some false
    else
      (queueQty? queue).bind fun qty =>
        (add? maxDecimal available qty).bind fun available =>
          if taker.remaining ≤ available then some true
          else coversTaker? taker beyond available rest

def canFullyFill? (b : OrderBook) (taker : Order) : Option Bool :=
  match taker.side with
  | .buy => coversTaker? taker
      (fun price => taker.price.any fun limit => price > limit) 0 b.asks.entries
  | .sell => coversTaker? taker
      (fun price => taker.price.any fun limit => price < limit) 0 b.bids.entries.reverse

def preCheck? (b : OrderBook) (taker : Order) : Option (Option EngineEvent) :=
  match taker.orderType with
  | .fok => (b.canFullyFill? taker).map fun fillable =>
      if fillable then none else some (.cancelled taker.id .fokUnfilled)
  | .postOnly => some
      (if b.wouldCrossPostOnly taker then some (.cancelled taker.id .postOnlyCrossed) else none)
  | _ => some none

def matchOrder? [Rounding] (fuel : ℕ) (b : OrderBook) (taker : Order) :
    Option (Option (OrderBook × List EngineEvent)) :=
  (b.preCheck? taker).map fun reject => match reject with
    | some reject => some (b, [reject])
    | none =>
      if taker.orderType.isStop then some (b.registerStopOrder taker)
      else loop (cascadeTurn fuel) fuel (b.enterCascade taker)

/-- The totals of some levels. -/
def levelTotals? : List (Decimal × List Order) → Option (List (Decimal × Decimal))
  | [] => some []
  | (price, queue) :: rest =>
    (queueQty? queue).bind fun qty => (levelTotals? rest).map fun totals => (price, qty) :: totals

def depthLevels? (b : OrderBook) (depth : ℕ) : Option BookDepth :=
  (levelTotals? (b.bids.entries.reverse.take depth)).bind fun bids =>
    (levelTotals? (b.asks.entries.take depth)).map fun asks => {
      bids := bids.filter fun level => 0 < level.2
      asks := asks.filter fun level => 0 < level.2 }

/-! ## What returns is exact -/

variable {b : OrderBook} {taker : Order} {beyond : Decimal → Bool} {available : Decimal}
  {levels : List (Decimal × List Order)}

theorem queueQty?_exact {queue : List Order} {qty : Decimal} (h : queueQty? queue = some qty) :
    queueQty queue = qty :=
  (queueQty_eq queue).trans (sum?_exact h)

/-- The checked walk over the levels, if it returns, is the walk. -/
theorem coversTaker?_exact {r : Bool}
    (h : coversTaker? taker beyond available levels = some r) :
    coversTaker taker beyond available levels = r := by
  induction levels generalizing available with
  | nil =>
    cases h
    rfl
  | cons level rest ih =>
    obtain ⟨price, queue⟩ := level
    unfold coversTaker? at h
    unfold coversTaker
    by_cases hbeyond : beyond price = true
    · rw [if_pos hbeyond] at h ⊢
      exact Option.some.inj h
    -- this level is added before the sum is compared
    · rw [if_neg hbeyond] at h ⊢
      obtain ⟨qty, hqty, h⟩ := Option.bind_eq_some_iff.mp h
      obtain ⟨sum, hsum, h⟩ := Option.bind_eq_some_iff.mp h
      obtain ⟨_, rfl⟩ := add?_eq_some_iff.mp hsum
      rw [queueQty?_exact hqty, Decimal.add_exact]
      dsimp only
      split_ifs at h ⊢ with hcovered
      · exact Option.some.inj h
      · exact ih h

/-- The same for `can_fully_fill`. -/
theorem canFullyFill?_exact {r : Bool} (h : b.canFullyFill? taker = some r) :
    b.canFullyFill taker = r := by
  unfold canFullyFill? at h
  unfold canFullyFill
  cases hside : taker.side with
  | buy =>
    rw [hside] at h
    exact coversTaker?_exact h
  | sell =>
    rw [hside] at h
    exact coversTaker?_exact h

theorem preCheck?_exact {r : Option EngineEvent} (h : b.preCheck? taker = some r) :
    b.preCheck taker = r := by
  unfold preCheck? at h
  unfold preCheck
  cases htype : taker.orderType <;> rw [htype] at h <;> dsimp only at h ⊢
  case fok =>
    obtain ⟨fillable, hfillable, rfl⟩ := Option.map_eq_some_iff.mp h
    rw [canFullyFill?_exact hfillable]
  all_goals exact Option.some.inj h

/-- A checked call that returns does what the call does. -/
theorem matchOrder?_exact {fuel : ℕ} {r : Option (OrderBook × List EngineEvent)}
    (h : b.matchOrder? fuel taker = some r) : b.matchOrder fuel taker = r := by
  obtain ⟨reject, hreject, rfl⟩ := Option.map_eq_some_iff.mp h
  have hcheck := preCheck?_exact hreject
  subst hcheck
  unfold matchOrder
  cases b.preCheck taker with
  | none => rfl
  | some reject => rfl

theorem levelTotals?_exact {totals : List (Decimal × Decimal)}
    (h : levelTotals? levels = some totals) :
    levels.map (fun e => (e.1, queueQty e.2)) = totals := by
  induction levels generalizing totals with
  | nil =>
    cases h
    rfl
  | cons level rest ih =>
    obtain ⟨qty, hqty, hrest⟩ := Option.bind_eq_some_iff.mp h
    obtain ⟨totals', htotals, rfl⟩ := Option.map_eq_some_iff.mp hrest
    rw [List.map_cons, ih htotals, queueQty?_exact hqty]

/-- The depth that is shown without a panic is the depth. -/
theorem depthLevels?_exact {depth : ℕ} {d : BookDepth} (h : b.depthLevels? depth = some d) :
    b.depthLevels depth = d := by
  obtain ⟨bids, hbids, h⟩ := Option.bind_eq_some_iff.mp h
  obtain ⟨asks, hasks, rfl⟩ := Option.map_eq_some_iff.mp h
  unfold depthLevels
  rw [levelTotals?_exact hbids, levelTotals?_exact hasks]

/-! ## When the sums return -/

/-- What the orders of some levels have left. -/
def levelsQty (levels : List (Decimal × List Order)) : Decimal :=
  (levels.map fun e => queueQty e.2).sum

/-- Every order in the levels has something left, or at least nothing negative. -/
def NonnegLevels (levels : List (Decimal × List Order)) : Prop :=
  ∀ e ∈ levels, ∀ o ∈ e.2, 0 ≤ o.remaining

/-- The opposite levels that the taker's limit accepts, best first. -/
def acceptable (b : OrderBook) (taker : Order) : List (Decimal × List Order) :=
  match taker.side with
  | .buy => b.asks.entries.takeWhile fun e => !taker.price.any fun limit => e.1 > limit
  | .sell => b.bids.entries.reverse.takeWhile fun e => !taker.price.any fun limit => e.1 < limit

/-- What is added up level by level, until it covers the quantity, is in range. -/
def WalkFits (quantity available : Decimal) (levels : List (Decimal × List Order)) : Prop :=
  ∀ n < levels.length, available + levelsQty (levels.take n) < quantity →
    available + levelsQty (levels.take (n + 1)) ≤ maxDecimal

instance (quantity available : Decimal) (levels : List (Decimal × List Order)) :
    Decidable (WalkFits quantity available levels) :=
  inferInstanceAs (Decidable (∀ n < levels.length, _ → _))

theorem levelsQty_cons (price : Decimal) (queue : List Order)
    (rest : List (Decimal × List Order)) :
    levelsQty ((price, queue) :: rest) = queueQty queue + levelsQty rest := by
  simp [levelsQty]

theorem queueQty_nonneg {queue : List Order} (h : ∀ o ∈ queue, 0 ≤ o.remaining) :
    0 ≤ queueQty queue := by
  rw [queueQty_eq]
  apply List.sum_nonneg
  intro x hx
  obtain ⟨o, ho, rfl⟩ := List.mem_map.mp hx
  exact h o ho

theorem NonnegLevels.levelsQty_take (h : NonnegLevels levels) (n : ℕ) :
    0 ≤ levelsQty (levels.take n) := by
  apply List.sum_nonneg
  intro x hx
  obtain ⟨e, he, rfl⟩ := List.mem_map.mp hx
  exact queueQty_nonneg (h e (List.mem_of_mem_take he))

/-- A level of nonnegative quantities is added up if its total is in range. -/
theorem queueQty?_eq {queue : List Order} (h : ∀ o ∈ queue, 0 ≤ o.remaining) :
    queueQty? queue = if queueQty queue ≤ maxDecimal then some (queueQty queue) else none := by
  rw [queueQty_eq]
  apply sum?_eq maxDecimal_nonneg
  intro x hx
  obtain ⟨o, ho, rfl⟩ := List.mem_map.mp hx
  exact h o ho

/-- The walk adds the first level, and goes on if that is not enough. -/
theorem walkFits_cons {quantity : Decimal} {price : Decimal} {queue : List Order}
    {rest : List (Decimal × List Order)} (hnonneg : NonnegLevels rest)
    (hopen : available < quantity) :
    WalkFits quantity available ((price, queue) :: rest) ↔
      available + queueQty queue ≤ maxDecimal ∧
        (available + queueQty queue < quantity →
          WalkFits quantity (available + queueQty queue) rest) := by
  -- the first `n + 1` levels are the head and the first `n` of the rest
  have hshift : ∀ n, available + levelsQty (((price, queue) :: rest).take (n + 1)) =
      available + queueQty queue + levelsQty (rest.take n) := by
    intro n
    rw [List.take_succ_cons, levelsQty_cons, add_assoc]
  constructor
  · intro h
    constructor
    · have hfirst := h 0 (by simp) (by simpa [levelsQty] using hopen)
      rw [hshift] at hfirst
      simpa [levelsQty] using hfirst
    · intro _ n hn hlt
      have hnext := h (n + 1) (by simpa using hn) (by rwa [hshift])
      rwa [hshift] at hnext
  · rintro ⟨hfirst, hrest⟩ n hn hlt
    cases n with
    | zero =>
      rw [hshift]
      simpa [levelsQty] using hfirst
    | succ n =>
      rw [hshift] at hlt ⊢
      -- the levels past the head add nothing negative, so the walk was still open after it
      have hpast := hnonneg.levelsQty_take n
      exact hrest (by lia) n (by simpa using hn) hlt

/-- The walk returns exactly if it stays in range. -/
theorem coversTaker?_isSome_iff (hnonneg : NonnegLevels levels) (havailable : 0 ≤ available)
    (hopen : available < taker.remaining) :
    (coversTaker? taker beyond available levels).isSome = true ↔
      WalkFits taker.remaining available (levels.takeWhile fun e => !beyond e.1) := by
  induction levels generalizing available with
  | nil => simp [coversTaker?, WalkFits]
  | cons level rest ih =>
    obtain ⟨price, queue⟩ := level
    have hqueue : ∀ o ∈ queue, 0 ≤ o.remaining := hnonneg (price, queue) List.mem_cons_self
    have hrest : NonnegLevels rest := fun e he => hnonneg e (List.mem_cons_of_mem _ he)
    have hwhile : NonnegLevels (rest.takeWhile fun e => !beyond e.1) := fun e he =>
      hrest e ((List.takeWhile_sublist _).subset he)
    have hqty := queueQty_nonneg hqueue
    unfold coversTaker?
    -- the walk ends at the first price that the limit excludes, and so does `takeWhile`
    by_cases hbeyond : beyond price = true
    · rw [if_pos hbeyond, List.takeWhile_cons_of_neg (by simp [hbeyond])]
      simp [WalkFits]
    · rw [if_neg hbeyond, List.takeWhile_cons_of_pos (by simpa using hbeyond),
        walkFits_cons hwhile hopen, queueQty?_eq hqueue]
      by_cases hfits : available + queueQty queue ≤ maxDecimal
      · rw [if_pos (by lia), Option.bind_some, add?_eq havailable hqty, if_pos hfits,
          Option.bind_some]
        split_ifs with hcovered
        · simp [hfits, not_lt.mpr hcovered]
        · rw [ih hrest (by lia) (by lia)]
          simp [hfits, not_le.mp hcovered]
      · -- the level alone is out of range, or together with what was added before
        have hnone : ((if queueQty queue ≤ maxDecimal then some (queueQty queue) else none).bind
            fun qty => add? maxDecimal available qty) = none := by
          split_ifs
          · rw [Option.bind_some, add?_eq havailable hqty, if_neg hfits]
          · rfl
        rw [← Option.bind_assoc, hnone, Option.bind_none]
        simp [hfits]

/-- The levels are shown exactly when each total is in range. -/
theorem levelTotals?_isSome_iff (hnonneg : NonnegLevels levels) :
    (levelTotals? levels).isSome = true ↔ ∀ e ∈ levels, queueQty e.2 ≤ maxDecimal := by
  induction levels with
  | nil => simp [levelTotals?]
  | cons level rest ih =>
    obtain ⟨price, queue⟩ := level
    have hqueue : ∀ o ∈ queue, 0 ≤ o.remaining := hnonneg (price, queue) List.mem_cons_self
    have hrest : NonnegLevels rest := fun e he => hnonneg e (List.mem_cons_of_mem _ he)
    rw [levelTotals?, queueQty?_eq hqueue, List.forall_mem_cons, ← ih hrest]
    split_ifs with hfits
    · simp [hfits]
    · simp [hfits]

/-! ## Books of positive orders -/

/-- The levels of a book of sized orders have nonnegative totals. -/
theorem All.nonneg (hb : b.All Order.Sized) (side : Side) :
    NonnegLevels (b.levels side).entries := by
  intro e he o ho
  have hqueue : b.queue side e.1 = e.2 := queue_eq_of_find? (OrdMap.find?_eq_some.mpr he)
  rw [← hqueue] at ho
  exact (hb.all o (mem_pool_of_mem_queue ho)).positive.le

/-- The check of a fill-or-kill order returns exactly if the levels it walks are in range. -/
theorem canFullyFill?_isSome_iff (hb : b.All Order.Sized) (htaker : taker.Sized) :
    (b.canFullyFill? taker).isSome = true ↔
      WalkFits taker.remaining 0 (b.acceptable taker) := by
  unfold canFullyFill? acceptable
  cases hside : taker.side with
  | buy => exact coversTaker?_isSome_iff (hb.nonneg .sell) (le_refl 0) htaker.positive
  | sell =>
    have hnonneg : NonnegLevels b.bids.entries.reverse := fun e he =>
      hb.nonneg .buy e (List.mem_reverse.mp he)
    exact coversTaker?_isSome_iff hnonneg (le_refl 0) htaker.positive

/-- The pre-check panics only in the walk of a fill-or-kill order. -/
theorem preCheck?_isSome_iff (hb : b.All Order.Sized) (htaker : taker.Sized) :
    (b.preCheck? taker).isSome = true ↔
      (taker.orderType = .fok → WalkFits taker.remaining 0 (b.acceptable taker)) := by
  rw [← canFullyFill?_isSome_iff hb htaker]
  unfold preCheck?
  cases taker.orderType <;> simp

/-- The depth returns exactly if none of the levels it shows is out of range. -/
theorem depthLevels?_isSome_iff (hb : b.All Order.Sized) (depth : ℕ) :
    (b.depthLevels? depth).isSome = true ↔
      (∀ e ∈ b.bids.entries.reverse.take depth, queueQty e.2 ≤ maxDecimal) ∧
        ∀ e ∈ b.asks.entries.take depth, queueQty e.2 ≤ maxDecimal := by
  have hbids : NonnegLevels (b.bids.entries.reverse.take depth) := fun e he =>
    hb.nonneg .buy e (List.mem_reverse.mp (List.mem_of_mem_take he))
  have hasks : NonnegLevels (b.asks.entries.take depth) := fun e he =>
    hb.nonneg .sell e (List.mem_of_mem_take he)
  rw [← levelTotals?_isSome_iff hbids, ← levelTotals?_isSome_iff hasks]
  unfold depthLevels?
  cases levelTotals? (b.bids.entries.reverse.take depth) with
  | none => simp
  | some bids => simp

end OrderBook

end CryptoCex.Core
