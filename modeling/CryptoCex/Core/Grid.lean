import CryptoCex.Core.Reload
import CryptoCex.Lib.Mantissa
import Mathlib.Data.Set.Basic
import Mathlib.Tactic.Zify

/-!
# Where the arithmetic of the engine is exact

`rust_decimal` rounds a sum or a difference only when it needs more than 96 bits at its scale. A
`Grid` is a set of decimals that never need more: their differences are exact, and nothing is
rounded below one of them. With exact arithmetic all decimals are one (`grid_univ`), and for a
mantissa of 96 bits the decimals of any one scale are (`grid_decimalsOf`), but not those of two
scales together.

A call on orders whose quantities are on a grid does what exact arithmetic does
(`matchOrder_grid`): the engine subtracts a quantity only from one that is at least as large, so
it stays on the grid.
-/

namespace CryptoCex.Core

open Loop OrderBook

open scoped List

/-- A set of decimals among which the arithmetic is exact. -/
structure Grid [Rounding] (D : Set Decimal) : Prop where
  round_sub : ∀ a ∈ D, ∀ b ∈ D, Rounding.round (a - b) = a - b
  sub_mem : ∀ a ∈ D, ∀ b ∈ D, b ≤ a → a - b ∈ D
  le_round : ∀ a ∈ D, ∀ x, a ≤ x → a ≤ Rounding.round x

/-- In exact arithmetic every decimal is on the grid. -/
theorem grid_univ : Grid Set.univ where
  round_sub := fun _ _ _ _ => rfl
  sub_mem := fun _ _ _ _ _ => Set.mem_univ _
  le_round := fun _ _ _ h => h

/-! ## Mantissas of 96 bits -/

/-- The largest mantissa. -/
def maxMantissa : ℕ := 2 ^ 96 - 1

/-- Rounding to a mantissa of 96 bits and at most 28 places, half to even. A value beyond the
range, where the operation panics, stands for itself rounded to whole numbers. -/
@[reducible] def Rounding.mantissa96 : Rounding := ⟨Mantissa.fitInt maxMantissa 28⟩

/-- The decimals of one scale, in units of `10 ^ k` of the last place there is. -/
def decimalsOf (k : ℕ) : Set Decimal := { x | ∃ m : ℕ, m ≤ maxMantissa ∧ x = m * 10 ^ k }

/-- A mantissa at the scale can be stored. -/
theorem storable_of_decimalsOf {k m : ℕ} (hk : k ≤ 28) (hm : m ≤ maxMantissa) {x : ℤ}
    (hx : |x| = m * 10 ^ k) : Mantissa.Storable maxMantissa 28 x.natAbs := by
  refine ⟨m, k, hm, hk, ?_⟩
  zify
  exact hx

/-- The decimals of one scale are a grid. -/
theorem grid_decimalsOf {k : ℕ} (hk : k ≤ 28) : @Grid Rounding.mantissa96 (decimalsOf k) := by
  refine @Grid.mk Rounding.mantissa96 _ ?_ ?_ ?_
  · rintro _ ⟨m, hm, rfl⟩ _ ⟨m', hm', rfl⟩
    -- the difference of two mantissas is one, up to its sign
    refine Mantissa.fitInt_eq_self (storable_of_decimalsOf (m := (m - m' : ℤ).natAbs) hk ?_ ?_)
    · omega
    · rw [← Int.sub_mul, abs_mul, abs_of_nonneg (by positivity : (0 : ℤ) ≤ 10 ^ k)]
      push_cast
      rfl
  · rintro _ ⟨m, hm, rfl⟩ _ ⟨m', hm', rfl⟩ hle
    have hle' : m' ≤ m := by
      have := le_of_mul_le_mul_right hle (by positivity)
      exact_mod_cast this
    refine ⟨m - m', by omega, ?_⟩
    push_cast [Nat.cast_sub hle']
    ring
  · rintro _ ⟨m, hm, rfl⟩ x hx
    refine Mantissa.le_fitInt (by decide) (by positivity) ?_ hx
    exact storable_of_decimalsOf hk hm (abs_of_nonneg (by positivity))

/-! ## Orders on a grid -/

/-- An order that has something left, with its quantities on the grid. -/
structure Order.OnGrid (D : Set Decimal) (o : Order) : Prop where
  positive : 0 < o.remaining
  remaining : o.remaining ∈ D
  display : ∀ d, o.displayQty = some d → d ∈ D

variable {D : Set Decimal}

theorem Order.OnGrid.withRemaining {o : Order} (h : o.OnGrid D) {r : Decimal} (hr : r ∈ D)
    (hpos : 0 < r) : (o.withRemaining r).OnGrid D :=
  ⟨hpos, hr, h.display⟩

theorem min_mem {a b : Decimal} (ha : a ∈ D) (hb : b ∈ D) : min a b ∈ D := by
  rcases min_choice a b with heq | heq
  · rwa [heq]
  · rwa [heq]

/-- The visible slice is on the grid. -/
theorem Order.OnGrid.effectiveQty {o : Order} (h : o.OnGrid D) : o.effectiveQty ∈ D := by
  unfold Order.effectiveQty
  cases hd : o.displayQty with
  | none => exact h.remaining
  | some d => exact min_mem (h.display d hd) h.remaining

/-- So is what is filled. -/
theorem fillOf_quantity_mem {taker m : Order} (htaker : taker.remaining ∈ D) (hm : m.OnGrid D)
    (price : Decimal) : (fillOf taker m price).quantity ∈ D :=
  min_mem htaker hm.effectiveQty

/-- The matching loop stands at orders on the grid. -/
structure MatchState.OnGrid (D : Set Decimal) (s : MatchState) : Prop where
  book : s.book.All (Order.OnGrid D)
  nonneg : 0 ≤ s.taker.remaining
  remaining : s.taker.remaining ∈ D
  display : ∀ d, s.taker.displayQty = some d → d ∈ D

theorem onGrid_enterLoop {b : OrderBook} {taker : Order} (hb : b.All (Order.OnGrid D))
    (ht : taker.OnGrid D) : (b.enterLoop taker).OnGrid D :=
  ⟨hb, ht.positive.le, ht.remaining, ht.display⟩

/-- The stops a pass triggers were on the grid. -/
theorem onGrid_drainAfter {b : OrderBook} (hb : b.All (Order.OnGrid D)) (last : Option Decimal) :
    (b.drainAfter last).1.All (Order.OnGrid D) ∧
      ∀ o ∈ (b.drainAfter last).2, o.OnGrid D := by
  refine ⟨(within_drainAfter b last).all hb, ?_⟩
  intro o ho
  rw [drainAfter_snd] at ho
  obtain ⟨stop, hstop, rfl⟩ := List.mem_map.mp ho
  have hmem : stop ∈ b.stopPool := by
    rw [stopPool_drainAfter b last]
    exact Multiset.mem_add.mpr (Or.inl hstop)
  obtain ⟨hpos, hleft, hdisplay⟩ := hb.all stop (mem_pool.mpr (Or.inr hmem))
  exact ⟨hpos, hleft, hdisplay⟩

/-- A taker that rests is on the grid. -/
theorem MatchState.OnGrid.finalizeTaker {s : MatchState} (hs : s.OnGrid D) :
    (s.book.finalizeTaker s.taker s.hadFills).1.All (Order.OnGrid D) := by
  have hspec := s.book.finalizeTaker_spec s.taker s.hadFills
  generalize s.book.finalizeTaker s.taker s.hadFills = final at hspec ⊢
  cases hspec with
  | filled => exact hs.book
  | cancelled => exact hs.book
  | rested hne =>
    exact hs.book.insertMaker ⟨lt_of_le_of_ne hs.nonneg (Ne.symm hne), hs.remaining, hs.display⟩

/-- What a pass leaves: the book, and the stops that enter the work queue. -/
theorem MatchState.OnGrid.afterLoop (hs : s.OnGrid D) (exit : MatchExit) :
    (OrderBook.afterLoop s exit).1.All (Order.OnGrid D) ∧
      ∀ o ∈ (OrderBook.afterLoop s exit).2.2, o.OnGrid D := by
  cases exit with
  | takerConsumed => exact onGrid_drainAfter hs.book s.lastTradePrice
  | exhausted =>
    obtain ⟨hwithin, _⟩ := within_ite_maybeCancelOco (s.book.finalizeTaker s.taker s.hadFills).1
      s.taker.id (takerTerminal s.taker (s.book.finalizeTaker s.taker s.hadFills).2)
    exact onGrid_drainAfter (hwithin.all hs.finalizeTaker) s.lastTradePrice

/-- The cascade stands at orders on the grid. -/
structure CascadeState.OnGrid (D : Set Decimal) (c : CascadeState) : Prop where
  book : c.book.All (Order.OnGrid D)
  queue : ∀ o ∈ c.workQueue, o.OnGrid D

theorem onGrid_enterCascade {b : OrderBook} {taker : Order} (hb : b.All (Order.OnGrid D))
    (ht : taker.OnGrid D) : (b.enterCascade taker).OnGrid D := by
  refine ⟨hb, ?_⟩
  intro o ho
  rw [List.mem_singleton.mp ho]
  exact ht

/-- What the orders of each level have left together is on the grid. -/
def OrderBook.TotalsOnGrid (D : Set Decimal) (b : OrderBook) : Prop :=
  ∀ side price, ((b.queue side price).map (·.remaining)).sum ∈ D

section Turns

variable [Rounding] (hD : Grid D)

include hD

theorem Grid.sub {a b : Decimal} (ha : a ∈ D) (hb : b ∈ D) : Decimal.sub a b = a - b :=
  hD.round_sub a ha b hb

/-- So is zero. -/
theorem Grid.zero_mem {a : Decimal} (ha : a ∈ D) : (0 : Decimal) ∈ D := by
  have hself := hD.sub_mem a ha a ha (le_refl a)
  rwa [Int.sub_self] at hself

/-- A decimal of the grid is not rounded. -/
theorem Grid.round {a : Decimal} (ha : a ∈ D) : Rounding.round a = a := by
  have hsub := hD.round_sub a ha 0 (hD.zero_mem ha)
  rwa [Int.sub_zero] at hsub

variable {s : MatchState} {b : OrderBook} {taker m : Order} {price : Decimal} {rest : List Order}

/-! ## What a turn leaves on the grid -/

/-- The turns of exact arithmetic stay on the grid. -/
theorem TurnSpec.onGrid {t : Turn MatchState (MatchState × MatchExit)} (h : TurnSpec s t)
    (hs : s.OnGrid D) : (stateAfter t).OnGrid D := by
  have hzero : (0 : Decimal) ∈ D := hD.zero_mem hs.remaining
  cases h with
  | exhausted => exact hs
  | cancelTaker => exact ⟨hs.book, hs.nonneg, hs.remaining, hs.display⟩
  | cancelMaker hm =>
    exact ⟨(within_dropFront hm.level).all hs.book, hs.nonneg, hs.remaining, hs.display⟩
  -- every difference is of two numbers of the grid, the larger first
  | @decrementTaker price m rest hm _ _ hlt =>
    have hmaker := hs.book.all m hm.mem_pool
    have hleft := hD.sub_mem _ hmaker.remaining _ hs.remaining hlt.le
    have hkeep := hmaker.withRemaining hleft (Int.sub_pos_of_lt hlt)
    exact ⟨hs.book.shrinkFront hm.level hkeep (List.Perm.refl _), le_refl 0, hzero, hs.display⟩
  | @decrementMaker price m rest hm _ _ hgt =>
    have hmaker := hs.book.all m hm.mem_pool
    exact ⟨(within_dropFront hm.level).all hs.book, Int.sub_nonneg_of_le hgt.le,
      hD.sub_mem _ hs.remaining _ hmaker.remaining hgt.le, hs.display⟩
  | decrementBoth hm =>
    exact ⟨(within_dropFront hm.level).all hs.book, le_refl 0, hzero, hs.display⟩
  | @fillPart price m rest hm _ hpart =>
    have hmaker := hs.book.all m hm.mem_pool
    have hqty := fillOf_quantity_mem hs.remaining hmaker price
    have hle := fillOf_quantity_le_taker s.taker m price
    have hlt : (fillOf s.taker m price).quantity < m.remaining :=
      lt_of_le_of_ne (fillOf_quantity_le ..) (Ne.symm hpart)
    have hkeep := hmaker.withRemaining (hD.sub_mem _ hmaker.remaining _ hqty hlt.le)
      (Int.sub_pos_of_lt hlt)
    exact ⟨hs.book.shrinkFront hm.level hkeep (levelAfterFill_perm ..),
      Int.sub_nonneg_of_le hle, hD.sub_mem _ hs.remaining _ hqty hle, hs.display⟩
  -- the maker is gone and its sibling may be
  | @fillWhole price m rest hm _ _ =>
    have hqty := fillOf_quantity_mem hs.remaining (hs.book.all m hm.mem_pool) price
    have hle := fillOf_quantity_le_taker s.taker m price
    have hwithin := (within_maybeCancelOco _ m.id).trans (within_dropFront hm.level)
    exact ⟨hwithin.all hs.book, Int.sub_nonneg_of_le hle,
      hD.sub_mem _ hs.remaining _ hqty hle, hs.display⟩

/-! ## A turn is that of exact arithmetic -/

/-- Self-trade prevention subtracts the smaller quantity from the larger, which is exact. -/
theorem applyStp_grid (hm : Meets s price m rest) (hs : s.OnGrid D) :
    s.book.applyStp s.taker price (peekedOf m) =
      @applyStp Rounding.exact s.book s.taker price (peekedOf m) := by
  have hmaker := hs.book.all m hm.mem_pool
  have hdown := hD.sub hmaker.remaining hs.remaining
  have hleft := hD.sub hs.remaining hmaker.remaining
  unfold applyStp
  cases s.taker.stpMode with
  | cancelTaker => rfl
  | cancelMaker => rfl
  | decrement =>
    simp only [applyStpDecrement, decrementFrontMaker, hm.level, peekedOf, hdown, hleft,
      Decimal.sub_exact]
    rfl

/-- A fill is no larger than what is left of either order. -/
theorem applyFill_grid (hm : Meets s price m rest) (hs : s.OnGrid D) :
    s.applyFill price (peekedOf m) = @MatchState.applyFill Rounding.exact s price (peekedOf m) := by
  have hmaker := hs.book.all m hm.mem_pool
  have hqty : min s.taker.remaining m.effectiveQty ∈ D :=
    fillOf_quantity_mem hs.remaining hmaker price
  have htaker := hD.sub hs.remaining hqty
  have hleft := hD.sub hmaker.remaining hqty
  simp only [MatchState.applyFill, applyFillToMaker, hm.level, peekedOf, htaker, hleft,
    Decimal.sub_exact]
  rfl

/-- A turn of the loop is that of exact arithmetic. -/
theorem matchTurn_grid (hs : s.OnGrid D) : matchTurn s = @matchTurn Rounding.exact s := by
  unfold matchTurn
  by_cases hpos : 0 < s.taker.remaining
  swap
  · rw [if_neg hpos, if_neg hpos]
  rw [if_pos hpos, if_pos hpos]
  cases hbest : s.book.bestOppositePrice s.taker.side with
  | none => rfl
  | some price =>
    dsimp only
    by_cases hok : OrderBook.takerPriceSatisfied s.taker price = true
    swap
    · rw [if_neg hok, if_neg hok]
    rw [if_pos hok, if_pos hok]
    -- only the last two steps of a turn compute
    obtain ⟨m, rest, hlevel⟩ := bestOppositePrice_level hs.book.noEmpty hbest
    have hm : Meets s price m rest := ⟨hpos, hbest, hok, hlevel⟩
    rw [peekFrontMaker_eq hlevel]
    dsimp only
    rw [applyStp_grid hD hm hs, applyFill_grid hD hm hs]

/-! ## Passes -/

/-- A pass on the grid is that of exact arithmetic, and leaves orders on the grid. -/
theorem runMatchingLoop_grid (fuel : ℕ) (hb : b.All (Order.OnGrid D)) (ht : taker.OnGrid D) :
    b.runMatchingLoop fuel taker = @runMatchingLoop Rounding.exact fuel b taker ∧
      ∀ r, b.runMatchingLoop fuel taker = some r →
        r.1.All (Order.OnGrid D) ∧ ∀ o ∈ r.2.2, o.OnGrid D := by
  have hstart := onGrid_enterLoop hb ht
  have hturn : ∀ t u, t.OnGrid D → @matchTurn Rounding.exact t = some u →
      (stateAfter u).OnGrid D := fun t u ht hu =>
    (turnSpec_of_eq ht.book.noEmpty hu).onGrid hD ht
  have hloop : loop matchTurn fuel (b.enterLoop taker) =
      loop (@matchTurn Rounding.exact) fuel (b.enterLoop taker) :=
    loop_congr (MatchState.OnGrid D) hstart (fun t ht => matchTurn_grid hD ht)
      fun t t' ht hnext => hturn t _ ht hnext
  -- both loops take the same turns, so they end in the same state
  have heq : b.runMatchingLoop fuel taker = @runMatchingLoop Rounding.exact fuel b taker := by
    unfold runMatchingLoop
    rw [hloop]
  refine ⟨heq, ?_⟩
  intro r hr
  rw [heq] at hr
  unfold runMatchingLoop at hr
  cases hout : loop (@matchTurn Rounding.exact) fuel (b.enterLoop taker) with
  | none =>
    rw [hout] at hr
    cases hr
  -- and that state is on the grid
  | some out =>
    rw [hout] at hr
    cases hr
    have hleft : out.1.OnGrid D :=
      loop_invariant (MatchState.OnGrid D) (fun r => r.1.OnGrid D) hstart
        (fun t t' ht hnext => hturn t _ ht hnext) (fun t r ht hdone => hturn t _ ht hdone) hout
    exact hleft.afterLoop out.2

/-! ## The cascade -/

/-- So is a turn of the cascade. -/
theorem cascadeTurn_grid {fuel : ℕ} {c : CascadeState} (hc : c.OnGrid D) :
    cascadeTurn fuel c = @cascadeTurn Rounding.exact fuel c := by
  unfold cascadeTurn
  cases hqueue : c.workQueue with
  | nil => rfl
  | cons order rest =>
    dsimp only
    rw [(runMatchingLoop_grid hD fuel hc.book (hc.queue order (mem_workQueue_head hqueue))).1]

/-- And it leaves orders on the grid. -/
theorem CascadeStep.onGrid {fuel : ℕ} {c c' : CascadeState} (h : CascadeStep fuel c c')
    (hc : c.OnGrid D) : c'.OnGrid D := by
  cases h with
  | push hqueue hrun =>
    have hpass := runMatchingLoop_grid hD fuel hc.book
      (hc.queue _ (mem_workQueue_head hqueue))
    rw [← hpass.1] at hrun
    obtain ⟨hbook, htriggered⟩ := hpass.2 _ hrun
    refine ⟨hbook, ?_⟩
    intro o ho
    rcases List.mem_append.mp ho with ho | ho
    · exact htriggered o (List.mem_reverse.mp ho)
    · exact hc.queue o (mem_workQueue_tail hqueue ho)
  | cut hqueue hrun =>
    have hpass := runMatchingLoop_grid hD fuel hc.book
      (hc.queue _ (mem_workQueue_head hqueue))
    rw [← hpass.1] at hrun
    exact ⟨(hpass.2 _ hrun).1, fun o ho => hc.queue o (mem_workQueue_tail hqueue ho)⟩

/-! ## The check of a fill-or-kill order -/

theorem Grid.add_mem {a x c : Decimal} (hc : c ∈ D) (ha : a ∈ D) (hx : x ∈ D) (ha0 : 0 ≤ a)
    (hx0 : 0 ≤ x) (hle : a + x ≤ c) : a + x ∈ D := by
  -- a sum below a member is what two differences leave of it
  have hrest := hD.sub_mem _ (hD.sub_mem c hc x hx (by lia)) a ha (by lia)
  have hsum := hD.sub_mem c hc _ hrest (by lia)
  have heq : c - (c - x - a) = a + x := by lia
  rwa [heq] at hsum

/-- A sum that is beyond a member of the grid is not rounded below it. -/
theorem Grid.le_foldl {c : Decimal} (hc : c ∈ D) {xs : List Decimal} (hxs : ∀ x ∈ xs, 0 ≤ x)
    {a : Decimal} (ha : c ≤ a) : c ≤ xs.foldl Decimal.add a := by
  induction xs generalizing a with
  | nil => exact ha
  | cons x xs ih =>
    have hx : 0 ≤ x := hxs x List.mem_cons_self
    refine ih (fun y hy => hxs y (List.mem_cons_of_mem x hy)) ?_
    exact hD.le_round c hc _ (by lia)

/-- A sum up to a member of the grid is exact, and on the grid. -/
theorem Grid.foldl_eq {c : Decimal} (hc : c ∈ D) {xs : List Decimal}
    (hxs : ∀ x ∈ xs, 0 ≤ x ∧ x ∈ D) {a : Decimal} (ha : a ∈ D) (ha0 : 0 ≤ a)
    (hle : a + xs.sum ≤ c) : xs.foldl Decimal.add a = a + xs.sum ∧ a + xs.sum ∈ D := by
  induction xs generalizing a with
  | nil => simpa using ha
  | cons x xs ih =>
    obtain ⟨hx0, hx⟩ := hxs x List.mem_cons_self
    have hrest : ∀ y ∈ xs, 0 ≤ y ∧ y ∈ D := fun y hy => hxs y (List.mem_cons_of_mem x hy)
    have hnonneg : 0 ≤ xs.sum := List.sum_nonneg fun y hy => (hrest y hy).1
    rw [List.sum_cons] at hle ⊢
    have hmem := hD.add_mem hc ha hx ha0 hx0 (by lia)
    have hfirst : Decimal.add a x = a + x := hD.round hmem
    obtain ⟨hfold, hsum⟩ := ih hrest hmem (by lia) (by lia)
    rw [List.foldl_cons, hfirst, hfold, ← add_assoc]
    exact ⟨rfl, hsum⟩

/-- A sum is not rounded below a member of the grid. -/
theorem Grid.le_foldl_of_le {c : Decimal} (hc : c ∈ D) {xs : List Decimal}
    (hxs : ∀ x ∈ xs, 0 ≤ x ∧ x ∈ D) {a : Decimal} (ha : a ∈ D) (ha0 : 0 ≤ a)
    (hle : c ≤ a + xs.sum) : c ≤ xs.foldl Decimal.add a := by
  induction xs generalizing a with
  | nil => simpa using hle
  | cons x xs ih =>
    obtain ⟨hx0, hx⟩ := hxs x List.mem_cons_self
    have hrest : ∀ y ∈ xs, 0 ≤ y ∧ y ∈ D := fun y hy => hxs y (List.mem_cons_of_mem x hy)
    rw [List.sum_cons] at hle
    rw [List.foldl_cons]
    rcases le_total (a + x) c with hfits | hbeyond
    · have hmem := hD.add_mem hc ha hx ha0 hx0 hfits
      have hfirst : Decimal.add a x = a + x := hD.round hmem
      rw [hfirst]
      exact ih hrest hmem (by lia) (by lia)
    · exact hD.le_foldl hc (fun y hy => (hrest y hy).1) (hD.le_round c hc _ hbeyond)

/-- The levels before a fill-or-kill order cover it exactly if they do without rounding. -/
theorem coversTaker_grid (htaker : taker.OnGrid D) {beyond : Decimal → Bool}
    {levels : List (Decimal × List Order)} (hlevels : ∀ e ∈ levels, ∀ o ∈ e.2, o.OnGrid D)
    {available : Decimal} (hmem : available ∈ D) (h0 : 0 ≤ available)
    (hlt : available < taker.remaining) :
    coversTaker taker beyond available levels =
      @coversTaker Rounding.exact taker beyond available levels := by
  induction levels generalizing available with
  | nil => rfl
  | cons level rest ih =>
    obtain ⟨price, queue⟩ := level
    have hqueue : ∀ x ∈ queue.map (·.remaining), 0 ≤ x ∧ x ∈ D := by
      intro x hx
      obtain ⟨o, ho, rfl⟩ := List.mem_map.mp hx
      have honGrid := hlevels (price, queue) List.mem_cons_self o ho
      exact ⟨honGrid.positive.le, honGrid.remaining⟩
    have hrest : ∀ e ∈ rest, ∀ o ∈ e.2, o.OnGrid D := fun e he =>
      hlevels e (List.mem_cons_of_mem _ he)
    have hzero : (0 : Decimal) ∈ D := hD.zero_mem hmem
    have hexact : @queueQty Rounding.exact queue = (queue.map (·.remaining)).sum :=
      queueQty_eq queue
    have hpart : (queue.map (·.remaining)).sum ≤ taker.remaining →
        queueQty queue = (queue.map (·.remaining)).sum ∧
          (queue.map (·.remaining)).sum ∈ D := by
      intro hle
      have hsum := hD.foldl_eq htaker.remaining hqueue hzero (le_refl 0) (by lia)
      rwa [zero_add] at hsum
    unfold coversTaker
    cases hbeyond : beyond price with
    | true => rfl
    | false =>
      simp only [Decimal.add_exact, hexact]
      by_cases hcovers : taker.remaining ≤ available + (queue.map (·.remaining)).sum
      · -- the sum of the level may be rounded, but not below what the taker needs
        have hqty : taker.remaining ≤ available + queueQty queue := by
          rcases le_total (queue.map (·.remaining)).sum taker.remaining with hle | hge
          · rw [(hpart hle).1]
            exact hcovers
          · have hbeyond : taker.remaining ≤ queueQty queue :=
              hD.le_foldl_of_le htaker.remaining hqueue hzero (le_refl 0) (by rwa [zero_add])
            lia
        have hround : taker.remaining ≤ Decimal.add available (queueQty queue) :=
          hD.le_round _ htaker.remaining _ hqty
        rw [if_pos hround, if_pos hcovers]
      · obtain ⟨hqty, hsum⟩ := hpart (by lia)
        have hnonneg : 0 ≤ (queue.map (·.remaining)).sum :=
          List.sum_nonneg fun x hx => (hqueue x hx).1
        have hmem' := hD.add_mem htaker.remaining hmem hsum h0 hnonneg (by lia)
        have hadd : Decimal.add available (queueQty queue) =
            available + (queue.map (·.remaining)).sum := by
          rw [hqty]
          exact hD.round hmem'
        rw [hadd, if_neg hcovers, if_neg hcovers]
        exact ih hrest hmem' (by lia) (by lia)

/-- The pre-check rounds a sum only when it covers the order already. -/
theorem canFullyFill_grid (hb : b.All (Order.OnGrid D)) (ht : taker.OnGrid D) :
    b.canFullyFill taker = @canFullyFill Rounding.exact b taker := by
  have hentries : ∀ side, ∀ e ∈ (b.levels side).entries, ∀ o ∈ e.2, o.OnGrid D := by
    intro side e he o ho
    have hqueue : b.queue side e.1 = e.2 := queue_eq_of_find? (OrdMap.find?_eq_some.mpr he)
    rw [← hqueue] at ho
    exact hb.all o (mem_pool_of_mem_queue ho)
  have hzero : (0 : Decimal) ∈ D := hD.zero_mem ht.remaining
  unfold canFullyFill
  cases taker.side with
  | buy => exact coversTaker_grid hD ht (hentries .sell) hzero (le_refl 0) ht.positive
  | sell =>
    refine coversTaker_grid hD ht ?_ hzero (le_refl 0) ht.positive
    exact fun e he => hentries .buy e (List.mem_reverse.mp he)

/-! ## The published depth -/

/-- The depth is exact where the total of every level is on the grid, too. -/
theorem depthLevels_grid (hb : b.All (Order.OnGrid D)) (htotals : b.TotalsOnGrid D) (depth : ℕ) :
    b.depthLevels depth = @depthLevels Rounding.exact b depth := by
  -- the total of a queue of the grid is exact
  have hqty : ∀ side, ∀ e ∈ (b.levels side).entries,
      queueQty e.2 = @queueQty Rounding.exact e.2 := by
    intro side e he
    have hqueue : b.queue side e.1 = e.2 := queue_eq_of_find? (OrdMap.find?_eq_some.mpr he)
    have hmem : ∀ x ∈ e.2.map (·.remaining), 0 ≤ x ∧ x ∈ D := by
      intro x hx
      obtain ⟨o, ho, rfl⟩ := List.mem_map.mp hx
      have honGrid := hb.all o (mem_pool_of_mem_queue (hqueue ▸ ho))
      exact ⟨honGrid.positive.le, honGrid.remaining⟩
    have htotal : (e.2.map (·.remaining)).sum ∈ D := hqueue ▸ htotals side e.1
    have hsum := hD.foldl_eq htotal hmem (hD.zero_mem htotal) (le_refl 0) (zero_add _).le
    rw [zero_add] at hsum
    exact hsum.1.trans (queueQty_eq e.2).symm
  unfold depthLevels
  congr 2
  · refine List.map_congr_left fun e he => ?_
    rw [hqty .buy e (List.mem_reverse.mp (List.mem_of_mem_take he))]
  · refine List.map_congr_left fun e he => ?_
    rw [hqty .sell e (List.mem_of_mem_take he)]

/-! ## Calls -/

/-- The passes of a call on the grid are those of exact arithmetic. -/
theorem cascade_grid (fuel : ℕ) (hb : b.All (Order.OnGrid D)) (ht : taker.OnGrid D) :
    loop (cascadeTurn fuel) fuel (b.enterCascade taker) =
        loop (@cascadeTurn Rounding.exact fuel) fuel (b.enterCascade taker) ∧
      ∀ r, loop (cascadeTurn fuel) fuel (b.enterCascade taker) = some r →
        r.1.All (Order.OnGrid D) := by
  have hstart := onGrid_enterCascade hb ht
  have hnext : ∀ c c', CascadeState.OnGrid D c →
      @cascadeTurn Rounding.exact fuel c = some (.next c') → c'.OnGrid D :=
    fun c c' hc h => (cascadeTurn_next h).onGrid hD hc
  have heq : loop (cascadeTurn fuel) fuel (b.enterCascade taker) =
      loop (@cascadeTurn Rounding.exact fuel) fuel (b.enterCascade taker) :=
    loop_congr (CascadeState.OnGrid D) hstart (fun c hc => cascadeTurn_grid hD hc) hnext
  refine ⟨heq, ?_⟩
  intro r hr
  rw [heq] at hr
  refine loop_invariant (CascadeState.OnGrid D) (fun r => r.1.All (Order.OnGrid D)) hstart
    hnext ?_ hr
  intro c r hc hdone
  rw [(cascadeTurn_done hdone).2]
  exact hc.book

/-- A call on the grid does what exact arithmetic does, and leaves orders on the grid. -/
theorem matchOrder_grid (fuel : ℕ) (hb : b.All (Order.OnGrid D)) (ht : taker.OnGrid D) :
    b.matchOrder fuel taker = @matchOrder Rounding.exact fuel b taker ∧
      ∀ r, b.matchOrder fuel taker = some r → r.1.All (Order.OnGrid D) := by
  have hcheck : b.preCheck taker = @preCheck Rounding.exact b taker := by
    unfold preCheck
    rw [canFullyFill_grid hD hb ht]
  obtain ⟨hloop, hkeep⟩ := cascade_grid hD fuel hb ht
  have heq : b.matchOrder fuel taker = @matchOrder Rounding.exact fuel b taker := by
    unfold matchOrder
    rw [hcheck, hloop]
  refine ⟨heq, ?_⟩
  intro r hr
  rw [heq] at hr
  cases matchOrder_cases hr with
  | rejected => exact hb
  | stop => exact hb.registerStopOrder ht
  | matched _ _ hmatched => exact hkeep _ (hloop.trans hmatched)

/-! ## Runs -/

variable {cmds : List BookCommand}

theorem exec_grid (fuel : ℕ) {cmd : BookCommand} (hb : b.All (Order.OnGrid D))
    (hcmd : ∀ order, cmd = .matchOrder order → order.OnGrid D) :
    b.exec fuel cmd = @exec Rounding.exact fuel b cmd ∧
      ∀ r, b.exec fuel cmd = some r → r.1.All (Order.OnGrid D) := by
  cases cmd with
  | registerOco legA legB =>
    refine ⟨rfl, ?_⟩
    intro r h
    cases h
    exact ⟨hb.noEmpty, hb.all⟩
  | matchOrder order => exact matchOrder_grid hD fuel hb (hcmd order rfl)
  | cancelOrder id =>
    refine ⟨rfl, ?_⟩
    intro r h
    cases h
    exact (within_cancelOrder b id).all hb

theorem runCommands_grid (fuel : ℕ) (hb : b.All (Order.OnGrid D))
    (hcmds : ∀ o ∈ submitted cmds, o.OnGrid D) :
    b.runCommands fuel cmds = @runCommands Rounding.exact fuel b cmds ∧
      ∀ b', b.runCommands fuel cmds = some b' → b'.All (Order.OnGrid D) := by
  induction cmds generalizing b with
  | nil =>
    refine ⟨rfl, ?_⟩
    intro b' h
    cases h
    exact hb
  | cons cmd cmds ih =>
    have hhead : ∀ order, cmd = .matchOrder order → order.OnGrid D := by
      rintro order rfl
      exact hcmds order List.mem_cons_self
    have hrest : ∀ o ∈ submitted cmds, o.OnGrid D := by
      intro o ho
      refine hcmds o ?_
      cases cmd with
      | matchOrder order => exact List.mem_cons_of_mem order ho
      | registerOco => exact ho
      | cancelOrder => exact ho
    -- one call after the other, on the same book
    obtain ⟨heq, hkeep⟩ := exec_grid hD fuel hb hhead
    unfold runCommands
    rw [← heq]
    cases hexec : b.exec fuel cmd with
    | none => exact ⟨rfl, fun b' h => by cases h⟩
    | some r => exact ih (hkeep r hexec) hrest

/-- A book reached on the grid is the one that exact arithmetic reaches. -/
theorem Reaches.of_grid (h : Reaches cmds b) (hcmds : ∀ o ∈ submitted cmds, o.OnGrid D) :
    @Reaches Rounding.exact cmds b ∧ b.All (Order.OnGrid D) := by
  obtain ⟨hadmissible, hfresh, fuel, hrun⟩ := h
  obtain ⟨heq, hkeep⟩ := runCommands_grid hD fuel (all_new _) hcmds
  exact ⟨@Reaches.mk Rounding.exact _ _ hadmissible hfresh ⟨fuel, heq ▸ hrun⟩, hkeep b hrun⟩

theorem Arises.of_grid (h : Arises cmds b) (hcmds : ∀ o ∈ submitted cmds, o.OnGrid D) :
    @Arises Rounding.exact cmds b ∧ b.All (Order.OnGrid D) := by
  obtain ⟨hwaiting, hfresh, fuel, hrun⟩ := h
  obtain ⟨heq, hkeep⟩ := runCommands_grid hD fuel (all_new _) hcmds
  exact ⟨@Arises.mk Rounding.exact _ _ hwaiting hfresh ⟨fuel, heq ▸ hrun⟩, hkeep b hrun⟩

end Turns

end CryptoCex.Core
