import CryptoCex.Core.Depth
import CryptoCex.Core.Grid
import CryptoCex.Core.Slices
import CryptoCex.Server.State

/-!
# What is published of an iceberg

Snapshots and diffs show the depth of a book. Two books that differ in nothing but what their
icebergs have left should look the same to subscribers as long as each iceberg still fills its
slice. They do not: the depth counts the hidden quantity as well, so a subscriber tells them apart
unless the icebergs of each level have the same total left (`publishedAlike_iff`). This is so where
the totals of the levels are not rounded; a rounded total may be the same for different quantities,
and different for the same.
-/

namespace CryptoCex.Server

open CryptoCex.Core

/-- The state with another book for a symbol. -/
def EngineState.withBook (st : EngineState) (symbol : String) (book : OrderBook) : EngineState :=
  { st with books := st.books.insert symbol book }

/-- No depth, no snapshot and no diff tells two books apart. -/
structure PublishedAlike [Rounding] (b₁ b₂ : OrderBook) : Prop where
  depth : ∀ depth, b₁.depthLevels depth = b₂.depthLevels depth
  snapshot : ∀ (st : EngineState) symbol depth,
    (st.withBook symbol b₁).bookSnapshot symbol depth =
      (st.withBook symbol b₂).bookSnapshot symbol depth
  delta : ∀ (st : EngineState) symbol,
    (st.withBook symbol b₁).bookDeltaEvent symbol = (st.withBook symbol b₂).bookDeltaEvent symbol

/-- Each order with a display quantity has at least as much left. -/
def SlicesFilled (b : OrderBook) : Prop :=
  ∀ o ∈ b.live, ∀ d ∈ o.displayQty, d ≤ o.remaining

instance (b : OrderBook) : Decidable (SlicesFilled b) := by
  unfold SlicesFilled
  infer_instance

section Published

variable {b₁ b₂ : OrderBook}

/-- A snapshot shows the depth of the book. -/
theorem bookSnapshot_withBook [Rounding] (st : EngineState) (symbol : String)
    (b : OrderBook) (depth : ℕ) :
    (st.withBook symbol b).bookSnapshot symbol depth = {
      symbol := symbol
      bids := (b.depthLevels depth).bids
      asks := (b.depthLevels depth).asks
      seq := st.eventLog.sequence } := by
  unfold EngineState.bookSnapshot EngineState.withBook
  simp only [OrdMap.find?_insert_self]

/-- Snapshots and diffs show nothing of a book but its depth. -/
theorem publishedAlike_of_depth [Rounding]
    (h : ∀ depth, b₁.depthLevels depth = b₂.depthLevels depth) : PublishedAlike b₁ b₂ := by
  have hsnapshot : ∀ (st : EngineState) symbol depth,
      (st.withBook symbol b₁).bookSnapshot symbol depth =
        (st.withBook symbol b₂).bookSnapshot symbol depth := by
    intro st symbol depth
    rw [bookSnapshot_withBook, bookSnapshot_withBook, h depth]
  refine ⟨h, hsnapshot, ?_⟩
  intro st symbol
  have hdepth : (st.withBook symbol b₁).snapshotDepth = (st.withBook symbol b₂).snapshotDepth := rfl
  unfold EngineState.bookDeltaEvent
  rw [hdepth, hsnapshot]

/-- Two reachable books that differ in what their orders with a display quantity have left are
published alike exactly when these orders have the same total left at each level, if quantities
and totals are on a grid. -/
theorem publishedAlike_iff [Rounding] {D : Set Decimal} (hD : Grid D)
    {cmds₁ cmds₂ : List BookCommand} (h₁ : Arises cmds₁ b₁) (h₂ : Arises cmds₂ b₂)
    (hgrid : ∀ o ∈ submitted cmds₁ ++ submitted cmds₂, o.OnGrid D) (htotals₁ : b₁.TotalsOnGrid D)
    (htotals₂ : b₂.TotalsOnGrid D) (hsame : b₁.conceal = b₂.conceal) :
    PublishedAlike b₁ b₂ ↔
      ∀ side price, icebergQty (b₁.queue side price) = icebergQty (b₂.queue side price) := by
  obtain ⟨hexact₁, hall₁⟩ := h₁.of_grid hD fun o ho => hgrid o (List.mem_append_left _ ho)
  obtain ⟨hexact₂, hall₂⟩ := h₂.of_grid hD fun o ho => hgrid o (List.mem_append_right _ ho)
  have hdepth := OrderBook.depthLevels_eq_iff hexact₁.after.sound.book hexact₂.after.sound.book hsame
  have hround₁ := depthLevels_grid hD hall₁ htotals₁
  have hround₂ := depthLevels_grid hD hall₂ htotals₂
  constructor
  · intro halike
    refine hdepth.mp fun depth => ?_
    rw [← hround₁, ← hround₂]
    exact halike.depth depth
  · intro htotals
    refine publishedAlike_of_depth fun depth => ?_
    rw [hround₁, hround₂]
    exact hdepth.mpr htotals depth

end Published

/-- An iceberg of 10 that shows 2. -/
def freshIceberg : List BookCommand := [.matchOrder (icebergOffer 1 10 100 10 2)]

/-- The same iceberg after it sold a slice. -/
def slicedIceberg : List BookCommand :=
  freshIceberg ++ [.matchOrder (limitOrder 2 11 .buy 100 2)]

/-- The book after a run of commands, for runs that need little fuel. -/
def bookOfRun [Rounding] (cmds : List BookCommand) : OrderBook :=
  (OrderBook.new.runCommands 10 cmds).getD OrderBook.new

theorem arises_bookOfRun [Rounding] {cmds : List BookCommand} (hprice : ∀ o ∈ submitted cmds,
      0 < o.remaining ∧ o.price = some 100) (hfresh : (submittedIds cmds).Nodup)
    (hrun : (OrderBook.new.runCommands 10 cmds).isSome) : Arises cmds (bookOfRun cmds) := by
  obtain ⟨b, hb⟩ := Option.isSome_iff_exists.mp hrun
  refine ⟨?_, hfresh, 10, ?_⟩
  · intro o ho
    exact ⟨(hprice o ho).1, fun _ => ⟨100, (hprice o ho).2⟩⟩
  · rw [bookOfRun, hb]
    rfl

/-- The level shows 10 before the trade and 8 after it, though the slice is 2 in both books. -/
theorem hidden_quantity_published :
    ¬ ∀ cmds₁ cmds₂ b₁ b₂, Arises cmds₁ b₁ → Arises cmds₂ b₂ → b₁.conceal = b₂.conceal →
      SlicesFilled b₁ → SlicesFilled b₂ → PublishedAlike b₁ b₂ := by
  intro hclaim
  have halike := hclaim freshIceberg slicedIceberg (bookOfRun freshIceberg)
    (bookOfRun slicedIceberg) (arises_bookOfRun (by decide) (by decide) (by decide +kernel))
    (arises_bookOfRun (by decide) (by decide) (by decide +kernel)) (by decide +kernel)
    (by decide +kernel) (by decide +kernel)
  have hfirst : ((bookOfRun freshIceberg).depthLevels 1).asks = [(100, 10)] := by decide +kernel
  have hsecond : ((bookOfRun slicedIceberg).depthLevels 1).asks = [(100, 8)] := by decide +kernel
  rw [halike.depth 1, hsecond] at hfirst
  exact absurd hfirst (by decide)

/-- A book with one level is on the grid if the total of the level is. -/
theorem totalsOnGrid_of_asks {D : Set Decimal} (hzero : (0 : Decimal) ∈ D) {b : OrderBook}
    {price : Decimal} {queue : List Order} (hbids : b.bids = OrdMap.empty)
    (hasks : b.asks = OrdMap.empty.insert price queue)
    (htotal : (queue.map (·.remaining)).sum ∈ D) : b.TotalsOnGrid D := by
  intro side price'
  unfold OrderBook.queue OrderBook.levels OrdMap.queueAt
  cases side with
  | buy =>
    rw [hbids]
    exact hzero
  | sell =>
    rw [hasks, OrdMap.find?_insert]
    split_ifs
    · exact htotal
    · exact hzero

/-- The theorem on these two books, with mantissas of 96 bits. -/
theorem published_icebergs :
    (@bookOfRun Rounding.mantissa96 freshIceberg).conceal =
      (@bookOfRun Rounding.mantissa96 slicedIceberg).conceal ∧
    (@PublishedAlike Rounding.mantissa96 (@bookOfRun Rounding.mantissa96 freshIceberg)
        (@bookOfRun Rounding.mantissa96 slicedIceberg) ↔
      ∀ side price, icebergQty ((@bookOfRun Rounding.mantissa96 freshIceberg).queue side price) =
        icebergQty ((@bookOfRun Rounding.mantissa96 slicedIceberg).queue side price)) := by
  let _ : Rounding := Rounding.mantissa96
  have hsame : (bookOfRun freshIceberg).conceal = (bookOfRun slicedIceberg).conceal := by
    decide +kernel
  have hgrid : ∀ o ∈ submitted freshIceberg ++ submitted slicedIceberg,
      o.OnGrid (decimalsOf 0) := by
    have hiceberg : (icebergOffer 1 10 100 10 2).OnGrid (decimalsOf 0) := by
      refine ⟨by decide, ⟨10, by decide, rfl⟩, ?_⟩
      rintro d ⟨rfl⟩
      exact ⟨2, by decide, rfl⟩
    intro o ho
    simp only [freshIceberg, slicedIceberg, submitted, List.cons_append, List.nil_append,
      List.mem_cons, List.not_mem_nil, or_false] at ho
    rcases ho with rfl | rfl | rfl
    · exact hiceberg
    · exact hiceberg
    · exact ⟨by decide, ⟨2, by decide, rfl⟩, by simp [limitOrder]⟩
  have hzero : (0 : Decimal) ∈ decimalsOf 0 := ⟨0, Nat.zero_le _, rfl⟩
  refine ⟨hsame, publishedAlike_iff (grid_decimalsOf (Nat.zero_le 28))
    (arises_bookOfRun (by decide) (by decide) (by decide +kernel))
    (arises_bookOfRun (by decide) (by decide) (by decide +kernel)) hgrid ?_ ?_ hsame⟩
  · -- ten in one order, and eight with two shown behind them
    exact totalsOnGrid_of_asks hzero (by decide +kernel)
      (show (bookOfRun freshIceberg).asks =
        OrdMap.empty.insert 100 [icebergOffer 1 10 100 10 2] by decide +kernel)
      ⟨10, by decide, rfl⟩
  · exact totalsOnGrid_of_asks hzero (by decide +kernel)
      (show (bookOfRun slicedIceberg).asks =
        OrdMap.empty.insert 100 [(icebergOffer 1 10 100 10 2).withRemaining 8] by decide +kernel)
      ⟨8, by decide, rfl⟩

end CryptoCex.Server
