import CryptoCex.Core.Grid
import CryptoCex.Core.Walk
import CryptoCex.Server.Exchange

/-!
# What the admission checks guarantee

An order that passes `validateWireOrder` goes to a book through `toCoreOrder`, and
the matching loop makes progress as long as every resting order shows a positive
quantity. The checks look at the display quantity of iceberg orders only, while
the book slices any order that has one. `placeAll_terminates` needs the check for
the other types too; without it a call may not return (`zero_display_diverges`).
It also needs quantities of which no difference is rounded: a slice too small to
be seen in what is left of a maker is traded forever.
-/

namespace CryptoCex.Server

open CryptoCex.Core CryptoCex.Core.OrderBook Loop
open Proto (EngineOrder)

/-- The book an order is matched against, with or without the OCO registration the
server does first. -/
def bookFor (register : Bool) (books : OrdMap String OrderBook) (order : Order) : OrderBook :=
  let book := (books.find? order.symbol).getD OrderBook.new
  if register then EngineState.linkOco book order else book

/-- Applies the orders one after another to the book of their symbol, and collects
the events of each call. -/
def placeAll [Rounding] (fuel : ℕ) (register : Bool) :
    OrdMap String OrderBook → List EngineOrder → Option (List (List EngineEvent))
  | _, [] => some []
  | books, wire :: wires =>
    let order := toCoreOrder wire
    match (bookFor register books order).matchOrder fuel order with
    | none => none
    | some (book, events) =>
      (placeAll fuel register (books.insert order.symbol book) wires).map (events :: ·)

/-- Admitted, and with a positive display quantity if it has one. -/
structure Admitted (wire : EngineOrder) : Prop where
  valid : ∃ requestId, validateWireOrder requestId wire = none
  display : wire.orderType ≠ .iceberg → ∀ d, wire.displayQty = some d → 0 < d

/-- The checks see to the display quantity of an iceberg order. -/
theorem display_of_valid {requestId : Uuid} {wire : EngineOrder}
    (h : validateWireOrder requestId wire = none) (htype : wire.orderType = .iceberg) {d : Decimal}
    (hd : wire.displayQty = some d) : 0 < d := by
  unfold validateWireOrder at h
  split_ifs at h with hblank hquantity hprice hstop hdisplay
  rw [htype, hd] at hdisplay
  simp at hdisplay
  exact hdisplay.1

/-- An admitted order with a positive display quantity is sized. -/
theorem Admitted.sized {wire : EngineOrder} (h : Admitted wire) : (toCoreOrder wire).Sized := by
  rcases h.valid with ⟨requestId, hvalid⟩
  refine ⟨(EngineState.admissible_of_valid hvalid).positive, ?_⟩
  intro d hd
  by_cases htype : wire.orderType = .iceberg
  · exact display_of_valid hvalid htype hd
  · exact h.display htype d hd

/-- Every book holds orders with the property. -/
def AllBooks (K : Order → Prop) (books : OrdMap String OrderBook) : Prop :=
  ∀ symbol b, books.find? symbol = some b → b.All K

section Books

variable {K : Order → Prop} {books : OrdMap String OrderBook}

theorem allBooks_empty (K : Order → Prop) : AllBooks K OrdMap.empty := by
  intro symbol b h
  cases h

/-- All books have it still when one that has it is put back. -/
theorem AllBooks.insert (h : AllBooks K books) {b : OrderBook} (hb : b.All K) (symbol : String) :
    AllBooks K (books.insert symbol b) := by
  intro symbol' b' hfind
  rw [OrdMap.find?_insert] at hfind
  split_ifs at hfind
  · cases hfind
    exact hb
  · exact h symbol' b' hfind

/-- Registering a link touches no order. -/
theorem AllBooks.bookFor (h : AllBooks K books) (register : Bool) (order : Order) :
    (bookFor register books order).All K := by
  have hbook : ((books.find? order.symbol).getD OrderBook.new).All K := by
    cases hb : books.find? order.symbol with
    | none => exact all_new K
    | some b => exact h order.symbol b hb
  unfold Server.bookFor EngineState.linkOco
  dsimp only
  split_ifs
  · split
    · exact hbook
    · exact ⟨hbook.noEmpty, hbook.all⟩
  · exact hbook

end Books

/-- One call on a book of sized orders: it returns, keeps them sized and trades
positive quantities. -/
theorem matchOrder_sized {b : OrderBook} {order : Order} (hb : b.All Order.Sized)
    (horder : order.Sized) :
    ∃ n b' events, (∀ fuel ≥ n, b.matchOrder fuel order = some (b', events)) ∧
      b'.All Order.Sized ∧ ∀ f, EngineEvent.fill f ∈ events → 0 < f.quantity := by
  rcases matchOrder_terminates kept_sized hb horder with ⟨n, hn⟩
  rcases hn n le_rfl with ⟨⟨b', events⟩, hcall⟩
  rcases matchOrder_all kept_sized hb horder hcall with ⟨hb', hfills⟩
  exact ⟨n, b', events, fun fuel hfuel => matchOrder_mono hfuel hcall, hb', hfills⟩

/-- The same for quantities on a grid, whatever the rounding outside of it. -/
theorem matchOrder_sized_grid [Rounding] {D : Set Decimal} (hD : Grid D) {b : OrderBook}
    {order : Order} (hb : b.All Order.Sized) (hbD : b.All (Order.OnGrid D)) (horder : order.Sized)
    (horderD : order.OnGrid D) :
    ∃ n b' events, (∀ fuel ≥ n, b.matchOrder fuel order = some (b', events)) ∧
      b'.All Order.Sized ∧ b'.All (Order.OnGrid D) ∧
        ∀ f, EngineEvent.fill f ∈ events → 0 < f.quantity := by
  rcases matchOrder_sized hb horder with ⟨n, b', events, hcall, hb', hfills⟩
  have hgrid := fun fuel => matchOrder_grid hD fuel hbD horderD
  have hcall' : ∀ fuel ≥ n, b.matchOrder fuel order = some (b', events) := by
    intro fuel hfuel
    rw [(hgrid fuel).1]
    exact hcall fuel hfuel
  exact ⟨n, b', events, hcall', hb', (hgrid n).2 _ (hcall' n le_rfl), hfills⟩

section Rounded

variable [Rounding] {D : Set Decimal}

/-- Every call of a run of placements returns, with positive fills. -/
theorem placeAll_of_allBooks (hD : Grid D) (register : Bool) {wires : List EngineOrder}
    (hall : ∀ wire ∈ wires, Admitted wire) (hgrid : ∀ wire ∈ wires, (toCoreOrder wire).OnGrid D)
    {books : OrdMap String OrderBook} (hbooks : AllBooks Order.Sized books)
    (hbooksD : AllBooks (Order.OnGrid D) books) :
    ∃ n logs, (∀ fuel ≥ n, placeAll fuel register books wires = some logs) ∧
      ∀ events ∈ logs, ∀ f, EngineEvent.fill f ∈ events → 0 < f.quantity := by
  induction wires generalizing books with
  | nil => exact ⟨0, [], fun _ _ => rfl, by simp⟩
  | cons wire wires ih =>
    have hsized := (hall wire List.mem_cons_self).sized
    rcases matchOrder_sized_grid hD (hbooks.bookFor register (toCoreOrder wire))
      (hbooksD.bookFor register (toCoreOrder wire)) hsized (hgrid wire List.mem_cons_self) with
      ⟨n, b', events, hcall, hb', hbD', hfills⟩
    rcases ih (fun w hw => hall w (List.mem_cons_of_mem _ hw))
      (fun w hw => hgrid w (List.mem_cons_of_mem _ hw))
      (hbooks.insert hb' (toCoreOrder wire).symbol)
      (hbooksD.insert hbD' (toCoreOrder wire).symbol) with ⟨n', logs, hrest, hpositive⟩
    -- logs, ?_, ?_⟩
    refine ⟨max n n', events :: logs, ?_, ?_⟩
    · intro fuel hfuel
      simp only [placeAll, hcall fuel (le_of_max_le_left hfuel),
        hrest fuel (le_of_max_le_right hfuel), Option.map_some]
    · intro events' hevents
      rcases List.mem_cons.mp hevents with rfl | hevents
      · exact hfills
      · exact hpositive events' hevents

/-- Every call on admitted orders returns, and every fill it emits is positive, when no order but
an iceberg comes with a display quantity that is not, and all quantities are on one grid. -/
theorem placeAll_terminates (hD : Grid D) (register : Bool) (wires : List EngineOrder)
    (hall : ∀ wire ∈ wires, Admitted wire)
    (hgrid : ∀ wire ∈ wires, (toCoreOrder wire).OnGrid D) :
    ∃ n logs, (∀ fuel ≥ n, placeAll fuel register OrdMap.empty wires = some logs) ∧
      ∀ events ∈ logs, ∀ f, EngineEvent.fill f ∈ events → 0 < f.quantity :=
  placeAll_of_allBooks hD register hall hgrid (allBooks_empty _) (allBooks_empty _)

end Rounded

/-- An iceberg order and a limit order that show a part of their quantity, and an
order that meets them, with mantissas of 96 bits. -/
theorem placeAll_slices_terminates :
    ∃ n logs, (∀ fuel ≥ n, @placeAll Rounding.mantissa96 fuel true OrdMap.empty
      [{ wireLimit 1 10 .sell 100 5 .cancelTaker with
          orderType := .iceberg, displayQty := some 2 },
        { wireLimit 2 10 .sell 100 5 .cancelTaker with displayQty := some 1 },
        wireLimit 3 11 .buy 100 7 .cancelTaker] = some logs) ∧
      ∀ events ∈ logs, ∀ f, EngineEvent.fill f ∈ events → 0 < f.quantity := by
  refine @placeAll_terminates Rounding.mantissa96 _ (grid_decimalsOf (Nat.zero_le 28)) true _ ?_ ?_
  · intro wire hwire
    simp only [List.mem_cons, List.not_mem_nil, or_false] at hwire
    rcases hwire with rfl | rfl | rfl
    · exact ⟨⟨0, by decide +kernel⟩, by simp⟩
    · exact ⟨⟨0, by decide +kernel⟩, by simp⟩
    · exact ⟨⟨0, by decide +kernel⟩, by simp [wireLimit]⟩
  · intro wire hwire
    simp only [List.mem_cons, List.not_mem_nil, or_false] at hwire
    rcases hwire with rfl | rfl | rfl
    · refine ⟨by decide, ⟨5, by decide, rfl⟩, ?_⟩
      rintro d ⟨rfl⟩
      exact ⟨2, by decide, rfl⟩
    · refine ⟨by decide, ⟨5, by decide, rfl⟩, ?_⟩
      rintro d ⟨rfl⟩
      exact ⟨1, by decide, rfl⟩
    · exact ⟨by decide, ⟨7, by decide, rfl⟩, by simp [toCoreOrder, wireLimit]⟩

/-! ## A display quantity of zero -/

/-- A limit order to sell that shows nothing. -/
def hiddenLimit : EngineOrder :=
  { wireLimit 1 10 .sell 100 5 .cancelTaker with displayQty := some 0 }

/-- The book with the hidden order on it. -/
def hiddenBook : OrderBook := OrderBook.new.insertMaker (toCoreOrder hiddenLimit)

/-- The taker that meets it. -/
def meetsHidden : Order := toCoreOrder (wireLimit 3 11 .buy 100 2 .cancelTaker)

/-- A turn trades nothing and leaves the book and the taker as they are. -/
theorem matchTurn_hidden {s : MatchState} (h : s.book = hiddenBook ∧ s.taker = meetsHidden) :
    ∃ s', matchTurn s = some (.next s') ∧ s'.book = hiddenBook ∧ s'.taker = meetsHidden := by
  rcases s with ⟨book, taker, events, last, had⟩
  rcases h with ⟨rfl, rfl⟩
  have hm : Meets ⟨hiddenBook, meetsHidden, events, last, had⟩ 100 (toCoreOrder hiddenLimit) [] :=
    ⟨show 0 < meetsHidden.remaining by decide,
      show hiddenBook.bestOppositePrice meetsHidden.side = some 100 by decide +kernel,
      show takerPriceSatisfied meetsHidden 100 = true by decide,
      show (hiddenBook.levels meetsHidden.side.opposite).find? 100 =
        some [toCoreOrder hiddenLimit] by decide +kernel⟩
  have hother : meetsHidden.userId ≠ (toCoreOrder hiddenLimit).userId := by decide
  rcases matchTurn_fill hm hother with ⟨t, ht, hspec⟩
  rcases hspec.of_trade hm hother with ⟨s', rfl, hbook, htaker⟩
  refine ⟨s', ht, hbook.trans ?_, htaker.trans ?_⟩
  · change hiddenBook.afterTrade meetsHidden (toCoreOrder hiddenLimit) 100 [] = hiddenBook
    decide +kernel
  · change meetsHidden.withRemaining (meetsHidden.remaining -
      (fillOf meetsHidden (toCoreOrder hiddenLimit) 100).quantity) = meetsHidden
    decide +kernel

/-- The loop meets the hidden order again and again, and trades nothing. -/
theorem matchOrder_hidden (fuel : ℕ) : hiddenBook.matchOrder fuel meetsHidden = none := by
  have hloop : hiddenBook.runMatchingLoop fuel meetsHidden = none := by
    unfold runMatchingLoop
    rw [loop_diverges (fun s => s.book = hiddenBook ∧ s.taker = meetsHidden) ⟨rfl, rfl⟩
      (fun _ => matchTurn_hidden)]
  have hpre : hiddenBook.preCheck meetsHidden = none := rfl
  have hactive : meetsHidden.orderType.isStop = false := rfl
  unfold matchOrder
  rw [hpre, hactive]
  cases fuel with
  | zero => rfl
  | succ fuel =>
    have hturn : cascadeTurn (fuel + 1) (hiddenBook.enterCascade meetsHidden) = none := by
      simp only [cascadeTurn, enterCascade, hloop]
    simp only [loop, hturn, Bool.false_eq_true, if_false]

/-- Two admitted orders: a taker that meets a limit order with display quantity
zero is never done. -/
theorem zero_display_diverges :
    (∀ wire ∈ [hiddenLimit, wireLimit 3 11 .buy 100 2 .cancelTaker],
      validateWireOrder 0 wire = none) ∧
    ∀ fuel register, placeAll fuel register OrdMap.empty
      [hiddenLimit, wireLimit 3 11 .buy 100 2 .cancelTaker] = none := by
  refine ⟨by decide +kernel, ?_⟩
  intro fuel register
  -- the first call returns with the same book for any fuel, or not at all
  have hfirst : ∀ r, OrderBook.new.matchOrder fuel (toCoreOrder hiddenLimit) = some r →
      r.1 = hiddenBook := by
    intro r hr
    have hten : OrderBook.new.matchOrder 10 (toCoreOrder hiddenLimit) =
        some (hiddenBook, [.rested 1 5]) := by
      decide +kernel
    have hsame := (matchOrder_mono (le_max_left fuel 10) hr).symm.trans
      (matchOrder_mono (le_max_right fuel 10) hten)
    rw [Option.some.inj hsame]
  have hbooks : ∀ books : OrdMap String OrderBook, ∀ b : OrderBook, ∀ order : Order,
      order.ocoLinkedId = none → (books.find? order.symbol).getD OrderBook.new = b →
      bookFor register books order = b := by
    intro books b order hnone hbook
    unfold bookFor EngineState.linkOco
    rw [hnone, hbook]
    exact ite_self b
  unfold placeAll
  dsimp only
  rw [hbooks OrdMap.empty OrderBook.new _ rfl rfl]
  cases hcall : OrderBook.new.matchOrder fuel (toCoreOrder hiddenLimit) with
  | none => rfl
  | some r =>
    rcases r with ⟨book, events⟩
    have hbook : book = hiddenBook := hfirst _ hcall
    subst hbook
    -- the second one meets it for ever
    have hsecond : placeAll fuel register
        (OrdMap.empty.insert (toCoreOrder hiddenLimit).symbol hiddenBook)
        [wireLimit 3 11 .buy 100 2 .cancelTaker] = none := by
      unfold placeAll
      dsimp only
      rw [hbooks _ hiddenBook _ rfl (by decide +kernel),
        show toCoreOrder (wireLimit 3 11 .buy 100 2 .cancelTaker) = meetsHidden from rfl,
        matchOrder_hidden]
    dsimp only
    rw [hsecond, Option.map_none]

end CryptoCex.Server
