import CryptoCex.Server.Record
import CryptoCex.Settlement.Cover

/-!
# Rows that follow the tape

Settlement takes the events of the engine one by one and knows an order by its row only. The
rows show the orders as they stand on the tape that settlement has read so far (`Copies`): what is
left of an order is the same on both, and an order is closed on the tape when its cancel was
settled. So an event that the tape allows keeps what the desk was promised (`Copies.promised`),
and settling it leads from one tape to the next (`Copies.settle`).
-/

namespace CryptoCex.Settlement

open CryptoCex.Core (Decimal Order Uuid)
open Db (OrderRow Tables value)
open Proto (EngineEvent EngineOrder OrderSide SequencedEngineEvent TradeFill)
open Server (Standing Standings Tape toCoreFill toCoreOrder toCoreSide)

/-! ## Amounts -/

theorem value_le {x y : Decimal} : value x ≤ value y ↔ x ≤ y := by
  unfold value
  rw [div_le_div_iff_of_pos_right (by norm_num)]
  exact Int.cast_le

theorem value_pos {x : Decimal} : 0 < value x ↔ 0 < x := by
  unfold value
  rw [div_pos_iff_of_pos_right (by norm_num)]
  exact Int.cast_pos

theorem value_sub (x y : Decimal) : value (x - y) = value x - value y := by
  unfold value
  rw [Int.cast_sub, sub_div]

theorem toCoreSide_inj {a b : OrderSide} : toCoreSide a = toCoreSide b ↔ a = b := by
  cases a <;> cases b <;> simp [toCoreSide]

/-! ## Orders and rows -/

/-- The row of an order. -/
structure RowFor (order : Order) (row : OrderRow) : Prop where
  userId : row.userId = order.userId
  market : row.market = order.symbol
  side : toCoreSide row.side = order.side
  price : row.price = order.price.map value

/-- The row shows the order as it stands on the tape. -/
structure Shows (standing : Standing) (row : OrderRow) : Prop extends
    RowFor standing.order row where
  left : remaining row = value standing.left

/-- The rows show the orders of the tape, and the desk is done with those that are closed. -/
def Copies (t : Tape) (s : Desk) : Prop :=
  ∀ x standing, t.standings x = some standing →
    (∃ row, s.db.orders.find? x = some row ∧ Shows standing row) ∧
    (x ∈ s.closed ↔ standing.closed = true)

variable {t : Tape} {s : Desk} {db' : Tables} {seq : ℕ} {x : Uuid} {standing : Standing}
  {row : OrderRow}

/-- A fill leaves a row the row of its order. -/
theorem RowFor.setFill (h : RowFor standing.order row) (columns : FillColumns) :
    RowFor standing.order (setFill row columns) := ⟨h.userId, h.market, h.side, h.price⟩

/-- An order that is open on the tape is one the desk may still fill. -/
theorem Copies.open_row (h : Copies t s) (hopen : t.standings.IsOpen x standing) :
    ∃ row, s.openOrders.find? x = some row ∧ Shows standing row := by
  rcases h x standing hopen.1 with ⟨⟨row, hrow, hshows⟩, hclosed⟩
  refine ⟨row, Desk.find?_openOrders.mpr ⟨?_, hrow⟩, hshows⟩
  rw [hclosed, hopen.2]
  exact Bool.false_ne_true

/-! ## What the tape promises the desk -/

/-- The buy orders on the tape have a price. -/
def Priced (t : Tape) : Prop :=
  ∀ x standing, t.standings x = some standing → standing.order.side = .buy →
    standing.order.price ≠ none

/-- A fill that the tape allows can be settled. -/
theorem Copies.fillable (h : Copies t s) (hcovered : Covered s) {f : TradeFill}
    (hallows : t.Allows (.fill f)) (hseq : 0 < seq)
    (hfresh : ∀ trade ∈ s.db.trades, trade.id ≠ f.tradeId) : Fillable s seq f := by
  rcases hallows with ⟨⟨taker, maker, htaker, hmaker, htrade⟩, _⟩
  rcases h.open_row htaker with ⟨row, hrow, hshows⟩
  rcases h.open_row hmaker with ⟨row', hrow', hshows'⟩
  have hfindMaker := (Desk.find?_openOrders.mp hrow').2
  have htakerSide : row.side = f.takerSide :=
    toCoreSide_inj.mp (hshows.side.trans htrade.takerSide)
  have hmakerSide : toCoreSide row'.side = (toCoreSide f.takerSide).opposite :=
    hshows'.side.trans htrade.makerSide
  constructor
  · -- one order cannot be on both sides
    intro heq
    have hsame : taker = maker := by
      have htaker' : t.standings f.makerOrderId = some taker := heq ▸ htaker.1
      exact Option.some.inj (htaker'.symm.trans hmaker.1)
    exact htrade.users (hsame ▸ rfl)
  · refine ⟨row, hrow, htakerSide, ?_⟩
    rw [hshows.left]
    exact value_le.mpr htrade.takerLeft
  · refine ⟨row', hrow', ?_, ?_⟩
    · rintro hsame
      rw [hsame] at hmakerSide
      cases hside : f.takerSide <;> rw [hside] at hmakerSide <;> cases hmakerSide
    · rw [hshows'.left]
      exact value_le.mpr htrade.makerLeft
  · have hprice : row'.price = some (value f.price) := by
      rw [hshows'.price, htrade.price]
      rfl
    exact (hcovered.orders _ _ hfindMaker).price _ hprice
  · exact value_pos.mpr htrade.positive
  · exact hseq
  · exact hfresh

/-- The buyer locked at least what the fill costs. -/
theorem Copies.paidFor (h : Copies t s) (hpriced : Priced t) {f : TradeFill}
    (hallows : t.Allows (.fill f)) : PaidFor s f := by
  rcases hallows with ⟨⟨taker, maker, htaker, hmaker, htrade⟩, _⟩
  intro row market hrow _
  left
  unfold buyerId at hrow
  cases hside : f.takerSide with
  -- the taker buys, within its limit
  | buy =>
    rw [hside] at hrow
    rcases h _ _ htaker.1 with ⟨⟨row', hrow', hshows⟩, _⟩
    have hsame : row' = row := Option.some.inj (hrow'.symm.trans hrow)
    subst hsame
    have hbuy : taker.order.side = .buy := by
      rw [htrade.takerSide]
      change toCoreSide f.takerSide = .buy
      rw [hside]
      rfl
    cases hprice : taker.order.price with
    | none => exact (hpriced _ _ htaker.1 hbuy hprice).elim
    | some limit =>
      refine ⟨value limit, by rw [hshows.price, hprice]; rfl, value_le.mpr ?_⟩
      have hlimit := htrade.limit
      unfold Core.OrderBook.takerPriceSatisfied at hlimit
      rw [hprice, hbuy] at hlimit
      exact of_decide_eq_true hlimit
  -- the maker buys, at the price of its row
  | sell =>
    rw [hside] at hrow
    rcases h _ _ hmaker.1 with ⟨⟨row', hrow', hshows⟩, _⟩
    have hsame : row' = row := Option.some.inj (hrow'.symm.trans hrow)
    subst hsame
    exact ⟨value f.price, by rw [hshows.price, htrade.price]; rfl, le_rfl⟩

/-- An event that the tape allows is as the desk was promised. -/
theorem Copies.promised (h : Copies t s) (hcovered : Covered s) {e : SequencedEngineEvent}
    (hallows : t.Allows e.event) (hseq : 0 < e.seq)
    (hrow : ∀ order, e.event = .orderAccepted order → (s.db.orders.find? order.id).isSome)
    (hfresh : ∀ f, e.event = .fill f → ∀ trade ∈ s.db.trades, trade.id ≠ f.tradeId) :
    Promised s e := by
  rcases e with ⟨seq, event⟩
  cases event with
  | orderAccepted order => exact hrow order rfl
  | fill f => exact h.fillable hcovered hallows hseq (hfresh f rfl)
  | orderCanceled orderId reason =>
    rcases hallows with ⟨standing, hopen, _⟩
    rcases h.open_row hopen with ⟨row, hrow, _⟩
    exact ⟨by rw [hrow]; rfl, hseq⟩
  | orderRested | bookDelta | marketStatus => exact trivial

/-! ## Settling an event -/

/-- A row that has what the order has left shows it when it is accepted. -/
theorem Copies.accepted (h : Copies t s) {order : EngineOrder}
    (hopen : s.openOrders.find? order.id = some row) (hrow : RowFor (toCoreOrder order) row)
    (hleft : remaining row = value order.quantity) :
    Copies (t.apply (.orderAccepted order)) s := by
  rcases Desk.find?_openOrders.mp hopen with ⟨hclosed, hfind⟩
  intro x standing hstanding
  by_cases hx : x = order.id
  · subst hx
    have hsame : some (Standing.mk (toCoreOrder order) (toCoreOrder order).quantity false) =
        some standing := (if_pos rfl).symm.trans hstanding
    cases hsame
    exact ⟨⟨row, hfind, hrow, hleft⟩, iff_of_false hclosed Bool.false_ne_true⟩
  · have hother : (t.standings.place (toCoreOrder order)) x = t.standings x := if_neg hx
    exact h x standing (hother ▸ hstanding)

/-- One of the two rows that a fill writes. -/
theorem shows_setFill (hshows : Shows standing row) {price : ℚ} {quantity : Decimal}
    {columns : FillColumns} (hcolumns : fillColumns .exact row price (value quantity) = .ok columns)
    (hpos : 0 < quantity) (hle : quantity ≤ standing.left) :
    Shows (standing.take quantity) (setFill row columns) := by
  have hleft : value quantity ≤ remaining row := by
    rw [hshows.left]
    exact value_le.mpr hle
  refine ⟨hshows.toRowFor.setFill columns, ?_⟩
  rw [(remaining_setFill hcolumns (value_pos.mpr hpos) hleft).1, hshows.left, ← value_sub]
  rfl

/-- After it both rows show the orders as the tape does. -/
theorem Copies.filled (h : Copies t s) {f : TradeFill} (hallows : t.Allows (.fill f))
    (hfresh : ∀ trade ∈ s.db.trades, trade.engineSeq ≠ seq)
    (hsettles : Settles .exact seq s.db (.fill f) db') :
    Copies (t.apply (.fill f)) ⟨db', s.closed⟩ := by
  rcases hallows with ⟨⟨taker, maker, htaker, hmaker, htrade⟩, _⟩
  change t.standings.IsOpen f.takerOrderId taker at htaker
  change t.standings.IsOpen f.makerOrderId maker at hmaker
  have hne : f.makerOrderId ≠ f.takerOrderId := by
    intro heq
    have htaker' : t.standings f.makerOrderId = some taker := heq ▸ htaker.1
    have hsame := Option.some.inj (htaker'.symm.trans hmaker.1)
    exact htrade.users (hsame ▸ rfl)
  cases hsettles with
  | traded htraded =>
    rcases htraded with ⟨trade, htrade, hseq⟩
    exact (hfresh trade htrade hseq).elim
  | @filled _ a price quantity after _ ha _ _ _ _ hledger =>
    rcases h _ _ htaker.1 with ⟨⟨row, hrow, hshows⟩, hclosed⟩
    rcases h _ _ hmaker.1 with ⟨⟨row', hrow', hshows'⟩, hclosed'⟩
    have hsame : a.taker.row = row :=
      Option.some.inj ((ha.taker_id ▸ ha.taker.row).symm.trans hrow)
    have hsame' : a.maker.row = row' :=
      Option.some.inj ((ha.maker_id ▸ ha.maker.row).symm.trans hrow')
    have htakerShows := shows_setFill (hsame ▸ hshows) ha.takerColumns htrade.positive
      htrade.takerLeft
    have hmakerShows := shows_setFill (hsame' ▸ hshows') ha.makerColumns htrade.positive
      htrade.makerLeft
    intro x standing hstanding
    change ((t.standings.modify f.makerOrderId (·.take f.quantity)).modify f.takerOrderId
      (·.take f.quantity)) x = some standing at hstanding
    change (∃ row, (a.orders s.db.orders).find? x = some row ∧ _) ∧ _
    rw [FillAmounts.orders, OrdMap.find?_insert, OrdMap.find?_insert, ha.taker_id, ha.maker_id]
    -- the taker, the maker, or an order that the fill does not name
    by_cases hx : x = f.takerOrderId
    · subst hx
      rw [Standings.modify_self, Standings.modify_ne _ _ hne.symm, htaker.1] at hstanding
      cases hstanding
      rw [if_neg hne.symm, if_pos rfl]
      exact ⟨⟨_, rfl, htakerShows⟩, hclosed⟩
    · rw [Standings.modify_ne _ _ hx] at hstanding
      by_cases hx' : x = f.makerOrderId
      · subst hx'
        rw [Standings.modify_self, hmaker.1] at hstanding
        cases hstanding
        rw [if_pos rfl]
        exact ⟨⟨_, rfl, hmakerShows⟩, hclosed'⟩
      · rw [Standings.modify_ne _ _ hx'] at hstanding
        rw [if_neg hx', if_neg hx]
        exact h x standing hstanding

/-- The same for a cancellation. -/
theorem Copies.canceled (h : Copies t s) {orderId : Uuid} {reason : Proto.CancelReason}
    (hsettles : Settles .exact seq s.db (.orderCanceled orderId reason) db') :
    Copies (t.apply (.orderCanceled orderId reason)) ⟨db', orderId :: s.closed⟩ := by
  -- the row keeps what it shows, whether its status changes or not
  have hrows : ∀ x row, s.db.orders.find? x = some row → ∃ row', db'.orders.find? x = some row' ∧
      ∀ standing, Shows standing row → Shows standing row' := by
    intro x row hrow
    cases hsettles with
    | closed => exact ⟨row, hrow, fun _ h => h⟩
    | @canceled _ _ order _ _ hid hfetch _ _ hledger =>
      subst hid
      dsimp only
      rw [OrdMap.find?_insert]
      split_ifs with hx
      · have hsame : order.row = row := Option.some.inj (hfetch.row.symm.trans (hx ▸ hrow))
        subst hsame
        exact ⟨_, rfl, fun _ h => ⟨⟨h.userId, h.market, h.side, h.price⟩, h.left⟩⟩
      · exact ⟨row, hrow, fun _ h => h⟩
  intro x standing hstanding
  change (t.standings.modify orderId Standing.close) x = some standing at hstanding
  have hrest : ∀ standing', t.standings x = some standing' →
      (∀ row, Shows standing' row → Shows standing row) →
      ∃ row, db'.orders.find? x = some row ∧ Shows standing row := by
    intro standing' hfind hshows
    rcases (h x standing' hfind).1 with ⟨row, hrow, hshow⟩
    rcases hrows x row hrow with ⟨row', hrow', hkeeps⟩
    exact ⟨row', hrow', hkeeps standing (hshows row hshow)⟩
  by_cases hx : x = orderId
  · subst hx
    rw [Standings.modify_self] at hstanding
    rcases Option.map_eq_some_iff.mp hstanding with ⟨standing', hfind, rfl⟩
    refine ⟨hrest standing' hfind fun row h => ⟨h.toRowFor, h.left⟩, ?_⟩
    exact iff_of_true List.mem_cons_self rfl
  · rw [Standings.modify_ne _ _ hx] at hstanding
    refine ⟨hrest standing hstanding fun _ h => h, ?_⟩
    rw [List.mem_cons, or_iff_right hx]
    exact (h x standing hstanding).2

/-- Settling an event that the tape allows leads to the next tape. -/
theorem Copies.settle (h : Copies t s) {e : SequencedEngineEvent} (hallows : t.Allows e.event)
    (hentered : ∀ order, e.event = .orderAccepted order → ∃ row,
      s.openOrders.find? order.id = some row ∧ RowFor (toCoreOrder order) row ∧
        remaining row = value order.quantity)
    (hfresh : ∀ trade ∈ s.db.trades, trade.engineSeq ≠ e.seq)
    (hsettles : Settles .exact e.seq s.db e.event db') :
    Copies (t.apply e.event) ⟨db', closedAfter s.closed e.event⟩ := by
  rcases e with ⟨seq, event⟩
  cases event with
  | orderAccepted order =>
    rcases hentered order rfl with ⟨row, hopen, hrow, hleft⟩
    cases hsettles with
    | known => exact h.accepted hopen hrow hleft
    | accepted _ _ hnew =>
      rw [(Desk.find?_openOrders.mp hopen).2] at hnew
      cases hnew
  | fill f => exact h.filled hallows hfresh hsettles
  | orderCanceled orderId reason => exact h.canceled hsettles
  | orderRested | bookDelta =>
    cases hsettles
    exact h
  | marketStatus symbol status =>
    cases hsettles
    cases status <;> exact h

end CryptoCex.Settlement
