import CryptoCex.Settlement.Obligations
import CryptoCex.Settlement.Transactions

/-!
# The progress of orders

The row of an order says how much of it is filled, at which average price, and whether that is
all of it. Settlement updates the three from the row as it was: the average from the previous
average. Here they are compared with the trades, which are there once for each fill.

Nothing is asked of the order in which the events are delivered, of how often they are, or of
the transactions that fail (`order_progress`). A fill is settled at most once, so the fills of an
order come to no more in the table than in the list of the events.
-/

namespace CryptoCex.Settlement

open CryptoCex.Core (Uuid)
open Db (OrderRow OrderStatus Tables TradeRow value)
open Proto (EngineEvent EngineOrder SequencedEngineEvent TradeFill)

/-! ## The trades of an order -/

/-- The trade is one of the order, as taker or as maker. -/
def ofOrder (orderId : Uuid) (trade : TradeRow) : Bool :=
  trade.takerOrderId = orderId ∨ trade.makerOrderId = orderId

def tradedQuantity (trades : List TradeRow) (orderId : Uuid) : ℚ :=
  ((trades.filter (ofOrder orderId)).map (·.quantity)).sum

def tradedNotional (trades : List TradeRow) (orderId : Uuid) : ℚ :=
  ((trades.filter (ofOrder orderId)).map fun trade => trade.price * trade.quantity).sum

/-- The row of an order agrees with its trades, and is `filled` when all of it is. An order
without fills has no average price, which counts as zero. -/
structure OrderProgress (trades : List TradeRow) (orderId : Uuid) (row : OrderRow) : Prop where
  filled : row.filledQuantity = tradedQuantity trades orderId
  average : row.avgFillPrice.getD 0 * row.filledQuantity = tradedNotional trades orderId
  within : ∃ quantity, row.quantity = some quantity ∧ row.filledQuantity ≤ quantity ∧
    (row.status = .filled ↔ row.filledQuantity = quantity)

/-! ## The fills of an order -/

/-- What an event fills of an order. -/
def quantityOf (orderId : Uuid) (e : SequencedEngineEvent) : ℚ :=
  match e.event with
  | .fill f => if f.takerOrderId = orderId ∨ f.makerOrderId = orderId then value f.quantity else 0
  | _ => 0

/-- Fills are of positive quantities, and those of an accepted order sum to at most its
quantity. -/
structure FillsWithin (es : List SequencedEngineEvent) : Prop where
  positive : ∀ e ∈ es, ∀ f, e.event = .fill f → 0 < f.quantity
  within : ∀ e ∈ es, ∀ order, e.event = .orderAccepted order →
    (es.map (quantityOf order.id)).sum ≤ value order.quantity

variable {db db' : Tables} {es done : List SequencedEngineEvent} {e : SequencedEngineEvent}
  {trades : List TradeRow} {orderId : Uuid}

theorem FillsWithin.quantityOf_nonneg (h : FillsWithin es) (he : e ∈ es) (orderId : Uuid) :
    0 ≤ quantityOf orderId e := by
  unfold quantityOf
  split
  · next f hf =>
    split_ifs
    · exact div_nonneg (Int.cast_nonneg (h.positive e he f hf).le) (by norm_num)
    · exact le_refl 0
  · exact le_refl 0

/-- What some of the events fill of an order is no more than what all of them do. -/
theorem FillsWithin.sum_le (h : FillsWithin es) (hnodup : done.Nodup) (hsub : ∀ e ∈ done, e ∈ es)
    (orderId : Uuid) :
    (done.map (quantityOf orderId)).sum ≤ (es.map (quantityOf orderId)).sum := by
  -- up to their order the settled events are a sublist of all of them
  rcases List.subperm_of_subset hnodup hsub with ⟨mid, hperm, hmid⟩
  rw [← (hperm.map (quantityOf orderId)).sum_eq]
  refine (hmid.map (quantityOf orderId)).sum_le_sum ?_
  intro x hx
  rcases List.mem_map.mp hx with ⟨e, he, rfl⟩
  exact h.quantityOf_nonneg he orderId

/-- The trade records the fill of the event. -/
def Traded (e : SequencedEngineEvent) (trade : TradeRow) : Prop :=
  ∃ f, e.event = .fill f ∧ trade.engineSeq = e.seq ∧ trade.takerOrderId = f.takerOrderId ∧
    trade.makerOrderId = f.makerOrderId ∧ trade.quantity = value f.quantity

/-- The traded quantity of an order is the sum over the fills that were settled. -/
theorem tradedQuantity_eq (h : List.Forall₂ Traded done trades) (orderId : Uuid) :
    tradedQuantity trades orderId = (done.map (quantityOf orderId)).sum := by
  induction h with
  | nil => rfl
  | @cons e trade done trades htraded _ ih =>
    rcases htraded with ⟨f, hf, _, htaker, hmaker, hquantity⟩
    rw [List.map_cons, List.sum_cons, ← ih]
    unfold tradedQuantity quantityOf
    rw [hf, List.filter_cons]
    simp only [ofOrder, htaker, hmaker, decide_eq_true_eq]
    split_ifs
    · rw [List.map_cons, List.sum_cons, hquantity]
    · rw [zero_add]

theorem tradedQuantity_append (trades : List TradeRow) (trade : TradeRow) (orderId : Uuid) :
    tradedQuantity (trades ++ [trade]) orderId = tradedQuantity trades orderId +
      if ofOrder orderId trade then trade.quantity else 0 := by
  unfold tradedQuantity
  rw [List.filter_append, List.map_append, List.sum_append, List.filter_singleton]
  cases ofOrder orderId trade <;> simp

theorem tradedNotional_append (trades : List TradeRow) (trade : TradeRow) (orderId : Uuid) :
    tradedNotional (trades ++ [trade]) orderId = tradedNotional trades orderId +
      if ofOrder orderId trade then trade.price * trade.quantity else 0 := by
  unfold tradedNotional
  rw [List.filter_append, List.map_append, List.sum_append, List.filter_singleton]
  cases ofOrder orderId trade <;> simp

/-! ## Rows -/

/-- The new average times the new quantity is what the old ones came to and the fill. -/
theorem fillColumns_average {row : OrderRow} {price quantity : ℚ} {columns : FillColumns}
    (h : fillColumns .exact row price quantity = .ok columns) :
    columns.avgFillPrice * columns.filledQuantity =
      row.avgFillPrice.getD 0 * row.filledQuantity + price * quantity := by
  unfold fillColumns at h
  rcases Except.bind_eq_ok.mp h with ⟨old, hold, h⟩
  rcases Except.bind_eq_ok.mp h with ⟨notional, hnotional, h⟩
  rcases Except.bind_eq_ok.mp h with ⟨avg, havg, h⟩
  rw [orPanic_eq_ok] at hold hnotional havg
  cases hold
  cases hnotional
  simp only [Arithmetic.exact] at havg
  by_cases hzero : row.filledQuantity + quantity = 0
  · rw [if_pos hzero] at havg
    cases havg
  · rw [if_neg hzero] at havg
    cases havg
    simp only [Arithmetic.exact] at h
    split_ifs at h
    cases h
    exact div_mul_cancel₀ _ hzero

/-- A fill that is within the quantity of the order. -/
theorem OrderProgress.setFill {row : OrderRow} {trade : TradeRow} {columns : FillColumns}
    {total : ℚ} (h : OrderProgress trades orderId row)
    (hcolumns : fillColumns .exact row trade.price trade.quantity = .ok columns)
    (hof : ofOrder orderId trade = true) (htotal : row.quantity = some total)
    (hle : tradedQuantity (trades ++ [trade]) orderId ≤ total) :
    OrderProgress (trades ++ [trade]) orderId (setFill row columns) := by
  rcases fillColumns_exact hcolumns with ⟨hfilled, hstatus⟩
  have hquantity : tradedQuantity (trades ++ [trade]) orderId = columns.filledQuantity := by
    rw [tradedQuantity_append, if_pos hof, hfilled, h.filled]
  rw [hquantity] at hle
  refine ⟨hquantity.symm, ?_, total, htotal, hle, ?_⟩
  · show columns.avgFillPrice * columns.filledQuantity = _
    rw [tradedNotional_append, if_pos hof, fillColumns_average hcolumns, h.average]
  · show columns.status = .filled ↔ columns.filledQuantity = total
    rw [hstatus, htotal, ← hfilled]
    unfold statusAfterFill
    constructor
    -- the code marks a row filled from its quantity on, and no more than that is traded
    · intro hdone
      dsimp only at hdone
      split_ifs at hdone with hall
      exact le_antisymm hle hall
    · intro hall
      exact if_pos hall.ge

/-- A trade of other orders. -/
theorem OrderProgress.other {row : OrderRow} {trade : TradeRow}
    (h : OrderProgress trades orderId row) (hof : ofOrder orderId trade = false) :
    OrderProgress (trades ++ [trade]) orderId row where
  filled := by
    rw [tradedQuantity_append, hof]
    simpa using h.filled
  average := by
    rw [tradedNotional_append, hof]
    simpa using h.average
  within := h.within

/-! ## The invariant -/

/-- The quantity of the row is that of an accepted order. -/
def AcceptedAs (es : List SequencedEngineEvent) (orderId : Uuid) (row : OrderRow) : Prop :=
  ∃ e ∈ es, ∃ order, e.event = .orderAccepted order ∧ order.id = orderId ∧
    row.quantity = some (value order.quantity)

/-- The tables hold trades of fills among the events, each once, and rows that agree with
them. -/
structure Tallied (es : List SequencedEngineEvent) (db : Tables) : Prop where
  rows : ∀ orderId row, db.orders.find? orderId = some row →
    OrderProgress db.trades orderId row ∧ AcceptedAs es orderId row
  known : ∀ trade ∈ db.trades, (db.orders.find? trade.takerOrderId).isSome ∧
    (db.orders.find? trade.makerOrderId).isSome
  settled : ∃ done, done.Nodup ∧ (∀ e ∈ done, e ∈ es) ∧ List.Forall₂ Traded done db.trades

/-- It is at most what the order was accepted with. -/
theorem Tallied.traded_le (hes : FillsWithin es) (hdone : done.Nodup) (hsub : ∀ e ∈ done, e ∈ es)
    (htraded : List.Forall₂ Traded done trades) {row : OrderRow} {total : ℚ}
    (haccepted : AcceptedAs es orderId row) (htotal : row.quantity = some total) :
    tradedQuantity trades orderId ≤ total := by
  rcases haccepted with ⟨e, he, order, hevent, rfl, hquantity⟩
  rw [htotal] at hquantity
  rw [Option.some.inj hquantity, tradedQuantity_eq htraded]
  exact (hes.sum_le hdone hsub order.id).trans (hes.within e he order hevent)

theorem Tallied.start (es : List SequencedEngineEvent) (horders : db.orders = OrdMap.empty)
    (htrades : db.trades = []) : Tallied es db where
  rows := by
    intro orderId row hrow
    rw [horders] at hrow
    cases hrow
  known := by
    rw [htrades]
    simp
  settled := by
    rw [htrades]
    exact ⟨[], .nil, by simp, .nil⟩

/-- Balances and the ledger do not matter. -/
theorem Tallied.congr (h : Tallied es db) (horders : db'.orders = db.orders)
    (htrades : db'.trades = db.trades) : Tallied es db' := by
  rcases h with ⟨hrows, hknown, hsettled⟩
  rw [← horders, ← htrades] at *
  exact ⟨hrows, hknown, hsettled⟩

theorem isSome_insert {orders : OrdMap Uuid OrderRow} {id : Uuid} {row : OrderRow}
    (h : (orders.find? orderId).isSome) : ((orders.insert id row).find? orderId).isSome := by
  rw [OrdMap.find?_insert]
  split_ifs
  · rfl
  · exact h

/-- An order that has no row has no trades. -/
theorem Tallied.untraded (h : Tallied es db) (hnew : db.orders.find? orderId = none) :
    db.trades.filter (ofOrder orderId) = [] := by
  rw [List.filter_eq_nil_iff]
  intro trade htrade hof
  rcases h.known trade htrade with ⟨htaker, hmaker⟩
  rcases of_decide_eq_true hof with rfl | rfl
  · rw [hnew] at htaker
    cases htaker
  · rw [hnew] at hmaker
    cases hmaker

/-- A new row has no trades. -/
theorem Tallied.accepted (h : Tallied es db) {seq : ℕ} {order : EngineOrder} {row : OrderRow}
    (he : ⟨seq, .orderAccepted order⟩ ∈ es) (hnew : db.orders.find? order.id = none)
    (hchecks : Tables.checkedRow some (acceptedRow order) .new = .ok row) :
    Tallied es { db with orders := db.orders.insert order.id row } := by
  rcases checkedRow_exact hchecks with ⟨rfl, _, hpos, _⟩
  have huntraded := h.untraded hnew
  refine ⟨?_, ?_, h.settled⟩
  · intro orderId row hrow
    rw [OrdMap.find?_insert] at hrow
    split_ifs at hrow with heq
    · cases hrow
      subst heq
      refine ⟨⟨?_, ?_, value order.quantity, rfl, ?_, ?_⟩, ⟨_, he, order, rfl, rfl, rfl⟩⟩
      · simp [tradedQuantity, huntraded]
      · simp [tradedNotional, huntraded]
      · exact (hpos _ rfl).le
      · exact iff_of_false (by simp) (hpos _ rfl).ne
    · exact h.rows orderId row hrow
  · intro trade htrade
    rcases h.known trade htrade with ⟨htaker, hmaker⟩
    exact ⟨isSome_insert htaker, isSome_insert hmaker⟩

/-- A cancel leaves what is filled as it is; the order is not filled. -/
theorem Tallied.canceled (h : Tallied es db) {row : OrderRow}
    (hrow : db.orders.find? orderId = some row) (hopen : terminal row.status = false) :
    Tallied es { db with orders := db.orders.insert orderId { row with status := .canceled } } := by
  rcases h.rows orderId row hrow with ⟨⟨hfilled, haverage, total, htotal, hle, hstatus⟩, haccepted⟩
  have hnot : row.status ≠ .filled := by
    intro heq
    rw [heq] at hopen
    cases hopen
  refine ⟨?_, ?_, h.settled⟩
  · intro id row' hrow'
    rw [OrdMap.find?_insert] at hrow'
    split_ifs at hrow' with heq
    · cases hrow'
      subst heq
      refine ⟨⟨hfilled, haverage, total, htotal, hle, ?_⟩, haccepted⟩
      exact iff_of_false (by simp) (fun hall => hnot (hstatus.mpr hall))
    · exact h.rows id row' hrow'
  · intro trade htrade
    rcases h.known trade htrade with ⟨htaker, hmaker⟩
    exact ⟨isSome_insert htaker, isSome_insert hmaker⟩

/-- Both rows of a fill are updated from what they were. -/
theorem Tallied.filled (h : Tallied es db) (hes : FillsWithin es) {seq : ℕ} {fill : TradeFill}
    {a : FillAmounts} (he : ⟨seq, .fill fill⟩ ∈ es)
    (hfresh : ∀ trade ∈ db.trades, trade.engineSeq ≠ seq) (ha : a.Of .exact db fill) :
    Tallied es { db with
      orders := a.orders db.orders
      trades := db.trades ++
        [tradeRow seq fill a.taker.row.market (value fill.price) (value fill.quantity)] } := by
  generalize htrade : tradeRow seq fill a.taker.row.market (value fill.price)
    (value fill.quantity) = trade
  have hnew : Traded ⟨seq, .fill fill⟩ trade := by
    subst htrade
    exact ⟨fill, rfl, rfl, rfl, rfl, rfl⟩
  have htakerId : trade.takerOrderId = a.taker.id := by
    subst htrade
    exact ha.taker_id.symm
  have hmakerId : trade.makerOrderId = a.maker.id := by
    subst htrade
    exact ha.maker_id.symm
  have htakerColumns : fillColumns .exact a.taker.row trade.price trade.quantity =
      .ok a.takerColumns := by
    subst htrade
    exact ha.takerColumns
  have hmakerColumns : fillColumns .exact a.maker.row trade.price trade.quantity =
      .ok a.makerColumns := by
    subst htrade
    exact ha.makerColumns
  rcases h.settled with ⟨done, hnodup, hsub, htraded⟩
  -- the event was not settled before: its number would be there
  have hnotDone : (⟨seq, .fill fill⟩ : SequencedEngineEvent) ∉ done := by
    intro hmem
    rcases List.forall₂_iff_get.mp htraded with ⟨hlen, hget⟩
    rcases List.mem_iff_get.mp hmem with ⟨i, hi⟩
    rcases hget i.1 i.2 (hlen ▸ i.2) with ⟨f, _, hseq, _⟩
    refine hfresh _ (List.get_mem db.trades ⟨i.1, hlen ▸ i.2⟩) ?_
    rw [hseq]
    exact congrArg SequencedEngineEvent.seq hi
  have hnodup' : (done ++ [(⟨seq, .fill fill⟩ : SequencedEngineEvent)]).Nodup := by
    rw [List.nodup_append]
    refine ⟨hnodup, List.nodup_singleton _, ?_⟩
    rintro x hx y hy rfl
    rw [List.mem_singleton] at hy
    exact hnotDone (hy ▸ hx)
  have hsub' : ∀ e ∈ done ++ [(⟨seq, .fill fill⟩ : SequencedEngineEvent)], e ∈ es := by
    intro e hmem
    rcases List.mem_append.mp hmem with hold | hlast
    · exact hsub e hold
    · rw [List.mem_singleton.mp hlast]
      exact he
  have htraded' : List.Forall₂ Traded (done ++ [⟨seq, .fill fill⟩]) (db.trades ++ [trade]) :=
    List.rel_append htraded (.cons hnew .nil)
  -- a row of the fill
  have hrow : ∀ order : FetchedOrder, ∀ columns, Fetches db order →
      ofOrder order.id trade = true →
      fillColumns .exact order.row trade.price trade.quantity = .ok columns →
      OrderProgress (db.trades ++ [trade]) order.id (setFill order.row columns) ∧
        AcceptedAs es order.id (setFill order.row columns) := by
    intro order columns hfetch hof hcolumns
    rcases h.rows order.id order.row hfetch.row with ⟨hprogress, haccepted⟩
    rcases hprogress.within with ⟨total, htotal, _⟩
    have hle := Tallied.traded_le hes hnodup' hsub' htraded' haccepted htotal
    exact ⟨hprogress.setFill hcolumns hof htotal hle, haccepted⟩
  refine ⟨?_, ?_, done ++ [⟨seq, .fill fill⟩], hnodup', hsub', htraded'⟩
  -- the maker's row is written after the taker's, so its case comes first
  · intro orderId row hfind
    simp only [FillAmounts.orders, OrdMap.find?_insert] at hfind
    split_ifs at hfind with hmaker htaker
    · cases hfind
      subst hmaker
      exact hrow a.maker _ ha.maker (by simp [ofOrder, hmakerId]) hmakerColumns
    · cases hfind
      subst htaker
      exact hrow a.taker _ ha.taker (by simp [ofOrder, htakerId]) htakerColumns
    · rcases h.rows orderId row hfind with ⟨hprogress, haccepted⟩
      refine ⟨hprogress.other ?_, haccepted⟩
      simp [ofOrder, htakerId, hmakerId, Ne.symm htaker, Ne.symm hmaker]
  · intro trade' hmem
    rcases List.mem_append.mp hmem with hold | hlast
    · rcases h.known trade' hold with ⟨htaker, hmaker⟩
      exact ⟨isSome_insert (isSome_insert htaker), isSome_insert (isSome_insert hmaker)⟩
    · rw [List.mem_singleton.mp hlast, htakerId, hmakerId]
      constructor
      · refine isSome_insert ?_
        simp
      · simp [FillAmounts.orders]

/-- Every event keeps the rows in tally with the trades. -/
theorem Tallied.step (h : Tallied es db) (hes : FillsWithin es) (he : e ∈ es)
    (hsettles : Settles .exact e.seq db e.event db') : Tallied es db' := by
  rcases e with ⟨seq, event⟩
  cases hsettles with
  | accepted _ hchecks hnew _ hledger =>
    have hkeeps := keepsRest_of_applyLedgers hledger
    exact (h.accepted he hnew hchecks).congr hkeeps.orders hkeeps.trades
  | @filled fill a price quantity after hfresh ha hprice hquantity _ _ hledger =>
    cases hprice
    cases hquantity
    exact (h.filled hes he hfresh ha).congr rfl (keepsRest_of_applyLedgers hledger).trades
  | @canceled orderId reason order _ after hid hfetch hopen _ hledger =>
    rw [← hid]
    exact (h.canceled hfetch.row hopen).congr rfl (keepsRest_of_applyLedgers hledger).trades
  | _ => exact h

/-! ## Deliveries -/

/-- The tables after these deliveries. A transaction that fails is rolled back. -/
def deliver (db : Tables) (deliveries : List SequencedEngineEvent) : Tables :=
  deliveries.foldl (fun db e => commit .exact db (.settle e)) db

/-- So does any delivery of events, again and again. -/
theorem Tallied.deliver (h : Tallied es db) (hes : FillsWithin es)
    {deliveries : List SequencedEngineEvent} (hdelivered : ∀ e ∈ deliveries, e ∈ es) :
    Tallied es (deliver db deliveries) := by
  unfold CryptoCex.Settlement.deliver
  induction deliveries generalizing db with
  | nil => exact h
  | cons e deliveries ih =>
    rw [List.foldl_cons]
    refine ih ?_ fun e' he' => hdelivered e' (List.mem_cons_of_mem e he')
    have he := hdelivered e List.mem_cons_self
    cases hsettle : settle .exact e.seq e.event db with
    | error =>
      have hcommit : commit .exact db (.settle e) = db := by simp only [commit, perform, hsettle]
      rw [hcommit]
      exact h
    | ok db' =>
      have hcommit : commit .exact db (.settle e) = db' := by simp only [commit, perform, hsettle]
      rw [hcommit]
      exact h.step hes he (settle_eq_ok.mp hsettle)

/-- After any deliveries of the events, each row agrees with the trades of its order. -/
theorem order_progress (horders : db.orders = OrdMap.empty) (htrades : db.trades = [])
    (hes : FillsWithin es) {deliveries : List SequencedEngineEvent}
    (hdelivered : ∀ e ∈ deliveries, e ∈ es) {row : OrderRow}
    (hrow : (deliver db deliveries).orders.find? orderId = some row) :
    OrderProgress (deliver db deliveries).trades orderId row :=
  (((Tallied.start es horders htrades).deliver hes hdelivered).rows orderId row hrow).1

/-- An order to sell of which half is bought before it is canceled. -/
def halfSold : List SequencedEngineEvent :=
  [⟨1, .orderAccepted (limitOrder 1 10 .sell 50 4)⟩,
    ⟨2, .orderAccepted (limitOrder 2 20 .buy 50 2)⟩,
    ⟨3, .fill (tradeFill 7 2 1 .buy 50 2)⟩, ⟨4, .orderCanceled 1 .adminCancel⟩]

theorem fillsWithin_halfSold : FillsWithin halfSold where
  positive := by
    intro e he f hf
    simp only [halfSold, List.mem_cons, List.not_mem_nil, or_false] at he
    rcases he with rfl | rfl | rfl | rfl
    all_goals cases hf
    decide
  within := by
    intro e he order horder
    simp only [halfSold, List.mem_cons, List.not_mem_nil, or_false] at he
    rcases he with rfl | rfl | rfl | rfl
    all_goals cases horder
    · decide +kernel
    · decide +kernel

/-- The fill is delivered again after the cancel. -/
theorem half_sold_progress : ∃ row,
    (deliver tradingTables (halfSold ++ [⟨3, .fill (tradeFill 7 2 1 .buy 50 2)⟩])).orders.find? 1 =
        some row ∧ row.status = .canceled ∧ row.filledQuantity = 2 ∧
      OrderProgress (deliver tradingTables
        (halfSold ++ [⟨3, .fill (tradeFill 7 2 1 .buy 50 2)⟩])).trades 1 row := by
  have hview : ((deliver tradingTables
      (halfSold ++ [⟨3, .fill (tradeFill 7 2 1 .buy 50 2)⟩])).orders.find? 1).map
        (fun row => (row.status, row.filledQuantity)) = some (.canceled, 2) := by decide +kernel
  rcases Option.map_eq_some_iff.mp hview with ⟨row, hrow, hpair⟩
  rcases Prod.mk.inj hpair with ⟨hstatus, hfilled⟩
  exact ⟨row, hrow, hstatus, hfilled,
    order_progress rfl rfl fillsWithin_halfSold (by simp [halfSold]) hrow⟩

end CryptoCex.Settlement
