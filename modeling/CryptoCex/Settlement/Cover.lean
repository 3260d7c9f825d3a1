import CryptoCex.Settlement.Desk

/-!
# Locks suffice for settlement

`Covered` says that in every account the locks cover what the orders still owe. An order of
which the API locks as much as it owes keeps the cover. Two kinds do not: the API locks
nothing for a stop order, and for a buy order without a price it locks a quote quantity, which
a fill of the forwarded quantity can exceed (`market_buy_overdraws`). If neither happens beyond
what is locked anyway, every fill and every cancel can be settled (`fills_and_cancels_commit`).
-/

namespace CryptoCex.Settlement

open Api (PlaceOrderInput pendingRow validateInput)
open CryptoCex.Core (Decimal Uuid)
open Db (MarketRow OrderRow OrderStatus Tables value)
open Machine (run Along)
open Proto (EngineEvent OrderSide SequencedEngineEvent TradeFill)

/-! ## The cover -/

/-- An order that settlement can fill or cancel: it is not overfilled, and its owner has balances
in both assets of its market. -/
structure Sound (db : Tables) (row : OrderRow) : Prop where
  left : 0 ≤ remaining row
  price : ∀ price, row.price = some price → 0 < price
  filled : 0 ≤ row.filledQuantity
  average : 0 ≤ row.avgFillPrice.getD 0
  market : ∃ market, db.markets row.market = some market ∧
    (db.balances (row.userId, market.baseAssetId)).isSome ∧
    (db.balances (row.userId, market.quoteAssetId)).isSome

/-- In every account the locks cover what the orders owe. -/
structure Covered (s : Desk) : Prop where
  balances : NonnegBalances s.db
  fees : ∀ symbol market, s.db.markets symbol = some market →
    market.makerFeeBps ≤ 10000 ∧ market.takerFeeBps ≤ 10000
  orders : ∀ orderId row, s.db.orders.find? orderId = some row → Sound s.db row
  spare : ∀ key, 0 ≤ s.spare key

variable {mul : Decimal → Decimal → Option Decimal} {db db' : Tables} {seq : ℕ} {s : Desk}

/-- An order with something left owes no negative amount. -/
theorem owes_nonneg {row : OrderRow} (hleft : 0 ≤ remaining row)
    (hprice : ∀ price, row.price = some price → 0 < price) (markets : String → Option MarketRow)
    (key : Uuid × Uuid) : 0 ≤ owes markets key row := by
  unfold owes
  cases markets row.market with
  | none => exact le_rfl
  | some market => exact inAccount_nonneg (owedFor_nonneg hleft hprice)

/-- The owner of an order has balances in both assets of its market. -/
theorem Covered.balances_of (h : Covered s) {order : FetchedOrder} (hfetch : Fetches s.db order) :
    (s.db.balances (order.row.userId, order.market.baseAssetId)).isSome ∧
      (s.db.balances (order.row.userId, order.market.quoteAssetId)).isSome := by
  rcases (h.orders _ _ hfetch.row).market with ⟨market, hmarket, hrows⟩
  rw [hfetch.market] at hmarket
  cases hmarket
  exact hrows

/-- What a step has to show that changes balances and orders only. -/
theorem Covered.next (h : Covered s) {s' : Desk} (hnonneg : NonnegBalances s'.db)
    (hmarkets : s'.db.markets = s.db.markets)
    (hrows : ∀ key, (s'.db.balances key).isSome = (s.db.balances key).isSome)
    (horders : ∀ orderId row, s'.db.orders.find? orderId = some row → Sound s.db row)
    (hspare : ∀ key, 0 ≤ s'.spare key) : Covered s' where
  balances := hnonneg
  fees := by
    rw [hmarkets]
    exact h.fees
  orders := by
    intro orderId row hrow
    have hsound := horders orderId row hrow
    rcases hsound.market with ⟨market, hmarket, hbase, hquote⟩
    exact { hsound with
      market := ⟨market, hmarkets ▸ hmarket, (hrows _).trans hbase, (hrows _).trans hquote⟩ }
  spare := hspare

/-! ## A fill -/

/-- A fee is at most what it is taken from. -/
theorem fee_le {gross bps : ℚ} (hgross : 0 ≤ gross) (hbps : bps ≤ 10000) :
    gross * bps / 10000 ≤ gross := by
  rw [div_le_iff₀ (by norm_num)]
  exact mul_le_mul_of_nonneg_left hbps hgross

/-- The columns of a fill pass their checks. -/
theorem fillColumns_commits {row : OrderRow} (h : Sound db row) {price quantity : ℚ}
    (hprice : 0 < price) (hquantity : 0 < quantity) :
    ∃ columns, fillColumns .exact row price quantity = .ok columns ∧
      0 ≤ columns.filledQuantity ∧ 0 ≤ columns.avgFillPrice := by
  have hfilled : 0 < row.filledQuantity + quantity := by
    have := h.filled
    linarith
  have havg : 0 ≤ (row.avgFillPrice.getD 0 * row.filledQuantity + price * quantity) /
      (row.filledQuantity + quantity) :=
    div_nonneg (add_nonneg (mul_nonneg h.average h.filled) (mul_pos hprice hquantity).le) hfilled.le
  refine ⟨⟨_, _, statusAfterFill row.quantity (row.filledQuantity + quantity)⟩, ?_, hfilled.le,
    havg⟩
  simp only [fillColumns, Arithmetic.exact, orPanic, bind, Except.bind, if_neg hfilled.ne']
  rw [if_pos ⟨hfilled.le, havg⟩]
  rfl

/-- What a fill computes in a covered state, and what is known of its orders. -/
structure FillPlan (s : Desk) (f : TradeFill) (a : FillAmounts) : Prop where
  amounts : a.Of .exact s.db f
  taker : s.openOrders.find? a.taker.id = some a.taker.row
  maker : s.openOrders.find? a.maker.id = some a.maker.row
  taker_left : value f.quantity ≤ remaining a.taker.row
  maker_left : value f.quantity ≤ remaining a.maker.row
  sides : (a.buyer f).row.side = .buy ∧ (a.seller f).row.side = .sell
  notional : a.notional = value f.price * value f.quantity
  takerFee : a.takerFee ≤ value f.quantity
  makerFee : a.makerFee ≤ a.notional
  columns : 0 ≤ a.takerColumns.filledQuantity ∧ 0 ≤ a.takerColumns.avgFillPrice ∧
    0 ≤ a.makerColumns.filledQuantity ∧ 0 ≤ a.makerColumns.avgFillPrice

/-- The amounts of a fill of two open orders, with what is known of them. -/
theorem Covered.fillPlan (h : Covered s) {f : TradeFill} (hf : Fillable s seq f) :
    ∃ a, FillPlan s f a := by
  rcases hf.taker with ⟨takerRow, htakerOpen, htakerSide, htakerLeft⟩
  rcases hf.maker with ⟨makerRow, hmakerOpen, hmakerSide, hmakerLeft⟩
  have htaker := (Desk.find?_openOrders.mp htakerOpen).2
  have hmaker := (Desk.find?_openOrders.mp hmakerOpen).2
  rcases (h.orders _ _ htaker).market with ⟨takerMarket, htakerMarket, _⟩
  rcases (h.orders _ _ hmaker).market with ⟨makerMarket, hmakerMarket, _⟩
  rcases fillColumns_commits (h.orders _ _ htaker) hf.price hf.quantity with
    ⟨takerColumns, htakerColumns, htaker0, htaker1⟩
  rcases fillColumns_commits (h.orders _ _ hmaker) hf.price hf.quantity with
    ⟨makerColumns, hmakerColumns, hmaker0, hmaker1⟩
  have hnotional : 0 ≤ value f.price * value f.quantity := (mul_pos hf.price hf.quantity).le
  let a : FillAmounts :=
    { taker := ⟨f.takerOrderId, takerRow, takerMarket⟩
      maker := ⟨f.makerOrderId, makerRow, makerMarket⟩
      notional := value f.price * value f.quantity
      takerFee := value f.quantity * takerMarket.takerFeeBps / 10000
      makerFee := value f.price * value f.quantity * makerMarket.makerFeeBps / 10000
      takerColumns := takerColumns
      makerColumns := makerColumns }
  -- the buyer is the one on the buy side, taker or maker
  have hsides : (a.buyer f).row.side = .buy ∧ (a.seller f).row.side = .sell := by
    unfold FillAmounts.buyer FillAmounts.seller parties
    cases hside : f.takerSide with
    | buy =>
      rw [hside] at htakerSide hmakerSide
      exact ⟨htakerSide, by cases hs : makerRow.side <;> simp_all⟩
    | sell =>
      rw [hside] at htakerSide hmakerSide
      exact ⟨by cases hs : makerRow.side <;> simp_all, htakerSide⟩
  exact ⟨a, {
    amounts := ⟨rfl, rfl, ⟨htaker, htakerMarket⟩, ⟨hmaker, hmakerMarket⟩, rfl, feeAmount_exact _ _,
      feeAmount_exact _ _, htakerColumns, hmakerColumns⟩
    taker := htakerOpen
    maker := hmakerOpen
    taker_left := htakerLeft
    maker_left := hmakerLeft
    sides := hsides
    notional := rfl
    takerFee := fee_le hf.quantity.le (h.fees _ _ htakerMarket).2
    makerFee := fee_le hnotional (h.fees _ _ hmakerMarket).1
    columns := ⟨htaker0, htaker1, hmaker0, hmaker1⟩ }⟩

theorem FillAmounts.Of.buyer {f : TradeFill} {a : FillAmounts} (h : a.Of .exact db f) :
    Fetches db (a.buyer f) := by
  unfold FillAmounts.buyer parties
  cases f.takerSide with
  | buy => exact h.taker
  | sell => exact h.maker

theorem FillAmounts.Of.seller {f : TradeFill} {a : FillAmounts} (h : a.Of .exact db f) :
    Fetches db (a.seller f) := by
  unfold FillAmounts.seller parties
  cases f.takerSide with
  | buy => exact h.maker
  | sell => exact h.taker

/-- What an order of a fill owes for the quantity of the fill. -/
def filledPart (f : TradeFill) (key : Uuid × Uuid) (order : FetchedOrder) : ℚ :=
  inAccount key order.row.userId (owedFor order.market order.row (value f.quantity))

section Fill

variable {f : TradeFill} {a : FillAmounts} (h : Covered s) (hf : Fillable s seq f)
  (ha : FillPlan s f a)

include h hf ha

/-- The orders after the fill are not overfilled. -/
theorem FillPlan.sound_taker : Sound s.db (setFill a.taker.row a.takerColumns) := by
  have hsound := h.orders _ _ ha.amounts.taker.row
  exact {
    left := (remaining_setFill ha.amounts.takerColumns hf.quantity ha.taker_left).2.2
    price := hsound.price
    filled := ha.columns.1
    average := ha.columns.2.1
    market := hsound.market }

theorem FillPlan.sound_maker : Sound s.db (setFill a.maker.row a.makerColumns) := by
  have hsound := h.orders _ _ ha.amounts.maker.row
  exact {
    left := (remaining_setFill ha.amounts.makerColumns hf.quantity ha.maker_left).2.2
    price := hsound.price
    filled := ha.columns.2.2.1
    average := ha.columns.2.2.2
    market := hsound.market }

omit h in
/-- What the orders owe after the fill. -/
theorem FillPlan.owed (key : Uuid × Uuid) :
    (a.orders s.openOrders).total (owes s.db.markets key) =
      s.owed key - (filledPart f key (a.buyer f) + filledPart f key (a.seller f)) := by
  have hne : a.maker.id ≠ a.taker.id := by
    rw [ha.amounts.taker_id, ha.amounts.maker_id]
    exact Ne.symm hf.distinct
  exact FillAmounts.total_filled f (filledPart f key) ha.taker ha.maker hne
    (owes_setFill ha.amounts.taker.market ha.amounts.takerColumns hf.quantity ha.taker_left key)
    (owes_setFill ha.amounts.maker.market ha.amounts.makerColumns hf.quantity ha.maker_left key)

/-- What the two orders owe for the fill is among what is owed. -/
theorem FillPlan.parts_le (key : Uuid × Uuid) :
    filledPart f key (a.buyer f) + filledPart f key (a.seller f) ≤ s.owed key := by
  have hnonneg : 0 ≤ (a.orders s.openOrders).total (owes s.db.markets key) := by
    refine OrdMap.total_nonneg ?_
    intro orderId row hrow
    rw [FillAmounts.orders, OrdMap.find?_insert, OrdMap.find?_insert] at hrow
    split_ifs at hrow
    · cases hrow
      have hsound := ha.sound_maker h hf
      exact owes_nonneg hsound.left hsound.price _ key
    · cases hrow
      have hsound := ha.sound_taker h hf
      exact owes_nonneg hsound.left hsound.price _ key
    · have hsound := h.orders _ _ (Desk.find?_openOrders.mp hrow).2
      exact owes_nonneg hsound.left hsound.price _ key
  rw [ha.owed hf] at hnonneg
  linarith

/-- The cost of the fill is what the buyer owes for it, or there is enough to spare. -/
theorem FillPlan.notional_le (hpaid : PaidFor s f) :
    a.notional ≤ s.spare ((a.buyer f).row.userId, (a.buyer f).market.quoteAssetId) +
      (owedFor (a.buyer f).market (a.buyer f).row (value f.quantity)).2 := by
  have hspare := h.spare ((a.buyer f).row.userId, (a.buyer f).market.quoteAssetId)
  have hsound := h.orders _ _ ha.amounts.buyer.row
  rw [ha.notional]
  rcases hpaid _ _ ha.amounts.buyer_row ha.amounts.buyer.market with ⟨price, hprice, hle⟩ | hcovered
  · have howed : (owedFor (a.buyer f).market (a.buyer f).row (value f.quantity)).2 =
        price * value f.quantity := by
      rw [owedFor, ha.sides.1, hprice]
      rfl
    have hcost := mul_le_mul_of_nonneg_right hle hf.quantity.le
    rw [howed]
    linarith
  · have howed : 0 ≤ (owedFor (a.buyer f).market (a.buyer f).row (value f.quantity)).2 :=
      owedFor_nonneg hf.quantity.le hsound.price
    linarith

/-- What the two sides of the fill pay. -/
theorem FillPlan.costs_le (hpaid : PaidFor s f) (key : Uuid × Uuid) :
    inAccount key (a.buyer f).row.userId ((a.buyer f).market.quoteAssetId, a.notional) +
      inAccount key (a.seller f).row.userId
        ((a.seller f).market.baseAssetId, value f.quantity) ≤
      s.spare key + (filledPart f key (a.buyer f) + filledPart f key (a.seller f)) := by
  have hspare := h.spare key
  have hcost := ha.notional_le h hf hpaid
  have hsound := h.orders _ _ ha.amounts.buyer.row
  unfold filledPart inAccount
  simp only [owedFor_buy ha.sides.1, owedFor_sell ha.sides.2]
  by_cases hbuyer : key = ((a.buyer f).row.userId, (a.buyer f).market.quoteAssetId)
  · rw [if_pos hbuyer, if_pos hbuyer]
    rw [← hbuyer] at hcost
    linarith
  · rw [if_neg hbuyer, if_neg hbuyer]
    linarith

/-- What is locked pays for both sides of the fill. -/
theorem FillPlan.pays (hpaid : PaidFor s f) (key : Uuid × Uuid) :
    inAccount key (a.buyer f).row.userId ((a.buyer f).market.quoteAssetId, a.notional) +
      inAccount key (a.seller f).row.userId
        ((a.seller f).market.baseAssetId, value f.quantity) ≤ locked s.db key := by
  have hparts := ha.parts_le h hf key
  have hcosts := ha.costs_le h hf hpaid key
  rw [Desk.spare] at hcosts
  linarith

/-- All six changes of the fill commit. -/
theorem FillPlan.ledger_commits (hpaid : PaidFor s f) {before : Tables}
    (hbefore : before.balances = s.db.balances) :
    ∃ after, applyLedgers Arithmetic.exact.store (a.mutations seq f) before = .ok after := by
  have hpays := ha.pays h hf hpaid
  have hbuyer := h.balances_of ha.amounts.buyer
  have hseller := h.balances_of ha.amounts.seller
  have hcost : 0 ≤ a.notional := by
    rw [ha.notional]
    exact (mul_pos hf.price hf.quantity).le
  rw [← hbefore] at hbuyer hseller
  have hnonneg : NonnegBalances before := by
    unfold NonnegBalances
    rw [hbefore]
    exact h.balances
  -- the buyer receives, then pays
  rcases credit_commits f.tradeId hf.seq hnonneg hbuyer.1 hf.quantity.le ha.takerFee
    with ⟨mid₁, h₁, hm₁⟩
  have hpay₁ : a.notional ≤
      locked mid₁ ((a.buyer f).row.userId, (a.buyer f).market.quoteAssetId) := by
    have hle := hpays ((a.buyer f).row.userId, (a.buyer f).market.quoteAssetId)
    have hother : 0 ≤ inAccount ((a.buyer f).row.userId, (a.buyer f).market.quoteAssetId)
        (a.seller f).row.userId ((a.seller f).market.baseAssetId, value f.quantity) :=
      inAccount_nonneg hf.quantity.le
    rw [hm₁.locked, locked_congr hbefore]
    rw [inAccount, if_pos rfl] at hle
    linarith
  rcases pay_commits f.tradeId hf.seq (hm₁.nonneg hnonneg)
    ((hm₁.rows _).trans hbuyer.2) hpay₁ with ⟨mid₂, h₂, hm₂⟩
  have hm₁₂ := hm₁.trans hm₂
  -- the seller receives, then pays
  rcases credit_commits f.tradeId hf.seq (hm₁₂.nonneg hnonneg)
    ((hm₁₂.rows _).trans hseller.2) hcost ha.makerFee with ⟨mid₃, h₃, hm₃⟩
  have hm₁₃ := hm₁₂.trans hm₃
  have hpay₂ : value f.quantity ≤
      locked mid₃ ((a.seller f).row.userId, (a.seller f).market.baseAssetId) := by
    have hle := hpays ((a.seller f).row.userId, (a.seller f).market.baseAssetId)
    have hself : inAccount ((a.seller f).row.userId, (a.seller f).market.baseAssetId)
        (a.seller f).row.userId ((a.seller f).market.baseAssetId, value f.quantity) =
          value f.quantity := if_pos rfl
    rw [hm₁₃.locked, locked_congr hbefore]
    rw [hself] at hle
    linarith
  rcases pay_commits f.tradeId hf.seq (hm₁₃.nonneg hnonneg)
    ((hm₁₃.rows _).trans hseller.1) hpay₂ with ⟨after, h₄, _⟩
  refine ⟨after, ?_⟩
  rw [FillAmounts.mutations, fillMutations_eq]
  refine applyLedgers_append_eq_ok.mpr ⟨mid₁, h₁, ?_⟩
  refine applyLedgers_append_eq_ok.mpr ⟨mid₂, h₂, ?_⟩
  exact applyLedgers_append_eq_ok.mpr ⟨mid₃, h₃, h₄⟩

end Fill

/-- A fill is settled, or has been before. -/
theorem Covered.fill_commits (h : Covered s) {f : TradeFill} (hf : Fillable s seq f)
    (hpaid : PaidFor s f) : Settles .exact seq s.db (.fill f) s.db ∨
      ∃ a before after, FillPlan s f a ∧ KeepsRest before after ∧
        before.balances = s.db.balances ∧ before.markets = s.db.markets ∧
        applyLedgers Arithmetic.exact.store (a.mutations seq f) before = .ok after ∧
        Settles .exact seq s.db (.fill f) { after with orders := a.orders s.db.orders } := by
  by_cases htraded : ∃ trade ∈ s.db.trades, trade.engineSeq = seq
  · exact .inl (.traded htraded)
  · have hnew : ∀ trade ∈ s.db.trades, trade.engineSeq ≠ seq := by
      intro trade htrade hseq
      exact htraded ⟨trade, htrade, hseq⟩
    rcases h.fillPlan hf with ⟨a, ha⟩
    let before : Tables := { s.db with trades := s.db.trades ++
      [tradeRow seq f a.taker.row.market (value f.price) (value f.quantity)] }
    have hbalances : before.balances = s.db.balances := rfl
    rcases ha.ledger_commits h hf hpaid hbalances with ⟨after, hledger⟩
    exact .inr ⟨a, before, after, ha, keepsRest_of_applyLedgers hledger, rfl, rfl, hledger,
      .filled hnew ha.amounts rfl rfl ⟨hf.price, hf.quantity, hf.seq⟩ hf.fresh hledger⟩

/-- An event is settled in one way. -/
theorem Settles.unique {arith : Arithmetic} {event : EngineEvent} {db'' : Tables}
    (h : Settles arith seq db event db') (h' : Settles arith seq db event db'') : db' = db'' := by
  rw [← settle_eq_ok] at h h'
  rw [h] at h'
  exact Except.ok.inj h'

/-- The open orders after a fill. -/
theorem FillPlan.openOrders {f : TradeFill} {a : FillAmounts} (ha : FillPlan s f a)
    (db' : Tables) (horders : db'.orders = a.orders s.db.orders) :
    Desk.openOrders ⟨db', s.closed⟩ = a.orders s.openOrders := by
  have htaker : a.taker.id ∉ s.closed := (Desk.find?_openOrders.mp ha.taker).1
  have hmaker : a.maker.id ∉ s.closed := (Desk.find?_openOrders.mp ha.maker).1
  simp only [Desk.openOrders, horders, FillAmounts.orders, OrdMap.filterKeys_insert, htaker,
    hmaker, not_false_eq_true, decide_true, if_true]

/-- A fill that is paid for keeps the cover. -/
theorem Covered.filled (h : Covered s) {f : TradeFill} (hf : Fillable s seq f)
    (hpaid : PaidFor s f) (hsettles : Settles .exact seq s.db (.fill f) db') :
    Covered ⟨db', s.closed⟩ := by
  rcases h.fill_commits hf hpaid with hidle | ⟨a, before, after, ha, hkeeps, hbalances, hmarkets,
    hledger, hfilled⟩
  · rw [hsettles.unique hidle]
    exact h
  have hdb := hsettles.unique hfilled
  have hmoves := moves_applyLedgers hledger
  have hmarkets' : db'.markets = s.db.markets := by
    rw [hdb]
    exact hkeeps.markets.trans hmarkets
  refine h.next ?_ hmarkets' ?_ ?_ ?_
  · rw [hdb]
    refine hmoves.nonneg ?_
    unfold NonnegBalances
    rw [hbalances]
    exact h.balances
  · intro key
    rw [hdb, ← hbalances]
    exact hmoves.rows key
  · -- the two rows of the fill stay sound, the others are untouched
    intro orderId row hrow
    rw [hdb, FillAmounts.orders, OrdMap.find?_insert, OrdMap.find?_insert] at hrow
    split_ifs at hrow
    · cases hrow
      exact ha.sound_maker h hf
    · cases hrow
      exact ha.sound_taker h hf
    · exact h.orders orderId row hrow
  · -- what is unlocked is what the rows owe no more
    intro key
    have hlocked : locked db' key = locked after key := by rw [hdb]; rfl
    have hcosts := ha.costs_le h hf hpaid key
    have hafter := locked_filled hledger key
    rw [locked_congr hbalances] at hafter
    have hopen := ha.openOrders db' (by rw [hdb])
    rw [Desk.spare, Desk.owed, hopen]
    change 0 ≤ locked db' key - (a.orders s.openOrders).total (owes db'.markets key)
    rw [hmarkets', ha.owed hf, hlocked, hafter]
    rw [Desk.spare] at hcosts
    linarith

/-! ## A cancel -/

/-- An order that is over does not owe anything any more. -/
theorem Desk.owed_over {orderId : Uuid} {row : OrderRow}
    (hopen : s.openOrders.find? orderId = some row) {db' : Tables}
    (horders : ∀ id, id ≠ orderId → db'.orders.find? id = s.db.orders.find? id)
    (hmarkets : db'.markets = s.db.markets) (key : Uuid × Uuid) :
    Desk.owed ⟨db', orderId :: s.closed⟩ key = s.owed key - owes s.db.markets key row := by
  have herase : Desk.openOrders ⟨db', orderId :: s.closed⟩ = s.openOrders.erase orderId := by
    apply OrdMap.ext_find?
    intro id
    simp only [Desk.openOrders, OrdMap.find?_filterKeys, OrdMap.find?_erase, List.mem_cons]
    by_cases hid : id = orderId
    · simp [hid]
    · simp [hid, horders id hid]
  rw [Desk.owed, Desk.owed, herase, OrdMap.total_erase hopen]
  simp only [hmarkets]
  ring

/-- Closing an order only lowers what is owed. -/
theorem Covered.close (h : Covered s) (orderId : Uuid) : Covered ⟨s.db, orderId :: s.closed⟩ := by
  refine h.next h.balances rfl (fun _ => rfl) h.orders ?_
  intro key
  have hspare := h.spare key
  cases hopen : s.openOrders.find? orderId with
  -- what the order owed is owed no more
  | some row =>
    have hsound := h.orders _ _ (Desk.find?_openOrders.mp hopen).2
    have howes := owes_nonneg hsound.left hsound.price s.db.markets key
    rw [Desk.spare] at hspare ⊢
    rw [Desk.owed_over hopen (fun _ _ => rfl) rfl]
    linarith
  -- it was not open
  | none =>
    have hsame : Desk.openOrders ⟨s.db, orderId :: s.closed⟩ = s.openOrders := by
      apply OrdMap.ext_find?
      intro id
      simp only [Desk.openOrders, OrdMap.find?_filterKeys, List.mem_cons] at hopen ⊢
      by_cases hid : id = orderId
      · simp_all
      · simp [hid]
    rw [Desk.spare, Desk.owed] at hspare ⊢
    rw [hsame]
    exact hspare

/-- A cancellation of an open order commits. -/
theorem Covered.cancel_commits (h : Covered s) {orderId : Uuid} {reason : Proto.CancelReason}
    (horder : (s.openOrders.find? orderId).isSome) (hseq : 0 < seq) :
    ∃ db', Settles .exact seq s.db (.orderCanceled orderId reason) db' := by
  rcases Option.isSome_iff_exists.mp horder with ⟨row, hopen⟩
  have hrow := (Desk.find?_openOrders.mp hopen).2
  have hsound := h.orders _ _ hrow
  rcases hsound.market with ⟨market, hmarket, hbase, hquote⟩
  let order : FetchedOrder := ⟨orderId, row, market⟩
  have hid : order.id = orderId := rfl
  have hfetch : Fetches s.db order := ⟨hrow, hmarket⟩
  cases hterminal : terminal row.status with
  | true => exact ⟨s.db, .closed hid hfetch hterminal⟩
  | false =>
    have howed : 0 ≤ (owedFor market row (remaining row)).2 :=
      owedFor_nonneg hsound.left hsound.price
    -- what the order owes is among what is locked
    have hlocked : (owedFor market row (remaining row)).2 ≤
        locked s.db (row.userId, (owedFor market row (remaining row)).1) := by
      have htotal := OrdMap.total_erase
        (f := owes s.db.markets (row.userId, (owedFor market row (remaining row)).1)) hopen
      have hothers : 0 ≤ (s.openOrders.erase orderId).total
          (owes s.db.markets (row.userId, (owedFor market row (remaining row)).1)) := by
        refine OrdMap.total_nonneg ?_
        intro id other hother
        rw [OrdMap.find?_erase] at hother
        split_ifs at hother
        have hsound' := h.orders _ _ (Desk.find?_openOrders.mp hother).2
        exact owes_nonneg hsound'.left hsound'.price _ _
      have hspare := h.spare (row.userId, (owedFor market row (remaining row)).1)
      rw [Desk.spare, Desk.owed, htotal, owes_eq hmarket, inAccount, if_pos rfl] at hspare
      linarith
    have hasset : (s.db.balances (row.userId, (owedFor market row (remaining row)).1)).isSome := by
      unfold owedFor
      cases row.side with
      | buy => exact hquote
      | sell => exact hbase
    rcases Option.isSome_iff_exists.mp hasset with ⟨balance, hbalance⟩
    rcases h.balances _ _ hbalance with ⟨havailable, _⟩
    simp only [locked, hbalance] at hlocked
    have hledger : ∃ after, applyLedgers Arithmetic.exact.store (obligationMutations
        (unlockMutation seq orderId row.userId) (owedFor market row (remaining row))) s.db =
          .ok after := by
      unfold obligationMutations
      split_ifs
      · rcases applyLedger_commits
          (m := unlockMutation seq orderId row.userId (owedFor market row (remaining row)).1
            (owedFor market row (remaining row)).2) hbalance (add_nonneg havailable howed)
          (by simp only [unlockMutation]; linarith) (by simpa [unlockMutation] using hseq.ne')
          with ⟨after, hafter, _⟩
        exact ⟨after, applyLedgers_cons_eq_ok.mpr ⟨after, hafter, rfl⟩⟩
      · exact ⟨s.db, rfl⟩
    rcases hledger with ⟨after, hledger⟩
    exact ⟨_, .canceled hid hfetch hterminal (cancelObligation_exact order) hledger⟩

/-- And it keeps the cover. -/
theorem Covered.canceled (h : Covered s) {orderId : Uuid} {reason : Proto.CancelReason}
    (horder : (s.openOrders.find? orderId).isSome)
    (hsettles : Settles .exact seq s.db (.orderCanceled orderId reason) db') :
    Covered ⟨db', orderId :: s.closed⟩ := by
  rcases Option.isSome_iff_exists.mp horder with ⟨row, hopen⟩
  have hrow := (Desk.find?_openOrders.mp hopen).2
  have hsound := h.orders _ _ hrow
  cases hsettles with
  -- a closed order owes nothing
  | closed => exact h.close orderId
  | @canceled _ _ order obligation after hid hfetch hterminal hobligation hledger =>
    rw [cancelObligation_exact] at hobligation
    cases hobligation
    have hsame : order.row = row := by
      have hfound := hfetch.row
      rw [hid, hrow] at hfound
      exact (Option.some.inj hfound).symm
    have hmoves := moves_applyLedgers hledger
    refine h.next (hmoves.nonneg h.balances) hmoves.keeps.markets hmoves.rows ?_ ?_
    · intro id row' hrow'
      rw [OrdMap.find?_insert] at hrow'
      split_ifs at hrow' with heq
      · cases hrow'
        rw [hsame]
        exact { hsound with }
      · exact h.orders id row' hrow'
    · intro key
      have hlocked := locked_applyLedgers hledger key
      rw [lockedIn_obligation order.row.userId (-1) (by simp [unlockMutation])
        (owedFor_nonneg (hsame ▸ hsound.left) (hsame ▸ hsound.price)), ← owes_eq hfetch.market,
        hsame] at hlocked
      have hspare := h.spare key
      let db' : Tables := { after with
        orders := s.db.orders.insert orderId { order.row with status := .canceled } }
      -- the order is over, and its obligation is unlocked
      have hothers : ∀ id, id ≠ orderId → db'.orders.find? id = s.db.orders.find? id := by
        intro id hne
        rw [OrdMap.find?_insert, if_neg hne]
      have howed := Desk.owed_over hopen hothers hmoves.keeps.markets key
      rw [Desk.spare] at hspare ⊢
      change 0 ≤ locked after key - Desk.owed ⟨db', orderId :: s.closed⟩ key
      linarith

/-! ## Statuses -/

/-- A status owes nothing. -/
theorem Covered.updateStatus (h : Covered s) (orderId : Uuid) (status : OrderStatus) :
    Covered { s with db := s.db.updateStatus orderId status } := by
  unfold Tables.updateStatus
  cases hfind : s.db.orders.find? orderId with
  | none => exact h
  | some row =>
    refine h.next h.balances rfl (fun _ => rfl) ?_ ?_
    · intro id row' hrow'
      rw [OrdMap.find?_insert] at hrow'
      split_ifs at hrow'
      · cases hrow'
        exact { h.orders orderId row hfind with }
      · exact h.orders id row' hrow'
    · -- what an order owes does not depend on its status
      intro key
      have hspare := h.spare key
      rw [Desk.spare, Desk.owed, Desk.openOrders] at hspare ⊢
      simp only [OrdMap.filterKeys_insert]
      split_ifs with hopen
      · have hsame : (s.db.orders.filterKeys fun orderId => orderId ∉ s.closed).find? orderId =
            some row := by
          rw [OrdMap.find?_filterKeys, if_pos hopen, hfind]
        have htotal := OrdMap.total_insert_known (f := owes s.db.markets key) hsame
          { row with status := status }
        change _ + owes s.db.markets key row = _ + owes s.db.markets key row at htotal
        rw [add_right_cancel htotal]
        exact hspare
      · exact hspare

/-- Nor do many. -/
theorem Covered.markOrdersCanceled (h : Covered s) (orderIds : List Uuid) :
    Covered { s with db := s.db.markOrdersCanceled orderIds } := by
  unfold Tables.markOrdersCanceled
  induction orderIds generalizing s with
  | nil => exact h
  | cons orderId orderIds ih =>
    rw [List.foldl_cons]
    unfold Tables.markOrderCanceled
    split
    · exact ih h
    · split_ifs
      · exact ih (h.updateStatus orderId .canceled)
      · exact ih h

/-! ## Forwarded and refused orders -/

/-- The lock of an order is as much as the order owes, or there is enough to spare. -/
theorem Covered.lock_covers (h : Covered s) {userId : Uuid} {input : PlaceOrderInput}
    {quantity : Decimal} {market : MarketRow} {lock : Option (Uuid × Decimal)}
    (hmul : Unrounded mul input) (hquantity : validateInput input = .ok quantity)
    (hlock : lockFor mul input quantity market = some lock)
    (hstop : isStop input.orderType = true → (owedAtFirst input quantity market).2 ≤
      s.spare (userId, (owedAtFirst input quantity market).1))
    (hquote : ∀ amount, input.quoteQuantity = some amount → 0 ≤ value amount)
    (howed : 0 ≤ (owedAtFirst input quantity market).2) (key : Uuid × Uuid) :
    inAccount key userId (owedAtFirst input quantity market) ≤
        s.spare key + lockedBy userId lock key ∧
      0 ≤ lockedBy userId lock key := by
  have hspare := h.spare key
  rcases lockFor_cases hmul hquantity hlock with ⟨hisStop, rfl⟩ | ⟨hbuy, hnone, rfl⟩ |
    ⟨amount, rfl, hamount⟩
  · -- nothing is locked for a stop, which must be covered by what is spare
    refine ⟨?_, le_rfl⟩
    have hle := hstop hisStop
    unfold inAccount
    split_ifs with hkey
    · rw [← hkey] at hle
      simpa [lockedBy] using hle
    · simpa [lockedBy] using hspare
  · -- a market buy owes nothing at first
    have hzero : inAccount key userId (owedAtFirst input quantity market) = 0 := by
      simp [inAccount, owedAtFirst, hbuy, hnone]
    have hadd : 0 ≤ lockedBy userId
        (input.quoteQuantity.map fun amount => (market.quoteAssetId, amount)) key := by
      cases hqq : input.quoteQuantity with
      | none => exact le_rfl
      | some amount => exact inAccount_nonneg (hquote amount hqq)
    refine ⟨?_, hadd⟩
    rw [hzero]
    linarith
  · -- the lock is what is owed
    have hsame : lockedBy userId (some ((owedAtFirst input quantity market).1, amount)) key =
        inAccount key userId (owedAtFirst input quantity market) := by
      simp [lockedBy, hamount]
    rw [hsame]
    exact ⟨by linarith, inAccount_nonneg howed⟩

/-- A forwarded order is covered by the lock taken for it. -/
theorem Covered.forwarded (h : Covered s) {orderId userId : Uuid} {input : PlaceOrderInput}
    (hok : Permitted mul s (.forward orderId userId input))
    (hforward : forward mul orderId userId input s.db = some db') :
    Covered { s with db := db' } := by
  rcases forward_eq_some hforward with ⟨quantity, market, lock, mid, row, hquantity, hmarket,
    hlock, htake, hchecks, hnew, hafter⟩
  rcases hok with ⟨hmul, hok⟩
  rcases hok quantity market hquantity hmarket with ⟨hbase, hquote, hstop⟩
  rcases checkedRow_exact hchecks with ⟨hrow, hprice, hqty, hquoteQty⟩
  have hmoves := takeLock_moves htake
  have huntouched : Untouched row userId input quantity := by
    rw [hrow]
    exact ⟨rfl, rfl, rfl, rfl, rfl, rfl⟩
  have hpos : 0 < value quantity := hqty _ rfl
  have hrowPrice : ∀ price, row.price = some price → 0 < price := by
    rw [hrow]
    exact hprice
  have howes : ∀ key, owes s.db.markets key row =
      inAccount key userId (owedAtFirst input quantity market) := huntouched.owes hmarket
  have hsound : Sound s.db row := by
    refine ⟨?_, hrowPrice, ?_, ?_, market, ?_, ?_, ?_⟩
    · rw [remaining, huntouched.quantity, huntouched.filledQuantity]
      simpa using hpos.le
    · rw [huntouched.filledQuantity]
    · rw [hrow]
      exact le_rfl
    · rw [huntouched.market]
      exact hmarket
    · rw [huntouched.userId]
      exact hbase
    · rw [huntouched.userId]
      exact hquote
  have howesNonneg := fun key => owes_nonneg hsound.left hsound.price s.db.markets key
  -- what the new order owes is at most its lock and what was to spare
  have hcover : ∀ key, owes s.db.markets key row ≤ s.spare key + lockedBy userId lock key ∧
      0 ≤ lockedBy userId lock key := by
    intro key
    rw [howes key]
    refine h.lock_covers hmul hquantity hlock hstop ?_ ?_ key
    · intro amount hamount
      exact (hquoteQty (value amount) (by simp [pendingRow, hamount])).le
    · have hnonneg := owes_nonneg hsound.left hsound.price s.db.markets
        (userId, (owedAtFirst input quantity market).1)
      rwa [howes, inAccount, if_pos rfl] at hnonneg
  have hmarkets : db'.markets = s.db.markets := by
    rw [hafter]
    exact hmoves.keeps.markets
  refine h.next ?_ hmarkets ?_ ?_ ?_
  · rw [hafter]
    exact hmoves.nonneg h.balances
  · rw [hafter]
    exact hmoves.rows
  · intro id row' hrow'
    rw [hafter, OrdMap.find?_insert] at hrow'
    split_ifs at hrow'
    · cases hrow'
      exact hsound
    · exact h.orders id row' (hmoves.keeps.orders ▸ hrow')
  · intro key
    rcases hcover key with ⟨hcover, hadd⟩
    have hspare := h.spare key
    have hlocked : locked db' key = locked s.db key + lockedBy userId lock key := by
      rw [← hmoves.locked key, hafter]
      rfl
    have horders : db'.orders = s.db.orders.insert orderId row := by
      rw [hafter, ← hmoves.keeps.orders]
    rw [hmoves.keeps.orders] at hnew
    rw [Desk.spare, Desk.owed] at hspare hcover ⊢
    unfold Desk.openOrders at hspare hcover ⊢
    simp only [hmarkets, horders, OrdMap.filterKeys_insert, hlocked]
    -- a new order is open and owes; one whose id is closed owes nothing
    split_ifs with hopen
    · have hfresh : (s.db.orders.filterKeys fun orderId => orderId ∉ s.closed).find? orderId =
          none := by
        rw [OrdMap.find?_filterKeys, if_pos hopen, hnew]
      rw [OrdMap.total_insert_new hfresh]
      linarith
    · linarith

/-- A refund gives back what the refused order owed. -/
theorem Covered.refunded (h : Covered s) {orderId userId : Uuid} {input : PlaceOrderInput}
    (hok : Permitted mul s (.refund orderId userId input)) :
    Covered ⟨refund mul userId input s.db, orderId :: s.closed⟩ := by
  rcases refund_cases mul userId input s.db with hidle | ⟨quantity, market, p, hquantity, hmarket,
    hlock, hmoves⟩
  · rw [hidle]
    exact h.close orderId
  rcases hok with ⟨hmul, hok⟩
  rcases hok quantity market hquantity hmarket with ⟨⟨row, hopen, huntouched⟩, hunpriced⟩
  have howes := huntouched.owes hmarket
  refine h.next (hmoves.nonneg h.balances) hmoves.keeps.markets hmoves.rows ?_ ?_
  · intro id row' hrow'
    exact h.orders id row' (hmoves.keeps.orders ▸ hrow')
  · intro key
    have hspare := h.spare key
    have howed := Desk.owed_over hopen (fun id _ => by rw [hmoves.keeps.orders])
      hmoves.keeps.markets key
    -- the lock is what the order owes, or there is enough to spare
    have hcover : lockedBy userId (some p) key ≤ s.spare key + owes s.db.markets key row := by
      rw [howes]
      rcases lockFor_cases hmul hquantity hlock with ⟨_, hnone⟩ | ⟨hbuy, hnone, hquote⟩ |
        ⟨amount, hsome, hamount⟩
      · cases hnone
      · rcases Option.map_eq_some_iff.mp hquote.symm with ⟨amount, hqq, rfl⟩
        have hle := hunpriced hbuy hnone amount hqq
        have hzero : inAccount key userId (owedAtFirst input quantity market) = 0 := by
          simp [inAccount, owedAtFirst, hbuy, hnone]
        rw [hzero, add_zero]
        simp only [lockedBy, inAccount, Option.elim_some]
        split_ifs with hkey
        · rw [hkey]
          exact hle
        · exact hspare
      · cases hsome
        have hsame : lockedBy userId (some ((owedAtFirst input quantity market).1, amount)) key =
            inAccount key userId (owedAtFirst input quantity market) := by
          simp [lockedBy, hamount]
        rw [hsame]
        linarith
    rw [Desk.spare] at hcover ⊢
    rw [howed]
    have hlocked := hmoves.locked key
    change 0 ≤ locked (refund mul userId input s.db) key - _
    linarith

/-! ## Runs -/

/-- Every permitted step keeps the cover. -/
theorem Covered.step (h : Covered s) {op : DeskOp} (hok : Permitted mul s op) {s' : Desk}
    (hstep : s.step mul op = some s') : Covered s' := by
  cases op with
  | forward orderId userId input =>
    rcases Option.map_eq_some_iff.mp hstep with ⟨db', hforward, rfl⟩
    exact h.forwarded hok hforward
  | refund orderId userId input =>
    cases hstep
    exact h.refunded hok
  | updateStatus orderId status =>
    cases hstep
    exact h.updateStatus orderId status
  | markCanceled orderIds =>
    cases hstep
    exact h.markOrdersCanceled orderIds
  | settle e =>
    rcases Option.map_eq_some_iff.mp hstep with ⟨db', hsettle, rfl⟩
    have hsettles := step_eq_some.mp hsettle
    rcases hok with ⟨hpromised, hpaid⟩
    rcases e with ⟨seq, event⟩
    cases event with
    | orderAccepted order =>
      cases hsettles with
      | known => exact h
      | accepted _ _ hnew =>
        -- the API has inserted the order before
        have hknown : (s.db.orders.find? order.id).isSome := hpromised
        rw [hnew] at hknown
        cases hknown
    | fill f => exact h.filled hpromised (hpaid f rfl) hsettles
    | orderCanceled orderId reason => exact h.canceled hpromised.1 hsettles
    | orderRested =>
      cases hsettles
      exact h
    | bookDelta =>
      cases hsettles
      exact h
    | marketStatus =>
      cases hsettles
      exact h

/-- The event is a fill or a cancel. -/
def SettlesFunds (event : EngineEvent) : Prop :=
  (∃ f, event = .fill f) ∨ ∃ orderId reason, event = .orderCanceled orderId reason

/-- From covered tables, in every run whose steps are permitted, every fill and every cancel that
comes next is settled: no balance becomes negative. -/
theorem fills_and_cancels_commit {mul : Decimal → Decimal → Option Decimal} {s : Desk}
    (hstart : Covered s) {ops : List DeskOp}
    (hops : Along (Desk.step mul) (Permitted mul) s ops) {s' : Desk}
    (hrun : run (Desk.step mul) s ops = some s') {e : SequencedEngineEvent}
    (hevent : SettlesFunds e.event) (hnext : Permitted mul s' (.settle e)) :
    ∃ db', settle .exact e.seq e.event s'.db = .ok db' ∧ NonnegBalances db' := by
  have hcovered : Covered s' := by
    refine Machine.run_invariant Covered (Permitted mul) ?_ hstart hops hrun
    intro t op t' ht hok hstep
    exact ht.step hok hstep
  -- what is locked covers what the event takes
  have hcommits : ∃ db', Settles .exact e.seq s'.db e.event db' := by
    rcases e with ⟨seq, event⟩
    rcases hnext with ⟨hpromised, hpaid⟩
    rcases hevent with ⟨f, hf⟩ | ⟨orderId, reason, hcancel⟩
    · simp only at hf
      subst hf
      rcases hcovered.fill_commits hpromised (hpaid f rfl) with hidle | ⟨a, _, _, _, _, _, _, _, hfilled⟩
      · exact ⟨_, hidle⟩
      · exact ⟨_, hfilled⟩
    · simp only at hcancel
      subst hcancel
      exact hcovered.cancel_commits hpromised.1 hpromised.2
  rcases hcommits with ⟨db', hsettles⟩
  have hstep : s'.step mul (.settle e) = some ⟨db', closedAfter s'.closed e.event⟩ := by
    simp only [Desk.step, step_eq_some.mpr hsettles, Option.map_some]
  exact ⟨db', settle_eq_ok.mpr hsettles, (hcovered.step hnext hstep).balances⟩

/-! ## Two runs -/

/-- The product, where it has no more places than its factors. -/
def exactMul (x y : Decimal) : Option Decimal :=
  if x * y % 10 ^ 28 = 0 then some (x * y / 10 ^ 28) else none

theorem exactMul_unrounded (input : PlaceOrderInput) : Unrounded exactMul input := by
  intro price quantity amount _ _ hmul
  unfold exactMul at hmul
  split_ifs at hmul with hmod
  cases hmul
  have hdvd : (10 ^ 28 : ℤ) ∣ price * quantity := Int.dvd_of_emod_eq_zero hmod
  unfold value
  rw [Int.cast_div hdvd (by norm_num)]
  push_cast
  ring

/-- A sell order of 10 units at 50. -/
def sellTen : PlaceOrderInput where
  clientOrderId := none
  symbol := "BTCUSDT"
  side := .sell
  orderType := .limit
  price := some (50 * 10 ^ 28)
  stopPrice := none
  quantity := some (10 * 10 ^ 28)
  quoteQuantity := none
  displayQuantity := none

/-- A buy order for a quote quantity of 100, at any price. -/
def buyForHundred : PlaceOrderInput where
  clientOrderId := none
  symbol := "BTCUSDT"
  side := .buy
  orderType := .market
  price := none
  stopPrice := none
  quantity := none
  quoteQuantity := some (100 * 10 ^ 28)
  displayQuantity := none

/-- A buy order of 2 units at 50. -/
def buyTwo : PlaceOrderInput :=
  { sellTen with side := .buy, quantity := some (2 * 10 ^ 28) }

/-- User 10 owns 10 units of asset 1, and user 20 owns 100 of asset 2. -/
def quietDesk : Desk where
  db := Db.openingTables
    [((10, 1), ⟨10, 0⟩), ((10, 2), ⟨0, 0⟩), ((20, 1), ⟨0, 0⟩), ((20, 2), ⟨100, 0⟩)]
  closed := []

/-- The events of the engine for the sell order and a buy order, as they are forwarded. -/
def meetingEvents (buy : PlaceOrderInput) (quantity : Decimal) :
    Option (List SequencedEngineEvent) :=
  (Server.emptyEngine.runRequests 10
    [ .place 1 (Api.engineOrder 1 10 sellTen (10 * 10 ^ 28)),
      .place 2 (Api.engineOrder 2 20 buy quantity) ]).map (·.eventLog.entries)

/-- A fill of 10 units at 50. -/
def fillTen : TradeFill :=
  { tradeFill 0 2 1 .buy 50 10 with ts := "1970-01-01T00:00:00.000Z" }

/-- The API locks 100 for the market order and forwards the quote quantity as the quantity: the
engine sells it the 10 units for 500, and settlement cannot take them from the 100. -/
theorem market_buy_overdraws : ∃ es s, meetingEvents buyForHundred (100 * 10 ^ 28) = some es ∧
    es[4]? = some ⟨5, .fill fillTen⟩ ∧
    run (Desk.step exactMul) quietDesk
      ([.forward 1 10 sellTen, .forward 2 20 buyForHundred] ++ (es.take 4).map .settle) = some s ∧
    locked s.db (20, 2) = 100 ∧ settle .exact 5 (.fill fillTen) s.db = .error .checkViolation := by
  have hfill : (meetingEvents buyForHundred (100 * 10 ^ 28)).map (·[4]?) =
      some (some ⟨5, .fill fillTen⟩) := by decide +kernel
  have hview : (meetingEvents buyForHundred (100 * 10 ^ 28)).bind (fun es =>
      (run (Desk.step exactMul) quietDesk ([.forward 1 10 sellTen, .forward 2 20 buyForHundred] ++
        (es.take 4).map .settle)).map fun s =>
          (locked s.db (20, 2), (settle .exact 5 (.fill fillTen) s.db).map fun _ => ())) =
      some (100, .error .checkViolation) := by decide +kernel
  rcases Option.map_eq_some_iff.mp hfill with ⟨es, hes, hfill⟩
  rw [hes] at hview
  rcases Option.map_eq_some_iff.mp hview with ⟨s, hrun, hview⟩
  rcases Prod.mk.inj hview with ⟨hlocked, hsettle⟩
  refine ⟨es, s, hes, hfill, hrun, hlocked, ?_⟩
  cases hresult : settle .exact 5 (.fill fillTen) s.db with
  | error e =>
    rw [hresult] at hsettle
    cases hsettle
    rfl
  | ok db' =>
    rw [hresult] at hsettle
    cases hsettle

theorem quietDesk_covered : Covered quietDesk := by
  -- nothing is locked
  have hrows : ∀ key row, quietDesk.db.balances key = some row →
      0 ≤ row.available ∧ row.locked = 0 := by
    intro key row hrow
    simp only [quietDesk, Db.openingTables, List.lookup_cons, List.lookup_nil] at hrow
    grind
  refine ⟨?_, ?_, ?_, ?_⟩
  · intro key row hrow
    rcases hrows key row hrow with ⟨havailable, hlocked⟩
    exact ⟨havailable, hlocked.ge⟩
  · intro symbol market hmarket
    simp only [quietDesk, Db.openingTables] at hmarket
    split_ifs at hmarket
    cases hmarket
    decide
  · intro orderId row hrow
    cases hrow
  · intro key
    have hlocked : locked quietDesk.db key = 0 := by
      unfold locked
      cases hrow : quietDesk.db.balances key with
      | none => rfl
      | some row => exact (hrows key row hrow).2
    have howed : quietDesk.owed key = 0 := rfl
    rw [Desk.spare, hlocked, howed, sub_self]

/-- A fill of 2 units at 50. -/
def fillTwo : TradeFill :=
  { tradeFill 0 2 1 .buy 50 2 with ts := "1970-01-01T00:00:00.000Z" }

/-- Both orders are forwarded, and the buyer pays what is locked. -/
theorem limit_buy_pays : ∃ s db,
    run (Desk.step exactMul) quietDesk [.forward 1 10 sellTen, .forward 2 20 buyTwo] = some s ∧
    (meetingEvents buyTwo (2 * 10 ^ 28)).map (·[4]?) = some (some ⟨5, .fill fillTwo⟩) ∧
    settle .exact 5 (.fill fillTwo) s.db = .ok db ∧ NonnegBalances db := by
  have hforward : ∀ s' orderId userId input, s'.db.markets = quietDesk.db.markets →
      isStop input.orderType = false → (s'.db.balances (userId, 1)).isSome →
      (s'.db.balances (userId, 2)).isSome →
      Permitted exactMul s' (.forward orderId userId input) := by
    intro s' orderId userId input hmarkets hstop hbase hquote
    refine ⟨exactMul_unrounded input, ?_⟩
    intro quantity market _ hmarket
    rw [hmarkets] at hmarket
    simp only [quietDesk, Db.openingTables] at hmarket
    split_ifs at hmarket
    cases hmarket
    refine ⟨hbase, hquote, ?_⟩
    simp [hstop]
  -- the state before the fill, as far as the promises of the engine need it
  have hview : (run (Desk.step exactMul) quietDesk
      [.forward 1 10 sellTen, .forward 2 20 buyTwo]).map (fun s => (s.openOrders.find? 1,
        s.openOrders.find? 2, s.db.orders.find? 2, s.db.trades)) = some (
      some { userId := 10, market := "BTCUSDT", clientOrderId := none, side := .sell,
             status := .pending, price := some 50, quantity := some 10, filledQuantity := 0,
             avgFillPrice := none },
      some { userId := 20, market := "BTCUSDT", clientOrderId := none, side := .buy,
             status := .pending, price := some 50, quantity := some 2, filledQuantity := 0,
             avgFillPrice := none },
      some { userId := 20, market := "BTCUSDT", clientOrderId := none, side := .buy,
             status := .pending, price := some 50, quantity := some 2, filledQuantity := 0,
             avgFillPrice := none }, []) := by decide +kernel
  rcases Option.map_eq_some_iff.mp hview with ⟨s, hrun, hs⟩
  simp only [Prod.mk.injEq] at hs
  rcases hs with ⟨hsell, hbuy, hbuyRow, htrades⟩
  have hops : Along (Desk.step exactMul) (Permitted exactMul) quietDesk
      [.forward 1 10 sellTen, .forward 2 20 buyTwo] := by
    refine ⟨hforward quietDesk 1 10 sellTen rfl rfl rfl rfl, ?_⟩
    intro mid hmid
    refine ⟨?_, fun _ _ => trivial⟩
    have hbalances : (quietDesk.step exactMul (.forward 1 10 sellTen)).map (fun s =>
        ((s.db.balances (20, 1)).isSome, (s.db.balances (20, 2)).isSome)) = some (true, true) := by
      decide +kernel
    have hmarkets : mid.db.markets = quietDesk.db.markets := by
      rcases Option.map_eq_some_iff.mp hmid with ⟨db', hdb', rfl⟩
      rcases forward_eq_some hdb' with ⟨_, _, _, _, _, _, _, _, htake, _, _, rfl⟩
      exact (takeLock_moves htake).keeps.markets
    rw [hmid] at hbalances
    simp only [Option.map_some, Option.some.injEq, Prod.mk.injEq] at hbalances
    exact hforward mid 2 20 buyTwo hmarkets rfl hbalances.1 hbalances.2
  -- the fill is within both orders, and at the price of the buyer
  have hnext : Permitted exactMul s (.settle ⟨5, .fill fillTwo⟩) := by
    refine ⟨⟨by decide, ⟨_, hbuy, rfl, by decide +kernel⟩, ⟨_, hsell, by decide, by decide +kernel⟩,
      by decide +kernel, by decide +kernel, by decide, ?_⟩, ?_⟩
    · simp [htrades]
    · intro f hf row market hrow _
      cases hf
      have hid : buyerId fillTwo = 2 := rfl
      rw [hid, hbuyRow] at hrow
      cases hrow
      exact .inl ⟨50, rfl, by decide +kernel⟩
  rcases fills_and_cancels_commit quietDesk_covered hops hrun (.inl ⟨fillTwo, rfl⟩) hnext with
    ⟨db, hsettle, hnonneg⟩
  exact ⟨s, db, hrun, by decide +kernel, hsettle, hnonneg⟩

end CryptoCex.Settlement
