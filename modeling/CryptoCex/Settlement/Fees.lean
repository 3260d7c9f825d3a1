import CryptoCex.Settlement.Conserved

/-!
# Fees

A fill charges two fees: one rate is the taker's, the other the maker's, and each party pays in
the asset it receives. `apply_fill_ledger` computes the taker's fee on the quantity and takes it
from the buyer, and the maker's on the notional and takes it from the seller. That is right when
the taker buys. When it sells the two rates are swapped, which shows as soon as they differ
(`feesFollowRole_iff`).
-/

namespace CryptoCex.Settlement

open CryptoCex.Core (Uuid)
open Db (LedgerEntry MarketRow OrderRow Tables value)
open Proto (OrderSide TradeFill)

variable {arith : Arithmetic} {store : ℚ → Option ℚ} {db db' : Tables} {seq : ℕ}

/-! ## What the ledger records -/

/-- The entry records the change. -/
structure Records (store : ℚ → Option ℚ) (m : LedgerMutation) (entry : LedgerEntry) : Prop where
  userId : entry.userId = m.userId
  assetId : entry.assetId = m.assetId
  kind : entry.kind = m.kind
  amount : store m.amount = some entry.amount

/-- Mutations enter one entry each, in order. -/
theorem entries_applyLedgers {ms : List LedgerMutation}
    (h : applyLedgers store ms db = .ok db') :
    ∃ entries, db'.ledgerEntries = db.ledgerEntries ++ entries ∧
      List.Forall₂ (Records store) ms entries := by
  induction ms generalizing db with
  | nil =>
    cases h
    exact ⟨[], (List.append_nil _).symm, .nil⟩
  | cons m ms ih =>
    rcases applyLedgers_cons_eq_ok.mp h with ⟨mid, hmid, hrest⟩
    rcases applyLedger_eq_ok.mp hmid with
      ⟨row, available, locked, amount, _, _, _, hamount, _, _, _, rfl⟩
    rcases ih hrest with ⟨entries, hentries, hrecords⟩
    refine ⟨m.entry amount available locked :: entries, ?_, .cons ⟨rfl, rfl, rfl, hamount⟩ hrecords⟩
    rw [hentries, List.append_assoc, List.singleton_append]

/-- The fees of an account. -/
def feeOf (key : Uuid × Uuid) (entry : LedgerEntry) : Bool :=
  ofAccount key entry && entry.kind = .fee

/-- What a transaction adds to the fees of an account; a fee is entered as a loss. -/
def feesEntered (db db' : Tables) (key : Uuid × Uuid) : ℚ :=
  sumOf (feeOf key) db'.ledgerEntries - sumOf (feeOf key) db.ledgerEntries

/-- A fill enters two fees: the one called the taker's for the buyer and the one called the
maker's for the seller. -/
theorem feesEntered_fill (db db' : Tables) {fill : TradeFill} {a : FillAmounts}
    {before after : Tables}
    (hledger : applyLedgers store (a.mutations seq fill) before = .ok after)
    (hbefore : before.ledgerEntries = db.ledgerEntries)
    (hafter : db'.ledgerEntries = after.ledgerEntries) :
    ∃ x y, store (-a.takerFee) = some x ∧ store (-a.makerFee) = some y ∧
      ∀ key, feesEntered db db' key =
        (if key = ((a.buyer fill).row.userId, (a.buyer fill).market.baseAssetId) then x else 0) +
        (if key = ((a.seller fill).row.userId, (a.seller fill).market.quoteAssetId) then y
          else 0) := by
  rcases entries_applyLedgers hledger with ⟨entries, hentries, hrecords⟩
  -- a fill makes six changes, of which the second and the fifth are the fees
  rcases hrecords with _ | ⟨h1, _ | ⟨h2, _ | ⟨h3, _ | ⟨h4, _ | ⟨h5, _ | ⟨h6, _ | _⟩⟩⟩⟩⟩⟩
  refine ⟨_, _, h2.amount, h5.amount, ?_⟩
  intro key
  unfold feesEntered
  rw [hafter, hentries, sumOf_append, hbefore, add_sub_cancel_left]
  simp only [sumOf_cons, feeOf, ofAccount, h1.kind, h2.kind, h3.kind, h4.kind, h5.kind, h6.kind,
    h2.userId, h2.assetId, h5.userId, h5.assetId, tradeMutation]
  simp [sumOf, eq_comm]

/-- Without rounding an account gains what is entered for it. -/
theorem Settles.holding {event : Proto.EngineEvent} (h : Settles .exact seq db event db')
    (key : Uuid × Uuid) :
    holding db' key - holding db key =
      sumOf (ofAccount key) db'.ledgerEntries - sumOf (ofAccount key) db.ledgerEntries := by
  rcases h.books with ⟨ms, before, after, hmutates, hbefore, hledger, hafter⟩
  have hgain := holding_applyLedgers hmutates.balanced hledger key
  rw [holding_congr hbefore.balances, hbefore.ledgerEntries, ← holding_congr hafter.balances,
    ← hafter.ledgerEntries] at hgain
  linarith

/-! ## The roles -/

/-- The side of the maker. -/
def makerSide : OrderSide → OrderSide
  | .buy => .sell
  | .sell => .buy

/-- What a party of a fill receives: the quantity if it buys, the notional if it sells. -/
def received (market : MarketRow) (quantity notional : ℚ) : OrderSide → Uuid × ℚ
  | .buy => (market.baseAssetId, quantity)
  | .sell => (market.quoteAssetId, notional)

/-- The entry of a fee at this rate. -/
def feeEntry (arith : Arithmetic) (gross feeBps : ℚ) : Option ℚ :=
  (feeAmount arith gross feeBps).toOption.bind fun fee => arith.store (-fee)

/-- The taker is charged at the taker's rate and the maker at the maker's, each of what it
receives, and nobody else is charged. -/
structure FeesFollowRole (arith : Arithmetic) (market : MarketRow) (takerSide : OrderSide)
    (quantity notional : ℚ) (takerId makerId : Uuid) (db db' : Tables) : Prop where
  taker : some (feesEntered db db'
      (takerId, (received market quantity notional takerSide).1)) =
    feeEntry arith (received market quantity notional takerSide).2 market.takerFeeBps
  maker : some (feesEntered db db'
      (makerId, (received market quantity notional (makerSide takerSide)).1)) =
    feeEntry arith (received market quantity notional (makerSide takerSide)).2 market.makerFeeBps
  others : ∀ key, key ≠ (takerId, (received market quantity notional takerSide).1) →
    key ≠ (makerId, (received market quantity notional (makerSide takerSide)).1) →
      feesEntered db db' key = 0

/-- Both rates come to the same, of the quantity and of the notional. -/
def SameFees (arith : Arithmetic) (market : MarketRow) (quantity notional : ℚ) : Prop :=
  feeEntry arith quantity market.takerFeeBps = feeEntry arith quantity market.makerFeeBps ∧
    feeEntry arith notional market.takerFeeBps = feeEntry arith notional market.makerFeeBps

/-- A fee that is computed and stored is entered with its sign turned. -/
theorem feeEntry_of_ok {gross feeBps fee x : ℚ} (h : feeAmount arith gross feeBps = .ok fee)
    (hx : arith.store (-fee) = some x) : feeEntry arith gross feeBps = some x := by
  unfold feeEntry
  rw [h]
  exact hx

theorem feeEntry_exact (gross feeBps : ℚ) :
    feeEntry .exact gross feeBps = some (-(gross * feeBps / 10000)) := by
  unfold feeEntry
  rw [feeAmount_exact]
  rfl

/-- Without rounding only equal rates come to the same. -/
theorem sameFees_exact {market : MarketRow} {quantity notional : ℚ} (hquantity : 0 < quantity) :
    SameFees .exact market quantity notional ↔ market.takerFeeBps = market.makerFeeBps := by
  unfold SameFees
  simp only [feeEntry_exact, Option.some.injEq, neg_inj]
  constructor
  · rintro ⟨h, _⟩
    have hmul : quantity * market.takerFeeBps = quantity * market.makerFeeBps := by linarith
    exact mul_left_cancel₀ hquantity.ne' hmul
  · intro h
    rw [h]
    exact ⟨rfl, rfl⟩

/-- The fees of a fill in which the taker buys. -/
theorem feesFollowRole_buy {market : MarketRow} {quantity notional x y : ℚ}
    {takerId makerId : Uuid} (hx : feeEntry arith quantity market.takerFeeBps = some x)
    (hy : feeEntry arith notional market.makerFeeBps = some y)
    (hentered : ∀ key, feesEntered db db' key =
      (if key = (takerId, market.baseAssetId) then x else 0) +
        (if key = (makerId, market.quoteAssetId) then y else 0)) :
    FeesFollowRole arith market .buy quantity notional takerId makerId db db' := by
  have hdistinct := market.distinct
  constructor
  · rw [hentered]
    simp [received, hx, hdistinct]
  · rw [hentered]
    simp [received, makerSide, hy, hdistinct.symm]
  · intro key htaker hmaker
    simp only [received, makerSide] at htaker hmaker
    rw [hentered, if_neg htaker, if_neg hmaker, add_zero]

/-- The fees of a fill in which the taker sells: the rates are swapped. -/
theorem feesFollowRole_sell {market : MarketRow} {quantity notional x y : ℚ}
    {takerId makerId : Uuid} (hx : feeEntry arith quantity market.takerFeeBps = some x)
    (hy : feeEntry arith notional market.makerFeeBps = some y)
    (hentered : ∀ key, feesEntered db db' key =
      (if key = (makerId, market.baseAssetId) then x else 0) +
        (if key = (takerId, market.quoteAssetId) then y else 0)) :
    FeesFollowRole arith market .sell quantity notional takerId makerId db db' ↔
      SameFees arith market quantity notional := by
  have hdistinct := market.distinct
  have htaker : feesEntered db db' (takerId, market.quoteAssetId) = y := by
    rw [hentered]
    simp [hdistinct.symm]
  have hmaker : feesEntered db db' (makerId, market.baseAssetId) = x := by
    rw [hentered]
    simp [hdistinct]
  constructor
  · intro h
    constructor
    · rw [hx, ← hmaker]
      exact h.maker
    · rw [hy, ← htaker]
      exact h.taker.symm
  · intro h
    constructor
    -- the taker receives the quote asset, where what it is charged is the maker's fee
    · show some (feesEntered db db' (takerId, market.quoteAssetId)) = _
      rw [htaker, ← hy]
      exact h.2.symm
    · show some (feesEntered db db' (makerId, market.baseAssetId)) = _
      rw [hmaker, ← hx]
      exact h.1
    · intro key hnotTaker hnotMaker
      simp only [received, makerSide] at hnotTaker hnotMaker
      rw [hentered, if_neg hnotMaker, if_neg hnotTaker, add_zero]

/-- The fees of a fill follow the roles if and only if the taker buys or both rates come to the
same; without rounding, if and only if the taker buys or the rates are equal. -/
theorem feesFollowRole_iff {fill : TradeFill} {market : MarketRow} {taker maker : OrderRow}
    {notional : ℚ} (hmarket : db.markets fill.symbol = some market)
    (htaker : db.orders.find? fill.takerOrderId = some taker) (htaker' : taker.market = fill.symbol)
    (hmaker : db.orders.find? fill.makerOrderId = some maker) (hmaker' : maker.market = fill.symbol)
    (hnotional : arith.mul (value fill.price) (value fill.quantity) = some notional)
    (hfresh : ∀ trade ∈ db.trades, trade.engineSeq ≠ seq)
    (h : settleFill arith seq fill db = .ok db') :
    (FeesFollowRole arith market fill.takerSide (value fill.quantity) notional taker.userId
        maker.userId db db' ↔
      fill.takerSide = .buy ∨ SameFees arith market (value fill.quantity) notional) ∧
    (arith = .exact → (SameFees arith market (value fill.quantity) notional ↔
      market.takerFeeBps = market.makerFeeBps)) := by
  have hsettles := settleFill_eq_ok.mp h
  cases hsettles with
  | traded htraded =>
    rcases htraded with ⟨trade, hmem, hseq⟩
    exact absurd hseq (hfresh trade hmem)
  | @filled _ a price quantity after _ ha hprice hquantity hpos _ hledger =>
    -- both orders are of the market of the fill
    have htakerRow : a.taker.row = taker := by
      have hrow := ha.taker.row
      rw [ha.taker_id, htaker] at hrow
      exact (Option.some.inj hrow).symm
    have hmakerRow : a.maker.row = maker := by
      have hrow := ha.maker.row
      rw [ha.maker_id, hmaker] at hrow
      exact (Option.some.inj hrow).symm
    have htakerMarket : a.taker.market = market := by
      have hrow := ha.taker.market
      rw [htakerRow, htaker', hmarket] at hrow
      exact (Option.some.inj hrow).symm
    have hmakerMarket : a.maker.market = market := by
      have hrow := ha.maker.market
      rw [hmakerRow, hmaker', hmarket] at hrow
      exact (Option.some.inj hrow).symm
    have hsame : a.notional = notional := by
      have hamount := ha.notional
      rw [hnotional] at hamount
      exact (Option.some.inj hamount).symm
    rcases feesEntered_fill db { after with orders := a.orders db.orders } hledger rfl rfl with
      ⟨x, y, hx, hy, hentered⟩
    have htakerFee := ha.takerFee
    have hmakerFee := ha.makerFee
    rw [htakerMarket] at htakerFee
    rw [hmakerMarket, hsame] at hmakerFee
    have hx' := feeEntry_of_ok htakerFee hx
    have hy' := feeEntry_of_ok hmakerFee hy
    constructor
    · simp only [FillAmounts.buyer, FillAmounts.seller] at hentered
      cases hside : fill.takerSide with
      | buy =>
        simp only [hside, parties, htakerRow, hmakerRow, htakerMarket, hmakerMarket] at hentered
        exact iff_of_true (feesFollowRole_buy hx' hy' hentered) (.inl rfl)
      | sell =>
        simp only [hside, parties, htakerRow, hmakerRow, htakerMarket, hmakerMarket] at hentered
        rw [feesFollowRole_sell hx' hy' hentered]
        simp
    · rintro rfl
      cases hquantity
      exact sameFees_exact hpos.2.1

/-- A market in which takers pay twice what makers pay. -/
def dearMarket : MarketRow :=
  { Db.btcMarket with
    takerFeeBps := 20
    takerFeeBps_nonneg := by decide }

/-- An order to sell of user 10 and one to buy of user 20, both accepted. -/
def acceptedPair : Tables :=
  let row (userId : Uuid) (side : OrderSide) : OrderRow :=
    { userId := userId, market := "BTCUSDT", clientOrderId := none, side := side, status := .new,
      price := some 50, quantity := some 2, filledQuantity := 0, avgFillPrice := none }
  { Db.openingTables [((10, 1), ⟨0, 2⟩), ((10, 2), ⟨0, 0⟩), ((20, 1), ⟨0, 0⟩),
      ((20, 2), ⟨0, 100⟩)] with
    orders := (OrdMap.empty.insert 1 (row 10 .sell)).insert 2 (row 20 .buy)
    markets := fun symbol => if symbol = "BTCUSDT" then some dearMarket else none }

/-- The taker sells 2 at 50 and receives 100: it is charged 0.1 and not 0.2. -/
theorem seller_charged_makers_rate : ∃ db',
    settleFill .exact 3 (tradeFill 7 1 2 .sell 50 2) acceptedPair = .ok db' ∧
      ¬ FeesFollowRole .exact dearMarket .sell 2 100 10 20 acceptedPair db' := by
  have hview : ((settleFill .exact 3 (tradeFill 7 1 2 .sell 50 2) acceptedPair).toOption.map
      fun db' => feesEntered acceptedPair db' (10, 2)) = some (-(1 / 10)) := by decide +kernel
  rcases Option.map_eq_some_iff.mp hview with ⟨db', hdb', hfee⟩
  refine ⟨db', Except.toOption_eq_some.mp hdb', ?_⟩
  intro h
  have htaker := h.taker
  rw [feeEntry_exact] at htaker
  simp only [received, dearMarket, Db.btcMarket, hfee] at htaker
  norm_num at htaker

/-- The theorem on the same fill. -/
theorem dear_sale_swaps_rates : ∃ db',
    settleFill .exact 3 (tradeFill 7 1 2 .sell 50 2) acceptedPair = .ok db' ∧
      ((FeesFollowRole .exact dearMarket .sell (value (2 * 10 ^ 28)) 100 10 20 acceptedPair db' ↔
        OrderSide.sell = .buy ∨ SameFees .exact dearMarket (value (2 * 10 ^ 28)) 100) ∧
      (Arithmetic.exact = .exact → (SameFees .exact dearMarket (value (2 * 10 ^ 28)) 100 ↔
        dearMarket.takerFeeBps = dearMarket.makerFeeBps))) := by
  have hview : (settleFill .exact 3 (tradeFill 7 1 2 .sell 50 2) acceptedPair).isOk = true := by
    decide +kernel
  cases hsettle : settleFill .exact 3 (tradeFill 7 1 2 .sell 50 2) acceptedPair with
  | error e =>
    rw [hsettle] at hview
    cases hview
  | ok db' =>
    exact ⟨db', rfl, feesFollowRole_iff rfl rfl rfl rfl rfl (by decide +kernel)
      (by simp [acceptedPair, Db.openingTables]) hsettle⟩

end CryptoCex.Settlement
