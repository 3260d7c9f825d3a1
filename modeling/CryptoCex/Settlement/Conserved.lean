import CryptoCex.Settlement.Transactions
import Mathlib.Algebra.BigOperators.Finprod
import Mathlib.Tactic.Linarith
import Mathlib.Tactic.Ring

/-!
# Double entry

In exact arithmetic the ledger entries of a user and an asset add up to what the user holds
of it, available and locked together, and what all users hold of an asset is what was
deposited less the fees (`ledger_conserves`). Locks move money within a balance, with an
entry of amount zero or none. The four trade entries of a fill cancel out for each asset,
since both orders of a fill are of one market; this also if both are of one user.
-/

namespace CryptoCex.Settlement

open CryptoCex.Core (Uuid)
open Db (Balance LedgerEntry LedgerEntryKind MarketRow Tables value)
open Machine (run Along)

/-! ## Sums over the ledger -/

/-- The amounts of the entries with a property. -/
def sumOf (p : LedgerEntry → Bool) (entries : List LedgerEntry) : ℚ :=
  ((entries.filter p).map LedgerEntry.amount).sum

/-- Entries of two ledgers add up. -/
theorem sumOf_append (p : LedgerEntry → Bool) (entries entries' : List LedgerEntry) :
    sumOf p (entries ++ entries') = sumOf p entries + sumOf p entries' := by
  simp [sumOf]

theorem sumOf_cons (p : LedgerEntry → Bool) (entry : LedgerEntry) (entries : List LedgerEntry) :
    sumOf p (entry :: entries) = (if p entry then entry.amount else 0) + sumOf p entries := by
  unfold sumOf
  rw [List.filter_cons]
  split_ifs with h
  · simp
  · simp

theorem sumOf_singleton (p : LedgerEntry → Bool) (entry : LedgerEntry) :
    sumOf p [entry] = if p entry then entry.amount else 0 := by
  rw [sumOf_cons, sumOf, List.filter_nil, List.map_nil, List.sum_nil, add_zero]

/-- The entries of a user and an asset. -/
def ofAccount (key : Uuid × Uuid) (entry : LedgerEntry) : Bool :=
  (entry.userId, entry.assetId) = key

/-- The entries of an asset. -/
def ofAsset (assetId : Uuid) (entry : LedgerEntry) : Bool := entry.assetId = assetId

/-- The fees in an asset. -/
def feeIn (assetId : Uuid) (entry : LedgerEntry) : Bool :=
  entry.assetId = assetId ∧ entry.kind = .fee

/-- The entries of an asset that are not fees. -/
def movedIn (assetId : Uuid) (entry : LedgerEntry) : Bool :=
  entry.assetId = assetId ∧ entry.kind ≠ .fee

/-- What is entered for an asset is moved or is a fee. -/
theorem sumOf_asset (assetId : Uuid) (entries : List LedgerEntry) :
    sumOf (ofAsset assetId) entries = sumOf (movedIn assetId) entries +
      sumOf (feeIn assetId) entries := by
  induction entries with
  | nil => simp [sumOf]
  | cons entry entries ih =>
    rw [sumOf_cons, sumOf_cons, sumOf_cons, ih]
    by_cases hasset : entry.assetId = assetId
    · by_cases hfee : entry.kind = .fee
      · simp [ofAsset, movedIn, feeIn, hasset, hfee, add_left_comm]
      · simp [ofAsset, movedIn, feeIn, hasset, hfee, add_assoc]
    · simp [ofAsset, movedIn, feeIn, hasset]

/-- Adding up an asset over the users. -/
theorem finsum_sumOf (assetId : Uuid) (entries : List LedgerEntry) :
    (Function.support fun userId => sumOf (ofAccount (userId, assetId)) entries).Finite ∧
      ∑ᶠ userId, sumOf (ofAccount (userId, assetId)) entries = sumOf (ofAsset assetId) entries := by
  induction entries with
  | nil => exact ⟨by simp [sumOf], by simp [sumOf]⟩
  | cons entry entries ih =>
    -- the new entry counts for one user
    have hone : ∀ userId, (if ofAccount (userId, assetId) entry then entry.amount else 0) =
        if userId = entry.userId then (if ofAsset assetId entry then entry.amount else 0) else 0 := by
      intro userId
      by_cases huser : userId = entry.userId
      · simp [ofAccount, ofAsset, huser]
      · simp [ofAccount, huser, Ne.symm huser]
    have hfinite : (Function.support fun userId =>
        if userId = entry.userId then (if ofAsset assetId entry then entry.amount else 0) else 0).Finite := by
      refine (Set.finite_singleton entry.userId).subset ?_
      intro userId huser
      by_contra hne
      exact huser (if_neg hne)
    simp only [sumOf_cons, hone]
    refine ⟨(hfinite.union ih.1).subset (Function.support_add _ _), ?_⟩
    rw [finsum_add_distrib hfinite ih.1, ih.2]
    congr 1
    rw [finsum_eq_single _ entry.userId (fun _ hne => if_neg hne), if_pos rfl]

/-! ## The invariant -/

/-- What a user holds of an asset. -/
def holding (db : Tables) (key : Uuid × Uuid) : ℚ :=
  match db.balances key with
  | none => 0
  | some row => row.available + row.locked

/-- The completed deposits of an asset. -/
def depositTotal (db : Tables) (assetId : Uuid) : ℚ :=
  ((db.deposits.filter (·.assetId = assetId)).map (·.amount)).sum

/-- The ledger agrees with the balances and with the deposits. -/
structure Audited (db : Tables) : Prop where
  ledger : ∀ key, sumOf (ofAccount key) db.ledgerEntries = holding db key
  moved : ∀ assetId, sumOf (movedIn assetId) db.ledgerEntries = depositTotal db assetId
  fees : ∀ entry ∈ db.ledgerEntries, entry.kind = .fee → entry.amount ≤ 0

variable {db db' : Tables}

theorem holding_congr (h : db'.balances = db.balances) (key : Uuid × Uuid) :
    holding db' key = holding db key := by
  unfold holding
  rw [h]

/-- A balance that is written changes one holding. -/
theorem holding_update (db : Tables) {key : Uuid × Uuid} {row : Balance}
    (h : db'.balances = Function.update db.balances key (some row)) (key' : Uuid × Uuid) :
    holding db' key' = if key' = key then row.available + row.locked else holding db key' := by
  unfold holding
  rw [h, Function.update_apply]
  split_ifs <;> rfl

/-- The audit depends on the books only. -/
theorem Audited.congr (h : Audited db) (hsame : SameBooks db db') : Audited db' where
  ledger := by
    intro key
    rw [hsame.ledgerEntries, holding_congr hsame.balances]
    exact h.ledger key
  moved := by
    intro assetId
    rw [hsame.ledgerEntries, depositTotal, hsame.deposits]
    exact h.moved assetId
  fees := by
    rw [hsame.ledgerEntries]
    exact h.fees

/-- A move between the two amounts of a balance. -/
theorem Audited.putBalance {userId assetId : Uuid} {row : Balance} {x y : ℚ} (h : Audited db)
    (hrow : db.balances (userId, assetId) = some row) (hsum : x + y = row.available + row.locked)
    (hput : db.putBalance Arithmetic.exact.store userId assetId x y = .ok db') : Audited db' := by
  rcases Tables.putBalance_eq_ok.mp hput with ⟨available, locked, hx, hy, _, _, rfl⟩
  cases hx
  cases hy
  refine ⟨?_, h.moved, h.fees⟩
  intro key
  rw [holding_update db rfl]
  split_ifs with heq
  · have hold := h.ledger key
    rw [heq, holding, hrow] at hold
    rw [heq]
    exact hold.trans hsum.symm
  · exact h.ledger key

/-- The amount that a change of a balance moves in an asset, fees apart. -/
def LedgerMutation.movedIn (assetId : Uuid) (m : LedgerMutation) : ℚ :=
  if m.assetId = assetId ∧ m.kind ≠ .fee then m.amount else 0

/-- The amount of the change is what the balance gains, and a fee is a loss. -/
structure LedgerMutation.Balanced (m : LedgerMutation) : Prop where
  amount : m.amount = m.availableDelta + m.lockedDelta
  fee : m.kind = .fee → m.amount ≤ 0

/-- An account gains what its new entries say. -/
theorem holding_applyLedgers {ms : List LedgerMutation} (hms : ∀ m ∈ ms, m.Balanced)
    (hledger : applyLedgers Arithmetic.exact.store ms db = .ok db') (key : Uuid × Uuid) :
    sumOf (ofAccount key) db'.ledgerEntries - holding db' key =
      sumOf (ofAccount key) db.ledgerEntries - holding db key := by
  induction ms generalizing db with
  | nil =>
    cases hledger
    rfl
  | cons m ms ih =>
    rcases applyLedgers_cons_eq_ok.mp hledger with ⟨mid, hmid, hrest⟩
    rcases applyLedger_eq_ok.mp hmid with
      ⟨row, available, locked, amount, hrow, havailable, hlocked, hamount, _, _, _, hafter⟩
    cases havailable
    cases hlocked
    cases hamount
    -- the first change writes one entry, of the same amount
    have hentries : mid.ledgerEntries = db.ledgerEntries ++
        [m.entry m.amount (row.available + m.availableDelta) (row.locked + m.lockedDelta)] := by
      rw [hafter]
    rw [ih (fun m' hm' => hms m' (List.mem_cons_of_mem m hm')) hrest, hentries, sumOf_append,
      sumOf_singleton, holding_update db (congrArg _ hafter)]
    by_cases heq : key = (m.userId, m.assetId)
    · simp only [heq, holding, hrow, ofAccount, LedgerMutation.entry, decide_true, if_true,
        (hms m List.mem_cons_self).amount]
      ring
    · simp [heq, Ne.symm heq, ofAccount, LedgerMutation.entry]

/-- Changes that are balanced keep the ledger in agreement with the balances, and move what
they say they do. -/
theorem audit_applyLedgers {ms : List LedgerMutation} (hms : ∀ m ∈ ms, m.Balanced)
    (hledger : applyLedgers Arithmetic.exact.store ms db = .ok db')
    (h : ∀ key, sumOf (ofAccount key) db.ledgerEntries = holding db key)
    (hfees : ∀ entry ∈ db.ledgerEntries, entry.kind = .fee → entry.amount ≤ 0) :
    (∀ key, sumOf (ofAccount key) db'.ledgerEntries = holding db' key) ∧
      (∀ assetId, sumOf (movedIn assetId) db'.ledgerEntries =
        sumOf (movedIn assetId) db.ledgerEntries + (ms.map (·.movedIn assetId)).sum) ∧
      ∀ entry ∈ db'.ledgerEntries, entry.kind = .fee → entry.amount ≤ 0 := by
  have hkeys : ∀ key, sumOf (ofAccount key) db'.ledgerEntries = holding db' key := by
    intro key
    have hgain := holding_applyLedgers hms hledger key
    rw [h key, sub_self] at hgain
    exact sub_eq_zero.mp hgain
  refine ⟨hkeys, ?_⟩
  -- what is moved, mutation by mutation
  clear h hkeys
  induction ms generalizing db with
  | nil =>
    cases hledger
    exact ⟨by simp, hfees⟩
  | cons m ms ih =>
    rcases applyLedgers_cons_eq_ok.mp hledger with ⟨mid, hmid, hrest⟩
    rcases applyLedger_eq_ok.mp hmid with
      ⟨row, available, locked, amount, _, _, _, hamount, _, _, _, hafter⟩
    cases hamount
    have hentries : mid.ledgerEntries =
        db.ledgerEntries ++ [m.entry m.amount available locked] := by
      rw [hafter]
    have hfees' : ∀ entry ∈ mid.ledgerEntries, entry.kind = .fee → entry.amount ≤ 0 := by
      intro entry hentry hkind
      rw [hentries] at hentry
      rcases List.mem_append.mp hentry with hentry | hentry
      · exact hfees entry hentry hkind
      · cases List.mem_singleton.mp hentry
        exact (hms m List.mem_cons_self).fee hkind
    rcases ih (fun m' hm' => hms m' (List.mem_cons_of_mem m hm')) hrest hfees' with ⟨hmoved, hfee⟩
    refine ⟨?_, hfee⟩
    intro assetId
    have hentry : sumOf (movedIn assetId) [m.entry m.amount available locked] =
        m.movedIn assetId := by
      rw [sumOf_singleton]
      by_cases hcounts : m.assetId = assetId ∧ m.kind ≠ .fee
      · simp [movedIn, LedgerMutation.movedIn, LedgerMutation.entry, hcounts]
      · rw [LedgerMutation.movedIn, if_neg hcounts, if_neg]
        exact fun h => hcounts (of_decide_eq_true h)
    rw [hmoved, hentries, sumOf_append, hentry, List.map_cons, List.sum_cons]
    ring

/-! ## The changes of a transaction -/

/-- Both orders of a fill are of one market. -/
def OneMarket (db : Tables) : Transaction → Prop
  | .settle ⟨_, .fill f⟩ => ∀ taker maker, db.orders.find? f.takerOrderId = some taker →
      db.orders.find? f.makerOrderId = some maker → taker.market = maker.market
  | _ => True

/-- Every mutation of settlement moves between available and locked, or enters what it takes. -/
theorem Mutates.balanced {seq : ℕ} {event : Proto.EngineEvent} {ms : List LedgerMutation}
    (h : Mutates .exact seq db event ms) : ∀ m ∈ ms, m.Balanced := by
  cases h with
  | nothing => simp
  | locks obligation =>
    intro m hm
    cases List.mem_singleton.mp hm
    exact ⟨(neg_add_cancel _).symm, fun hkind => by cases hkind⟩
  | unlocks obligation =>
    intro m hm
    cases List.mem_singleton.mp hm
    exact ⟨(add_neg_cancel _).symm, fun hkind => by cases hkind⟩
  | @fills fill a price quantity ha hprice hquantity hpos =>
    -- fees are not negative
    have hqty : 0 < value fill.quantity := by
      cases hquantity
      exact hpos.2.1
    have hnotional : 0 < a.notional := by
      cases hprice
      rw [← Option.some.inj ha.notional]
      exact mul_pos hpos.1 hqty
    have htakerFee : 0 ≤ a.takerFee := by
      have hfee := ha.takerFee
      rw [feeAmount_exact] at hfee
      rw [← Except.ok.inj hfee]
      exact div_nonneg (mul_nonneg hqty.le a.taker.market.takerFeeBps_nonneg) (by norm_num)
    have hmakerFee : 0 ≤ a.makerFee := by
      have hfee := ha.makerFee
      rw [feeAmount_exact] at hfee
      rw [← Except.ok.inj hfee]
      exact div_nonneg (mul_nonneg hnotional.le a.maker.market.makerFeeBps_nonneg) (by norm_num)
    intro m hm
    simp only [FillAmounts.mutations, fillMutations, List.mem_cons, List.not_mem_nil,
      or_false] at hm
    rcases hm with rfl | rfl | rfl | rfl | rfl | rfl
    all_goals constructor
    all_goals simp [tradeMutation, htakerFee, hmakerFee]

/-- Fees apart, the changes of a transaction cancel out for every asset. -/
theorem Mutates.cancels {e : Proto.SequencedEngineEvent} {ms : List LedgerMutation}
    (h : Mutates .exact e.seq db e.event ms) (hmarket : OneMarket db (.settle e))
    (assetId : Uuid) : (ms.map (·.movedIn assetId)).sum = 0 := by
  rcases e with ⟨seq, event⟩
  cases h with
  | nothing => rfl
  | locks obligation => simp [LedgerMutation.movedIn, lockMutation]
  | unlocks obligation => simp [LedgerMutation.movedIn, unlockMutation]
  -- both orders are of one market, so what one pays the other receives
  | @fills fill a _ _ ha =>
    have hsame : a.taker.market = a.maker.market := by
      have hrow := hmarket a.taker.row a.maker.row (ha.taker_id ▸ ha.taker.row)
        (ha.maker_id ▸ ha.maker.row)
      have htaker := ha.taker.market
      rw [hrow, ha.maker.market] at htaker
      exact (Option.some.inj htaker).symm
    have hparties : (a.buyer fill).market = (a.seller fill).market := by
      rcases parties_cases fill.takerSide a.taker a.maker with h | h
      · rw [FillAmounts.buyer, FillAmounts.seller, h]
        exact hsame
      · rw [FillAmounts.buyer, FillAmounts.seller, h]
        exact hsame.symm
    simp only [FillAmounts.mutations, fillMutations, tradeMutation, LedgerMutation.movedIn,
      hparties, List.map_cons, List.map_nil, List.sum_cons, List.sum_nil]
    split_ifs <;> simp_all

/-! ## Runs -/

/-- A transaction keeps the audit, committed or rolled back. -/
theorem Audited.commit {t : Transaction} (h : Audited db) (hmarket : OneMarket db t) :
    Audited (commit .exact db t) := by
  have hbooks := commit_books .exact db t
  generalize CryptoCex.Settlement.commit .exact db t = db' at hbooks ⊢
  cases hbooks with
  | idle hsame => exact h.congr hsame
  -- a deposit is entered as it is added to the balance
  | @faucet userId assetId depositId amount _ hfaucet =>
    rcases Tables.applyFaucet_eq_ok hfaucet with
      ⟨row, available, locked, stored, hrow, havailable, hlocked, hstored, _, _, _, hafter⟩
    cases havailable
    cases hlocked
    cases hstored
    refine ⟨?_, ?_, ?_⟩
    · intro key
      rw [holding_update db (congrArg _ hafter), hafter, sumOf_append, sumOf_singleton, h.ledger key]
      by_cases heq : key = (userId, assetId)
      · simp only [heq, holding, hrow, ofAccount, Tables.faucetEntry, decide_true, if_true]
        ring
      · simp [heq, Ne.symm heq, ofAccount, Tables.faucetEntry]
    · intro asset
      rw [hafter, sumOf_append, sumOf_singleton, h.moved asset, depositTotal, depositTotal,
        List.filter_append, List.map_append, List.sum_append]
      by_cases heq : assetId = asset
      · simp [heq, movedIn, Tables.faucetEntry]
      · simp [heq, movedIn, Tables.faucetEntry]
    · intro entry hentry hkind
      rw [hafter] at hentry
      rcases List.mem_append.mp hentry with hentry | hentry
      · exact h.fees entry hentry hkind
      · cases List.mem_singleton.mp hentry
        cases hkind
  | locks hrow hle hput => exact h.putBalance hrow (by ring) hput
  | unlocks hrow hput => exact h.putBalance hrow (by ring) hput
  -- what one party of a fill pays the other receives
  | settles hmutates hbefore hledger hafter =>
    have hstart := h.congr hbefore
    rcases audit_applyLedgers hmutates.balanced hledger hstart.ledger hstart.fees with
      ⟨hkeys, hmoved, hfees⟩
    refine Audited.congr ⟨hkeys, ?_, hfees⟩ hafter
    intro assetId
    rw [hmoved, hmutates.cancels hmarket, add_zero, hstart.moved, depositTotal, depositTotal,
      (keepsRest_of_applyLedgers hledger).deposits]

theorem sumOf_nonpos {p : LedgerEntry → Bool} {entries : List LedgerEntry}
    (h : ∀ entry ∈ entries, p entry = true → entry.amount ≤ 0) : sumOf p entries ≤ 0 := by
  induction entries with
  | nil => simp [sumOf]
  | cons entry entries ih =>
    rw [sumOf_cons]
    have hrest := ih fun entry' hentry' => h entry' (List.mem_cons_of_mem entry hentry')
    split_ifs with hp
    · exact add_nonpos (h entry List.mem_cons_self hp) hrest
    · exact (zero_add _).trans_le hrest

/-- The ledger of every run that starts from nothing balances: the entries of a user and an
asset add up to what the user holds of it, and what the users hold of an asset is what was
deposited less the fees. -/
theorem ledger_conserves {db : Tables}
    (hzero : ∀ key row, db.balances key = some row → row = ⟨0, 0⟩)
    (hledger : db.ledgerEntries = []) (hdeposits : db.deposits = []) {ts : List Transaction}
    (hmarket : Along (transact .exact) OneMarket db ts) {db' : Tables}
    (hrun : run (transact .exact) db ts = some db') :
    (∀ userId assetId, sumOf (ofAccount (userId, assetId)) db'.ledgerEntries =
      holding db' (userId, assetId)) ∧
    ∀ assetId, ∑ᶠ userId, holding db' (userId, assetId) =
        depositTotal db' assetId + sumOf (feeIn assetId) db'.ledgerEntries ∧
      sumOf (feeIn assetId) db'.ledgerEntries ≤ 0 := by
  -- nothing is held and nothing is recorded
  have hstart : Audited db := by
    refine ⟨?_, ?_, ?_⟩
    · intro key
      rw [hledger, holding]
      cases hrow : db.balances key with
      | none => simp [sumOf]
      | some row => simp [sumOf, hzero key row hrow]
    · intro assetId
      simp [sumOf, depositTotal, hledger, hdeposits]
    · simp [hledger]
  have hend : Audited db' := by
    refine Machine.run_invariant Audited OneMarket ?_ hstart hmarket hrun
    intro mid t mid' haudited hok hstep
    cases hstep
    exact haudited.commit hok
  refine ⟨fun userId assetId => hend.ledger (userId, assetId), ?_⟩
  intro assetId
  constructor
  · simp only [← hend.ledger]
    rw [(finsum_sumOf assetId db'.ledgerEntries).2, sumOf_asset, hend.moved]
  · -- a fee is only ever taken
    refine sumOf_nonpos ?_
    intro entry hentry hfee
    exact hend.fees entry hentry (of_decide_eq_true hfee).2

/-- A test of `OneMarket`. -/
def checkOneMarket (db : Tables) : Transaction → Bool
  | .settle ⟨_, .fill f⟩ =>
    (db.orders.find? f.takerOrderId).map (·.market) =
      (db.orders.find? f.makerOrderId).map (·.market)
  | _ => true

/-- The check decides that both orders are in one market. -/
theorem oneMarket_of_check {t : Transaction} (h : checkOneMarket db t = true) :
    OneMarket db t := by
  unfold OneMarket
  split
  · intro taker maker htaker hmaker
    have hsame := of_decide_eq_true h
    rw [htaker, hmaker] at hsame
    exact Option.some.inj hsame
  · trivial

/-- User 10 sells one unit to user 20 at 100. -/
def settledTrade : List Transaction :=
  [ .faucet 10 1 5 1, .faucet 20 2 500 2,
    .settle ⟨1, .orderAccepted (limitOrder 1 10 .sell 100 1)⟩,
    .settle ⟨2, .orderAccepted (limitOrder 2 20 .buy 100 1)⟩,
    .settle ⟨3, .fill (tradeFill 7 2 1 .buy 100 1)⟩ ]

/-- Nobody owns anything. -/
def emptyAccounts : Tables :=
  Db.openingTables [((10, 1), ⟨0, 0⟩), ((10, 2), ⟨0, 0⟩), ((20, 1), ⟨0, 0⟩), ((20, 2), ⟨0, 0⟩)]

/-- After the trade the users hold 4 and 0.999 units of the base asset: the deposit of 5 less
the fee of the buyer. -/
theorem trade_conserves : ∃ db, run (transact .exact) emptyAccounts settledTrade = some db ∧
    (holding db (10, 1), holding db (20, 1), sumOf (feeIn 1) db.ledgerEntries) =
      (4, 999 / 1000, -1 / 1000) ∧
    sumOf (ofAccount (20, 1)) db.ledgerEntries = holding db (20, 1) ∧
    ∑ᶠ userId, holding db (userId, 1) =
      depositTotal db 1 + sumOf (feeIn 1) db.ledgerEntries := by
  have hview : (run (transact .exact) emptyAccounts settledTrade).map (fun db =>
      (holding db (10, 1), holding db (20, 1), sumOf (feeIn 1) db.ledgerEntries)) =
        some (4, 999 / 1000, -1 / 1000) := by decide +kernel
  have hcheck : Machine.checkAlong (transact .exact) checkOneMarket emptyAccounts settledTrade =
      true := by decide +kernel
  have hmarket := Machine.along_of_check (fun _ _ h => oneMarket_of_check h) hcheck
  rcases Option.map_eq_some_iff.mp hview with ⟨db, hrun, hdb⟩
  have hzero : ∀ key row, emptyAccounts.balances key = some row → row = ⟨0, 0⟩ := by
    intro key row hrow
    simp only [emptyAccounts, Db.openingTables, List.lookup_cons, List.lookup_nil] at hrow
    split at hrow
    all_goals grind
  rcases ledger_conserves hzero rfl rfl hmarket hrun with ⟨hledger, hassets⟩
  exact ⟨db, hrun, hdb, hledger 20 1, (hassets 1).1⟩

end CryptoCex.Settlement
