import CryptoCex.Settlement.Statements

/-!
# The interleaved transactions refine the whole ones

`Represents` says which tables the cells stand for. Run alone, the statements of a transaction do
to the cells what the whole transaction (`perform`) does to the tables; so by two-phase locking
any interleaving of the statements of many transactions does what the committed ones do as wholes,
in the order of their commits (`interleaved_serializable`).
-/

namespace CryptoCex.Settlement

open CryptoCex.Core (Uuid)
open Db (Balance DbError Deposit LedgerEntry MarketRow OrderRow OrderStatus Tables TradeRow value)
open Proto (EngineEvent EngineOrder SequencedEngineEvent TradeFill)
open TwoPhase (Script)
open TwoPhase.Script (statement exec_bind exec_done exec_fail exec_statement)

abbrev Cells := ∀ cell, Content cell

/-- A row has this user and this client order id. -/
def Filed (orders : OrdMap Uuid OrderRow) (userId : Uuid) (clientOrderId : String) : Prop :=
  ∃ orderId row, orders.find? orderId = some row ∧ row.userId = userId ∧
    row.clientOrderId = some clientOrderId

theorem filed_insert_new {orders : OrdMap Uuid OrderRow} {orderId : Uuid}
    (hnew : orders.find? orderId = none) (row : OrderRow) (userId : Uuid)
    (clientOrderId : String) : Filed (orders.insert orderId row) userId clientOrderId ↔
      Filed orders userId clientOrderId ∨
        row.userId = userId ∧ row.clientOrderId = some clientOrderId := by
  constructor
  · rintro ⟨orderId', found, hfound, hrest⟩
    rw [OrdMap.find?_insert] at hfound
    split_ifs at hfound with heq
    · cases hfound
      exact .inr hrest
    · exact .inl ⟨orderId', found, hfound, hrest⟩
  · rintro (⟨orderId', found, hfound, hrest⟩ | hrow)
    · refine ⟨orderId', found, ?_, hrest⟩
      rw [OrdMap.find?_insert, if_neg (by rintro rfl; rw [hnew] at hfound; cases hfound)]
      exact hfound
    · exact ⟨orderId, row, OrdMap.find?_insert_self .., hrow⟩

/-- A row that keeps its user and its client order id. -/
theorem filed_insert_same {orders : OrdMap Uuid OrderRow} {orderId : Uuid} {row row' : OrderRow}
    (hrow : orders.find? orderId = some row) (huser : row'.userId = row.userId)
    (hclient : row'.clientOrderId = row.clientOrderId) (userId : Uuid) (clientOrderId : String) :
    Filed (orders.insert orderId row') userId clientOrderId ↔
      Filed orders userId clientOrderId := by
  constructor
  · -- a row that is found afterwards was there, or is the one that is written
    rintro ⟨orderId', found, hfound, hrest⟩
    rw [OrdMap.find?_insert] at hfound
    split_ifs at hfound with heq
    · cases hfound
      rw [huser, hclient] at hrest
      exact ⟨orderId, row, hrow, hrest⟩
    · exact ⟨orderId', found, hfound, hrest⟩
  · -- a row that was found before is still there, or is the one that is overwritten
    rintro ⟨orderId', found, hfound, hrest⟩
    by_cases heq : orderId' = orderId
    · subst heq
      rw [hrow] at hfound
      cases hfound
      rw [← huser, ← hclient] at hrest
      exact ⟨orderId', row', OrdMap.find?_insert_self .., hrest⟩
    · refine ⟨orderId', found, ?_, hrest⟩
      rw [OrdMap.find?_insert, if_neg heq]
      exact hfound

theorem clashes_eq_false {db : Tables} {input : Tables.InsertOrder}
    (hnew : db.orders.find? input.id = none)
    (hfree : ∀ clientOrderId, input.clientOrderId = some clientOrderId →
      ¬Filed db.orders input.userId clientOrderId) : db.clashes input = false := by
  unfold Tables.clashes
  rw [hnew, Option.isSome_none, Bool.false_or, List.any_eq_false]
  rintro ⟨orderId, row⟩ hmem hrow
  simp only [decide_eq_true_eq] at hrow
  rcases hrow with ⟨huser, hsome, heq⟩
  rcases Option.isSome_iff_exists.mp hsome with ⟨clientOrderId, hclient⟩
  exact hfree clientOrderId (heq.symm.trans hclient)
    ⟨orderId, row, OrdMap.find?_eq_some.mpr hmem, huser, hclient⟩

/-- The cells stand for the tables. The entries of a user and an asset are in the order of the
tables; entries of others may have other ids between them. -/
structure Represents (markets : String → Option MarketRow) (cells : Cells) (db : Tables) :
    Prop where
  balance : ∀ userId assetId,
    (cells (.account userId assetId)).balance = db.balances (userId, assetId)
  entries : ∀ userId assetId, (cells (.account userId assetId)).entries.map Prod.snd =
    db.ledgerEntries.filter fun entry => (entry.userId, entry.assetId) = (userId, assetId)
  order : ∀ orderId, cells (.order orderId) = db.orders.find? orderId
  clientOrder : ∀ userId clientOrderId,
    cells (.clientOrder userId clientOrderId) = true ↔ Filed db.orders userId clientOrderId
  event : ∀ seq, cells (.event seq) = db.trades.filter fun trade => trade.engineSeq = seq
  trade : ∀ tradeId, cells (.trade tradeId) = db.trades.any fun trade => trade.id = tradeId
  deposit : ∀ depositId, cells (.deposit depositId) =
    db.deposits.filter fun deposit => deposit.id = depositId
  markets : db.markets = markets

variable {arith : Arithmetic} {markets : String → Option MarketRow} {cells cells' : Cells}
  {db db' : Tables} {ns : List ℕ}

namespace Represents

/-! ## Writes of cells and of tables -/

/-- Writing the balance cell writes the balance. -/
theorem setBalance (h : Represents markets cells db) (userId assetId : Uuid) (after : Balance) :
    Represents markets
      (Function.update cells (.account userId assetId)
        { cells (.account userId assetId) with balance := some after })
      { db with balances := Function.update db.balances (userId, assetId) (some after) } where
  balance := by
    intro userId' assetId'
    by_cases heq : (userId', assetId') = (userId, assetId)
    · cases heq
      rw [Function.update_self]
      exact (Function.update_self (userId, assetId) (some after) db.balances).symm
    · rw [Function.update_of_ne (by simpa using heq)]
      exact (h.balance userId' assetId').trans (Function.update_of_ne heq ..).symm
  entries := by
    intro userId' assetId'
    by_cases heq : (userId', assetId') = (userId, assetId)
    · cases heq
      rw [Function.update_self]
      exact h.entries userId assetId
    · rw [Function.update_of_ne (by simpa using heq)]
      exact h.entries userId' assetId'
  order := h.order
  clientOrder := h.clientOrder
  event := h.event
  trade := h.trade
  deposit := h.deposit
  markets := h.markets

theorem addEntry (h : Represents markets cells db) (entry : LedgerEntry) (id : ℕ) :
    Represents markets
      (Function.update cells (.account entry.userId entry.assetId)
        { cells (.account entry.userId entry.assetId) with
          entries := (cells (.account entry.userId entry.assetId)).entries ++ [(id, entry)] })
      { db with ledgerEntries := db.ledgerEntries ++ [entry] } where
  balance := by
    intro userId assetId
    by_cases heq : (userId, assetId) = (entry.userId, entry.assetId)
    · cases heq
      rw [Function.update_self]
      exact h.balance _ _
    · rw [Function.update_of_ne (by simpa using heq)]
      exact h.balance userId assetId
  entries := by
    intro userId assetId
    rw [List.filter_append, ← h.entries userId assetId]
    by_cases heq : (userId, assetId) = (entry.userId, entry.assetId)
    · cases heq
      rw [Function.update_self, List.map_append]
      simp
    · rw [Function.update_of_ne (by simpa using heq)]
      have hother : decide ((entry.userId, entry.assetId) = (userId, assetId)) = false :=
        decide_eq_false fun h => heq h.symm
      rw [List.filter_singleton, hother, cond_false, List.append_nil]
  order := h.order
  clientOrder := h.clientOrder
  event := h.event
  trade := h.trade
  deposit := h.deposit
  markets := h.markets

/-- A row of `orders`, in its cell and with its key in that of the index. -/
theorem putOrder (h : Represents markets cells db) (orderId : Uuid) (row : OrderRow)
    (horder : cells' (.order orderId) = some row)
    (hclient : ∀ userId clientOrderId, cells' (.clientOrder userId clientOrderId) = true ↔
      Filed (db.orders.insert orderId row) userId clientOrderId)
    (hother : ∀ cell, cell ≠ .order orderId → (∀ userId clientOrderId,
      cell ≠ .clientOrder userId clientOrderId) → cells' cell = cells cell) :
    Represents markets cells' { db with orders := db.orders.insert orderId row } where
  balance := by
    intro userId assetId
    rw [hother _ (by simp) (by simp)]
    exact h.balance userId assetId
  entries := by
    intro userId assetId
    rw [hother _ (by simp) (by simp)]
    exact h.entries userId assetId
  order := by
    intro orderId'
    rw [OrdMap.find?_insert]
    -- one row of one cell
    by_cases heq : orderId' = orderId
    · subst heq
      rw [if_pos rfl, horder]
    · rw [if_neg heq, hother _ (by simpa using heq) (by simp)]
      exact h.order orderId'
  clientOrder := hclient
  event := by
    intro seq
    rw [hother _ (by simp) (by simp)]
    exact h.event seq
  trade := by
    intro tradeId
    rw [hother _ (by simp) (by simp)]
    exact h.trade tradeId
  deposit := by
    intro depositId
    rw [hother _ (by simp) (by simp)]
    exact h.deposit depositId
  markets := h.markets

/-- A write of an order's cell that leaves the index alone. -/
theorem setOrder (h : Represents markets cells db) (orderId : Uuid) (row : OrderRow)
    (hfiled : ∀ userId clientOrderId, Filed (db.orders.insert orderId row) userId clientOrderId ↔
      Filed db.orders userId clientOrderId) :
    Represents markets (Function.update cells (.order orderId) (some row))
      { db with orders := db.orders.insert orderId row } := by
  refine h.putOrder orderId row (Function.update_self ..) ?_ ?_
  · intro userId clientOrderId
    rw [Function.update_of_ne (by simp), h.clientOrder, hfiled]
  · intro cell hne _
    exact Function.update_of_ne hne ..

/-- A write that puts back what is there. -/
theorem rewrite (h : Represents markets cells db) {cell : Cell} {content : Content cell}
    (heq : content = cells cell) : Represents markets (Function.update cells cell content) db := by
  rw [heq, Function.update_eq_self]
  exact h

theorem addTrade (h : Represents markets cells db) (row : TradeRow)
    (htrade : cells' (.trade row.id) = true)
    (hevent : cells' (.event row.engineSeq) = cells (.event row.engineSeq) ++ [row])
    (hother : ∀ cell, cell ≠ .trade row.id → cell ≠ .event row.engineSeq →
      cells' cell = cells cell) :
    Represents markets cells' { db with trades := db.trades ++ [row] } where
  balance := by
    intro userId assetId
    rw [hother _ (by simp) (by simp)]
    exact h.balance userId assetId
  entries := by
    intro userId assetId
    rw [hother _ (by simp) (by simp)]
    exact h.entries userId assetId
  order := by
    intro orderId
    rw [hother _ (by simp) (by simp)]
    exact h.order orderId
  clientOrder := by
    intro userId clientOrderId
    rw [hother _ (by simp) (by simp)]
    exact h.clientOrder userId clientOrderId
  event := by
    intro seq
    rw [List.filter_append, ← h.event seq]
    -- the trade is in the cell of its event and in that of its id
    by_cases heq : seq = row.engineSeq
    · subst heq
      simp [hevent]
    · rw [hother _ (by simp) (by simpa using heq)]
      simp [Ne.symm heq]
  trade := by
    intro tradeId
    rw [List.any_append, ← h.trade tradeId]
    by_cases heq : tradeId = row.id
    · subst heq
      simp [htrade]
    · rw [hother _ (by simpa using heq) (by simp)]
      simp [Ne.symm heq]
  deposit := by
    intro depositId
    rw [hother _ (by simp) (by simp)]
    exact h.deposit depositId
  markets := h.markets

theorem addDeposit (h : Represents markets cells db) (deposit : Deposit)
    (hnew : cells (.deposit deposit.id) = []) :
    Represents markets (Function.update cells (.deposit deposit.id) [deposit])
      { db with deposits := db.deposits ++ [deposit] } where
  balance := h.balance
  entries := h.entries
  order := h.order
  clientOrder := h.clientOrder
  event := h.event
  trade := h.trade
  deposit := by
    intro depositId
    rw [List.filter_append, ← h.deposit depositId]
    by_cases heq : depositId = deposit.id
    · subst heq
      rw [Function.update_self, hnew]
      simp
    · rw [Function.update_of_ne (by simpa using heq)]
      simp [Ne.symm heq]
  markets := h.markets

end Represents

/-! ## Statements on balances -/

namespace Statements

theorem checkedBalance_eq_some {store : ℚ → Option ℚ} {x y : ℚ} {after : Balance}
    (h : checkedBalance store x y = some after) :
    store x = some after.available ∧ store y = some after.locked ∧ 0 ≤ after.available ∧
      0 ≤ after.locked := by
  rcases Option.bind_eq_some_iff.mp h with ⟨available, havailable, h⟩
  rcases Option.bind_eq_some_iff.mp h with ⟨locked, hlocked, h⟩
  split_ifs at h with hchecks
  cases h
  exact ⟨havailable, hlocked, hchecks⟩

/-- A checked balance is one that can be put. -/
theorem putBalance_of_checked {store : ℚ → Option ℚ} {x y : ℚ} {after : Balance}
    (h : checkedBalance store x y = some after) (db : Tables) (userId assetId : Uuid) :
    db.putBalance store userId assetId x y = .ok { db with
      balances := Function.update db.balances (userId, assetId) (some after) } := by
  rcases checkedBalance_eq_some h with ⟨havailable, hlocked, h0, h1⟩
  exact Tables.putBalance_eq_ok.mpr ⟨_, _, havailable, hlocked, h0, h1, rfl⟩

/-- Updating a balance, statement and whole. -/
theorem updateBalance_represents (h : Represents markets cells db) {userId assetId : Uuid}
    {x y : ℚ} {after : Balance}
    (hexec : (updateBalance arith userId assetId x y).exec ns cells = some (after, cells')) :
    ∃ row, db.balances (userId, assetId) = some row ∧
      checkedBalance arith.store (row.available + x) (row.locked + y) = some after ∧
      Represents markets cells' { db with
        balances := Function.update db.balances (userId, assetId) (some after) } := by
  rcases exec_statement hexec with ⟨n, account, _, hf, rfl⟩
  rcases Option.bind_eq_some_iff.mp hf with ⟨row, hrow, hf⟩
  rcases Option.bind_eq_some_iff.mp hf with ⟨after', hafter, hf⟩
  cases hf
  exact ⟨row, (h.balance userId assetId).symm.trans hrow, hafter,
    h.setBalance userId assetId after⟩

/-- Taking a lock. -/
theorem tryLockBalance_represents (h : Represents markets cells db) {userId assetId : Uuid}
    {amount : ℚ} {locked : Bool}
    (hexec : (tryLockBalance arith userId assetId amount).exec ns cells = some (locked, cells')) :
    ∃ db', db.tryLockBalance arith.store userId assetId amount = .ok (locked, db') ∧
      Represents markets cells' db' := by
  rcases exec_statement hexec with ⟨n, account, _, hf, rfl⟩
  unfold Tables.tryLockBalance
  rw [← h.balance]
  cases hbalance : (cells (.account userId assetId)).balance with
  -- there is no row to lock in
  | none =>
    rw [hbalance] at hf
    cases hf
    exact ⟨db, rfl, h.rewrite rfl⟩
  | some row =>
    rw [hbalance] at hf
    dsimp only at hf ⊢
    -- locked, or not enough is available
    split_ifs at hf ⊢ with hle
    · rcases Option.bind_eq_some_iff.mp hf with ⟨after, hafter, hf⟩
      cases hf
      rw [putBalance_of_checked hafter]
      exact ⟨_, rfl, h.setBalance userId assetId after⟩
    · cases hf
      exact ⟨db, rfl, h.rewrite rfl⟩

/-- Giving it back. -/
theorem unlockBalance_represents (h : Represents markets cells db) {userId assetId : Uuid}
    {amount : ℚ}
    (hexec : (unlockBalance arith userId assetId amount).exec ns cells = some ((), cells')) :
    ∃ db', db.unlockBalance arith.store userId assetId amount = .ok ((), db') ∧
      Represents markets cells' db' := by
  rcases exec_statement hexec with ⟨n, account, _, hf, rfl⟩
  unfold Tables.unlockBalance
  rw [← h.balance]
  cases hbalance : (cells (.account userId assetId)).balance with
  | none =>
    rw [hbalance] at hf
    cases hf
    exact ⟨db, rfl, h.rewrite rfl⟩
  | some row =>
    rw [hbalance] at hf
    rcases Option.bind_eq_some_iff.mp hf with ⟨after, hafter, hf⟩
    cases hf
    dsimp only
    rw [putBalance_of_checked hafter]
    exact ⟨_, rfl, h.setBalance userId assetId after⟩

/-! ## Statements on the ledger -/

/-- A mutation. -/
theorem applyLedger_represents (h : Represents markets cells db) {m : LedgerMutation}
    (hexec : (applyLedger arith m).exec ns cells = some ((), cells')) :
    ∃ db', Settlement.applyLedger arith.store m db = .ok db' ∧ Represents markets cells' db' := by
  rcases exec_bind hexec with ⟨ns₁, ns₂, after, mid, _, hupdate, hinsert⟩
  rcases updateBalance_represents h hupdate with ⟨row, hrow, hafter, hmid⟩
  rcases exec_statement hinsert with ⟨n, account, _, hf, rfl⟩
  rcases Option.bind_eq_some_iff.mp hf with ⟨amount, hamount, hf⟩
  split_ifs at hf with hseq
  cases hf
  rcases checkedBalance_eq_some hafter with ⟨havailable, hlocked, h0, h1⟩
  refine ⟨{ db with
    balances := Function.update db.balances (m.userId, m.assetId) (some after)
    ledgerEntries := db.ledgerEntries ++
      [m.entry amount after.available after.locked] }, ?_, ?_⟩
  · unfold Settlement.applyLedger
    simp only [hrow, havailable, hlocked, hamount]
    rw [if_pos ⟨h0, h1, hseq⟩]
  · exact hmid.addEntry (m.entry amount after.available after.locked) n

/-- Mutations, one after the other. -/
theorem applyLedgers_represents {ms : List LedgerMutation} (h : Represents markets cells db)
    (hexec : (applyLedgers arith ms).exec ns cells = some ((), cells')) :
    ∃ db', Settlement.applyLedgers arith.store ms db = .ok db' ∧
      Represents markets cells' db' := by
  induction ms generalizing ns cells db with
  | nil =>
    rcases exec_done.mp hexec with ⟨_, hcells⟩
    cases hcells
    exact ⟨db, rfl, h⟩
  | cons m ms ih =>
    rcases exec_bind hexec with ⟨ns₁, ns₂, done, mid, _, hfirst, hrest⟩
    cases done
    rcases applyLedger_represents h hfirst with ⟨db₁, hdb₁, hmid⟩
    rcases ih hmid hrest with ⟨db', hdb', hcells⟩
    exact ⟨db', Except.bind_eq_ok.mpr ⟨db₁, hdb₁, hdb'⟩, hcells⟩

theorem applyObligation_represents (h : Represents markets cells db)
    {mutation : Uuid → ℚ → LedgerMutation} {obligation : Uuid × ℚ}
    (hexec : (applyObligation arith mutation obligation).exec ns cells = some ((), cells')) :
    ∃ db', Settlement.applyObligation arith.store mutation obligation db = .ok db' ∧
      Represents markets cells' db' := by
  unfold applyObligation at hexec
  unfold Settlement.applyObligation
  split_ifs at hexec ⊢ with hpos
  · exact applyLedger_represents h hexec
  · rcases exec_done.mp hexec with ⟨_, hcells⟩
    cases hcells
    exact ⟨db, rfl, h⟩

theorem insertDeposit_represents (h : Represents markets cells db) {deposit : Deposit}
    (hexec : (insertDeposit arith deposit).exec ns cells = some ((), cells')) :
    ∃ db', db.insertDeposit arith.store deposit = .ok db' ∧ db'.balances = db.balances ∧
      Represents markets cells' db' := by
  rcases exec_statement hexec with ⟨_, deposits, _, hf, rfl⟩
  rcases Option.bind_eq_some_iff.mp hf with ⟨stored, hstored, hf⟩
  split_ifs at hf with hchecks
  cases hf
  have hfree : (db.deposits.any fun other => other.id = deposit.id) = false := by
    have hnone := hchecks.2
    rw [h.deposit deposit.id, List.filter_eq_nil_iff] at hnone
    rw [List.any_eq_false]
    exact hnone
  refine ⟨{ db with deposits := db.deposits ++ [{ deposit with amount := stored }] }, ?_, rfl, ?_⟩
  · unfold Tables.insertDeposit
    rw [hstored]
    dsimp only
    rw [if_pos hchecks.1, hfree]
    rfl
  · exact h.addDeposit { deposit with amount := stored } hchecks.2

theorem insertFaucetEntry_represents (h : Represents markets cells db)
    {userId assetId depositId : Uuid} {amount : ℚ} {after : Balance}
    (hafter : db.balances (userId, assetId) = some after)
    (hexec : (insertFaucetEntry arith userId assetId amount depositId).exec ns cells =
      some ((), cells')) :
    ∃ stored, arith.store amount = some stored ∧ Represents markets cells' { db with
      ledgerEntries := db.ledgerEntries ++
        [Tables.faucetEntry userId assetId stored depositId after] } := by
  rcases exec_statement hexec with ⟨n, account, _, hf, rfl⟩
  rcases Option.bind_eq_some_iff.mp hf with ⟨stored, hstored, hf⟩
  have hbalance := (h.balance userId assetId).trans hafter
  have hadd := h.addEntry (Tables.faucetEntry userId assetId stored depositId after) n
  rw [hbalance] at hf
  cases hf
  refine ⟨stored, hstored, ?_⟩
  rw [← hbalance]
  exact hadd

/-- A deposit. -/
theorem applyFaucet_represents (h : Represents markets cells db) {userId assetId depositId : Uuid}
    {amount : ℚ}
    (hexec : (applyFaucet arith userId assetId amount depositId).exec ns cells =
      some ((), cells')) :
    ∃ db', db.applyFaucet arith.store userId assetId amount depositId = .ok db' ∧
      Represents markets cells' db' := by
  rcases exec_bind hexec with ⟨_, _, after, cells₁, _, hupdate, hexec⟩
  rcases exec_bind hexec with ⟨_, _, done, cells₂, _, hdeposit, hentry⟩
  cases done
  rcases updateBalance_represents h hupdate with ⟨row, hrow, hafter, h₁⟩
  rw [add_zero] at hafter
  rcases insertDeposit_represents h₁ hdeposit with ⟨db₂, hdb₂, hbalances, h₂⟩
  have hself : db₂.balances (userId, assetId) = some after := by
    rw [hbalances]
    exact Function.update_self ..
  rcases insertFaucetEntry_represents h₂ hself hentry with ⟨stored, hstored, h₃⟩
  refine ⟨_, ?_, h₃⟩
  unfold Tables.applyFaucet
  rw [hrow]
  refine Except.bind_eq_ok.mpr ⟨_, putBalance_of_checked hafter db userId assetId, ?_⟩
  refine Except.bind_eq_ok.mpr ⟨db₂, hdb₂, ?_⟩
  rw [hstored, hself]
  rfl

/-! ## Statements on orders -/

/-- A status. -/
theorem updateStatus_represents (h : Represents markets cells db) {orderId : Uuid}
    {status : OrderStatus}
    (hexec : (updateStatus orderId status).exec ns cells = some ((), cells')) :
    Represents markets cells' (db.updateStatus orderId status) := by
  rcases exec_statement hexec with ⟨_, order, _, hf, rfl⟩
  cases hf
  unfold Tables.updateStatus
  rw [h.order orderId]
  cases hrow : db.orders.find? orderId with
  | none => exact h.rewrite ((h.order orderId).trans hrow).symm
  | some row => exact h.setOrder orderId _ (filed_insert_same hrow rfl rfl)

theorem fetchOrder_represents (h : Represents markets cells db) {orderId : Uuid}
    {fetched : FetchedOrder}
    (hexec : (fetchOrder markets orderId).exec ns cells = some (fetched, cells')) :
    Settlement.fetchOrder db orderId = .ok fetched ∧ Represents markets cells' db := by
  rcases exec_statement hexec with ⟨_, order, _, hf, rfl⟩
  rcases Option.bind_eq_some_iff.mp hf with ⟨row, hrow, hf⟩
  rcases Option.bind_eq_some_iff.mp hf with ⟨market, hmarket, hf⟩
  cases hf
  refine ⟨?_, h.rewrite rfl⟩
  unfold Settlement.fetchOrder
  rw [h.order orderId] at hrow
  rw [hrow]
  dsimp only
  rw [h.markets, hmarket]

/-- An order, with the key of its client id. -/
theorem insertOrder_represents (h : Represents markets cells db) {order : EngineOrder}
    {inserted : Bool}
    (hexec : (insertOrder arith order).exec ns cells = some (inserted, cells')) :
    ∃ db', Settlement.insertOrder arith.store order db = .ok (inserted, db') ∧
      db'.markets = db.markets ∧ Represents markets cells' db' := by
  rcases exec_statement hexec with ⟨_, found, _, hf, rfl⟩
  rw [h.order order.id] at hf
  cases hrow : Tables.checkedRow arith.store (acceptedRow order) .new with
  | error e =>
    rw [hrow] at hf
    cases hf
  | ok row =>
    rw [hrow] at hf
    unfold Settlement.insertOrder
    cases hfound : db.orders.find? order.id with
    | some existing =>
      rw [hfound] at hf
      cases hf
      refine ⟨db, ?_, rfl, h.rewrite ((h.order order.id).trans hfound).symm⟩
      exact Except.bind_eq_ok.mpr ⟨row, hrow, rfl⟩
    | none =>
      rw [hfound] at hf
      cases hf
      refine ⟨{ db with orders := db.orders.insert order.id row }, ?_, rfl, ?_⟩
      · exact Except.bind_eq_ok.mpr ⟨row, hrow, rfl⟩
      · -- settlement inserts no client order id
        have hclient : row.clientOrderId = none := (Tables.checkedRow_keys hrow).2
        refine h.setOrder order.id row ?_
        intro userId clientOrderId
        rw [filed_insert_new hfound, hclient]
        simp

/-- An order of the API. -/
theorem insertPending_represents (h : Represents markets cells db) {input : Tables.InsertOrder}
    (hexec : (insertPending arith input).exec ns cells = some ((), cells')) :
    ∃ db', db.insertOrder arith.store input = .ok ((), db') ∧ Represents markets cells' db' := by
  rcases exec_bind hexec with ⟨_, _, row, mid, _, hinsert, hindex⟩
  rcases exec_statement hinsert with ⟨_, order, _, hf, rfl⟩
  rw [h.order input.id] at hf
  split at hf
  · next hnew hrow =>
    cases hf
    rcases Tables.checkedRow_keys hrow with ⟨huser, hclient⟩
    rw [huser, hclient] at hindex
    cases hinput : input.clientOrderId with
    | none =>
      rw [hinput] at hindex hclient
      rcases exec_done.mp hindex with ⟨_, hcells⟩
      cases hcells
      refine ⟨_, Tables.insertOrder_eq_ok.mpr ⟨row, hrow, clashes_eq_false hnew ?_, rfl⟩, ?_⟩
      · intro clientOrderId hsome
        rw [hinput] at hsome
        cases hsome
      · refine h.setOrder input.id row ?_
        intro userId clientOrderId
        rw [filed_insert_new hnew, hclient]
        simp
    | some clientOrderId =>
      -- the key is checked after the row is there; a taken one rolls the row back
      rw [hinput] at hindex hclient
      rcases exec_statement hindex with ⟨_, taken, _, hf, rfl⟩
      rw [Function.update_of_ne (by simp)] at hf
      split_ifs at hf with htaken
      cases hf
      have hfree : ¬Filed db.orders input.userId clientOrderId := by
        rw [← h.clientOrder]
        exact htaken
      refine ⟨_, Tables.insertOrder_eq_ok.mpr ⟨row, hrow, clashes_eq_false hnew ?_, rfl⟩, ?_⟩
      · intro clientOrderId' hsome
        rw [hinput] at hsome
        cases hsome
        exact hfree
      · refine h.putOrder input.id row ?_ ?_ ?_
        · rw [Function.update_of_ne (by simp), Function.update_self]
        · intro userId clientOrderId'
          rw [filed_insert_new hnew, huser, hclient, ← h.clientOrder]
          by_cases hkey : (userId, clientOrderId') = (input.userId, clientOrderId)
          · cases hkey
            simp
          · rw [Function.update_of_ne (by simpa using hkey), Function.update_of_ne (by simp)]
            refine (or_iff_left ?_).symm
            rintro ⟨rfl, hsome⟩
            cases hsome
            exact hkey rfl
        · intro cell hne hneClient
          rw [Function.update_of_ne (hneClient _ _), Function.update_of_ne hne]
  · cases hf

/-! ## Settlement -/

/-- A computation of the worker, and what follows it. -/
theorem exec_compute {α β : Type} {x : Except DbError α} {f : α → Script Content β}
    {r : β × Cells} (hexec : (compute x >>= f).exec ns cells = some r) :
    ∃ a ns', x = .ok a ∧ (f a).exec ns' cells = some r := by
  cases x with
  | error e => exact absurd hexec (exec_fail _)
  | ok a => exact ⟨a, ns, rfl, hexec⟩

/-- An acceptance. -/
theorem settleOrderAccepted_represents (h : Represents markets cells db) {seq : ℕ}
    {order : EngineOrder}
    (hexec : (settleOrderAccepted arith markets seq order).exec ns cells = some ((), cells')) :
    ∃ db', Settlement.settleOrderAccepted arith seq order db = .ok db' ∧
      Represents markets cells' db' := by
  unfold settleOrderAccepted at hexec
  split at hexec
  · exact absurd hexec (exec_fail _)
  · next market hmarket =>
    have hfetch : fetchMarket db order.symbol = .ok market := by
      unfold fetchMarket
      rw [h.markets, hmarket]
    rcases exec_bind hexec with ⟨_, _, inserted, _, _, hinsert, hexec⟩
    rcases insertOrder_represents h hinsert with ⟨db₁, hdb₁, _, h₁⟩
    cases inserted with
    | false =>
      -- the row is that of the API, which has locked the funds
      rcases exec_done.mp hexec with ⟨_, hcells⟩
      cases hcells
      refine ⟨db₁, Except.bind_eq_ok.mpr ⟨market, hfetch, ?_⟩, h₁⟩
      exact Except.bind_eq_ok.mpr ⟨(false, db₁), hdb₁, rfl⟩
    | true =>
      rw [if_neg (by simp)] at hexec
      rcases exec_compute hexec with ⟨obligation, _, hobligation, hexec⟩
      rcases applyObligation_represents h₁ hexec with ⟨db', hdb', h'⟩
      refine ⟨db', Except.bind_eq_ok.mpr ⟨market, hfetch, ?_⟩, h'⟩
      refine Except.bind_eq_ok.mpr ⟨(true, db₁), hdb₁, ?_⟩
      exact Except.bind_eq_ok.mpr ⟨obligation, hobligation, hdb'⟩

theorem insertTrade_represents (h : Represents markets cells db) {seq : ℕ} {fill : TradeFill}
    {market : String}
    (hexec : (insertTrade arith seq fill market).exec ns cells = some ((), cells')) :
    ∃ db', Settlement.insertTrade arith.store seq fill market db = .ok db' ∧
      Represents markets cells' db' := by
  rcases exec_bind hexec with ⟨_, _, _, _, _, hid, hexec⟩
  rcases exec_statement hid with ⟨_, taken, _, hf, rfl⟩
  split_ifs at hf with htaken
  cases hf
  rcases exec_statement hexec with ⟨_, trades, _, hf, rfl⟩
  rcases Option.bind_eq_some_iff.mp hf with ⟨price, hprice, hf⟩
  rcases Option.bind_eq_some_iff.mp hf with ⟨quantity, hquantity, hf⟩
  split_ifs at hf with hpos
  cases hf
  refine ⟨{ db with trades := db.trades ++ [tradeRow seq fill market price quantity] }, ?_, ?_⟩
  · unfold Settlement.insertTrade
    simp only [hprice, hquantity]
    rw [if_pos hpos, ← h.trade fill.tradeId, if_neg htaken]
  · -- the list of trades and the index on their ids change, and no other cell
    refine h.addTrade (tradeRow seq fill market price quantity) ?_ ?_ ?_
    · exact (Function.update_of_ne (by simp) ..).trans (Function.update_self ..)
    · refine (Function.update_self ..).trans ?_
      rw [Function.update_of_ne (by simp)]
      rfl
    · intro cell hneTrade hneEvent
      exact (Function.update_of_ne hneEvent ..).trans (Function.update_of_ne hneTrade ..)

/-- The mutations of a fill. -/
theorem applyFillLedger_represents (h : Represents markets cells db) {seq : ℕ} {fill : TradeFill}
    {taker maker : FetchedOrder}
    (hexec : (applyFillLedger arith seq fill taker maker).exec ns cells = some ((), cells')) :
    ∃ db', Settlement.applyFillLedger arith seq fill taker maker db = .ok db' ∧
      Represents markets cells' db' := by
  unfold applyFillLedger at hexec
  rcases exec_compute hexec with ⟨notional, _, hnotional, hexec⟩
  rcases exec_compute hexec with ⟨takerFee, _, htakerFee, hexec⟩
  rcases exec_compute hexec with ⟨makerFee, _, hmakerFee, hexec⟩
  rcases applyLedgers_represents h hexec with ⟨db', hdb', h'⟩
  refine ⟨db', Except.bind_eq_ok.mpr ⟨notional, hnotional, ?_⟩, h'⟩
  refine Except.bind_eq_ok.mpr ⟨takerFee, htakerFee, ?_⟩
  exact Except.bind_eq_ok.mpr ⟨makerFee, hmakerFee, hdb'⟩

theorem updateOrderFill_represents (h : Represents markets cells db) {order : FetchedOrder}
    {price quantity : ℚ}
    (hexec : (updateOrderFill arith order price quantity).exec ns cells = some ((), cells')) :
    ∃ db', Settlement.updateOrderFill arith order price quantity db = .ok db' ∧
      Represents markets cells' db' := by
  rcases exec_statement hexec with ⟨_, found, _, hf, rfl⟩
  rw [h.order order.id] at hf
  cases hcolumns : fillColumns arith order.row price quantity with
  | error e =>
    rw [hcolumns] at hf
    cases hf
  | ok columns =>
    rw [hcolumns] at hf
    cases hf
    unfold Settlement.updateOrderFill
    cases hrow : db.orders.find? order.id with
    | none =>
      refine ⟨db, Except.bind_eq_ok.mpr ⟨columns, hcolumns, rfl⟩, ?_⟩
      exact h.rewrite ((h.order order.id).trans hrow).symm
    | some row =>
      refine ⟨_, Except.bind_eq_ok.mpr ⟨columns, hcolumns, rfl⟩, ?_⟩
      exact h.setOrder order.id _ (filed_insert_same hrow rfl rfl)

/-- A fill. -/
theorem settleFill_represents (h : Represents markets cells db) {seq : ℕ} {fill : TradeFill}
    (hexec : (settleFill arith markets seq fill).exec ns cells = some ((), cells')) :
    ∃ db', Settlement.settleFill arith seq fill db = .ok db' ∧ Represents markets cells' db' := by
  rcases exec_bind hexec with ⟨_, _, existing, _, _, hselect, hexec⟩
  rcases exec_statement hselect with ⟨_, trades, _, hf, rfl⟩
  cases hf
  have h₀ : Represents markets (Function.update cells (.event seq) (cells (.event seq))) db :=
    h.rewrite rfl
  have hany : (db.trades.any fun trade => trade.engineSeq = seq) = true ↔
      cells (.event seq) ≠ [] := by
    rw [h.event seq]
    simp [List.filter_eq_nil_iff]
  unfold Settlement.settleFill
  by_cases hexisting : cells (.event seq) ≠ []
  · -- the fill is settled already
    rw [if_pos hexisting] at hexec
    rcases exec_done.mp hexec with ⟨_, hcells⟩
    cases hcells
    refine ⟨db, ?_, h₀⟩
    rw [if_pos (hany.mpr hexisting)]
    rfl
  · rw [if_neg hexisting] at hexec
    rcases exec_bind hexec with ⟨_, _, taker, _, _, hfetch, hexec⟩
    rcases fetchOrder_represents h₀ hfetch with ⟨htaker, h₁⟩
    rcases exec_bind hexec with ⟨_, _, maker, _, _, hfetch, hexec⟩
    rcases fetchOrder_represents h₁ hfetch with ⟨hmaker, h₂⟩
    rcases exec_bind hexec with ⟨_, _, _, _, _, htrade, hexec⟩
    rcases insertTrade_represents h₂ htrade with ⟨db₃, hdb₃, h₃⟩
    rcases exec_bind hexec with ⟨_, _, _, _, _, hledger, hexec⟩
    rcases applyFillLedger_represents h₃ hledger with ⟨db₄, hdb₄, h₄⟩
    rcases exec_bind hexec with ⟨_, _, _, _, _, hupdate, hexec⟩
    rcases updateOrderFill_represents h₄ hupdate with ⟨db₅, hdb₅, h₅⟩
    rcases updateOrderFill_represents h₅ hexec with ⟨db', hdb', h'⟩
    refine ⟨db', ?_, h'⟩
    rw [if_neg (mt hany.mp hexisting)]
    refine Except.bind_eq_ok.mpr ⟨taker, htaker, ?_⟩
    refine Except.bind_eq_ok.mpr ⟨maker, hmaker, ?_⟩
    refine Except.bind_eq_ok.mpr ⟨db₃, hdb₃, ?_⟩
    refine Except.bind_eq_ok.mpr ⟨db₄, hdb₄, ?_⟩
    exact Except.bind_eq_ok.mpr ⟨db₅, hdb₅, hdb'⟩

/-- A cancellation. -/
theorem settleCancel_represents (h : Represents markets cells db) {seq : ℕ} {orderId : Uuid}
    (hexec : (settleCancel arith markets seq orderId).exec ns cells = some ((), cells')) :
    ∃ db', Settlement.settleCancel arith seq orderId db = .ok db' ∧
      Represents markets cells' db' := by
  rcases exec_bind hexec with ⟨_, _, order, _, _, hfetch, hexec⟩
  rcases fetchOrder_represents h hfetch with ⟨horder, h₁⟩
  unfold Settlement.settleCancel
  -- an order in a terminal status is left alone
  by_cases hterminal : terminal order.row.status = true
  · rw [if_pos hterminal] at hexec
    rcases exec_done.mp hexec with ⟨_, hcells⟩
    cases hcells
    refine ⟨db, Except.bind_eq_ok.mpr ⟨order, horder, ?_⟩, h₁⟩
    rw [if_pos hterminal]
    rfl
  · rw [if_neg hterminal] at hexec
    rcases exec_compute hexec with ⟨obligation, _, hobligation, hexec⟩
    rcases exec_bind hexec with ⟨_, _, _, _, _, hledger, hexec⟩
    rcases applyObligation_represents h₁ hledger with ⟨db₂, hdb₂, h₂⟩
    refine ⟨_, Except.bind_eq_ok.mpr ⟨order, horder, ?_⟩, updateStatus_represents h₂ hexec⟩
    rw [if_neg hterminal]
    refine Except.bind_eq_ok.mpr ⟨obligation, hobligation, ?_⟩
    exact Except.bind_eq_ok.mpr ⟨db₂, hdb₂, rfl⟩

/-- An event. -/
theorem settle_represents (h : Represents markets cells db) {seq : ℕ} {event : EngineEvent}
    (hexec : (settle arith markets seq event).exec ns cells = some ((), cells')) :
    ∃ db', Settlement.settle arith seq event db = .ok db' ∧ Represents markets cells' db' := by
  rcases exec_bind hexec with ⟨_, _, _, _, _, hlock, hexec⟩
  rcases exec_statement hlock with ⟨_, trades, _, hf, rfl⟩
  cases hf
  have h₀ : Represents markets (Function.update cells (.event seq) (cells (.event seq))) db :=
    h.rewrite rfl
  cases event with
  | orderAccepted order => exact settleOrderAccepted_represents h₀ hexec
  | fill f => exact settleFill_represents h₀ hexec
  | orderCanceled orderId reason => exact settleCancel_represents h₀ hexec
  | _ =>
    rcases exec_done.mp hexec with ⟨_, hcells⟩
    cases hcells
    exact ⟨db, rfl, h₀⟩

end Statements

/-! ## Whole transactions -/

/-- What a transaction does as a whole, and its result. -/
def Work.perform (arith : Arithmetic) (db : Tables) : Work → Except DbError (Bool × Tables)
  | .tryLock userId assetId amount => db.tryLockBalance arith.store userId assetId amount
  | work => (Settlement.perform arith db work.transaction).map (true, ·)

/-- It commits with this result. -/
def Performs (arith : Arithmetic) (db : Tables) (work : Work) (result : Bool) (db' : Tables) :
    Prop :=
  work.perform arith db = .ok (result, db')

/-- What the statements do as a whole, the transaction does that returns `true` after them. -/
theorem then_true_represents {statements : Script Content Unit} {whole : Except DbError Tables}
    {result : Bool}
    (hwhole : ∀ {ns cells'}, statements.exec ns cells = some ((), cells') →
      ∃ db', whole = .ok db' ∧ Represents markets cells' db')
    (hexec : (do statements; return true : Script Content Bool).exec ns cells =
      some (result, cells')) :
    ∃ db', whole.map (true, ·) = .ok (result, db') ∧ Represents markets cells' db' := by
  rcases exec_bind hexec with ⟨_, _, _, _, _, hstatements, hdone⟩
  rcases exec_done.mp hdone with ⟨_, hresult⟩
  cases hresult
  rcases hwhole hstatements with ⟨db', rfl, h'⟩
  exact ⟨db', rfl, h'⟩

/-- Alone, the statements of a transaction do what the transaction does as a whole. -/
theorem script_represents {work : Work} {result : Bool} (h : Represents markets cells db)
    (hexec : (work.script arith markets).exec ns cells = some (result, cells')) :
    ∃ db', Performs arith db work result db' ∧ Represents markets cells' db' := by
  unfold Performs
  -- statement by statement, each transaction has been compared already
  cases work with
  | tryLock userId assetId amount => exact Statements.tryLockBalance_represents h hexec
  | faucet userId assetId amount depositId =>
    exact then_true_represents (Statements.applyFaucet_represents h) hexec
  | unlock userId assetId amount =>
    refine then_true_represents ?_ hexec
    intro ns cells' hunlock
    rcases Statements.unlockBalance_represents h hunlock with ⟨db', hdb', h'⟩
    exact ⟨db', congrArg (Except.map Prod.snd) hdb', h'⟩
  | insert input =>
    refine then_true_represents ?_ hexec
    intro ns cells' hinsert
    rcases Statements.insertPending_represents h hinsert with ⟨db', hdb', h'⟩
    exact ⟨db', congrArg (Except.map Prod.snd) hdb', h'⟩
  | updateStatus orderId status =>
    exact then_true_represents (fun hupdate => ⟨_, rfl, Statements.updateStatus_represents h hupdate⟩)
      hexec
  | settle e => exact then_true_represents (Statements.settle_represents h) hexec

theorem perform_transaction (work : Work) :
    Settlement.perform arith db work.transaction = (work.perform arith db).map Prod.snd := by
  have hmap : ∀ x : Except DbError Tables, x = (x.map (true, ·)).map Prod.snd := by
    intro x
    cases x <;> rfl
  cases work with
  | tryLock userId assetId amount => rfl
  | _ => exact hmap _

/-- What the statements perform the transaction commits. -/
theorem commit_of_performs {work : Work} {result : Bool}
    (h : Performs arith db work result db') : commit arith db work.transaction = db' := by
  unfold commit
  rw [perform_transaction, h]
  rfl

/-- Whole transactions that commit are a run of them. -/
theorem run_of_performed {log : List (TwoPhase.Entry Bool Work)}
    (h : TwoPhase.Performed (Performs arith) db log db') :
    Machine.run (transact arith) db (log.map fun entry => entry.name.transaction) = some db' := by
  induction h with
  | nil => rfl
  | snoc _ hperform ih =>
    rw [List.map_append, Machine.run_append, ih]
    show (transact arith _ _).bind _ = _
    unfold transact
    rw [commit_of_performs hperform]
    rfl

/-! ## Interleaved transactions -/

/-- The cells of these tables; the ids of the ledger entries are counted from 0. -/
def cellsOf (db : Tables) : Cells
  | .account userId assetId => {
      balance := db.balances (userId, assetId)
      entries := (db.ledgerEntries.zipIdx.filter fun entry =>
        (entry.1.userId, entry.1.assetId) = (userId, assetId)).map Prod.swap }
  | .order orderId => db.orders.find? orderId
  | .clientOrder userId clientOrderId => db.orders.entries.any fun entry =>
      entry.2.userId = userId ∧ entry.2.clientOrderId = some clientOrderId
  | .event seq => db.trades.filter fun trade => trade.engineSeq = seq
  | .trade tradeId => db.trades.any fun trade => trade.id = tradeId
  | .deposit depositId => db.deposits.filter fun deposit => deposit.id = depositId

/-- The cells of the tables stand for them. -/
theorem represents_cellsOf (db : Tables) : Represents db.markets (cellsOf db) db where
  balance := fun _ _ => rfl
  entries := by
    intro userId assetId
    have hfst : (db.ledgerEntries.zipIdx.map Prod.fst) = db.ledgerEntries :=
      List.zipIdx_map_fst ..
    conv_rhs => rw [← hfst, List.filter_map]
    show ((db.ledgerEntries.zipIdx.filter _).map Prod.swap).map Prod.snd = _
    rw [List.map_map]
    rfl
  order := fun _ => rfl
  clientOrder := by
    intro userId clientOrderId
    show (db.orders.entries.any _) = true ↔ _
    rw [List.any_eq_true]
    constructor
    · -- the index knows a client order id if some row has it
      rintro ⟨⟨orderId, row⟩, hmem, hrow⟩
      exact ⟨orderId, row, OrdMap.find?_eq_some.mpr hmem, by simpa using hrow⟩
    · rintro ⟨orderId, row, hfound, hrow⟩
      exact ⟨(orderId, row), OrdMap.find?_eq_some.mp hfound, by simpa using hrow⟩
  event := fun _ => rfl
  trade := fun _ => rfl
  deposit := fun _ => rfl
  markets := rfl

/-- These tables, with no transaction open. -/
def opened (db : Tables) : TwoPhase.State Content Bool Work :=
  .start (cellsOf db) db.ledgerEntries.length

/-- After every run the cells stand for the tables of the committed transactions. -/
theorem represents_of_run {acts : List (TwoPhase.Act Work)}
    {st : TwoPhase.State Content Bool Work}
    (hrun : Machine.run (TwoPhase.step (Work.script arith db.markets)) (opened db) acts = some st) :
    ∃ db', TwoPhase.Performed (Performs arith) db st.log db' ∧
      Represents db.markets st.cells db' := by
  have hwork : ∀ work ns cells result cells' mid, Represents db.markets cells mid →
      (Work.script arith db.markets work).exec ns cells = some (result, cells') →
      ∃ mid', Performs arith mid work result mid' ∧ Represents db.markets cells' mid' := by
    intro work ns cells result cells' mid hrep hexec
    exact script_represents hrep hexec
  exact (TwoPhase.serializable hrun).simulates hwork (represents_cellsOf db)

/-- A deposit whose balance another session then waits for, and a third session that is rolled
back. -/
def depositMeetsLock : List (TwoPhase.Act Work) :=
  [.start 0 (.faucet 7 2 5 40), .access 0, .start 1 (.tryLock 7 2 12), .start 2 (.unlock 8 2 1),
    .access 2, .access 0, .access 0, .rollback 2, .commit 0, .access 1, .commit 1]

end CryptoCex.Settlement
