import CryptoCex.Lib.Machine
import CryptoCex.Settlement.Effects

/-!
# The transactions of the API and of settlement

The tables change by whole transactions, one after the other in any order: the statements of
the API's repositories, each a transaction of its own, the faucet, and settlement's
transactions. One that fails is rolled back.

`Books` sums up what a transaction does to balances, ledger and deposits.
-/

namespace CryptoCex.Settlement

open CryptoCex.Core (Uuid)
open Db (DbError OrderStatus Tables)
open Proto (SequencedEngineEvent)

inductive Transaction where
  | faucet (userId assetId : Uuid) (amount : ℚ) (depositId : Uuid)
  | tryLock (userId assetId : Uuid) (amount : ℚ)
  | unlock (userId assetId : Uuid) (amount : ℚ)
  | insert (input : Tables.InsertOrder)
  | updateStatus (orderId : Uuid) (status : OrderStatus)
  | markCanceled (orderIds : List Uuid)
  | settle (e : SequencedEngineEvent)

/-- The tables after a transaction, if it does not fail. -/
def perform (arith : Arithmetic) (db : Tables) : Transaction → Except DbError Tables
  | .faucet userId assetId amount depositId =>
    db.applyFaucet arith.store userId assetId amount depositId
  | .tryLock userId assetId amount =>
    (db.tryLockBalance arith.store userId assetId amount).map Prod.snd
  | .unlock userId assetId amount =>
    (db.unlockBalance arith.store userId assetId amount).map Prod.snd
  | .insert input => (db.insertOrder arith.store input).map Prod.snd
  | .updateStatus orderId status => .ok (db.updateStatus orderId status)
  | .markCanceled orderIds => .ok (db.markOrdersCanceled orderIds)
  | .settle e => settle arith e.seq e.event db

/-- The tables after a transaction; a failed one is rolled back. -/
def commit (arith : Arithmetic) (db : Tables) (t : Transaction) : Tables :=
  match perform arith db t with
  | .ok db' => db'
  | .error _ => db

/-- Transactions as steps of a machine. -/
def transact (arith : Arithmetic) (db : Tables) (t : Transaction) : Option Tables :=
  some (commit arith db t)

variable {arith : Arithmetic} {db db' : Tables}

/-- Balances, ledger and deposits are the same. -/
structure SameBooks (db db' : Tables) : Prop where
  balances : db'.balances = db.balances
  ledgerEntries : db'.ledgerEntries = db.ledgerEntries
  deposits : db'.deposits = db.deposits

theorem SameBooks.refl (db : Tables) : SameBooks db db := ⟨rfl, rfl, rfl⟩

theorem SameBooks.trans {mid : Tables} (h : SameBooks db mid) (h' : SameBooks mid db') :
    SameBooks db db' where
  balances := h'.balances.trans h.balances
  ledgerEntries := h'.ledgerEntries.trans h.ledgerEntries
  deposits := h'.deposits.trans h.deposits

/-! ## Orders -/

/-- A status is not in the books. -/
theorem sameBooks_updateStatus (db : Tables) (orderId : Uuid) (status : OrderStatus) :
    SameBooks db (db.updateStatus orderId status) := by
  unfold Tables.updateStatus
  split <;> exact ⟨rfl, rfl, rfl⟩

/-- Nor are many. -/
theorem sameBooks_markOrdersCanceled (db : Tables) (orderIds : List Uuid) :
    SameBooks db (db.markOrdersCanceled orderIds) := by
  unfold Tables.markOrdersCanceled
  induction orderIds generalizing db with
  | nil => exact .refl db
  | cons orderId orderIds ih =>
    refine SameBooks.trans ?_ (ih (db.markOrderCanceled orderId))
    unfold Tables.markOrderCanceled
    split
    · exact .refl db
    · split_ifs
      · exact sameBooks_updateStatus db orderId .canceled
      · exact .refl db

/-- Nor is an order. -/
theorem sameBooks_insertOrder {store : ℚ → Option ℚ} {input : Tables.InsertOrder}
    (h : db.insertOrder store input = .ok ((), db')) : SameBooks db db' := by
  rcases Tables.insertOrder_eq_ok.mp h with ⟨row, _, _, rfl⟩
  exact ⟨rfl, rfl, rfl⟩

/-! ## Balances -/

/-- The changes of balances that a transaction of settlement made. -/
inductive Mutates (arith : Arithmetic) (seq : ℕ) (db : Tables) :
    Proto.EngineEvent → List LedgerMutation → Prop
  | nothing {event : Proto.EngineEvent} : Mutates arith seq db event []
  | locks {order : Proto.EngineOrder} (obligation : Uuid × ℚ) :
      Mutates arith seq db (.orderAccepted order)
        [lockMutation seq order.id order.userId obligation.1 obligation.2]
  | unlocks {orderId userId : Uuid} {reason : Proto.CancelReason} (obligation : Uuid × ℚ) :
      Mutates arith seq db (.orderCanceled orderId reason)
        [unlockMutation seq orderId userId obligation.1 obligation.2]
  | fills {fill : Proto.TradeFill} {a : FillAmounts} {price quantity : ℚ}
      (ha : a.Of arith db fill) (hprice : arith.store (Db.value fill.price) = some price)
      (hquantity : arith.store (Db.value fill.quantity) = some quantity)
      (hpos : 0 < price ∧ 0 < quantity ∧ 0 < seq) :
      Mutates arith seq db (.fill fill) (a.mutations seq fill)

/-- What a transaction of settlement does to the books is what its changes do. -/
theorem Settles.books {seq : ℕ} {event : Proto.EngineEvent}
    (h : Settles arith seq db event db') :
    ∃ ms before after, Mutates arith seq db event ms ∧ SameBooks db before ∧
      applyLedgers arith.store ms before = .ok after ∧ SameBooks after db' := by
  cases h with
  -- a change is written only where there is something to lock or unlock
  | @accepted order _ row obligation _ _ _ _ _ hledger =>
    unfold obligationMutations at hledger
    split_ifs at hledger with hpos
    · refine ⟨_, _, _, .locks obligation, ?_, hledger, .refl _⟩
      exact ⟨rfl, rfl, rfl⟩
    · refine ⟨[], _, _, .nothing, ?_, hledger, .refl _⟩
      exact ⟨rfl, rfl, rfl⟩
  | filled _ ha hprice hquantity hpos _ hledger =>
    refine ⟨_, _, _, .fills ha hprice hquantity hpos, ?_, hledger, ?_⟩
    · exact ⟨rfl, rfl, rfl⟩
    · exact ⟨rfl, rfl, rfl⟩
  | @canceled orderId _ order obligation _ _ _ _ _ hledger =>
    unfold obligationMutations at hledger
    split_ifs at hledger with hpos
    · refine ⟨_, _, _, .unlocks obligation, .refl _, hledger, ?_⟩
      exact ⟨rfl, rfl, rfl⟩
    · refine ⟨[], _, _, .nothing, .refl _, hledger, ?_⟩
      exact ⟨rfl, rfl, rfl⟩
  | _ => exact ⟨[], _, _, .nothing, .refl _, rfl, .refl _⟩

/-- What a transaction did to the books. -/
inductive Books (arith : Arithmetic) (db : Tables) : Transaction → Tables → Prop
  /-- Nothing, or it failed. -/
  | idle {t : Transaction} {db' : Tables} (h : SameBooks db db') : Books arith db t db'
  | faucet {userId assetId depositId : Uuid} {amount : ℚ} {db' : Tables}
      (h : db.applyFaucet arith.store userId assetId amount depositId = .ok db') :
      Books arith db (.faucet userId assetId amount depositId) db'
  | locks {userId assetId : Uuid} {amount : ℚ} {row : Db.Balance} {db' : Tables}
      (hrow : db.balances (userId, assetId) = some row) (hle : amount ≤ row.available)
      (h : db.putBalance arith.store userId assetId (row.available - amount)
        (row.locked + amount) = .ok db') :
      Books arith db (.tryLock userId assetId amount) db'
  | unlocks {userId assetId : Uuid} {amount : ℚ} {row : Db.Balance} {db' : Tables}
      (hrow : db.balances (userId, assetId) = some row)
      (h : db.putBalance arith.store userId assetId (row.available + amount)
        (row.locked - amount) = .ok db') :
      Books arith db (.unlock userId assetId amount) db'
  | settles {e : SequencedEngineEvent} {ms : List LedgerMutation} {before after db' : Tables}
      (hmutates : Mutates arith e.seq db e.event ms) (hbefore : SameBooks db before)
      (hledger : applyLedgers arith.store ms before = .ok after) (hafter : SameBooks after db') :
      Books arith db (.settle e) db'

theorem map_snd_eq_ok {α : Type} {x : Except DbError (α × Tables)}
    (h : x.map Prod.snd = .ok db') : ∃ a, x = .ok (a, db') := by
  cases x with
  | error e => cases h
  | ok p =>
    cases h
    exact ⟨p.1, rfl⟩

/-- What a transaction does to the books. -/
theorem commit_books (arith : Arithmetic) (db : Tables) (t : Transaction) :
    Books arith db t (commit arith db t) := by
  unfold commit
  cases hperform : perform arith db t with
  | error e => exact .idle (.refl db)
  | ok db' =>
    cases t with
    | faucet userId assetId amount depositId => exact .faucet hperform
    | tryLock userId assetId amount =>
      rcases map_snd_eq_ok hperform with ⟨locked, hlock⟩
      rcases Tables.tryLockBalance_eq_ok hlock with ⟨_, rfl⟩ | ⟨_, row, hrow, hle, hput⟩
      · exact .idle (.refl _)
      · exact .locks hrow hle hput
    | unlock userId assetId amount =>
      rcases map_snd_eq_ok hperform with ⟨_, hunlock⟩
      rcases Tables.unlockBalance_eq_ok hunlock with rfl | ⟨row, hrow, hput⟩
      · exact .idle (.refl _)
      · exact .unlocks hrow hput
    -- rows of orders are not in the books
    | insert input =>
      rcases map_snd_eq_ok hperform with ⟨_, hinsert⟩
      exact .idle (sameBooks_insertOrder hinsert)
    | updateStatus orderId status =>
      cases hperform
      exact .idle (sameBooks_updateStatus db orderId status)
    | markCanceled orderIds =>
      cases hperform
      exact .idle (sameBooks_markOrdersCanceled db orderIds)
    | settle e =>
      rcases (settle_eq_ok.mp hperform).books with ⟨ms, before, after, hms, hbefore, hledger, hafter⟩
      exact .settles hms hbefore hledger hafter

end CryptoCex.Settlement
