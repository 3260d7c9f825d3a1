import CryptoCex.Settlement.Conserved
import CryptoCex.Settlement.Explained

/-!
# The ledger as a passbook

The latest entry of an account need not say what is available and what is locked, as locks of the
API write no entry. But it says what there is of both together: a lock moves money within the
balance, and every change of the sum has an entry with the amount. So in exact arithmetic each
entry continues the one before it (`Continues`), and the last one gives the balance.
-/

namespace CryptoCex.Settlement

open CryptoCex.Core (Uuid)
open Db (Balance LedgerEntry Tables)
open Machine (run)

/-- The balance after an entry, available and locked together. -/
def totalAfter (entry : LedgerEntry) : ℚ := entry.availableAfter + entry.lockedAfter

/-- The later entry starts from the balance the earlier one left. -/
def Continues (earlier later : LedgerEntry) : Prop :=
  totalAfter later = totalAfter earlier + later.amount

/-- The entries of an account, oldest first. -/
def accountEntries (db : Tables) (key : Uuid × Uuid) : List LedgerEntry :=
  db.ledgerEntries.filter fun entry => (entry.userId, entry.assetId) = key

structure Passbook (db : Tables) : Prop where
  continues : ∀ key, (accountEntries db key).IsChain Continues
  last : ∀ key entry, latest db key = some entry → holding db key = totalAfter entry

variable {db db' : Tables}

/-- The passbook depends on the books only. -/
theorem Passbook.congr (h : Passbook db) (hsame : SameBooks db db') : Passbook db' where
  continues := by
    intro key
    unfold accountEntries
    rw [hsame.ledgerEntries]
    exact h.continues key
  last := by
    intro key entry hlatest
    rw [latest_congr hsame] at hlatest
    rw [holding_congr hsame.balances]
    exact h.last key entry hlatest

/-- An empty ledger is a passbook. -/
theorem passbook_of_empty (hempty : db.ledgerEntries = []) : Passbook db where
  continues := by
    intro key
    unfold accountEntries
    rw [hempty]
    exact List.isChain_nil
  last := by
    intro key entry hlatest
    unfold latest at hlatest
    rw [hempty] at hlatest
    cases hlatest

/-- A change of a balance with its entry, whose amount is the difference. -/
theorem Passbook.record (h : Passbook db) (entry : LedgerEntry)
    (hbalances : db'.balances = Function.update db.balances (entry.userId, entry.assetId)
      (some ⟨entry.availableAfter, entry.lockedAfter⟩))
    (hentries : db'.ledgerEntries = db.ledgerEntries ++ [entry])
    (hamount : totalAfter entry = holding db (entry.userId, entry.assetId) + entry.amount) :
    Passbook db' where
  continues := by
    intro key
    unfold accountEntries
    rw [hentries, List.filter_append, List.filter_singleton]
    by_cases heq : (entry.userId, entry.assetId) = key
    · -- the last entry of the account tells the balance that the new one starts from
      rw [decide_eq_true heq, cond_true]
      refine List.isChain_append.mpr ⟨h.continues key, List.isChain_singleton _, ?_⟩
      intro earlier hearlier later hlater
      cases Option.some.inj hlater
      have hlast := h.last key earlier hearlier
      unfold Continues
      rw [hamount, heq, hlast]
    · rw [decide_eq_false heq, cond_false, List.append_nil]
      exact h.continues key
  last := by
    intro key found hlatest
    rw [latest_append hentries] at hlatest
    rw [holding_update db hbalances]
    split_ifs at hlatest ⊢ with heq
    · cases hlatest
      rfl
    · exact h.last key found hlatest

/-- Balanced mutations continue it. -/
theorem Passbook.applyLedgers {ms : List LedgerMutation} (h : Passbook db)
    (hms : ∀ m ∈ ms, m.Balanced)
    (hledger : applyLedgers Arithmetic.exact.store ms db = .ok db') : Passbook db' := by
  induction ms generalizing db with
  | nil =>
    cases hledger
    exact h
  | cons m ms ih =>
    rcases applyLedgers_cons_eq_ok.mp hledger with ⟨mid, hmid, hrest⟩
    refine ih ?_ (fun m' hm' => hms m' (List.mem_cons_of_mem m hm')) hrest
    rcases applyLedger_eq_ok.mp hmid with
      ⟨row, available, locked, amount, hrow, havailable, hlocked, hamount, _, _, _, hafter⟩
    cases havailable
    cases hlocked
    cases hamount
    refine h.record (m.entry m.amount (row.available + m.availableDelta)
      (row.locked + m.lockedDelta)) (congrArg _ hafter) (congrArg _ hafter) ?_
    -- the sum of the columns moves by the amount of the entry
    have hholding : holding db (m.userId, m.assetId) = row.available + row.locked := by
      unfold holding
      rw [hrow]
    show row.available + m.availableDelta + (row.locked + m.lockedDelta) =
      holding db (m.userId, m.assetId) + m.amount
    rw [hholding, (hms m List.mem_cons_self).amount]
    ring

/-- A balance that is written without an entry, and keeps its sum. -/
theorem Passbook.putBalance {userId assetId : Uuid} {row : Balance} {x y : ℚ} (h : Passbook db)
    (hrow : db.balances (userId, assetId) = some row)
    (hput : db.putBalance Arithmetic.exact.store userId assetId x y = .ok db')
    (hsum : x + y = row.available + row.locked) : Passbook db' := by
  rcases Tables.putBalance_eq_ok.mp hput with ⟨available, locked, hx, hy, _, _, hafter⟩
  cases hx
  cases hy
  have hentries : db'.ledgerEntries = db.ledgerEntries := by rw [hafter]
  -- what is held is what was held, in every account
  have hholding : ∀ key, holding db' key = holding db key := by
    intro key
    rw [holding_update db (congrArg _ hafter)]
    split_ifs with heq
    · rw [hsum, heq, holding, hrow]
    · rfl
  constructor
  · intro key
    unfold accountEntries
    rw [hentries]
    exact h.continues key
  · intro key entry hlatest
    unfold latest at hlatest
    rw [hentries] at hlatest
    rw [hholding]
    exact h.last key entry hlatest

/-- So does every transaction. -/
theorem Passbook.commit (h : Passbook db) (t : Transaction) : Passbook (commit .exact db t) := by
  have hbooks := commit_books .exact db t
  generalize CryptoCex.Settlement.commit .exact db t = db' at hbooks ⊢
  cases hbooks with
  | idle hsame => exact h.congr hsame
  | @faucet userId assetId depositId amount _ hfaucet =>
    rcases Tables.applyFaucet_eq_ok hfaucet with
      ⟨row, available, locked, stored, hrow, havailable, hlocked, hstored, _, _, _, hafter⟩
    cases havailable
    cases hlocked
    cases hstored
    refine h.record (Tables.faucetEntry userId assetId amount depositId
      ⟨row.available + amount, row.locked⟩) (congrArg _ hafter) (congrArg _ hafter) ?_
    have hholding : holding db (userId, assetId) = row.available + row.locked := by
      unfold holding
      rw [hrow]
    show row.available + amount + row.locked = holding db (userId, assetId) + amount
    rw [hholding]
    ring
  -- between the two columns of one account
  | locks hrow _ hput => exact h.putBalance hrow hput (by ring)
  | unlocks hrow hput => exact h.putBalance hrow hput (by ring)
  | settles hmutates hbefore hledger hafter =>
    exact ((h.congr hbefore).applyLedgers hmutates.balanced hledger).congr hafter

/-- In any run of transactions the ledger is a passbook. -/
theorem passbook_of_run (h : Passbook db) {ts : List Transaction}
    (hrun : run (transact .exact) db ts = some db') : Passbook db' := by
  induction ts generalizing db with
  | nil =>
    cases hrun
    exact h
  | cons t ts ih =>
    rcases Option.bind_eq_some_iff.mp hrun with ⟨mid, hstep, hrest⟩
    cases hstep
    exact ih (h.commit t) hrest

end CryptoCex.Settlement
