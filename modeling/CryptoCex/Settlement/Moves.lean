import CryptoCex.Settlement.Obligations

/-!
# Moving funds

Transactions that only change balances and the ledger, by what they add to the locks
(`Moves`), and when the changes of a fill commit: a party receives more than its fee
(`credit_commits`), and what it pays is locked (`pay_commits`). Amounts are exact.
-/

namespace CryptoCex.Settlement

open CryptoCex.Core (Uuid)
open Db (Balance Tables value)
open Proto (TradeFill)

variable {db db' : Tables} {seq : ℕ}

/-- The checks on balances. -/
def NonnegBalances (db : Tables) : Prop :=
  ∀ key row, db.balances key = some row → 0 ≤ row.available ∧ 0 ≤ row.locked

/-- Only balances and the ledger differ; what is locked has changed by `delta`. -/
structure Moves (db db' : Tables) (delta : Uuid × Uuid → ℚ) : Prop where
  keeps : KeepsRest db db'
  locked : ∀ key, locked db' key = locked db key + delta key
  nonneg : NonnegBalances db → NonnegBalances db'
  rows : ∀ key, (db'.balances key).isSome = (db.balances key).isSome

theorem Moves.refl (db : Tables) : Moves db db fun _ => 0 where
  keeps := .refl db
  locked := fun _ => (add_zero _).symm
  nonneg := id
  rows := fun _ => rfl

/-- Two moves after each other add up. -/
theorem Moves.trans {mid : Tables} {delta delta' : Uuid × Uuid → ℚ} (h : Moves db mid delta)
    (h' : Moves mid db' delta') : Moves db db' fun key => delta key + delta' key where
  keeps := h.keeps.trans h'.keeps
  locked := by
    intro key
    rw [h'.locked, h.locked, add_assoc]
  nonneg := h'.nonneg ∘ h.nonneg
  rows := fun key => (h'.rows key).trans (h.rows key)

/-- Writing one balance. -/
theorem moves_update {key : Uuid × Uuid} {row new : Balance}
    (hrow : db.balances key = some row) (hkeeps : KeepsRest db db')
    (hbalances : db'.balances = Function.update db.balances key (some new))
    (hnonneg : 0 ≤ new.available ∧ 0 ≤ new.locked) :
    Moves db db' fun k => if k = key then new.locked - row.locked else 0 where
  keeps := hkeeps
  locked := by
    intro k
    unfold locked
    rw [hbalances]
    by_cases hk : k = key
    · simp [hk, hrow]
    · simp [hk]
  nonneg := by
    intro h k row' hrow'
    rw [hbalances, Function.update_apply] at hrow'
    split_ifs at hrow' with hk
    · cases hrow'
      exact hnonneg
    · exact h k row' hrow'
  rows := by
    intro k
    rw [hbalances, Function.update_apply]
    split_ifs with hk
    · rw [hk, hrow]
      rfl
    · rfl

/-- Writing a balance moves the difference. -/
theorem moves_putBalance {userId assetId : Uuid} {row : Balance} {x y : ℚ}
    (hrow : db.balances (userId, assetId) = some row)
    (h : db.putBalance some userId assetId x y = .ok db') :
    Moves db db' fun key => if key = (userId, assetId) then y - row.locked else 0 := by
  rcases Tables.putBalance_eq_ok.mp h with ⟨_, _, hx, hy, h0, h1, hafter⟩
  cases hx
  cases hy
  have hkeeps : KeepsRest db db' := by
    rw [hafter]
    exact ⟨rfl, rfl, rfl, rfl⟩
  have hbalances : db'.balances =
      Function.update db.balances (userId, assetId) (some ⟨x, y⟩) := by rw [hafter]
  exact moves_update hrow hkeeps hbalances ⟨h0, h1⟩

theorem moves_applyLedger {m : LedgerMutation}
    (h : applyLedger Arithmetic.exact.store m db = .ok db') :
    Moves db db' fun key => m.lockedIn key := by
  rcases applyLedger_eq_ok.mp h with
    ⟨row, available, lockedAfter, _, hrow, _, hlocked, _, h0, h1, _, hafter⟩
  cases hlocked
  have hbalances : db'.balances = Function.update db.balances (m.userId, m.assetId)
      (some ⟨available, row.locked + m.lockedDelta⟩) := by rw [hafter]
  have hmoves := moves_update hrow (keepsRest_of_applyLedger h) hbalances ⟨h0, h1⟩
  simpa [LedgerMutation.lockedIn] using hmoves

/-- Mutations move what they take from or add to the locked amounts. -/
theorem moves_applyLedgers {ms : List LedgerMutation}
    (h : applyLedgers Arithmetic.exact.store ms db = .ok db') :
    Moves db db' fun key => (ms.map (·.lockedIn key)).sum := by
  induction ms generalizing db with
  | nil =>
    cases h
    exact .refl _
  | cons m ms ih =>
    rcases applyLedgers_cons_eq_ok.mp h with ⟨mid, hmid, hrest⟩
    exact (moves_applyLedger hmid).trans (ih hrest)

/-! ## Changes of balances that commit -/

/-- A change commits if it leaves nothing negative. -/
theorem applyLedger_commits {m : LedgerMutation} {row : Balance}
    (hrow : db.balances (m.userId, m.assetId) = some row)
    (havailable : 0 ≤ row.available + m.availableDelta) (hlocked : 0 ≤ row.locked + m.lockedDelta)
    (hseq : m.engineSeq ≠ some 0) :
    ∃ db', applyLedger Arithmetic.exact.store m db = .ok db' ∧
      db'.balances (m.userId, m.assetId) =
        some ⟨row.available + m.availableDelta, row.locked + m.lockedDelta⟩ := by
  refine ⟨_, applyLedger_eq_ok.mpr ⟨row, _, _, _, hrow, rfl, rfl, rfl, havailable, hlocked, hseq,
    rfl⟩, ?_⟩
  simp

theorem applyLedgers_append_eq_ok {store : ℚ → Option ℚ} {ms ms' : List LedgerMutation} :
    applyLedgers store (ms ++ ms') db = .ok db' ↔
      ∃ mid, applyLedgers store ms db = .ok mid ∧ applyLedgers store ms' mid = .ok db' := by
  induction ms generalizing db with
  | nil => simp [applyLedgers]
  | cons m ms ih =>
    simp only [List.cons_append, applyLedgers_cons_eq_ok, ih]
    constructor
    · rintro ⟨first, hfirst, mid, hmid, hrest⟩
      exact ⟨mid, ⟨first, hfirst, hmid⟩, hrest⟩
    · rintro ⟨mid, ⟨first, hfirst, hmid⟩, hrest⟩
      exact ⟨first, hfirst, mid, hmid, hrest⟩

/-- What a party receives, less a fee that is not higher. -/
def creditMutations (seq : ℕ) (tradeId userId assetId : Uuid) (gross fee : ℚ) :
    List LedgerMutation :=
  [ tradeMutation seq tradeId userId assetId .trade gross gross 0,
    tradeMutation seq tradeId userId assetId .fee (-fee) (-fee) 0 ]

/-- What a party pays from what is locked. -/
def payMutations (seq : ℕ) (tradeId userId assetId : Uuid) (amount : ℚ) : List LedgerMutation :=
  [tradeMutation seq tradeId userId assetId .trade (-amount) 0 (-amount)]

/-- A fill is two payments and two credits. -/
theorem fillMutations_eq (seq : ℕ) (fill : TradeFill) (buyer seller : FetchedOrder)
    (notional takerFee makerFee : ℚ) :
    fillMutations seq fill buyer seller notional takerFee makerFee =
      creditMutations seq fill.tradeId buyer.row.userId buyer.market.baseAssetId
        (value fill.quantity) takerFee ++
      (payMutations seq fill.tradeId buyer.row.userId buyer.market.quoteAssetId notional ++
      (creditMutations seq fill.tradeId seller.row.userId seller.market.quoteAssetId notional
        makerFee ++
      payMutations seq fill.tradeId seller.row.userId seller.market.baseAssetId
        (value fill.quantity))) := rfl

section Commits

variable (tradeId : Uuid) {userId assetId : Uuid} {gross fee amount : ℚ} (hseq : 0 < seq)
  (hnonneg : NonnegBalances db) (hrow : (db.balances (userId, assetId)).isSome)

include hseq hnonneg hrow

/-- A credit with a fee no larger than it commits. -/
theorem credit_commits (hgross : 0 ≤ gross) (hfee : fee ≤ gross) :
    ∃ db', applyLedgers Arithmetic.exact.store
      (creditMutations seq tradeId userId assetId gross fee) db = .ok db' ∧
      Moves db db' fun _ => 0 := by
  rcases Option.isSome_iff_exists.mp hrow with ⟨row, hrow⟩
  rcases hnonneg _ row hrow with ⟨havailable, hlocked⟩
  have hseq' : some seq ≠ some 0 := by simpa using hseq.ne'
  rcases applyLedger_commits (m := tradeMutation seq tradeId userId assetId .trade gross gross 0)
    hrow (add_nonneg havailable hgross) (by simpa [tradeMutation] using hlocked) hseq' with
    ⟨mid, hmid, hmidRow⟩
  rcases applyLedger_commits (m := tradeMutation seq tradeId userId assetId .fee (-fee) (-fee) 0)
    hmidRow (by simp only [tradeMutation]; linarith) (by simpa [tradeMutation] using hlocked)
    hseq' with ⟨after, hafter, _⟩
  have hboth : applyLedgers Arithmetic.exact.store
      (creditMutations seq tradeId userId assetId gross fee) db = .ok after := by
    rw [creditMutations, applyLedgers_cons_eq_ok]
    refine ⟨mid, hmid, ?_⟩
    rw [applyLedgers_cons_eq_ok]
    exact ⟨after, hafter, rfl⟩
  refine ⟨after, hboth, ?_⟩
  simpa [creditMutations, tradeMutation, LedgerMutation.lockedIn] using moves_applyLedgers hboth

/-- A payment within the locked amount commits. -/
theorem pay_commits (hle : amount ≤ locked db (userId, assetId)) :
    ∃ db', applyLedgers Arithmetic.exact.store
      (payMutations seq tradeId userId assetId amount) db = .ok db' ∧
      Moves db db' fun key => -inAccount key userId (assetId, amount) := by
  rcases Option.isSome_iff_exists.mp hrow with ⟨row, hrow⟩
  rcases hnonneg _ row hrow with ⟨havailable, _⟩
  have hseq' : some seq ≠ some 0 := by simpa using hseq.ne'
  -- the payment leaves no negative balance, so no check fails
  have hleft : 0 ≤ row.locked + -amount := by
    simp only [locked, hrow] at hle
    linarith
  rcases applyLedger_commits
    (m := tradeMutation seq tradeId userId assetId .trade (-amount) 0 (-amount))
    hrow (by simpa [tradeMutation] using havailable) hleft hseq' with ⟨after, hafter, _⟩
  have hone : applyLedgers Arithmetic.exact.store
      (payMutations seq tradeId userId assetId amount) db = .ok after := by
    rw [payMutations, applyLedgers_cons_eq_ok]
    exact ⟨after, hafter, rfl⟩
  refine ⟨after, hone, ?_⟩
  -- the locked balance falls by what is paid
  have hmoves := moves_applyLedgers hone
  simp only [payMutations, tradeMutation, LedgerMutation.lockedIn, List.map_cons, List.map_nil,
    List.sum_cons, List.sum_nil, add_zero] at hmoves
  convert hmoves using 2
  unfold inAccount
  split_ifs <;> simp

end Commits

end CryptoCex.Settlement
