import CryptoCex.Api.Handler

/-!
# What a call of `place_order` does to the balances of its caller

The lock is taken before the order is inserted, and only an error of the engine client gives
it back. So a call that fails in between leaves the funds locked (`lock_outlives_failed_call`);
`placeOrder_intact` says when a call that fails leaves the balances as they were.

The amount of a buy order is the product of its price and its quantity, and the sign of the
price is checked by the database only, when the order is inserted. A lock of a negative amount
passes the guard `available >= amount`, and moves locked funds back to `available`
(`lock_frees_funds`); `placeOrder_frees` says when a call frees funds.

Both conditions have to mention amounts half way between two values of a column, which grow
when they are locked and released.
-/

namespace CryptoCex.Api

open CryptoCex.Core (Decimal Uuid)
open Db (Balance Stored StoredBalances Tables Tie back lastPlace numeric shift value)
open Db.Tables (Delivery)

/-! ## Conditions on a call -/

/-- The call comes to its lock statement with this lock, and the lock is taken. -/
structure Takes (mul : Decimal → Decimal → Option Decimal) (userId : Uuid)
    (input : PlaceOrderInput) (io : Outcomes) (db : Tables) (placement : Placement)
    (lock : Lock) : Prop where
  prepared : prepare mul userId input io db = some (.ok placement)
  chosen : placement.lock = some lock
  runs : io.lock ≠ .refused
  taken : ∃ locked, Tables.tryLockBalance numeric lock.userId lock.assetId (value lock.amount)
    db = .ok (true, locked)

/-- The order can be inserted: its columns pass their checks and it clashes with no other. -/
structure Inserts (orderId userId : Uuid) (input : PlaceOrderInput) (io : Outcomes) (db : Tables)
    (placement : Placement) : Prop where
  answered : io.insert = .answered
  checked : ∃ row, Tables.checkedRow numeric
    (pendingRow orderId userId input placement.quantity) .pending = .ok row
  unique : db.clashes (pendingRow orderId userId input placement.quantity) = false

/-- An acknowledged or refused order that the engine does not hold leaves its lock behind: the
release fails or grows the balance, or the answer is an error after the acknowledgement. -/
def Unreleased (io : Outcomes) (lock : Lock) : Prop :=
  match io.engine with
  | .error _ => io.unlock = .refused ∨ Tie (value lock.amount)
  | .ok _ => io.findById = .refused

/-- The call fails with funds locked that no order of the engine needs. -/
def Leaks (mul : Decimal → Decimal → Option Decimal) (orderId userId : Uuid)
    (input : PlaceOrderInput) (io : Outcomes) (db : Tables) : Prop :=
  ∃ placement lock, Takes mul userId input io db placement lock ∧
    1 / 2 ≤ |value lock.amount| * 10 ^ 18 ∧
    (Inserts orderId userId input io db placement → io.live = false ∧ Unreleased io lock)

/-- The lock is given back after an error of the engine client. -/
structure Refunds (orderId userId : Uuid) (input : PlaceOrderInput) (io : Outcomes) (db : Tables)
    (placement : Placement) : Prop where
  lock : io.lock = .answered
  inserts : Inserts orderId userId input io db placement
  error : ∃ e, io.engine = .error e
  unlock : io.unlock ≠ .refused

/-- The call adds to what its caller has available: its lock is negative, or it gives back
more than it took. -/
def Frees (mul : Decimal → Decimal → Option Decimal) (orderId userId : Uuid)
    (input : PlaceOrderInput) (io : Outcomes) (db : Tables) : Prop :=
  ∃ placement lock, Takes mul userId input io db placement lock ∧
    (value lock.amount * 10 ^ 18 ≤ -(1 / 2) ∨
      Refunds orderId userId input io db placement ∧ Tie (value lock.amount) ∧
        ∀ row, db.balances (userId, lock.assetId) = some row →
          row.available + lastPlace < 10 ^ 20 ∧ row.locked + lastPlace < 10 ^ 20)

/-! ## What is asked of a call -/

/-- A call that returned an error, and whose order the engine does not hold, has left the
balances of its caller as they were. -/
def Intact (userId : Uuid) (io : Outcomes) (db : Tables) (e : Ending) : Prop :=
  ∀ error, e.result = some (.error error) → ¬(e.forwarded = true ∧ io.live = true) →
    ∀ assetId, e.final.balances (userId, assetId) = db.balances (userId, assetId)

/-- The balance of an account; one without a row has nothing. -/
def balanceOf (db : Tables) (key : Uuid × Uuid) : Balance := (db.balances key).getD ⟨0, 0⟩

/-- The lock step adds nothing to what is available and takes nothing from what is locked, and
no later statement makes more available than there was before. -/
structure FreesNothing (userId : Uuid) (db : Tables) (e : Ending) : Prop where
  lock : ∀ assetId,
    (balanceOf e.afterLock (userId, assetId)).available ≤
      (balanceOf db (userId, assetId)).available ∧
    (balanceOf db (userId, assetId)).locked ≤ (balanceOf e.afterLock (userId, assetId)).locked
  later : ∀ after ∈ e.later, ∀ assetId,
    (balanceOf after (userId, assetId)).available ≤ (balanceOf db (userId, assetId)).available

variable {mul : Decimal → Decimal → Option Decimal} {orderId userId : Uuid}
  {input : PlaceOrderInput} {io : Outcomes} {db mid : Tables}
  {placement : Placement} {lock : Lock} {row : Balance}

/-! ## The lock step -/

/-- The lock is on a balance of the caller. -/
theorem prepare_lock (h : prepare mul userId input io db = some (.ok placement))
    (hlock : placement.lock = some lock) : lock.userId = userId := by
  unfold prepare at h
  split at h
  · cases h
  · cases h
  split at h
  · cases h
  split at h
  · cases h
  split at h
  · cases h
  rcases Option.map_eq_some_iff.mp h with ⟨params, -, heq⟩
  cases heq
  rcases Option.map_eq_some_iff.mp hlock with ⟨p, -, rfl⟩
  rfl

/-- The tables with the lock on a balance. -/
def withLock (userId : Uuid) (lock : Lock) (row : Balance) (db : Tables) : Tables :=
  { db with
    balances := Function.update db.balances (userId, lock.assetId)
      (some ⟨row.available + shift (-value lock.amount), row.locked + shift (value lock.amount)⟩) }

@[simp] theorem withLock_balances (userId : Uuid) (lock : Lock) (row : Balance) (db : Tables) :
    (withLock userId lock row db).balances = Function.update db.balances (userId, lock.assetId)
      (some ⟨row.available + shift (-value lock.amount),
        row.locked + shift (value lock.amount)⟩) := rfl

/-- A balance that a lock was taken on. -/
structure Locked (userId : Uuid) (lock : Lock) (db : Tables) (row : Balance) : Prop where
  owner : lock.userId = userId
  found : db.balances (userId, lock.assetId) = some row
  available : Stored row.available
  locked : Stored row.locked
  available_left : Stored (row.available + shift (-value lock.amount))
  locked_then : Stored (row.locked + shift (value lock.amount))

/-- The row that a lock has changed, when one was taken. -/
theorem Takes.locked (h : Takes mul userId input io db placement lock)
    (hstored : StoredBalances db) : ∃ row, Locked userId lock db row ∧
      Tables.tryLockBalance numeric lock.userId lock.assetId (value lock.amount) db =
        .ok (true, withLock userId lock row db) := by
  have howner := prepare_lock h.prepared h.chosen
  rcases h.taken with ⟨locked, htry⟩
  rcases Tables.tryLockBalance_shifts hstored htry with ⟨row, hrow, hleft, hthen, rfl⟩
  rw [howner] at hrow
  rcases hstored _ row hrow with ⟨hav, hlo⟩
  refine ⟨row, ⟨howner, hrow, hav, hlo, hleft, hthen⟩, ?_⟩
  rw [htry, howner]
  rfl

/-- A lock step that takes no lock changes nothing. -/
theorem takeLock_untaken {delivery : Delivery}
    (h : delivery = .refused ∨ ∀ mid, Tables.tryLockBalance numeric lock.userId lock.assetId
      (value lock.amount) db ≠ .ok (true, mid)) :
    ∃ e, takeLock (some lock) delivery db = (.error e, db) := by
  unfold takeLock
  rcases h with rfl | h
  · exact ⟨_, rfl⟩
  cases htry : Tables.tryLockBalance numeric lock.userId lock.assetId (value lock.amount) db with
  | error e => cases delivery <;> simp [Tables.execute, htry]
  | ok r =>
    rcases r with ⟨taken, mid⟩
    rcases Tables.tryLockBalance_eq_ok htry with ⟨rfl, rfl⟩ | ⟨rfl, -⟩
    · cases delivery <;> simp [Tables.execute, htry]
    · exact absurd htry (h mid)

/-- A call that takes its lock has it afterwards, and goes on if it hears of it. -/
theorem Takes.placeOrder (h : Takes mul userId input io db placement lock)
    (htry : Tables.tryLockBalance numeric lock.userId lock.assetId (value lock.amount) db =
      .ok (true, mid)) :
    placeOrder mul orderId userId input io db =
      if io.lock = .answered then insertPending orderId userId input placement io mid
      else ⟨some (.error .internal), false, mid, []⟩ := by
  unfold Api.placeOrder Api.lockBalance takeLock
  simp only [h.prepared, h.chosen]
  cases hdelivery : io.lock with
  | refused => exact absurd hdelivery h.runs
  | answered => simp only [Tables.execute, htry, if_true]
  | lost => simp [Tables.execute, htry]

/-! ## After the lock step -/

/-- Whether the order can be inserted does not depend on the balances. -/
theorem inserts_withLock : Inserts orderId userId input io (withLock userId lock row db) placement ↔
    Inserts orderId userId input io db placement :=
  ⟨fun h => ⟨h.answered, h.checked, h.unique⟩, fun h => ⟨h.answered, h.checked, h.unique⟩⟩

/-- An insert that fails ends the call with an internal error; nothing has been sent, and no unlock
follows. -/
theorem insertPending_refused (h : ¬Inserts orderId userId input io mid placement) :
    ∃ after, insertPending orderId userId input placement io mid =
      ⟨some (.error .internal), false, mid, [after]⟩ ∧ after.balances = mid.balances := by
  unfold insertPending
  cases hdelivery : io.insert with
  | refused => exact ⟨mid, rfl, rfl⟩
  | answered =>
    cases hinsert : Tables.insertOrder numeric
      (pendingRow orderId userId input placement.quantity) mid with
    | error e =>
      simp only [Tables.execute, hinsert]
      exact ⟨mid, rfl, rfl⟩
    | ok r =>
      rcases Tables.insertOrder_eq_ok.mp hinsert with ⟨row, hchecked, hunique, -⟩
      exact absurd ⟨hdelivery, ⟨row, hchecked⟩, hunique⟩ h
  -- the answer is lost: the row may be there all the same, but no account has changed
  | lost =>
    cases hinsert : Tables.insertOrder numeric
      (pendingRow orderId userId input placement.quantity) mid with
    | error e =>
      simp only [Tables.execute, hinsert]
      exact ⟨mid, rfl, rfl⟩
    | ok r =>
      rcases Tables.insertOrder_eq_ok.mp hinsert with ⟨row, -, -, hafter⟩
      simp only [Tables.execute, hinsert]
      refine ⟨r.2, rfl, ?_⟩
      rw [hafter]

/-- An order that can be inserted is forwarded, and found when the handler looks for it. -/
theorem insertPending_inserts (h : Inserts orderId userId input io mid placement) :
    ∃ inserted, insertPending orderId userId input placement io mid =
        forward orderId userId placement.lock io mid inserted ∧
      inserted.balances = mid.balances ∧
      ∃ row, inserted.orders.find? orderId = some row ∧ row.userId = userId := by
  rcases h.checked with ⟨row, hchecked⟩
  let inserted : Tables := { mid with orders := mid.orders.insert orderId row }
  have hinsert : Tables.insertOrder numeric (pendingRow orderId userId input placement.quantity)
      mid = .ok ((), inserted) :=
    Tables.insertOrder_eq_ok.mpr ⟨row, hchecked, h.unique, rfl⟩
  refine ⟨inserted, ?_, rfl, row, OrdMap.find?_insert_self .., (Tables.checkedRow_keys hchecked).1⟩
  unfold insertPending
  simp only [h.answered, Tables.execute, hinsert]

/-- The balances after the release of the lock. -/
theorem Locked.releaseLock (h : Locked userId lock db row) (delivery : Delivery)
    (hbalances : mid.balances = (withLock userId lock row db).balances) :
    (releaseLock (some lock) delivery mid).balances =
      if delivery ≠ .refused ∧ back (value lock.amount) row.available < 10 ^ 20 ∧
          back (value lock.amount) row.locked < 10 ^ 20 then
        Function.update db.balances (userId, lock.assetId)
          (some ⟨back (value lock.amount) row.available, back (value lock.amount) row.locked⟩)
      else (withLock userId lock row db).balances := by
  have hrow : mid.balances (userId, lock.assetId) = some ⟨row.available +
      shift (-value lock.amount), row.locked + shift (value lock.amount)⟩ := by
    rw [hbalances, withLock_balances, Function.update_self]
  have hunlock := Tables.unlockBalance_back h.available h.locked h.available_left h.locked_then hrow
  unfold Api.releaseLock
  simp only [h.owner]
  -- the unlock goes through if both columns can hold what it makes of them
  by_cases hfits : back (value lock.amount) row.available < 10 ^ 20 ∧
      back (value lock.amount) row.locked < 10 ^ 20
  · rw [if_pos hfits] at hunlock
    have hback : Function.update mid.balances (userId, lock.assetId)
        (some ⟨back (value lock.amount) row.available, back (value lock.amount) row.locked⟩) =
        Function.update db.balances (userId, lock.assetId)
          (some ⟨back (value lock.amount) row.available, back (value lock.amount) row.locked⟩) := by
      rw [hbalances, withLock_balances, Function.update_idem]
    cases delivery with
    | refused => simpa [Tables.execute] using hbalances
    | answered => simpa [Tables.execute, hunlock, hfits] using hback
    | lost => simpa [Tables.execute, hunlock, hfits] using hback
  · rw [if_neg hfits] at hunlock
    rw [if_neg (mt And.right hfits)]
    cases delivery <;> simpa [Tables.execute, hunlock] using hbalances

/-! ### The status write -/

/-- A status write touches no account, whatever becomes of its answer. -/
theorem updateStatus_execute_balances (db : Tables) (delivery : Delivery) (orderId : Uuid)
    (status : Db.OrderStatus) :
    (db.execute delivery fun db => .ok ((), db.updateStatus orderId status)).2.balances =
      db.balances := by
  have hkeeps : (db.updateStatus orderId status).balances = db.balances := by
    unfold Tables.updateStatus
    split <;> rfl
  cases delivery with
  | refused => rfl
  | answered => exact hkeeps
  | lost => exact hkeeps

/-- The order is still there after its status was written. -/
theorem updateStatus_execute_find? {row : Db.OrderRow} (delivery : Delivery)
    (status : Db.OrderStatus) (h : mid.orders.find? orderId = some row) :
    ∃ row', (mid.execute delivery fun db => .ok ((), db.updateStatus orderId status)).2.orders.find?
      orderId = some row' ∧ row'.userId = row.userId := by
  have hwritten : ∃ row', (mid.updateStatus orderId status).orders.find? orderId = some row' ∧
      row'.userId = row.userId := by
    refine ⟨{ row with status := status }, ?_, rfl⟩
    simp only [Tables.updateStatus, h, OrdMap.find?_insert_self]
  cases delivery with
  | refused => exact ⟨row, h, rfl⟩
  | answered => exact hwritten
  | lost => exact hwritten

/-! ### Every statement after the lock -/

/-- Every later statement leaves the balances as the lock step did, but for the release of the
lock. -/
theorem insertPending_later {after : Tables}
    (hafter : after ∈ (insertPending orderId userId input placement io mid).later) :
    after.balances = mid.balances ∨ Inserts orderId userId input io mid placement ∧
      (∃ e, io.engine = .error e) ∧ ∃ inserted : Tables, inserted.balances = mid.balances ∧
        after = releaseLock placement.lock io.unlock inserted := by
  by_cases hinserts : Inserts orderId userId input io mid placement
  · rcases insertPending_inserts hinserts with ⟨inserted, heq, hbalances, -⟩
    rw [heq] at hafter
    unfold forward at hafter
    cases hengine : io.engine with
    | error e =>
      simp only [hengine, List.mem_cons, List.not_mem_nil, or_false] at hafter
      rcases hafter with rfl | rfl
      · exact .inl hbalances
      · exact .inr ⟨hinserts, ⟨e, rfl⟩, inserted, hbalances, rfl⟩
    | ok status =>
      simp only [hengine, List.mem_cons, List.not_mem_nil, or_false] at hafter
      rcases hafter with rfl | rfl
      · exact .inl hbalances
      · -- the status write
        rw [updateStatus_execute_balances]
        exact .inl hbalances
  · rcases insertPending_refused hinserts with ⟨last, heq, hbalances⟩
    rw [heq] at hafter
    cases List.mem_singleton.mp hafter
    exact .inl hbalances

theorem insertPending_afterLock :
    (insertPending orderId userId input placement io mid).afterLock = mid := by
  unfold insertPending forward
  split
  · rfl
  · split <;> rfl

/-- Without a lock that is taken, the balances stay as they are. -/
theorem placeOrder_untouched (h : ∀ placement lock, ¬Takes mul userId input io db placement lock)
    {after : Tables} (hafter : after ∈ (placeOrder mul orderId userId input io db).afterLock ::
      (placeOrder mul orderId userId input io db).later) : after.balances = db.balances := by
  unfold placeOrder at hafter
  split at hafter
  · cases List.mem_singleton.mp hafter
    rfl
  · cases List.mem_singleton.mp hafter
    rfl
  next placement hprepared =>
  unfold Api.lockBalance at hafter
  cases hlock : placement.lock with
  | none =>
    -- nothing to lock, and nothing to release
    simp only [hlock, takeLock, insertPending_afterLock] at hafter
    rcases List.mem_cons.mp hafter with rfl | hlater
    · rfl
    rcases insertPending_later hlater with hsame | ⟨-, -, inserted, hbalances, rfl⟩
    · exact hsame
    · rw [hlock]
      exact hbalances
  | some lock =>
    have huntaken : ∃ e, takeLock (some lock) io.lock db = (.error e, db) := by
      refine takeLock_untaken ?_
      by_contra hboth
      rw [not_or] at hboth
      rcases hboth with ⟨hruns, htaken⟩
      simp only [not_forall, not_not] at htaken
      exact h placement lock ⟨hprepared, hlock, hruns, htaken⟩
    rcases huntaken with ⟨e, heq⟩
    rw [hlock, heq] at hafter
    cases List.mem_singleton.mp hafter
    rfl

/-! ## Calls that fail -/

theorem Outcomes.Responsive.answered {delivery : Delivery} (hlost : delivery ≠ .lost)
    (hrefused : delivery ≠ .refused) : delivery = .answered := by
  cases delivery with
  | answered => rfl
  | refused => exact absurd rfl hrefused
  | lost => exact absurd rfl hlost

/-- A lock of half a unit in the last place or more changes the balance. -/
theorem Locked.balances_ne (h : Locked userId lock db row)
    (hvisible : 1 / 2 ≤ |value lock.amount| * 10 ^ 18) :
    (withLock userId lock row db).balances (userId, lock.assetId) ≠
      db.balances (userId, lock.assetId) := by
  rw [withLock_balances, Function.update_self, h.found]
  intro heq
  have hav : row.available + shift (-value lock.amount) = row.available :=
    congrArg Balance.available (Option.some.inj heq)
  have hlo : row.locked + shift (value lock.amount) = row.locked :=
    congrArg Balance.locked (Option.some.inj heq)
  have hsmall := Db.shift_eq_zero.mp ⟨left_eq_add.mp hlo.symm, left_eq_add.mp hav.symm⟩
  exact absurd hsmall (not_lt.mpr hvisible)

/-- A smaller one does not. -/
theorem Locked.balances_eq (h : Locked userId lock db row)
    (hsmall : |value lock.amount| * 10 ^ 18 < 1 / 2) :
    (withLock userId lock row db).balances = db.balances := by
  rcases Db.shift_eq_zero.mpr hsmall with ⟨hshift, hshift'⟩
  rw [withLock_balances, hshift, hshift', add_zero, add_zero, ← h.found, Function.update_eq_self]

/-- An amount half way between two values of a column changes a balance. -/
theorem half_le_of_tie {x : ℚ} (h : Tie x) : 1 / 2 ≤ |x| * 10 ^ 18 := by
  by_contra hsmall
  rcases Db.shift_eq_zero.mpr (not_le.mp hsmall) with ⟨hshift, hshift'⟩
  have hsum := Db.shift_add_shift_neg x
  rw [hshift, hshift', if_pos h, add_zero] at hsum
  exact Db.lastPlace_pos.ne hsum

/-- Released in full, a lock leaves the balance as it was. -/
theorem Locked.releaseLock_eq (h : Locked userId lock db row) {delivery : Delivery}
    (hruns : delivery ≠ .refused) (htie : ¬Tie (value lock.amount))
    (hbalances : mid.balances = (withLock userId lock row db).balances) :
    (Api.releaseLock (some lock) delivery mid).balances = db.balances := by
  have hback : ∀ x, back (value lock.amount) x = x := by
    intro x
    rw [back, if_neg htie]
  rw [h.releaseLock delivery hbalances, hback, hback, if_pos ⟨hruns, h.available.lt, h.locked.lt⟩,
    ← h.found, Function.update_eq_self]

/-- A lock that does not change the balance is released without a change. -/
theorem Locked.releaseLock_small (h : Locked userId lock db row) {delivery : Delivery}
    (hsmall : |value lock.amount| * 10 ^ 18 < 1 / 2)
    (hbalances : mid.balances = (withLock userId lock row db).balances) :
    (Api.releaseLock (some lock) delivery mid).balances = db.balances := by
  by_cases hruns : delivery = .refused
  · subst hruns
    exact hbalances.trans (h.balances_eq hsmall)
  · refine h.releaseLock_eq hruns ?_ hbalances
    intro htie
    exact absurd (half_le_of_tie htie) (not_le.mpr hsmall)

/-- After a tie the balance is another one, whether or not its release fits. -/
theorem Locked.releaseLock_ne (h : Locked userId lock db row) {delivery : Delivery}
    (hvisible : 1 / 2 ≤ |value lock.amount| * 10 ^ 18)
    (hleaks : delivery = .refused ∨ Tie (value lock.amount))
    (hbalances : mid.balances = (withLock userId lock row db).balances) :
    (Api.releaseLock (some lock) delivery mid).balances (userId, lock.assetId) ≠
      db.balances (userId, lock.assetId) := by
  rw [h.releaseLock delivery hbalances]
  split_ifs with hback
  · rcases hleaks with hrefused | htie
    · exact absurd hrefused hback.1
    rw [Function.update_self, h.found, back, if_pos htie]
    intro heq
    have hav : row.available + lastPlace = row.available :=
      congrArg Balance.available (Option.some.inj heq)
    exact Db.lastPlace_pos.ne (left_eq_add.mp hav.symm).symm
  · exact h.balances_ne hvisible

theorem forward_failed {e : EngineClientError} (inserted : Tables) (h : io.engine = .error e) :
    forward orderId userId placement.lock io mid inserted =
      ⟨some (.error (engineFailure e)), true, mid,
        [inserted, releaseLock placement.lock io.unlock inserted]⟩ := by
  simp only [forward, h]

/-- After an acknowledgement the balances stay as they are. -/
theorem forward_final {status : Proto.OrderStatus} (inserted : Tables)
    (h : io.engine = .ok status) :
    (forward orderId userId placement.lock io mid inserted).final.balances = inserted.balances := by
  have hfinal : (forward orderId userId placement.lock io mid inserted).final =
      (inserted.execute io.updateStatus fun db =>
        .ok ((), db.updateStatus orderId (ackStatus status))).2 := by
    simp only [forward, h]
    rfl
  rw [hfinal, updateStatus_execute_balances]

/-- An acknowledged order that cannot be read back is answered with an error. -/
theorem forward_unread {status : Proto.OrderStatus} (inserted : Tables) (h : io.engine = .ok status)
    (hrefused : io.findById = .refused) :
    (forward orderId userId placement.lock io mid inserted).result = some (.error .internal) := by
  simp only [forward, h, hrefused]
  rfl

/-- An acknowledged order is answered with an error only if it cannot be read back. -/
theorem forward_acknowledged {status : Proto.OrderStatus} {inserted : Tables} {row : Db.OrderRow}
    {error : ApiError} (hengine : io.engine = .ok status)
    (hrow : inserted.orders.find? orderId = some row) (huser : row.userId = userId)
    (h : (forward orderId userId placement.lock io mid inserted).result = some (.error error)) :
    io.findById ≠ .answered := by
  intro hanswered
  rcases updateStatus_execute_find? io.updateStatus (ackStatus status) hrow with
    ⟨row', hrow', huser'⟩
  simp only [forward, hengine, hanswered] at h
  generalize (inserted.execute io.updateStatus fun db =>
    .ok ((), db.updateStatus orderId (ackStatus status))).2 = updated at h hrow'
  simp only [Tables.execute, findById, hrow', Option.filter_some, huser', huser, decide_true,
    if_true] at h
  cases h

/-- Where `Leaks` holds, what was locked stays locked, although the call fails. -/
theorem not_intact_of_leaks (hstored : StoredBalances db) (hio : io.Responsive)
    (h : Leaks mul orderId userId input io db) :
    ¬Intact userId io db (placeOrder mul orderId userId input io db) := by
  rcases h with ⟨placement, lock, htakes, hvisible, hleaks⟩
  rcases htakes.locked hstored with ⟨row, hlocked, htry⟩
  rw [htakes.placeOrder htry, if_pos (Outcomes.Responsive.answered hio.lock htakes.runs)]
  intro hintact
  by_cases hinserts : Inserts orderId userId input io db placement
  · rcases insertPending_inserts (inserts_withLock.mpr hinserts) with
      ⟨inserted, hforward, hbalances, -⟩
    rcases hleaks hinserts with ⟨hlive, hunreleased⟩
    rw [hforward] at hintact
    have hdead : ¬((forward orderId userId placement.lock io (withLock userId lock row db)
        inserted).forwarded = true ∧ io.live = true) := by
      simp [hlive]
    unfold Unreleased at hunreleased
    cases hengine : io.engine with
    | error e =>
      rw [hengine] at hunreleased
      rw [forward_failed inserted hengine, htakes.chosen] at hintact
      refine hlocked.releaseLock_ne hvisible hunreleased hbalances ?_
      exact hintact (engineFailure e) rfl (by simp [hlive]) lock.assetId
    | ok status =>
      rw [hengine] at hunreleased
      have hfinal := hintact .internal (forward_unread inserted hengine hunreleased) hdead
        lock.assetId
      rw [forward_final inserted hengine, hbalances] at hfinal
      exact hlocked.balances_ne hvisible hfinal
  · -- the call ends with the lock it took
    rcases insertPending_refused (mt inserts_withLock.mp hinserts) with ⟨after, heq, hbalances⟩
    rw [heq] at hintact
    have hfinal := hintact .internal rfl (by simp) lock.assetId
    refine hlocked.balances_ne hvisible ?_
    rw [← hbalances]
    exact hfinal

/-- Outside `Leaks` a call that fails leaves the accounts of its caller as they were. -/
theorem intact_of_not_leaks (hstored : StoredBalances db) (hio : io.Responsive)
    (h : ¬Leaks mul orderId userId input io db) :
    Intact userId io db (placeOrder mul orderId userId input io db) := by
  by_cases hnone : ∀ placement lock, ¬Takes mul userId input io db placement lock
  · intro error herror hdead assetId
    exact congrFun (placeOrder_untouched hnone List.getLastD_mem_cons) _
  simp only [not_forall, not_not] at hnone
  rcases hnone with ⟨placement, lock, htakes⟩
  rcases htakes.locked hstored with ⟨row, hlocked, htry⟩
  rw [htakes.placeOrder htry, if_pos (Outcomes.Responsive.answered hio.lock htakes.runs)]
  intro error herror hdead assetId
  by_cases hsmall : |value lock.amount| * 10 ^ 18 < 1 / 2
  · -- whatever happens, the balance does not show it
    refine congrFun ?_ _
    have hfinal : (insertPending orderId userId input placement io
        (withLock userId lock row db)).final ∈ _ :: _ := List.getLastD_mem_cons
    rcases List.mem_cons.mp hfinal with heq | hlater
    · rw [heq, insertPending_afterLock, hlocked.balances_eq hsmall]
    rcases insertPending_later hlater with hsame | ⟨-, -, inserted, hbalances, heq⟩
    · rw [hsame, hlocked.balances_eq hsmall]
    · rw [heq, htakes.chosen, hlocked.releaseLock_small hsmall hbalances]
  have hvisible := not_lt.mp hsmall
  have hinserts : Inserts orderId userId input io db placement := by
    by_contra hno
    exact h ⟨placement, lock, htakes, hvisible, fun hyes => absurd hyes hno⟩
  rcases insertPending_inserts (inserts_withLock.mpr hinserts) with
    ⟨inserted, hforward, hbalances, order, horder, huser⟩
  rw [hforward] at herror hdead ⊢
  have hlive : io.live = false := by
    simpa [System.forward_forwarded] using hdead
  have hreleased : ¬Unreleased io lock := by
    intro hunreleased
    exact h ⟨placement, lock, htakes, hvisible, fun _ => ⟨hlive, hunreleased⟩⟩
  unfold Unreleased at hreleased
  cases hengine : io.engine with
  | error e =>
    rw [hengine, not_or] at hreleased
    rw [forward_failed inserted hengine, htakes.chosen]
    exact congrFun (hlocked.releaseLock_eq hreleased.1 hreleased.2 hbalances) _
  | ok status =>
    rw [hengine] at hreleased
    have hunread := forward_acknowledged hengine horder huser herror
    exact absurd (Outcomes.Responsive.answered hio.findById hreleased) hunread

/-- When a call fails with its order not in the engine, the balances of its caller are as they
were unless it leaks its lock. -/
theorem placeOrder_intact (hstored : StoredBalances db) (hio : io.Responsive) :
    Intact userId io db (placeOrder mul orderId userId input io db) ↔
      ¬Leaks mul orderId userId input io db :=
  ⟨fun hintact hleaks => not_intact_of_leaks hstored hio hleaks hintact,
    intact_of_not_leaks hstored hio⟩

/-- Every statement runs and is answered, and the engine rejects the order. -/
def rejecting : Outcomes where
  lookUp := .answered
  market := .answered
  lock := .answered
  insert := .answered
  engine := .error (.rejected "POST_ONLY_REJECTED" "")
  live := false
  unlock := .answered
  updateStatus := .answered
  findById := .answered

theorem rejecting_responsive : rejecting.Responsive := by
  constructor <;> decide

/-- A sell order with a negative display quantity. -/
def hiddenSell : PlaceOrderInput :=
  { (System.sellCall .limit).input with displayQuantity := some (-10 ^ 28) }

theorem funded_stored : StoredBalances System.fundedTables := by
  refine Db.storedBalances_opening ?_
  decide +kernel

/-- The lock of a call whose order cannot be inserted is never given back. -/
theorem lock_outlives_failed_call : StoredBalances System.fundedTables ∧ rejecting.Responsive ∧
    ¬Intact 10 rejecting System.fundedTables
      (placeOrder System.exactMul 1 10 hiddenSell rejecting System.fundedTables) := by
  refine ⟨funded_stored, rejecting_responsive, ?_⟩
  intro hintact
  have hsame := hintact .internal (by decide +kernel) (by decide +kernel) 1
  have hlocked : (placeOrder System.exactMul 1 10 hiddenSell rejecting
      System.fundedTables).final.balances (10, 1) = some ⟨4, 1⟩ := by
    decide +kernel
  rw [hlocked] at hsame
  revert hsame
  decide +kernel

theorem exists_ok_of_isOk {ε α : Type} {x : Except ε α} (h : x.isOk = true) : ∃ a, x = .ok a := by
  cases x with
  | error e => cases h
  | ok a => exact ⟨a, rfl⟩

theorem prepare_sell : prepare System.exactMul 10 (System.sellCall .limit).input rejecting
    System.fundedTables = some (.ok ⟨10 ^ 28, some ⟨10, 1, 10 ^ 28⟩⟩) := rfl

theorem sell_not_leaks : ¬Leaks System.exactMul 1 10 (System.sellCall .limit).input rejecting
    System.fundedTables := by
  rintro ⟨placement, lock, htakes, -, hleaks⟩
  cases prepare_sell.symm.trans htakes.prepared
  cases htakes.chosen
  have hinserts : Inserts 1 10 (System.sellCall .limit).input rejecting System.fundedTables
      ⟨10 ^ 28, some ⟨10, 1, 10 ^ 28⟩⟩ := by
    refine ⟨rfl, exists_ok_of_isOk ?_, ?_⟩ <;> decide +kernel
  have hno : ¬(rejecting.unlock = .refused ∨ Tie (value (10 ^ 28))) := by
    decide +kernel
  exact hno (hleaks hinserts).2

/-- The lock of an order that the engine rejects is given back. -/
theorem rejected_sell_refunded :
    (placeOrder System.exactMul 1 10 (System.sellCall .limit).input rejecting
      System.fundedTables).final.balances (10, 1) = System.fundedTables.balances (10, 1) :=
  (placeOrder_intact funded_stored rejecting_responsive).mpr sell_not_leaks
    ⟨409, .postOnlyRejected, "Post-only order would cross the book"⟩ (by decide +kernel)
    (by decide +kernel) 1

/-! ## Calls that free funds -/

theorem balanceOf_congr {after : Tables} (h : after.balances = mid.balances) (key : Uuid × Uuid) :
    balanceOf after key = balanceOf mid key := by
  unfold balanceOf
  rw [h]

/-- After one row is written the other accounts of the user are as before. -/
theorem balanceOf_update {after : Tables} {assetId : Uuid} {balance : Balance}
    (h : after.balances = Function.update db.balances (userId, assetId) (some balance))
    (assetId' : Uuid) : balanceOf after (userId, assetId') =
      if assetId' = assetId then balance else balanceOf db (userId, assetId') := by
  unfold balanceOf
  rw [h]
  split_ifs with heq
  · rw [heq, Function.update_self, Option.getD_some]
  · rw [Function.update_of_ne]
    intro hkey
    exact heq (congrArg Prod.snd hkey)

theorem Locked.balanceOf (h : Locked userId lock db row) :
    balanceOf db (userId, lock.assetId) = row := by
  rw [Api.balanceOf, h.found, Option.getD_some]

/-- A lock that is not negative only locks. -/
theorem Locked.locks (h : Locked userId lock db row) (hpos : -(1 / 2) < value lock.amount * 10 ^ 18)
    (assetId : Uuid) :
    (Api.balanceOf (withLock userId lock row db) (userId, assetId)).available ≤
        (Api.balanceOf db (userId, assetId)).available ∧
      (Api.balanceOf db (userId, assetId)).locked ≤
        (Api.balanceOf (withLock userId lock row db) (userId, assetId)).locked := by
  have hdown : shift (-value lock.amount) ≤ 0 := by
    rw [Db.shift_nonpos]
    linarith
  have hup : 0 ≤ shift (value lock.amount) := Db.shift_nonneg.mpr hpos.le
  rw [balanceOf_update (withLock_balances ..)]
  split_ifs with heq
  · rw [heq, h.balanceOf]
    constructor <;> linarith
  · exact ⟨le_rfl, le_rfl⟩

theorem Takes.afterLock (h : Takes mul userId input io db placement lock)
    (htry : Tables.tryLockBalance numeric lock.userId lock.assetId (value lock.amount) db =
      .ok (true, mid)) : (Api.placeOrder mul orderId userId input io db).afterLock = mid := by
  rw [h.placeOrder htry]
  split_ifs
  · exact insertPending_afterLock
  · rfl

/-- Where `Frees` holds, the lock or the unlock adds to what was available. -/
theorem not_freesNothing_of_frees (hstored : StoredBalances db)
    (h : Frees mul orderId userId input io db) :
    ¬FreesNothing userId db (placeOrder mul orderId userId input io db) := by
  rcases h with ⟨placement, lock, htakes, hfrees⟩
  rcases htakes.locked hstored with ⟨row, hlocked, htry⟩
  intro hnothing
  rcases hfrees with hneg | ⟨hrefunds, htie, hfits⟩
  · -- the lock itself adds to `available`
    have havailable := (hnothing.lock lock.assetId).1
    rw [htakes.afterLock htry, balanceOf_update (withLock_balances ..), if_pos rfl,
      hlocked.balanceOf] at havailable
    have hdown : shift (-value lock.amount) ≤ 0 := by linarith
    rw [Db.shift_nonpos] at hdown
    linarith
  · rcases hfits row hlocked.found with ⟨hav, hlo⟩
    rcases hrefunds.error with ⟨e, hengine⟩
    rcases insertPending_inserts (inserts_withLock.mpr hrefunds.inserts) with
      ⟨inserted, hforward, hbalances, -⟩
    have hlater := hnothing.later (releaseLock (some lock) io.unlock inserted) (by
      rw [htakes.placeOrder htry, if_pos hrefunds.lock, hforward, forward_failed inserted hengine,
        htakes.chosen]
      simp) lock.assetId
    have hreleased := hlocked.releaseLock io.unlock hbalances
    rw [back, back, if_pos htie, if_pos htie, if_pos ⟨hrefunds.unlock, hav, hlo⟩] at hreleased
    rw [balanceOf_update hreleased, if_pos rfl, hlocked.balanceOf] at hlater
    have := Db.lastPlace_pos
    linarith

/-- Outside `Frees` no statement of the call makes more available than there was. -/
theorem freesNothing_of_not_frees (hstored : StoredBalances db)
    (h : ¬Frees mul orderId userId input io db) :
    FreesNothing userId db (placeOrder mul orderId userId input io db) := by
  by_cases hnone : ∀ placement lock, ¬Takes mul userId input io db placement lock
  · constructor
    · intro assetId
      rw [balanceOf_congr (placeOrder_untouched hnone List.mem_cons_self)]
      exact ⟨le_rfl, le_rfl⟩
    · intro after hafter assetId
      rw [balanceOf_congr (placeOrder_untouched hnone (List.mem_cons_of_mem _ hafter))]
  simp only [not_forall, not_not] at hnone
  rcases hnone with ⟨placement, lock, htakes⟩
  rcases htakes.locked hstored with ⟨row, hlocked, htry⟩
  have hpos : -(1 / 2) < value lock.amount * 10 ^ 18 := by
    by_contra hneg
    exact h ⟨placement, lock, htakes, .inl (not_lt.mp hneg)⟩
  have hlocks := hlocked.locks hpos
  constructor
  · intro assetId
    rw [htakes.afterLock htry]
    exact hlocks assetId
  · intro after hafter assetId
    rw [htakes.placeOrder htry] at hafter
    split_ifs at hafter with hanswered
    swap
    · cases hafter
    rcases insertPending_later hafter with hsame | ⟨hinserts, herror, inserted, hbalances, rfl⟩
    · rw [balanceOf_congr hsame]
      exact (hlocks assetId).1
    rw [htakes.chosen]
    have hreleased := hlocked.releaseLock io.unlock hbalances
    split_ifs at hreleased with hback
    · rw [balanceOf_update hreleased]
      split_ifs with heq
      swap
      · exact le_rfl
      -- it gives back what it took
      have htie : ¬Tie (value lock.amount) := by
        intro htie
        rw [back, back, if_pos htie, if_pos htie] at hback
        refine h ⟨placement, lock, htakes, .inr
          ⟨⟨hanswered, inserts_withLock.mp hinserts, herror, hback.1⟩, htie, ?_⟩⟩
        intro found hfound
        cases hfound.symm.trans hlocked.found
        exact hback.2
      rw [heq, hlocked.balanceOf, back, if_neg htie]
    · rw [balanceOf_congr hreleased]
      exact (hlocks assetId).1

/-- A call frees no funds unless its lock is negative, or it is given back after it was rounded
on a tie. -/
theorem placeOrder_frees (hstored : StoredBalances db) :
    FreesNothing userId db (placeOrder mul orderId userId input io db) ↔
      ¬Frees mul orderId userId input io db :=
  ⟨fun hnothing hfrees => not_freesNothing_of_frees hstored hfrees hnothing,
    freesNothing_of_not_frees hstored⟩

/-- User 10 has funds of asset 2 locked. -/
def lockedTables : Tables := Db.openingTables [((10, 2), ⟨10, 100⟩)]

/-- User 10 buys one unit at -2. -/
def negativeBuy : PlaceOrderInput :=
  { (System.sellCall .limit).input with side := .buy, price := some (-2 * 10 ^ 28) }

/-- A lock of a negative amount releases locked funds; that the order cannot be inserted does
not take them back. -/
theorem lock_frees_funds : StoredBalances lockedTables ∧ ¬FreesNothing 10 lockedTables
    (placeOrder System.exactMul 1 10 negativeBuy rejecting lockedTables) := by
  constructor
  · refine Db.storedBalances_opening ?_
    decide +kernel
  · intro hnothing
    have hmore := (hnothing.lock 2).1
    revert hmore
    decide +kernel

theorem sell_not_frees : ¬Frees System.exactMul 1 10 (System.sellCall .limit).input rejecting
    System.fundedTables := by
  rintro ⟨placement, lock, htakes, hfrees⟩
  cases prepare_sell.symm.trans htakes.prepared
  cases htakes.chosen
  rcases hfrees with hneg | ⟨-, htie, -⟩
  · revert hneg
    decide +kernel
  · revert htie
    decide +kernel

/-- A sell order that is locked and refunded makes nothing more available. -/
theorem rejected_sell_frees_nothing : FreesNothing 10 System.fundedTables
    (placeOrder System.exactMul 1 10 (System.sellCall .limit).input rejecting
      System.fundedTables) :=
  (placeOrder_frees funded_stored).mpr sell_not_frees

end CryptoCex.Api
