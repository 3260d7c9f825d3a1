import CryptoCex.Api.Refund

/-!
# One order for a client order id

`place_order` looks for an order with the caller's client order id, and inserts its own only
much later, so several calls can pass the check. What keeps all but one of them from the engine
is the unique constraint on user and client order id, together with the order of the last two
steps: a call forwards its order only after it has inserted it, so of two calls that both
forward an order with the same client order id one would have inserted a second row
(`Traced.one`). A call forwards its order once (`Traced.writes`).
-/

namespace CryptoCex.Api

open CryptoCex.Core (Decimal Uuid)
open Db (OrderRow Tables numeric)
open Machine (run)
open Proto (EngineRequest)
open Server (EngineState)

/-! ## Forwarding -/

/-- The step puts the request of a call on a connection to the engine. -/
def Op.forwards (k : ℕ) : Op → Bool
  | .write k' .present => k' = k
  | .write k' (.fresh _) => k' = k
  | _ => false

/-- The call is one of `place_order` by this user with this client order id. -/
def carries (ops : List Op) (userId : Uuid) (clientOrderId : String) (k : ℕ) : Bool :=
  ops.any fun
    | .place k' call =>
      k' = k ∧ call.userId = userId ∧ call.input.clientOrderId = some clientOrderId
    | _ => false

/-- The step of the run forwards an order with this client order id. -/
def Op.forwardsFor (ops : List Op) (userId : Uuid) (clientOrderId : String) : Op → Bool
  | .write k .present => carries ops userId clientOrderId k
  | .write k (.fresh _) => carries ops userId clientOrderId k
  | _ => false

theorem carries_eq_true {ops : List Op} {userId : Uuid} {clientOrderId : String} {k : ℕ} :
    carries ops userId clientOrderId k = true ↔ ∃ call, .place k call ∈ ops ∧
      call.userId = userId ∧ call.input.clientOrderId = some clientOrderId := by
  unfold carries
  rw [List.any_eq_true]
  constructor
  · rintro ⟨op, hop, hcarries⟩
    split at hcarries
    · next k' call =>
      simp only [decide_eq_true_eq] at hcarries
      rcases hcarries with ⟨rfl, huser, hid⟩
      exact ⟨call, hop, huser, hid⟩
    · cases hcarries
  · rintro ⟨call, hop, huser, hid⟩
    exact ⟨_, hop, by simp [huser, hid]⟩

theorem forwardsFor_eq_true {ops : List Op} {userId : Uuid} {clientOrderId : String} {op : Op} :
    op.forwardsFor ops userId clientOrderId = true ↔
      ∃ k, carries ops userId clientOrderId k = true ∧ op.forwards k = true := by
  constructor
  · intro h
    unfold Op.forwardsFor at h
    split at h
    · next k => exact ⟨k, h, by simp [Op.forwards]⟩
    · next k c => exact ⟨k, h, by simp [Op.forwards]⟩
    · cases h
  · rintro ⟨k, hcarries, hforwards⟩
    unfold Op.forwards at hforwards
    split at hforwards
    · rw [decide_eq_true_eq] at hforwards
      rwa [hforwards]
    · rw [decide_eq_true_eq] at hforwards
      rwa [hforwards]
    · cases hforwards

/-! ## The tables -/

/-- An order of the user with the client order id. -/
def HasOrder (db : Tables) (userId : Uuid) (clientOrderId : String) : Prop :=
  ∃ orderId row, db.orders.find? orderId = some row ∧ row.userId = userId ∧
    row.clientOrderId = some clientOrderId

/-- The orders of one are among those of the other. -/
def KeepsOrders (db db' : Tables) : Prop :=
  ∀ orderId row, db.orders.find? orderId = some row → db'.orders.find? orderId = some row

/-- A client order id that is taken stays taken. -/
theorem KeepsOrders.hasOrder {db db' : Tables} {userId : Uuid} {clientOrderId : String}
    (h : KeepsOrders db db') (horder : HasOrder db userId clientOrderId) :
    HasOrder db' userId clientOrderId := by
  rcases horder with ⟨orderId, row, hrow, hmatch⟩
  exact ⟨orderId, row, h orderId row hrow, hmatch⟩

theorem keepsOrders_of_eq {db db' : Tables} (h : db'.orders = db.orders) : KeepsOrders db db' := by
  intro orderId row hrow
  rw [h]
  exact hrow

section Insert

variable {db db' : Tables} {input : Tables.InsertOrder}
  (h : db.insertOrder numeric input = .ok ((), db'))

include h

/-- An insert adds a row and changes none. -/
theorem keepsOrders_insertOrder : KeepsOrders db db' := by
  rcases Tables.insertOrder_eq_ok.mp h with ⟨row, _, hclash, rfl⟩
  simp only [Tables.clashes, Bool.or_eq_false_iff] at hclash
  intro orderId old hold
  have hne : orderId ≠ input.id := by
    rintro rfl
    rw [hold] at hclash
    cases hclash.1
  rw [OrdMap.find?_insert, if_neg hne, hold]

/-- The unique constraint. -/
theorem not_hasOrder_of_insertOrder {clientOrderId : String}
    (hid : input.clientOrderId = some clientOrderId) :
    ¬ HasOrder db input.userId clientOrderId := by
  rcases Tables.insertOrder_eq_ok.mp h with ⟨row, _, hclash, _⟩
  rintro ⟨orderId, old, hold, huser, hclient⟩
  simp only [Tables.clashes, Bool.or_eq_false_iff] at hclash
  have hnone := List.any_eq_false.mp hclash.2 _ (OrdMap.find?_eq_some.mp hold)
  simp [huser, hclient, hid] at hnone

/-- The client order id of an inserted order is taken. -/
theorem hasOrder_of_insertOrder {clientOrderId : String}
    (hid : input.clientOrderId = some clientOrderId) : HasOrder db' input.userId clientOrderId := by
  rcases Tables.insertOrder_eq_ok.mp h with ⟨row, hrow, _, rfl⟩
  refine ⟨input.id, row, OrdMap.find?_insert_self _ _ _, ?_⟩
  rcases Tables.checkedRow_keys hrow with ⟨huser, hclient⟩
  exact ⟨huser, hclient.trans hid⟩

end Insert

/-- What a statement returns and leaves, whether or not its result arrives. -/
theorem execute_cases {α : Type} (db : Tables) (delivery : Tables.Delivery)
    (statement : Tables → Except Db.DbError (α × Tables)) :
    (db.execute delivery statement).2 = db ∨
      ∃ result, statement db = .ok (result, (db.execute delivery statement).2) := by
  cases delivery with
  | refused => exact .inl rfl
  | answered =>
    cases hstatement : statement db with
    | error e => exact .inl (by simp [Tables.execute, hstatement])
    | ok p => exact .inr ⟨p.1, by simp [Tables.execute, hstatement]⟩
  | lost =>
    cases hstatement : statement db with
    | error e => exact .inl (by simp [Tables.execute, hstatement])
    | ok p => exact .inr ⟨p.1, by simp [Tables.execute, hstatement]⟩

/-- A result that arrives is the statement's. -/
theorem execute_ok {α : Type} {db : Tables} {delivery : Tables.Delivery}
    {statement : Tables → Except Db.DbError (α × Tables)} {result : α}
    (h : (db.execute delivery statement).1 = .ok result) :
    statement db = .ok (result, (db.execute delivery statement).2) := by
  cases delivery with
  | refused => cases h
  | answered =>
    cases hstatement : statement db with
    | error e => simp [Tables.execute, hstatement] at h
    | ok p =>
      simp only [Tables.execute, hstatement] at h ⊢
      rw [← Except.ok.inj h]
  | lost =>
    cases hstatement : statement db with
    | error e => simp [Tables.execute, hstatement] at h
    | ok p => simp [Tables.execute, hstatement] at h

/-- Writing an account changes no order. -/
theorem orders_of_putBalance {db db' : Tables} {store : ℚ → Option ℚ} {userId assetId : Uuid}
    {x y : ℚ} (h : db.putBalance store userId assetId x y = .ok db') : db'.orders = db.orders := by
  rcases Tables.putBalance_eq_ok.mp h with ⟨_, _, _, _, _, _, rfl⟩
  rfl

namespace System

variable {fuel : ℕ} {mul : Decimal → Decimal → Option Decimal} {s t : System}

/-! ## Steps -/

theorem write_db {k : ℕ} {send : Sending} {outcome : WriteOutcome}
    (h : s.write k send outcome = some t) : t.db = s.db := by
  cases outcome with
  | present =>
    simp only [write] at h
    split at h
    · cases h
    split at h
    · cases h
    · cases h
      rfl
  | fresh c =>
    simp only [write] at h
    split at h
    · cases h
    · cases h
      rfl
  | failed =>
    cases h
    rfl

theorem serve_db {c : ℕ} {link : Link} (h : s.serve fuel c link = some t) : t.db = s.db := by
  unfold serve at h
  split at h
  · rcases Option.map_eq_some_iff.mp h with ⟨⟨result, mid⟩, hhandle, hafter⟩
    rcases handle_spec hhandle with ⟨engine, _, rfl⟩
    cases result <;> cases hafter <;> rfl
  · cases h

theorem deliver_db (s : System) (answer : Answer) : (s.deliver answer).db = s.db := by
  unfold deliver
  split
  · rfl
  split
  · rfl
  dsimp only
  split <;> rfl

/-- No step removes an order. -/
theorem step_keepsOrders {op : Op} (h : s.step fuel mul op = some t) : KeepsOrders s.db t.db := by
  have hsame : t.db = s.db → KeepsOrders s.db t.db := fun heq =>
    keepsOrders_of_eq (congrArg Tables.orders heq)
  -- only the first five cases touch the tables, and of these only the insert touches the orders
  cases op with
  | lookUp k delivery =>
    simp only [step] at h
    split at h
    · next call hcall =>
      cases h
      refine hsame ?_
      unfold lookUp
      split
      · rfl
      · next clientOrderId _ =>
        rcases execute_cases s.db delivery (Tables.findByClientOrderId call.userId clientOrderId)
          with heq | ⟨result, hfind⟩
        · exact heq
        · exact (Prod.mk.inj (Except.ok.inj hfind)).2.symm
    · cases h
  -- a lock writes one account, if there is enough on it
  | lock k delivery =>
    simp only [step] at h
    split at h
    · next call placement hcall =>
      cases h
      unfold lockBalance
      split
      · exact keepsOrders_of_eq rfl
      · next lock _ =>
        rcases execute_cases s.db delivery
          (Tables.tryLockBalance numeric lock.userId lock.assetId (Db.value lock.amount))
          with heq | ⟨result, hlock⟩
        · exact keepsOrders_of_eq (congrArg Tables.orders heq)
        · rcases Tables.tryLockBalance_eq_ok hlock with ⟨_, heq⟩ | ⟨_, row, _, _, hput⟩
          · exact keepsOrders_of_eq (congrArg Tables.orders heq)
          · exact keepsOrders_of_eq (orders_of_putBalance hput)
    · cases h
  | insert k orderId delivery =>
    simp only [step] at h
    split at h
    · next call placement hcall =>
      cases h
      rcases execute_cases s.db delivery (Tables.insertOrder numeric
        (pendingRow orderId call.userId call.input placement.quantity)) with heq | ⟨_, hinsert⟩
      · exact hsame heq
      · exact keepsOrders_insertOrder hinsert
    · cases h
  -- the unlock of a failed call writes the same account
  | unlock k delivery =>
    simp only [step] at h
    split at h
    · next send hcall =>
      split at h
      · next error lock _ _ =>
        cases h
        rcases execute_cases s.db delivery
          (Tables.unlockBalance numeric lock.userId lock.assetId (Db.value lock.amount))
          with heq | ⟨_, hunlock⟩
        · exact hsame heq
        · rcases Tables.unlockBalance_eq_ok hunlock with heq | ⟨row, _, hput⟩
          · exact hsame heq
          · exact keepsOrders_of_eq (orders_of_putBalance hput)
      · cases h
    · cases h
  -- settlement writes an account
  | settle userId assetId balance =>
    cases h
    exact keepsOrders_of_eq rfl
  -- the rest: calls, frames and the engine
  | place k call =>
    simp only [step] at h
    split_ifs at h
    cases h
    exact hsame rfl
  | forward k request =>
    simp only [step] at h
    split_ifs at h
    cases h
    exact hsame rfl
  | validate k delivery =>
    simp only [step] at h
    split at h
    · cases h
      exact hsame rfl
    · cases h
  | register k =>
    simp only [step] at h
    split at h
    · split_ifs at h
      cases h
      exact hsame rfl
    · cases h
  | write k outcome =>
    simp only [step] at h
    split at h
    · split_ifs at h
      exact hsame (write_db h)
    · cases h
  | timeOut k =>
    simp only [step] at h
    split at h
    · split_ifs at h
      cases h
      exact hsame rfl
    · cases h
  | resolve k =>
    simp only [step] at h
    split at h
    · split_ifs at h
      rcases Option.map_eq_some_iff.mp h with ⟨outcome, _, rfl⟩
      cases outcome <;> exact hsame rfl
    · cases h
  | serve c =>
    simp only [step] at h
    split at h
    · exact hsame (serve_db h)
    · cases h
  | hangUp c =>
    simp only [step] at h
    split at h
    · cases h
      exact hsame rfl
    · cases h
  | deliver c =>
    simp only [step] at h
    split at h
    · split at h
      · cases h
        exact hsame (deliver_db _ _)
      · cases h
    · cases h
  | readerStops c =>
    simp only [step] at h
    split at h
    · split_ifs at h
      cases h
      exact hsame rfl
    · cases h
  | readerClears c =>
    simp only [step] at h
    split at h
    · split_ifs at h
      cases h
      exact hsame rfl
    · cases h
  | direct request =>
    rcases Option.map_eq_some_iff.mp h with ⟨⟨result, mid⟩, hhandle, rfl⟩
    rcases handle_spec hhandle with ⟨engine, _, rfl⟩
    exact hsame rfl

/-- The call of `place_order` that is still on its way to the engine. -/
def placing : Call → Option PlaceCall
  | .looking call | .validating call | .locking call _ | .inserting call _ => some call
  | .sending _ | .ended _ | .panicked => none

/-- What a step makes of a call. -/
inductive Progress (s : System) (op : Op) (t : System) (k : ℕ) : Prop where
  | same (h : t.calls.find? k = s.calls.find? k)
  | begins {call : PlaceCall} (hop : op = .place k call) (hbefore : s.calls.find? k = none)
      (hafter : t.calls.find? k = some (.looking call))
  /-- Another handler begins. -/
  | forwards {send : Sending} (hbefore : s.calls.find? k = none)
      (hafter : t.calls.find? k = some (.sending send)) (hphase : send.phase = .prepared)
  | advances {before after : Call} {call : PlaceCall} (hbefore : s.calls.find? k = some before)
      (hcall : placing before = some call) (hafter : t.calls.find? k = some after)
      (hnext : placing after = some call ∨ placing after = none)
      (hsends : ∀ send, after ≠ .sending send)
  /-- The order is inserted, and the call goes on to send it. -/
  | inserts {call : PlaceCall} {placement : Placement} {orderId : Uuid}
      {delivery : Tables.Delivery} {send : Sending} (hop : op = .insert k orderId delivery)
      (hbefore : s.calls.find? k = some (.inserting call placement))
      (hinsert : s.db.insertOrder numeric
        (pendingRow orderId call.userId call.input placement.quantity) = .ok ((), t.db))
      (hafter : t.calls.find? k = some (.sending send)) (hphase : send.phase = .prepared)
  | sends {send send' : Sending} (hbefore : s.calls.find? k = some (.sending send))
      (hafter : t.calls.find? k = some (.sending send')) (hevolves : Evolves s op k send send')

/-- A step that writes one call. -/
theorem progress_setCall {op : Op} {k₀ : ℕ} {call : Call}
    (hcalls : t.calls = s.calls.insert k₀ call)
    (hself : t.calls.find? k₀ = some call → Progress s op t k₀) (k : ℕ) : Progress s op t k := by
  by_cases hk : k = k₀
  · rw [hk]
    refine hself ?_
    rw [hcalls, OrdMap.find?_insert_self]
  · refine .same ?_
    rw [hcalls, OrdMap.find?_insert, if_neg hk]

/-- The steps that concern a sending call only. -/
theorem progress_of_sending {op : Op} (h : Step fuel s op t) {k₀ : ℕ} {send : Sending}
    (hcall : s.calls.find? k₀ = some (.sending send))
    (hcalls : ∀ k, k ≠ k₀ → t.calls.find? k = s.calls.find? k) (k : ℕ) : Progress s op t k := by
  by_cases hk : k = k₀
  · rw [hk]
    rcases h.call_next hcall with ⟨send', hcall', hevolves⟩
    exact .sends hcall hcall' hevolves
  · exact .same (hcalls k hk)

theorem find?_setCall_ne (s : System) {k k₀ : ℕ} (call : Call) (h : k ≠ k₀) :
    (s.setCall k₀ call).calls.find? k = s.calls.find? k := by
  rw [setCall, OrdMap.find?_insert, if_neg h]

/-- The steps of a handler before it sends. -/
theorem progress_advances {op : Op} {k : ℕ} {before after : Call} {call : PlaceCall}
    (hbefore : s.calls.find? k = some before) (hcall : placing before = some call)
    (hcalls : t.calls = s.calls.insert k after)
    (hnext : placing after = some call ∨ placing after = none)
    (hsends : ∀ send, after ≠ .sending send) (k' : ℕ) : Progress s op t k' :=
  progress_setCall hcalls
    (fun hafter => .advances hbefore hcall hafter hnext hsends) k'

/-- A look-up moves its own call on, to no state that forwards. -/
theorem lookUp_progress {op : Op} {k : ℕ} {call : PlaceCall} (delivery : Tables.Delivery)
    (hcall : s.calls.find? k = some (.looking call)) (k' : ℕ) :
    Progress s op (s.lookUp k call delivery) k' := by
  unfold lookUp
  split
  · exact progress_advances hcall rfl rfl (.inl rfl) (by simp) k'
  · refine progress_advances hcall rfl rfl ?_ ?_ k'
    · split <;> simp [placing]
    · intro send
      split <;> simp

/-- So does validation. -/
theorem validate_progress {op : Op} {k : ℕ} {call : PlaceCall} (delivery : Tables.Delivery)
    (hcall : s.calls.find? k = some (.validating call)) (k' : ℕ) :
    Progress s op (s.validate mul k call delivery) k' := by
  refine progress_advances hcall rfl rfl ?_ ?_ k'
  · split
    · simp [placing]
    split
    · simp [placing]
    split
    · simp [placing]
    split <;> simp [placing]
  · intro send
    split
    · simp
    split
    · simp
    split
    · simp
    split <;> simp

/-- So does a lock. -/
theorem lockBalance_progress {op : Op} {k : ℕ} {call : PlaceCall} {placement : Placement}
    (delivery : Tables.Delivery) (hcall : s.calls.find? k = some (.locking call placement))
    (k' : ℕ) : Progress s op (s.lockBalance k call placement delivery) k' := by
  unfold lockBalance
  split
  · exact progress_advances hcall rfl rfl (.inl rfl) (by simp) k'
  · refine progress_advances hcall rfl rfl ?_ ?_ k'
    · split <;> simp [placing]
    · intro send
      split <;> simp

/-- After the insert the call may be about to send, and then the row of its order is in. -/
theorem insertPending_progress {k : ℕ} {call : PlaceCall} {placement : Placement}
    (orderId : Uuid) (delivery : Tables.Delivery)
    (hcall : s.calls.find? k = some (.inserting call placement)) (k' : ℕ) :
    Progress s (.insert k orderId delivery)
      (s.insertPending k call placement orderId delivery) k' := by
  cases hresult : (s.db.execute delivery (Tables.insertOrder numeric
    (pendingRow orderId call.userId call.input placement.quantity))).1 with
  | error e =>
    have hcalls : (s.insertPending k call placement orderId delivery).calls =
        s.calls.insert k (.ended (.error .internal)) := by
      simp only [insertPending, setCall, hresult]
    exact progress_advances hcall rfl hcalls (.inr rfl) (by simp) k'
  | ok result =>
    have hcalls : (s.insertPending k call placement orderId delivery).calls =
        s.calls.insert k (.sending (.new (.place call.requestId
          (engineOrder orderId call.userId call.input placement.quantity)) placement.lock)) := by
      simp only [insertPending, setCall, hresult]
    exact progress_setCall hcalls
      (fun hafter => .inserts rfl hcall (execute_ok hresult) hafter rfl) k'

/-- What a step does to call `k`: it takes it one stage on, or leaves it as it is. -/
theorem step_progress {op : Op} (h : s.step fuel mul op = some t) (k : ℕ) : Progress s op t k := by
  have hspec := step_spec h
  cases op with
  -- a call begins
  | place k₀ call =>
    simp only [step] at h
    split_ifs at h with hnone
    cases h
    exact progress_setCall rfl (fun hafter => .begins rfl hnone hafter) k
  | forward k₀ request =>
    simp only [step] at h
    split_ifs at h with hnew
    cases h
    exact progress_setCall rfl (fun hafter => .forwards hnew.1 hafter rfl) k
  -- the transactions that come before the request, each told by its own lemma
  | lookUp k₀ delivery =>
    simp only [step] at h
    split at h
    · next call hcall =>
      cases h
      exact lookUp_progress delivery hcall k
    · cases h
  | validate k₀ delivery =>
    simp only [step] at h
    split at h
    · next call hcall =>
      cases h
      exact validate_progress delivery hcall k
    · cases h
  | lock k₀ delivery =>
    simp only [step] at h
    split at h
    · next call placement hcall =>
      cases h
      exact lockBalance_progress delivery hcall k
    · cases h
  | insert k₀ orderId delivery =>
    simp only [step] at h
    split at h
    · next call placement hcall =>
      cases h
      exact insertPending_progress orderId delivery hcall k
    · cases h
  -- the request is on its way: the call stays `sending`, and no other call is touched
  | register k₀ =>
    simp only [step] at h
    split at h
    · next send hcall =>
      split_ifs at h
      cases h
      exact progress_of_sending hspec hcall (fun k' hk' => find?_setCall_ne _ _ hk') k
    · cases h
  | write k₀ outcome =>
    simp only [step] at h
    split at h
    · next send hcall =>
      split_ifs at h
      refine progress_of_sending hspec hcall ?_ k
      intro k' hk'
      -- on the connection there is, on a new one, or not at all
      cases outcome with
      | present =>
        simp only [write] at h
        split at h
        · cases h
        split at h
        · cases h
        · cases h
          exact find?_setCall_ne _ _ hk'
      | fresh c =>
        simp only [write] at h
        split at h
        · cases h
        · cases h
          exact find?_setCall_ne _ _ hk'
      | failed =>
        cases h
        exact find?_setCall_ne _ _ hk'
    · cases h
  -- the call gets its reply, or gives up
  | timeOut k₀ =>
    simp only [step] at h
    split at h
    · next send hcall =>
      split_ifs at h
      cases h
      exact progress_of_sending hspec hcall (fun k' hk' => find?_setCall_ne _ _ hk') k
    · cases h
  | resolve k₀ =>
    simp only [step] at h
    split at h
    · next send hcall =>
      split_ifs at h
      refine progress_of_sending hspec hcall ?_ k
      intro k' hk'
      rcases Option.map_eq_some_iff.mp h with ⟨outcome, _, rfl⟩
      cases outcome <;> exact find?_setCall_ne _ _ hk'
    · cases h
  | unlock k₀ delivery =>
    simp only [step] at h
    split at h
    · next send hcall =>
      split at h
      · cases h
        exact progress_of_sending hspec hcall (fun k' hk' => find?_setCall_ne _ _ hk') k
      · cases h
    · cases h
  -- the reader gives an answer to the call that its id is registered for, which may be `k`
  | deliver c =>
    simp only [step] at h
    split at h
    · split at h
      · next answer responses _ _ =>
        cases h
        by_cases hsends : ∃ send, s.calls.find? k = some (.sending send)
        · rcases hsends with ⟨send, hcall⟩
          rcases hspec.call_next hcall with ⟨send', hcall', hevolves⟩
          exact .sends hcall hcall' hevolves
        · refine .same ?_
          unfold deliver
          split
          · rfl
          split
          · rfl
          dsimp only
          split
          · next k₀ _ _ send hcall =>
            refine find?_setCall_ne _ _ ?_
            rintro rfl
            exact hsends ⟨send, hcall⟩
          · rfl
      · cases h
    · cases h
  -- the engine and the connections touch no call
  | serve c =>
    simp only [step] at h
    split at h
    · refine .same ?_
      unfold serve at h
      split at h
      · rcases Option.map_eq_some_iff.mp h with ⟨⟨result, mid⟩, hhandle, hafter⟩
        rcases handle_spec hhandle with ⟨engine, _, rfl⟩
        cases result <;> cases hafter <;> rfl
      · cases h
    · cases h
  | hangUp c =>
    simp only [step] at h
    split at h
    · cases h
      exact .same rfl
    · cases h
  | readerStops c =>
    simp only [step] at h
    split at h
    · split_ifs at h
      cases h
      exact .same rfl
    · cases h
  | readerClears c =>
    simp only [step] at h
    split at h
    · split_ifs at h
      cases h
      exact .same rfl
    · cases h
  | direct request =>
    rcases Option.map_eq_some_iff.mp h with ⟨⟨result, mid⟩, hhandle, rfl⟩
    rcases handle_spec hhandle with ⟨engine, _, rfl⟩
    exact .same rfl
  | settle userId assetId balance =>
    cases h
    exact .same rfl

/-! ## The invariant -/

/-- The request of a call is not on a connection yet. -/
def SendPhase.unwritten : SendPhase → Bool
  | .prepared | .registered => true
  | _ => false

/-- What the steps so far say about the calls. -/
structure Traced (past : List Op) (s : System) : Prop where
  /-- A call began with its `place`. -/
  began : ∀ k before call, s.calls.find? k = some before → placing before = some call →
    .place k call ∈ past
  known : ∀ k call, .place k call ∈ past → s.calls.find? k ≠ none
  unique : ∀ k call call', .place k call ∈ past → .place k call' ∈ past → call = call'
  /-- A call that sends its order has inserted it. -/
  rows : ∀ k call send clientOrderId, .place k call ∈ past →
    s.calls.find? k = some (.sending send) → call.input.clientOrderId = some clientOrderId →
    HasOrder s.db call.userId clientOrderId
  /-- No two calls have inserted an order with the same client order id. -/
  one : ∀ k k' call call' send send' clientOrderId, .place k call ∈ past → .place k' call' ∈ past →
    s.calls.find? k = some (.sending send) → s.calls.find? k' = some (.sending send') →
    call.userId = call'.userId → call.input.clientOrderId = some clientOrderId →
    call'.input.clientOrderId = some clientOrderId → k = k'
  /-- A call forwards its order once. -/
  writes : ∀ k, past.countP (Op.forwards k) ≤ 1 ∧ (0 < past.countP (Op.forwards k) →
    ∃ send, s.calls.find? k = some (.sending send) ∧ SendPhase.unwritten send.phase = false)

/-- A call is placed once, and then it looks for an order of its client order id. -/
theorem step_place {k : ℕ} {call : PlaceCall} (h : s.step fuel mul (.place k call) = some t) :
    s.calls.find? k = none ∧ t.calls.find? k = some (.looking call) := by
  simp only [step] at h
  split_ifs at h with hnone
  cases h
  exact ⟨hnone, OrdMap.find?_insert_self _ _ _⟩

/-- A call that writes its request was registered, and it has written it then. -/
theorem step_forwards {op : Op} {k : ℕ} (h : s.step fuel mul op = some t)
    (hforwards : op.forwards k = true) :
    (∃ send, s.calls.find? k = some (.sending send) ∧ send.phase = .registered) ∧
      ∃ send, t.calls.find? k = some (.sending send) ∧ send.phase = .waiting := by
  unfold Op.forwards at hforwards
  split at hforwards
  · -- the write itself
    next k' =>
    rw [decide_eq_true_eq] at hforwards
    subst hforwards
    simp only [step, write] at h
    split at h
    · next send hcall =>
      split_ifs at h with hphase
      split at h
      · cases h
      split at h
      · cases h
      · cases h
        exact ⟨⟨send, hcall, hphase⟩, _, OrdMap.find?_insert_self _ _ _, rfl⟩
    · cases h
  · -- a write that was waiting for the connection
    next k' c =>
    rw [decide_eq_true_eq] at hforwards
    subst hforwards
    simp only [step, write] at h
    split at h
    · next send hcall =>
      split_ifs at h with hphase
      split at h
      · cases h
      · cases h
        exact ⟨⟨send, hcall, hphase⟩, _, OrdMap.find?_insert_self _ _ _, rfl⟩
    · cases h
  · cases hforwards

/-- Nothing takes a write back. -/
theorem Evolves.written {op : Op} {k : ℕ} {send send' : Sending} (h : Evolves s op k send send')
    (hphase : SendPhase.unwritten send.phase = false) :
    SendPhase.unwritten send'.phase = false := by
  cases h with
  | same => exact hphase
  | receives => exact hphase
  | registers _ hbefore => simp [hbefore, SendPhase.unwritten] at hphase
  | writes _ _ _ hbefore => simp [hbefore, SendPhase.unwritten] at hphase
  | unwritten _ hbefore => simp [hbefore, SendPhase.unwritten] at hphase
  | timesOut | returns | errs | unlocks => rfl

section Step

variable {past : List Op} {op : Op} (h : Traced past s) (hstep : s.step fuel mul op = some t)

include h hstep

/-- A call of `place_order` that sends its order did so before, or has just inserted it. -/
theorem Traced.sending {k : ℕ} {call : PlaceCall} {send' : Sending}
    (hplace : .place k call ∈ past ++ [op]) (hsends : t.calls.find? k = some (.sending send')) :
    .place k call ∈ past ∧ ((∃ send, s.calls.find? k = some (.sending send)) ∨
      ∃ placement orderId delivery, op = .insert k orderId delivery ∧
        s.db.insertOrder numeric (pendingRow orderId call.userId call.input
          (placement : Placement).quantity) = .ok ((), t.db)) := by
  have hpast : .place k call ∈ past := by
    rcases List.mem_append.mp hplace with hpast | hop
    · exact hpast
    · cases List.mem_singleton.mp hop
      rw [(step_place hstep).2] at hsends
      cases hsends
  refine ⟨hpast, ?_⟩
  cases step_progress hstep k with
  | same hsame => exact .inl ⟨send', hsame ▸ hsends⟩
  | begins _ hbefore => exact absurd hbefore (h.known k call hpast)
  | forwards hbefore => exact absurd hbefore (h.known k call hpast)
  | advances _ _ hafter _ hnever =>
    rw [hafter] at hsends
    exact absurd (Option.some.inj hsends) (hnever send')
  -- it was placed once, so what it inserts is its own order
  | @inserts call₀ placement orderId delivery _ hop hbefore hinsert =>
    have hcall : call₀ = call := h.unique k _ _ (h.began k _ _ hbefore rfl) hpast
    rw [hcall] at hinsert
    exact .inr ⟨placement, orderId, delivery, hop, hinsert⟩
  | sends hbefore => exact .inl ⟨_, hbefore⟩

/-- One step keeps the account of who has forwarded what. -/
theorem Traced.step : Traced (past ++ [op]) t := by
  have hkeeps := step_keepsOrders hstep
  refine ⟨?_, ?_, ?_, ?_, ?_, ?_⟩
  · -- `began`: only its `place` brings a call into a state before the send
    intro k after call hafter hplacing
    cases step_progress hstep k with
    | same hsame => exact List.mem_append_left _ (h.began k after call (hsame ▸ hafter) hplacing)
    | begins hop _ hbegins =>
      rw [hbegins] at hafter
      cases hafter
      cases hplacing
      rw [hop]
      exact List.mem_append_right _ (List.mem_singleton.mpr rfl)
    | advances hbefore hcall hafter' hnext =>
      rw [hafter'] at hafter
      cases hafter
      rcases hnext with hnext | hnext
      · rw [hplacing] at hnext
        cases hnext
        exact List.mem_append_left _ (h.began k _ _ hbefore hcall)
      · rw [hplacing] at hnext
        cases hnext
    | forwards _ hsends =>
      rw [hsends] at hafter
      cases hafter
      cases hplacing
    | inserts _ _ _ hsends =>
      rw [hsends] at hafter
      cases hafter
      cases hplacing
    | sends _ hsends =>
      rw [hsends] at hafter
      cases hafter
      cases hplacing
  · -- `known`: no step forgets a call
    intro k call hplace
    rcases List.mem_append.mp hplace with hpast | hop
    · have hknown := h.known k call hpast
      cases step_progress hstep k with
      | same hsame => exact hsame ▸ hknown
      | begins _ hbefore => exact absurd hbefore hknown
      | forwards hbefore => exact absurd hbefore hknown
      | advances _ _ hafter => simp [hafter]
      | inserts _ _ _ hafter => simp [hafter]
      | sends _ hafter => simp [hafter]
    · cases List.mem_singleton.mp hop
      simp [(step_place hstep).2]
  · -- `unique`: a call that is known cannot be placed again
    intro k call call' hplace hplace'
    rcases List.mem_append.mp hplace with hpast | hop
    · rcases List.mem_append.mp hplace' with hpast' | hop'
      · exact h.unique k call call' hpast hpast'
      · cases List.mem_singleton.mp hop'
        exact absurd (step_place hstep).1 (h.known k call hpast)
    · cases List.mem_singleton.mp hop
      rcases List.mem_append.mp hplace' with hpast' | hop'
      · exact absurd (step_place hstep).1 (h.known k call' hpast')
      · cases List.mem_singleton.mp hop'
        rfl
  · -- `rows`: the row is there from before, or this step has inserted it
    intro k call send' clientOrderId hplace hsends hid
    rcases h.sending hstep hplace hsends with ⟨hpast, ⟨send, hbefore⟩ | ⟨_, _, _, _, hinsert⟩⟩
    · exact hkeeps.hasOrder (h.rows k call send clientOrderId hpast hbefore hid)
    · exact hasOrder_of_insertOrder hinsert hid
  · -- `writes`: a step that forwards finds its call registered, so it is the first
    intro k k' call call' send send' clientOrderId hplace hplace' hsends hsends' huser hid hid'
    rcases h.sending hstep hplace hsends with ⟨hpast, hold | ⟨_, _, _, hop, hinsert⟩⟩
    · rcases h.sending hstep hplace' hsends' with ⟨hpast', hold' | ⟨_, _, _, _, hinsert⟩⟩
      · rcases hold with ⟨old, hold⟩
        rcases hold' with ⟨old', hold'⟩
        exact h.one k k' call call' old old' clientOrderId hpast hpast' hold hold' huser hid hid'
      · -- the first call has its row already, so the second cannot have inserted one
        rcases hold with ⟨old, hold⟩
        have hrow := h.rows k call old clientOrderId hpast hold hid
        rw [huser] at hrow
        exact absurd hrow (not_hasOrder_of_insertOrder hinsert hid')
    · -- the first call inserts in this step
      rcases h.sending hstep hplace' hsends' with ⟨hpast', hold' | ⟨_, _, _, hop', _⟩⟩
      · rcases hold' with ⟨old', hold'⟩
        have hrow := h.rows k' call' old' clientOrderId hpast' hold' hid'
        rw [← huser] at hrow
        exact absurd hrow (not_hasOrder_of_insertOrder hinsert hid)
      · rw [hop] at hop'
        cases hop'
        rfl
  · intro k
    rcases h.writes k with ⟨hle, hwritten⟩
    rw [List.countP_append, List.countP_singleton]
    cases hforwards : op.forwards k with
    | true =>
      rcases step_forwards hstep hforwards with ⟨⟨send, hcall, hphase⟩, send', hcall', hphase'⟩
      have hzero : past.countP (Op.forwards k) = 0 := by
        by_contra hne
        rcases hwritten (Nat.pos_of_ne_zero hne) with ⟨send₀, hcall₀, hphase₀⟩
        rw [hcall] at hcall₀
        cases hcall₀
        rw [hphase] at hphase₀
        cases hphase₀
      refine ⟨by simp [hzero], fun _ => ⟨send', hcall', ?_⟩⟩
      rw [hphase']
      rfl
    | false =>
      simp only [Bool.false_eq_true, if_false, add_zero]
      refine ⟨hle, ?_⟩
      intro hpos
      rcases hwritten hpos with ⟨send, hcall, hphase⟩
      rcases (step_spec hstep).call_next hcall with ⟨send', hcall', hevolves⟩
      exact ⟨send', hcall', hevolves.written hphase⟩

end Step

/-! ## Runs -/

/-- Every run is traced. -/
theorem traced_of_run {engine : EngineState} {db : Tables} {ops : List Op}
    (hrun : run (step fuel mul) (start engine db) ops = some s) : Traced ops s := by
  refine Machine.run_induction Traced (fun _ _ _ => True) ?_ ?_ (fun _ _ _ _ _ _ => trivial) hrun
  · intro past mid op mid' _ htraced _ hstep
    exact htraced.step hstep
  · refine ⟨?_, ?_, ?_, ?_, ?_, ?_⟩
    · intro k before call hcall
      cases hcall
    · intro k call hmem
      cases hmem
    · intro k call call' hmem
      cases hmem
    · intro k call send clientOrderId hmem
      cases hmem
    · intro k k' call call' send send' clientOrderId hmem
      cases hmem
    · intro k
      exact ⟨Nat.zero_le _, fun hpos => absurd hpos (lt_irrefl 0)⟩

/-- In every run, whatever else happens in it, at most one order with the user's client order id
is forwarded to the engine. -/
theorem at_most_one_forwarded {engine : EngineState} {db : Tables} {ops : List Op} {s : System}
    (hrun : run (step fuel mul) (start engine db) ops = some s) (userId : Uuid)
    (clientOrderId : String) :
    ops.countP (Op.forwardsFor ops userId clientOrderId) ≤ 1 := by
  have htraced := traced_of_run hrun
  have hsends : ∀ k op, op ∈ ops → op.forwards k = true →
      ∃ send, s.calls.find? k = some (.sending send) := by
    intro k op hmem hforwards
    have hpos : 0 < ops.countP (Op.forwards k) := List.countP_pos_iff.mpr ⟨op, hmem, hforwards⟩
    rcases (htraced.writes k).2 hpos with ⟨send, hcall, _⟩
    exact ⟨send, hcall⟩
  by_cases hany : ∃ op ∈ ops, op.forwardsFor ops userId clientOrderId = true
  · rcases hany with ⟨op, hop, hforwardsFor⟩
    rcases forwardsFor_eq_true.mp hforwardsFor with ⟨k, hcarries, hforwards⟩
    rcases carries_eq_true.mp hcarries with ⟨call, hplace, huser, hid⟩
    rcases hsends k op hop hforwards with ⟨send, hcall⟩
    refine le_trans (List.countP_mono_left ?_) (htraced.writes k).1
    -- whatever else is forwarded comes from the same call
    intro op' hop' hforwardsFor'
    rcases forwardsFor_eq_true.mp hforwardsFor' with ⟨k', hcarries', hforwards'⟩
    rcases carries_eq_true.mp hcarries' with ⟨call', hplace', huser', hid'⟩
    rcases hsends k' op' hop' hforwards' with ⟨send', hcall'⟩
    have hk : k = k' := htraced.one k k' call call' send send' clientOrderId hplace hplace' hcall
      hcall' (huser.trans huser'.symm) hid hid'
    rwa [hk]
  · have hzero : ops.countP (Op.forwardsFor ops userId clientOrderId) = 0 := by
      rw [List.countP_eq_zero]
      intro op hop hforwards
      exact hany ⟨op, hop, hforwards⟩
    rw [hzero]
    exact Nat.zero_le 1

/-- The sell order of user 10, with a client order id. -/
def namedCall : PlaceCall :=
  { sellCall .limit with input := { (sellCall .limit).input with clientOrderId := some "a" } }

/-- Two calls pass the check before either inserts its order. The first is forwarded and times
out; the second fails to insert, and a third finds the order of the first. -/
def racingCalls : List Op :=
  [ .place 0 namedCall, .place 1 namedCall, .lookUp 0 .answered, .lookUp 1 .answered,
    .validate 0 .answered, .validate 1 .answered, .lock 1 .answered, .lock 0 .answered,
    .insert 0 1 .answered, .insert 1 2 .answered, .register 0, .write 0 (.fresh 0), .timeOut 0,
    .place 2 namedCall, .lookUp 2 .answered ]

theorem racing_calls_forward_once : ∃ s,
    run (step 10 exactMul) (start Server.emptyEngine fundedTables) racingCalls = some s ∧
    racingCalls.countP (Op.forwardsFor racingCalls 10 "a") = 1 := by
  have hends : (run (step 10 exactMul) (start Server.emptyEngine fundedTables)
      racingCalls).isSome = true := by decide +kernel
  rcases Option.isSome_iff_exists.mp hends with ⟨s, hrun⟩
  have hle := at_most_one_forwarded hrun 10 "a"
  have hpos : 0 < racingCalls.countP (Op.forwardsFor racingCalls 10 "a") := by decide +kernel
  exact ⟨s, hrun, by omega⟩

end System

end CryptoCex.Api
