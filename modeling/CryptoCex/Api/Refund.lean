import CryptoCex.Api.Flow

/-!
# Refunds

When the engine does not acknowledge an order, `place_order` returns an error and releases
the lock it took for the order. It does so for every error of the client, also for those
that say nothing about the order: a timeout, a connection that is lost, or an answer that
belongs to another request with the same id. The engine may then hold the order, or get it
later (`refund_of_live_order`).

The refund is right if, when the call fails, the engine has declined the order or will
never read it (`Settled`). Then the order is in no book and in no fill from there on,
whatever happens next (`refunded_order_untouched`).
-/

namespace CryptoCex.Api

open CryptoCex.Core (Decimal Uuid)
open Db (Balance Tables)
open Proto (EngineOrder EngineRequest)
open Server (Declines EngineState Spares)
open Machine (run Along)

/-- The call has taken its error path with a lock: `unlock_balance` is about to run or has
run. -/
def Sending.Refunding (send : Sending) : Prop :=
  send.lock ≠ none ∧ ∃ error, send.phase = .failed error ∨ send.phase = .refunded error

namespace System

variable {fuel : ℕ} {mul : Decimal → Decimal → Option Decimal} {s t mid : System} {k : ℕ}
  {drawn : List Uuid}

/-- What becomes of the request of a call is settled: it is on no connection that the engine
still reads, and if the engine took it up, it declined the order. -/
structure Settled (s : System) (k : ℕ) : Prop where
  unreachable : ∀ c link, s.links.find? c = some link → link.serving = true →
    k ∉ link.requests.map Prod.fst
  declined : ∀ e ∈ s.served, e.call = some k → ∀ requestId order,
    e.request = .place requestId order → Declines e.before requestId order

/-- The step makes the call fail while it waits for its response. -/
def FailsWaiting (s : System) (k : ℕ) (op : Op) : Prop :=
  op = .timeOut k ∨ op = .resolve k ∧ ∃ send e, s.calls.find? k = some (.sending send) ∧
    s.resolution k send = some (some e)

/-- The call does not fail while it waits unless its request is settled. -/
def SettlesFirst (k : ℕ) (s : System) (op : Op) : Prop := FailsWaiting s k op → Settled s k

/-! ## Steps -/

/-- What the engine has settled stays settled. -/
theorem Settled.keeps (h : Settled s k) (hkeeps : Keeps s t) : Settled t k where
  unreachable := by
    intro c link' hlink' hserving
    rcases hkeeps.links c link' hlink' with ⟨link, hlink, hrequests, hup⟩
    rw [hrequests]
    exact h.unreachable c link hlink (hup hserving)
  declined := by
    rw [hkeeps.served]
    exact h.declined

/-- Once settled, a request stays so: only its own call could write it. -/
theorem Settled.moves {op : Op} (h : Settled s k) (hmoves : Moves fuel s op t)
    (hdone : ∀ send, s.calls.find? k = some (.sending send) → send.phase ≠ .registered) :
    Settled t k := by
  cases hmoves with
  | keeps hkeeps => exact h.keeps hkeeps
  | prepares => exact ⟨h.unreachable, h.declined⟩
  | @writes k' c send link mid requests hcall hphase hkeeps hrequests hlink =>
    have hne : k ≠ k' := by
      rintro rfl
      exact hdone send hcall hphase
    have hmid := h.keeps hkeeps
    refine ⟨?_, hmid.declined⟩
    intro c' found hfound hserving
    rw [setCall, setLink, OrdMap.find?_insert] at hfound
    split_ifs at hfound with heq
    · cases hfound
      rw [hlink, List.map_append, List.mem_append]
      rintro (hmem | hmem)
      · -- the frames that were there before
        rcases hrequests with ⟨_, rfl⟩ | ⟨old, hold, rfl, hsame⟩
        · cases hmem
        · exact h.unreachable c old hold (hsame ▸ hserving) hmem
      · exact hne (List.mem_singleton.mp hmem)
    · exact hmid.unreachable c' found hfound hserving
  | @serves c k' link link' request requests _ _ hlink hserving hrequests hafter hhandle =>
    rcases handle_spec hhandle with ⟨engine, _, rfl⟩
    have hfree := h.unreachable c link hlink hserving
    rw [hrequests, List.map_cons, List.mem_cons, not_or] at hfree
    constructor
    · intro c' found hfound hup
      rw [setLink, OrdMap.find?_insert] at hfound
      split_ifs at hfound with heq
      · cases hfound
        rw [hafter]
        exact hfree.2
      · exact h.unreachable c' found hfound hup
    · intro e he hcall
      rcases List.mem_append.mp he with he | he
      · exact h.declined e he hcall
      · cases List.mem_singleton.mp he
        exact absurd (Option.some.inj hcall).symm hfree.1
  | direct _ hhandle =>
    rcases handle_spec hhandle with ⟨engine, _, rfl⟩
    refine ⟨h.unreachable, ?_⟩
    intro e he hcall
    rcases List.mem_append.mp he with he | he
    · exact h.declined e he hcall
    · cases List.mem_singleton.mp he
      cases hcall

/-- A request that was never written is settled. -/
theorem Flow.settled_of_unwritten (h : Flow drawn s) (hk : s.Unwritten k) : Settled s k where
  unreachable := fun _ _ hlink _ => h.not_on_link hk hlink
  declined := fun e he hcall => absurd hcall (h.not_served hk e he)

/-- The requests of calls on their error path are settled. -/
def Refunds (k : ℕ) (s : System) : Prop :=
  ∀ send, s.calls.find? k = some (.sending send) → send.Refunding → Settled s k

/-- A step keeps the requests of failed calls settled. -/
theorem Refunds.step {op : Op} (h : Refunds k s) (hflow : Flow drawn s) (hphased : Phased s)
    (hok : SettlesFirst k s op) (hstep : Step fuel s op t) : Refunds k t := by
  rintro send' hcall' ⟨hlock, error, hphase'⟩
  rcases hstep.call hcall' with ⟨_, request, lock, rfl⟩ | ⟨send, hcall, hevolves⟩
  · simp [Sending.new] at hphase'
  -- what was settled before the step is settled after it
  have hkept : send.phase ≠ .registered → Settled s k → Settled t k := by
    intro hne hsettled
    refine hsettled.moves hstep.moves ?_
    intro send₀ hcall₀
    rw [hcall] at hcall₀
    cases hcall₀
    exact hne
  have hfailed : ∀ e, send.phase = .failed e ∨ send.phase = .refunded e → send.lock ≠ none →
      Settled t k := by
    intro e hphase hlock
    refine hkept ?_ (h send hcall ⟨hlock, e, hphase⟩)
    rcases hphase with hphase | hphase <;> simp [hphase]
  cases hevolves with
  | same => exact hfailed error hphase' hlock
  | receives => exact hfailed error hphase' hlock
  | unlocks _ e _ hphase => exact hfailed e (.inl hphase) hlock
  | unwritten hop hphase =>
    have hunwritten : t.Unwritten k := by
      intro r hr
      rw [sentBy_of_sending hcall'] at hr
      cases hr
      exact hphased k send hcall (.inr hphase)
    subst hop
    have hnext := hflow.step hphased (by simp [Op.drawn]) hstep
    exact hnext.settled_of_unwritten hunwritten
  | timesOut hop hphase => exact hkept (by simp [hphase]) (hok (.inl hop))
  | errs e hop hphase hanswer =>
    exact hkept (by simp [hphase]) (hok (.inr ⟨hop, send, e, hcall, hanswer⟩))
  | registers | writes | returns => simp at hphase'

/-- A call on its error path stays there, with its request settled. -/
theorem Settled.step {op : Op} {send : Sending} (h : Settled s k)
    (hcall : s.calls.find? k = some (.sending send)) (hrefund : send.Refunding)
    (hstep : Step fuel s op t) :
    Settled t k ∧ ∃ send', t.calls.find? k = some (.sending send') ∧ send'.Refunding ∧
      send'.request = send.request := by
  rcases hrefund with ⟨hlock, error, hphase⟩
  rcases hstep.call_next hcall with ⟨send', hcall', hevolves⟩
  constructor
  · refine h.moves hstep.moves ?_
    intro send₀ hcall₀
    rw [hcall] at hcall₀
    cases hcall₀
    rcases hphase with hphase | hphase <;> simp [hphase]
  · refine ⟨send', hcall', ?_⟩
    cases hevolves with
    | same => exact ⟨⟨hlock, error, hphase⟩, rfl⟩
    | receives => exact ⟨⟨hlock, error, hphase⟩, rfl⟩
    | unlocks _ e => exact ⟨⟨hlock, e, .inr rfl⟩, rfl⟩
    | registers _ h' | writes _ _ _ h' | unwritten _ h' | timesOut _ h' | returns _ h'
    | errs _ _ h' => rcases hphase with hphase | hphase <;> simp [hphase] at h'

/-- The order of a settled request is in no book and in no fill. -/
theorem Settled.untouched {send : Sending} {requestId : Uuid} {order : EngineOrder}
    (h : Settled s k) (hflow : Flow drawn s) (hcall : s.calls.find? k = some (.sending send))
    (hreq : send.request = .place requestId order) :
    EngineState.Untouched order.id s.engine s.fills := by
  refine hflow.untouched order.id ?_
  intro e he requestId' order' hplaces hid
  have howner : s.Owns (some k) order.id :=
    ⟨requestId, order, send.conn, hreq ▸ sentBy_of_sending hcall, rfl⟩
  have hserved := hflow.owns_served he hplaces
  rw [hid] at hserved
  exact h.declined e he (hflow.unique _ _ _ hserved howner) requestId' order' hplaces

/-! ## Runs -/

/-- So does a run, if no call fails before its request is settled. -/
theorem refunds_of_run {engine : EngineState} {db : Tables}
    (hempty : engine.exchange = Server.Exchange.empty) {ops : List Op}
    (hids : (drawnIds ops).Nodup)
    (hsettles : Along (step fuel mul) (SettlesFirst k) (start engine db) ops)
    (hrun : run (step fuel mul) (start engine db) ops = some s) : Refunds k s := by
  refine Machine.run_induction (fun _ s => Refunds k s)
    (fun past s op => SettlesFirst k s op ∧ (drawnIds past).Nodup) ?_ ?_ ?_ hrun
  · rintro past mid op mid' hpast hrefunds ⟨hok, hnodup⟩ hstep
    rcases flow_of_run hempty hnodup hpast with ⟨hflow, hphased⟩
    exact hrefunds.step hflow hphased hok (step_spec hstep)
  · intro send hcall
    cases hcall
  · rintro past op rest mid rfl hpast
    rw [drawnIds_append] at hids
    exact ⟨hsettles.at hpast, hids.of_append_left⟩

/-- A settled order stays so from the refund on. -/
theorem settled_of_run {send : Sending} (h : Settled s k)
    (hcall : s.calls.find? k = some (.sending send)) (hrefund : send.Refunding) {ops : List Op}
    (hrun : run (step fuel mul) s ops = some t) :
    Settled t k ∧ ∃ send', t.calls.find? k = some (.sending send') ∧ send'.Refunding ∧
      send'.request = send.request := by
  refine Machine.run_induction (fun _ t => Settled t k ∧ ∃ send',
    t.calls.find? k = some (.sending send') ∧ send'.Refunding ∧ send'.request = send.request)
    (fun _ _ _ => True) ?_ ⟨h, send, hcall, hrefund, rfl⟩ (fun _ _ _ _ _ _ => trivial) hrun
  rintro _ mid op mid' _ ⟨hsettled, send', hcall', hrefund', hreq⟩ _ hstep
  rcases hsettled.step hcall' hrefund' (step_spec hstep) with
    ⟨hnext, send'', hcall'', hrefund'', hreq'⟩
  exact ⟨hnext, send'', hcall'', hrefund'', hreq'.trans hreq⟩

/-- A lock is not released for an order that is live, will be live or has a fill, if the
request is settled whenever the call fails while it waits. -/
theorem refunded_order_untouched {idSource : Stream' Uuid} {clock : Stream' String}
    {disk : Stream' Bool} {snapshotDepth : ℕ} {engine : EngineState} {db : Tables}
    (hopen : EngineState.open fuel [] [] idSource clock disk snapshotDepth = some engine)
    {ops later : List Op} (hids : (drawnIds (ops ++ later)).Nodup)
    (hrun : run (step fuel mul) (start engine db) ops = some mid)
    (hsettles : Along (step fuel mul) (SettlesFirst k) (start engine db) ops)
    {send : Sending} (hcall : mid.calls.find? k = some (.sending send)) (hrefund : send.Refunding)
    {requestId : Uuid} {order : EngineOrder} (hreq : send.request = .place requestId order)
    (hlater : run (step fuel mul) mid later = some t) :
    (∀ symbol, order.id ∉ (t.engine.bookOf symbol).live.map (·.id)) ∧
      ∀ f ∈ t.fills, Spares order.id f := by
  have hempty := EngineState.exchange_open hopen
  have hwhole : run (step fuel mul) (start engine db) (ops ++ later) = some t := by
    rw [Machine.run_append, hrun]
    exact hlater
  have hbefore : (drawnIds ops).Nodup := by
    rw [drawnIds_append] at hids
    exact hids.of_append_left
  have hsettled := refunds_of_run hempty hbefore hsettles hrun send hcall hrefund
  rcases settled_of_run hsettled hcall hrefund hlater with ⟨hend, send', hcall', _, hsame⟩
  have huntouched := hend.untouched (flow_of_run hempty hids hwhole).1 hcall' (hsame.trans hreq)
  refine ⟨?_, huntouched.unfilled⟩
  intro symbol hlive
  refine huntouched.absent symbol ?_
  rw [Core.ids_toPool, Multiset.mem_coe]
  exact hlive

/-! ## Two calls -/

/-- The order a call has taken its error path for, with a lock. -/
def refundedOrder (s : System) (k : ℕ) : Option EngineOrder :=
  match s.calls.find? k with
  | some (.sending send) =>
    match send.request, send.lock, send.phase with
    | .place _ order, some _, .failed _ => some order
    | .place _ order, some _, .refunded _ => some order
    | _, _, _ => none
  | _ => none

theorem refunding_of_refundedOrder {order : EngineOrder} (h : s.refundedOrder k = some order) :
    ∃ send requestId, s.calls.find? k = some (.sending send) ∧ send.Refunding ∧
      send.request = .place requestId order := by
  unfold refundedOrder at h
  split at h
  · next send hcall =>
    split at h
    · next requestId order' lock error hreq hlock hphase =>
      cases h
      exact ⟨send, requestId, hcall, ⟨by simp [hlock], error, .inl hphase⟩, hreq⟩
    · next requestId order' lock error hreq hlock hphase =>
      cases h
      exact ⟨send, requestId, hcall, ⟨by simp [hlock], error, .inr hphase⟩, hreq⟩
    · cases h
  · cases h

/-- User 10 owns 5 units of asset 1, the base asset of the market. -/
def fundedTables : Tables := Db.openingTables [((10, 1), ⟨5, 0⟩)]

/-- User 10 sells one unit at 100. -/
def sellCall (orderType : Proto.EngineOrderType) : PlaceCall where
  requestId := 7
  userId := 10
  input := {
    clientOrderId := none
    symbol := "BTCUSDT"
    side := .sell
    orderType := orderType
    price := some (100 * 10 ^ 28)
    stopPrice := none
    quantity := some (10 ^ 28)
    quoteQuantity := none
    displayQuantity := none }

/-- The call up to the write of its request, as order 1 on connection 0. -/
def sellUntilSent (orderType : Proto.EngineOrderType) : List Op :=
  [.place 0 (sellCall orderType), .lookUp 0 .answered, .validate 0 .answered, .lock 0 .answered,
    .insert 0 1 .answered, .register 0, .write 0 (.fresh 0)]

/-- Exact products; sell orders need none. -/
def exactMul (a b : Decimal) : Option Decimal := some (a * b / 10 ^ 28)

def refundView (s : System) : Option Uuid × Bool × Option Balance :=
  ((s.refundedOrder 0).map (·.id), decide (1 ∈ (s.engine.bookOf "BTCUSDT").live.map (·.id)),
    s.db.balances (10, 1))

/-- The response does not come in time, so the lock is released; then the engine reads the
request, and the order rests in its book. -/
theorem refund_of_live_order : ∃ mid t send requestId order,
    run (step 10 exactMul) (start Server.emptyEngine fundedTables)
        (sellUntilSent .limit ++ [.timeOut 0, .unlock 0 .answered]) = some mid ∧
      mid.calls.find? 0 = some (.sending send) ∧ send.Refunding ∧
      send.request = .place requestId order ∧
      run (step 10 exactMul) mid [.serve 0] = some t ∧
      ¬ ((∀ symbol, order.id ∉ (t.engine.bookOf symbol).live.map (·.id)) ∧
        ∀ f ∈ t.fills, Spares order.id f) := by
  have hfirst : (run (step 10 exactMul) (start Server.emptyEngine fundedTables)
      (sellUntilSent .limit ++ [.timeOut 0, .unlock 0 .answered])).map refundView =
        some (some 1, false, some ⟨5, 0⟩) := by decide +kernel
  have hboth : (run (step 10 exactMul) (start Server.emptyEngine fundedTables)
      (sellUntilSent .limit ++ [.timeOut 0, .unlock 0 .answered] ++ [.serve 0])).map refundView =
        some (some 1, true, some ⟨5, 0⟩) := by decide +kernel
  rcases Option.map_eq_some_iff.mp hfirst with ⟨mid, hmid, hview⟩
  rcases Option.map_eq_some_iff.mp hboth with ⟨t, ht, hview'⟩
  rw [Machine.run_append, hmid] at ht
  simp only [refundView, Prod.mk.injEq, Option.map_eq_some_iff, decide_eq_true_eq] at hview hview'
  rcases hview.1 with ⟨order, horder, hid⟩
  rcases refunding_of_refundedOrder horder with ⟨send, requestId, hcall, hrefund, hreq⟩
  refine ⟨mid, t, send, requestId, order, hmid, hcall, hrefund, hreq, ht, ?_⟩
  rintro ⟨hgone, _⟩
  refine hgone "BTCUSDT" ?_
  rw [hid]
  exact hview'.2.1

/-- A test of `SettlesFirst` for requests that the engine refuses without a match. -/
def checkSettled (k : ℕ) (s : System) (op : Op) : Bool :=
  match op with
  | .timeOut _ => false
  | .resolve _ =>
    (s.links.entries.all fun e => !(e.2.requests.map Prod.fst).contains k) &&
      s.served.all fun e =>
        match e.request with
        | .place _ order => (e.before.bookOf order.symbol).preCheck (Server.toCoreOrder order) |>.isSome
        | _ => true
  | _ => true

theorem settlesFirst_of_check {op : Op} (h : checkSettled k s op = true) : SettlesFirst k s op := by
  rintro (rfl | ⟨rfl, _⟩)
  · cases h
  · simp only [checkSettled, Bool.and_eq_true, List.all_eq_true] at h
    constructor
    · intro c link hlink _ hmem
      have hfree := h.1 (c, link) (OrdMap.find?_eq_some.mp hlink)
      simp only [Bool.not_eq_true', List.contains_eq_mem, decide_eq_false_iff_not] at hfree
      exact hfree hmem
    · intro e he _ requestId order hreq
      have hpre := h.2 e he
      rw [hreq] at hpre
      exact .prechecked (Option.isSome_iff_ne_none.mp hpre)

/-- A fill-or-kill order that the empty book cannot fill is rejected, and the lock released. -/
theorem refund_of_rejected_order : ∃ mid send requestId order,
    run (step 10 exactMul) (start Server.emptyEngine fundedTables)
        (sellUntilSent .fok ++ [.serve 0, .deliver 0, .resolve 0, .unlock 0 .answered]) =
          some mid ∧
      mid.calls.find? 0 = some (.sending send) ∧ send.Refunding ∧
      send.request = .place requestId order ∧
      (∀ symbol, order.id ∉ (mid.engine.bookOf symbol).live.map (·.id)) ∧
      ∀ f ∈ mid.fills, Spares order.id f := by
  have hview : (run (step 10 exactMul) (start Server.emptyEngine fundedTables)
      (sellUntilSent .fok ++ [.serve 0, .deliver 0, .resolve 0, .unlock 0 .answered])).map
        refundView = some (some 1, false, some ⟨5, 0⟩) := by decide +kernel
  have hcheck : Machine.checkAlong (step 10 exactMul) (checkSettled 0)
      (start Server.emptyEngine fundedTables)
      (sellUntilSent .fok ++ [.serve 0, .deliver 0, .resolve 0, .unlock 0 .answered]) = true := by
    decide +kernel
  rcases Option.map_eq_some_iff.mp hview with ⟨mid, hmid, hseen⟩
  simp only [refundView, Prod.mk.injEq, Option.map_eq_some_iff] at hseen
  rcases hseen.1 with ⟨order, horder, hid⟩
  rcases refunding_of_refundedOrder horder with ⟨send, requestId, hcall, hrefund, hreq⟩
  have hsettles := Machine.along_of_check (fun _ _ h => settlesFirst_of_check h) hcheck
  have hids : (drawnIds (sellUntilSent .fok ++
      [.serve 0, .deliver 0, .resolve 0, .unlock 0 .answered] ++ [])).Nodup := by decide
  have hend := refunded_order_untouched (Server.emptyEngine_open 10) hids hmid hsettles hcall
    hrefund hreq rfl
  exact ⟨mid, send, requestId, order, hmid, hcall, hrefund, hreq, hend⟩

end System

end CryptoCex.Api
