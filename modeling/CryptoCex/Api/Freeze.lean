import CryptoCex.Api.Correlation
import CryptoCex.Auth.Refresh
import CryptoCex.Server.CancelAll

/-!
# Freezing a user

`freeze_user` sets the status of the user, has the engine cancel all orders of the user and marks
them in the read model. `place_order` takes the user from the access token and does not look at
the status, so the user goes on to place orders (`frozen_user_trades`).

A freeze that has returned leaves the user without live orders if the engine takes up no order
of the user, other than those it declines, from its cancel-all on (`frozen_without_orders`). The
table of live orders must also lead the cancel-all to the user's orders, and the acknowledgement
must be that of its own request.
-/

namespace CryptoCex.Api

open Auth (AccountStatus)
open CryptoCex.Core (Decimal Order Uuid)
open Db (Tables)
open Machine (run Along)
open Proto (EngineRequest)
open Server (Declines EngineState Exchange ResponseBundle ServerError toCoreOrder)
open Server.EngineState (Fresh KnownAfter absent_of_handleRequest mem_placements
  nodup_placedIds_append placedIds placements)

/-! ## What the engine takes up -/

namespace System

variable {fuel : ℕ} {mul : Decimal → Decimal → Option Decimal} {s t : System} {drawn : List Uuid}
  {userId : Uuid}

/-- The request that the engine takes up in a step, with the call it comes from. -/
def next (s : System) : Op → Option (Option ℕ × EngineRequest)
  | .serve c =>
    match s.links.find? c with
    | some link => link.requests.head?.map fun f => (some f.1, f.2)
    | none => none
  | .direct request => some (none, request)
  | _ => none

/-- A step leaves the engine alone, or the engine takes up one request. -/
theorem Step.taken {op : Op} (h : Step fuel s op t) :
    t.engine = s.engine ∧ t.served = s.served ∨
      ∃ call request result, s.next op = some (call, request) ∧
        s.engine.handleRequest fuel request = some (result, t.engine) ∧
        t.served = s.served ++ [⟨call, request, s.engine⟩] := by
  cases h with
  | served responses serving hlink hserving hrequests hhandle =>
    rcases handle_spec hhandle with ⟨engine, hengine, rfl⟩
    refine .inr ⟨_, _, _, ?_, hengine, rfl⟩
    simp only [next, hlink, hrequests, List.head?_cons, Option.map_some]
  | direct hhandle =>
    rcases handle_spec hhandle with ⟨engine, hengine, rfl⟩
    exact .inr ⟨_, _, _, rfl, hengine, rfl⟩
  | delivered =>
    exact .inl ⟨(deliver_keeps _ _).engine, (deliver_keeps _ _).served⟩
  | idle | prepared | registered | wrote | connected | unwritten | timedOut | returned | erred
  | unlocked | hungUp | readerStopped | readerCleared | settled => exact .inl ⟨rfl, rfl⟩

/-- The next request of the engine is fresh. -/
theorem Flow.fresh_next (h : Flow drawn s) {op : Op} {call : Option ℕ} {request : EngineRequest}
    (hfresh : ∀ x ∈ op.drawn, x ∉ drawn) (hnext : s.next op = some (call, request)) :
    Fresh (s.served.map (·.request)) request := by
  unfold next at hnext
  split at hnext
  · split at hnext
    · next link hlink =>
      rcases Option.map_eq_some_iff.mp hnext with ⟨f, hhead, heq⟩
      cases heq
      exact h.fresh_frame hlink (List.mem_of_mem_head? hhead)
    · cases hnext
  · cases hnext
    refine h.fresh_drawn ?_ hfresh
    rintro requestId order rfl
    rfl
  · cases hnext

/-- Requests are where they belong, and orders are of those who placed them. -/
structure Kept (fuel : ℕ) (drawn : List Uuid) (s : System) : Prop where
  flow : Flow drawn s
  phased : Phased s
  matched : Matched fuel s
  owned : s.engine.exchange.Owned ((placements (s.served.map (·.request))).map toCoreOrder)
  nodup : (placedIds (s.served.map (·.request))).Nodup

theorem Kept.start {engine : EngineState} (fuel : ℕ) (db : Tables)
    (hempty : engine.exchange = Exchange.empty) : Kept fuel [] (start engine db) where
  flow := .start db hempty
  phased := by
    intro k send hcall
    cases hcall
  matched := .start fuel engine db
  owned := by
    show engine.exchange.Owned []
    rw [hempty]
    exact Exchange.owned_empty
  nodup := List.nodup_nil

/-- Every step that shares no id keeps the system. -/
theorem Kept.step {op : Op} (h : Kept fuel drawn s) (hok : Unshared s op)
    (hfresh : ∀ x ∈ op.drawn, x ∉ drawn) (hstep : s.step fuel mul op = some t) :
    Kept fuel (drawn ++ op.drawn) t := by
  have hspec := step_spec hstep
  have hengine : t.engine.exchange.Owned ((placements (t.served.map (·.request))).map toCoreOrder) ∧
      (placedIds (t.served.map (·.request))).Nodup := by
    rcases hspec.taken with ⟨hengine, hserved⟩ | ⟨call, request, result, hnext, hhandle, hserved⟩
    · rw [hengine, hserved]
      exact ⟨h.owned, h.nodup⟩
    · have hnew := h.flow.fresh_next hfresh hnext
      rw [hserved, List.map_append]
      exact ⟨Server.EngineState.handleRequest_owned h.flow.known h.owned hnew hhandle,
        nodup_placedIds_append h.nodup hnew⟩
  exact {
    flow := h.flow.step h.phased hfresh hspec
    phased := h.phased.step hspec
    matched := h.matched.step hok hstep
    owned := hengine.1
    nodup := hengine.2 }

theorem InFlight.of_withDb {db : Tables} {k : ℕ} (h : InFlight { s with db := db } k) :
    InFlight s k := by
  cases h with
  | pending hpending => exact .pending hpending
  | registered hcall hphase => exact .registered hcall hphase
  | frame hlink hserving hframe => exact .frame hlink hserving hframe
  | answer hlink hreader hanswer hcall => exact .answer hlink hreader hanswer hcall

/-- A statement on the tables moves no request. -/
theorem Kept.withDb (h : Kept fuel drawn s) (db : Tables) :
    Kept fuel drawn { s with db := db } where
  flow := h.flow.keeps (keeps_of_eq rfl rfl rfl rfl rfl)
  phased := h.phased
  matched := {
    frames := h.matched.frames
    answers := h.matched.answers
    pending := h.matched.pending
    alone := fun k k' request request' conn conn' hsent hsent' hid hk hk' =>
      h.matched.alone k k' request request' conn conn' hsent hsent' hid hk.of_withDb hk'.of_withDb
    replies := h.matched.replies }
  owned := h.owned
  nodup := h.nodup

/-! ### The orders of a user -/

/-- The engine has acknowledged the request of the call. -/
def Handled (fuel : ℕ) (s : System) (k : ℕ) : Prop :=
  ∃ e ∈ s.served, e.call = some k ∧ ∃ bundle engine,
    e.before.handleRequest fuel e.request = some (.ok bundle, engine)

/-- No order that the user has placed is in a book. -/
def Quiet (s : System) (userId : Uuid) : Prop :=
  ∀ e ∈ s.served, ∀ requestId order, e.request = .place requestId order →
    order.userId = userId → ∀ symbol, order.id ∉ (s.engine.bookOf symbol).toPool.ids

/-- The table of live orders and the OCO links lead to all live orders of the user. -/
def Listed (engine : EngineState) (userId : Uuid) : Prop :=
  ∀ symbol, ∀ o ∈ (engine.bookOf symbol).live, o.userId = userId →
    o.id ∈ engine.targets userId none symbol ∨ o.id ∈ engine.siblings userId none symbol

/-- A live order was placed by its user. -/
theorem Kept.placed (h : Kept fuel drawn s) {symbol : String} {o : Order}
    (ho : o ∈ (s.engine.bookOf symbol).live) :
    ∃ e ∈ s.served, ∃ requestId order, e.request = .place requestId order ∧
      order.id = o.id ∧ order.userId = o.userId := by
  rcases h.owned.orders symbol o (Server.mem_live_iff.mp ho) with ⟨w, hw, hid, huser⟩
  rcases List.mem_map.mp hw with ⟨order, horder, rfl⟩
  rcases mem_placements.mp horder with ⟨requestId, hmem⟩
  rcases List.mem_map.mp hmem with ⟨e, he, hreq⟩
  exact ⟨e, he, requestId, order, hreq, hid, huser⟩

/-- A user who is quiet has no live order. -/
theorem Quiet.no_live (h : Quiet s userId) (hkept : Kept fuel drawn s) {symbol : String}
    {o : Order} (ho : o ∈ (s.engine.bookOf symbol).live) : o.userId ≠ userId := by
  intro huser
  rcases hkept.placed ho with ⟨e, he, requestId, order, hreq, hid, howner⟩
  refine h e he requestId order hreq (howner.trans huser) symbol ?_
  rw [hid]
  exact Core.OrderBook.mem_ids_iff.mpr ⟨o, Server.mem_live_iff.mp ho, rfl⟩

/-- An order that was never placed is in no book. -/
theorem Flow.absent (h : Flow drawn s) {x : Uuid}
    (hx : x ∉ placedIds (s.served.map (·.request))) (symbol : String) :
    x ∉ (s.engine.bookOf symbol).toPool.ids := by
  refine (h.untouched x ?_).absent symbol
  intro e he requestId order hreq hid
  refine absurd ?_ hx
  rw [← hid]
  exact List.mem_map_of_mem (mem_placements.mpr ⟨requestId, hreq ▸ List.mem_map_of_mem he⟩)

/-- A user without live orders has none after a step in which the engine takes up no order of
the user but one it declines. -/
theorem Quiet.step {op : Op} {userId : Uuid} (h : Quiet s userId) (hkept : Kept fuel drawn s)
    (hfresh : ∀ x ∈ op.drawn, x ∉ drawn) (hstep : Step fuel s op t)
    (hdeclined : ∀ call requestId order, s.next op = some (call, .place requestId order) →
      order.userId = userId → Declines s.engine requestId order) : Quiet t userId := by
  rcases hstep.taken with ⟨hengine, hserved⟩ | ⟨call, request, result, hnext, hhandle, hserved⟩
  · unfold Quiet
    rw [hengine, hserved]
    exact h
  have hnew := hkept.flow.fresh_next hfresh hnext
  intro e he requestId order hreq huser symbol
  rw [hserved] at he
  rcases List.mem_append.mp he with hold | hlast
  · -- an order that was placed before is not placed again
    refine absent_of_handleRequest hkept.flow.known hnew (h e hold requestId order hreq huser) ?_
      hhandle symbol
    rintro requestId' order' rfl hid
    refine absurd ?_ (hnew requestId' order' rfl)
    rw [hid]
    exact List.mem_map_of_mem (mem_placements.mpr ⟨requestId, hreq ▸ List.mem_map_of_mem hold⟩)
  · cases List.mem_singleton.mp hlast
    obtain rfl : request = .place requestId order := hreq
    refine absent_of_handleRequest hkept.flow.known hnew
      (hkept.flow.absent (hnew requestId order rfl)) ?_ hhandle symbol
    rintro requestId' order' ⟨⟩ _
    exact hdeclined call requestId order hnext huser

/-- A cancel-all that is led to all live orders of the user leaves none of them. -/
theorem Kept.quiet_of_cancelAll {requestId userId : Uuid} {call : Option ℕ}
    {bundle : ResponseBundle} (hkept : Kept fuel drawn s) (hlisted : Listed s.engine userId)
    (hhandle : s.engine.handleRequest fuel (.cancelAll requestId userId none) =
      some (.ok bundle, t.engine))
    (hserved : t.served = s.served ++ [⟨call, .cancelAll requestId userId none, s.engine⟩]) :
    Quiet t userId := by
  have hunique := Server.EngineState.unique_placed hkept.nodup
  rcases Server.EngineState.cancelAll_takesOut hkept.flow.known hkept.owned hunique
    (Option.some.inj hhandle) with ⟨orderIds, seq, _, _, htakes⟩
  intro e he requestId' order hreq huser symbol hmem
  rw [hserved] at he
  rcases List.mem_append.mp he with hold | hlast
  · rcases Core.OrderBook.mem_ids_iff.mp hmem with ⟨o, ho, hid⟩
    rcases ((htakes.books symbol).mem_pool_iff o).mp ho with ⟨hbefore, hout⟩
    have hlive := Server.mem_live_iff.mpr hbefore
    -- the order in the book is the one that was placed, so it is of the user
    have howner : o.userId = userId := by
      rcases hkept.owned.orders symbol o hbefore with ⟨w, hw, hwid, hwuser⟩
      have hplaced : toCoreOrder order ∈
          (placements (s.served.map (·.request))).map toCoreOrder :=
        List.mem_map_of_mem (mem_placements.mpr ⟨requestId', hreq ▸ List.mem_map_of_mem hold⟩)
      have hsame : w = toCoreOrder order :=
        List.inj_on_of_nodup_map hunique hw hplaced (hwid.trans hid)
      rw [← hwuser, hsame]
      exact huser
    have hreached := (htakes.mem_iff symbol o.id
      (Core.OrderBook.mem_ids_iff.mpr ⟨o, hbefore, rfl⟩)).mpr (hlisted symbol o hlive howner)
    simp only [decide_eq_true_eq] at hout
    exact hout hreached
  · cases List.mem_singleton.mp hlast
    cases hreq

/-- What the engine takes up from a call is the request of the call. -/
theorem Kept.next_request (hkept : Kept fuel drawn s) {op : Op} {k : ℕ}
    {request request' : EngineRequest} {conn : Option ℕ}
    (hnext : s.next op = some (some k, request)) (hsent : s.sentBy k = some (request', conn)) :
    request = request' := by
  unfold next at hnext
  split at hnext
  · split at hnext
    · next link hlink =>
      rcases Option.map_eq_some_iff.mp hnext with ⟨f, hhead, heq⟩
      cases heq
      have hframe := hkept.flow.frames _ link hlink f (List.mem_of_mem_head? hhead)
      rw [hsent] at hframe
      cases hframe
      rfl
    · cases hnext
  · cases hnext
  · cases hnext

/-- A request that was handled stays handled. -/
theorem Handled.step {op : Op} {k : ℕ} (h : Handled fuel s k) (hstep : Step fuel s op t) :
    Handled fuel t k := by
  rcases h with ⟨e, he, hcall, hhandle⟩
  exact ⟨e, hstep.moves.served he, hcall, hhandle⟩

/-- A request has just been acknowledged, or had been before. -/
theorem Handled.before {op : Op} {k : ℕ} (h : Handled fuel t k) (hstep : Step fuel s op t) :
    Handled fuel s k ∨ ∃ request bundle, s.next op = some (some k, request) ∧
      s.engine.handleRequest fuel request = some (.ok bundle, t.engine) ∧
      t.served = s.served ++ [⟨some k, request, s.engine⟩] := by
  rcases h with ⟨e, he, hcall, bundle, engine, hhandled⟩
  rcases hstep.taken with ⟨hengine, hserved⟩ | ⟨call, request, result, hnext, hhandle, hserved⟩
  · rw [hserved] at he
    exact .inl ⟨e, he, hcall, bundle, engine, hhandled⟩
  · rw [hserved] at he
    rcases List.mem_append.mp he with hold | hlast
    · exact .inl ⟨e, hold, hcall, bundle, engine, hhandled⟩
    · cases List.mem_singleton.mp hlast
      obtain rfl : call = some k := hcall
      have hsame : some (result, t.engine) = some (Except.ok bundle, engine) :=
        hhandle.symm.trans hhandled
      cases hsame
      exact .inr ⟨request, bundle, hnext, hhandle, hserved⟩

end System

/-! ## The console of the administrators -/

/-- What the admin handlers read of a row of `users`. -/
structure User where
  isAdmin : Bool
  status : AccountStatus
deriving DecidableEq, Repr

inductive FreezeError where
  | forbidden
  | notFound
  | internal
  /-- The request to cancel the orders failed. -/
  | engine (failure : ApiError)
deriving DecidableEq, Repr

/-- What a call of `freeze_user` does next. -/
inductive FreezePhase where
  | ensuringAdmin
  | updatingStatus
  | cancelingAll
  /-- The request to cancel the orders is on its way. -/
  | awaiting
  | marking (orderIds : List Uuid)
  | auditing (orderIds : List Uuid)
  | succeeded (orderIds : List Uuid)
  | failed (error : FreezeError)
deriving DecidableEq, Repr

/-- A call of `freeze_user`. -/
structure Freeze where
  callerId : Uuid
  userId : Uuid
  requestId : Uuid
  phase : FreezePhase
  /-- The call that sends the request to cancel the orders. -/
  call : Option ℕ
  /-- History: the status is written, and the user was not made active since. -/
  standing : Bool
deriving DecidableEq, Repr

structure Console where
  api : System
  users : Uuid → Option User
  /-- The calls of `freeze_user` so far. -/
  freezes : List Freeze

inductive Action where
  /-- A step of the other handlers, the engine client or the engine. -/
  | api (op : Op)
  | freezeUser (callerId userId requestId : Uuid)
  /-- The call of `freeze_user` takes its next step that is not the request to the engine. -/
  | proceed (f : ℕ) (delivery : Tables.Delivery)
  /-- The call of `freeze_user` begins to send its request, as call `k`. -/
  | cancelAll (f k : ℕ)
  /-- The status of a user is changed otherwise. -/
  | setStatus (userId : Uuid) (status : AccountStatus)

/-- The order ids an action draws. -/
def Action.drawn : Action → List Uuid
  | .api op => op.drawn
  | _ => []

namespace Console

def start (engine : EngineState) (db : Tables) (users : Uuid → Option User) : Console where
  api := .start engine db
  users := users
  freezes := []

def setFreeze (s : Console) (f : ℕ) (freeze : Freeze) : Console :=
  { s with freezes := s.freezes.set f freeze }

/-- `ensure_admin`. -/
def ensureAdmin (s : Console) (callerId : Uuid) : Tables.Delivery → FreezePhase
  | .answered =>
    match s.users callerId with
    | some user =>
      if user.isAdmin ∧ user.status = .active then .updatingStatus else .failed .forbidden
    | none => .failed .forbidden
  | .refused | .lost => .failed .internal

/-- Sets the status of a user that is there. -/
def withStatus (users : Uuid → Option User) (userId : Uuid) (status : AccountStatus) :
    Uuid → Option User :=
  fun u => if u = userId then (users u).map fun user => { user with status := status } else users u

/-- `UPDATE users SET status = 'frozen' WHERE id = $1 AND status <> 'closed'`: whether a row was
updated, and the rows afterwards. -/
def freezeStatus (users : Uuid → Option User) (userId : Uuid) : Bool × (Uuid → Option User) :=
  match users userId with
  | some user =>
    if user.status = .closed then (false, users) else (true, withStatus users userId .frozen)
  | none => (false, users)

def updateStatus (s : Console) (f : ℕ) (freeze : Freeze) : Tables.Delivery → Console
  | .refused => s.setFreeze f { freeze with phase := .failed .internal }
  | .lost =>
    { s with users := (freezeStatus s.users freeze.userId).2 }.setFreeze f
      { freeze with phase := .failed .internal }
  | .answered =>
    if (freezeStatus s.users freeze.userId).1 then
      { s with users := (freezeStatus s.users freeze.userId).2 }.setFreeze f
        { freeze with phase := .cancelingAll, standing := true }
    else s.setFreeze f { freeze with phase := .failed .notFound }

/-- What `cancel_for_users` makes of the response of the engine; `none` while it waits. -/
def acknowledge (s : Console) (freeze : Freeze) : Option FreezePhase :=
  match freeze.call.bind s.api.calls.find? with
  | some (.sending send) =>
    match send.phase, send.reply with
    | .returned, some ⟨_, .ack _ (.cancelAll orderIds _)⟩ => some (.marking orderIds)
    | .failed error, _ => some (.failed (.engine error))
    | _, _ => none
  | _ => none

def markCanceled (s : Console) (f : ℕ) (freeze : Freeze) (orderIds : List Uuid)
    (delivery : Tables.Delivery) : Console :=
  if orderIds = [] then s.setFreeze f { freeze with phase := .auditing orderIds }
  else
    match delivery with
    | .refused => s.setFreeze f { freeze with phase := .failed .internal }
    | .lost =>
      { s with api := { s.api with db := s.api.db.markOrdersCanceled orderIds } }.setFreeze f
        { freeze with phase := .failed .internal }
    | .answered =>
      { s with api := { s.api with db := s.api.db.markOrdersCanceled orderIds } }.setFreeze f
        { freeze with phase := .auditing orderIds }

def insertAuditLog (orderIds : List Uuid) : Tables.Delivery → FreezePhase
  | .answered => .succeeded orderIds
  | .refused | .lost => .failed .internal

/-- The next step of a call of `freeze_user`. -/
def proceed (s : Console) (f : ℕ) (freeze : Freeze) (delivery : Tables.Delivery) :
    Option Console :=
  match freeze.phase with
  | .ensuringAdmin =>
    some (s.setFreeze f { freeze with phase := s.ensureAdmin freeze.callerId delivery })
  | .updatingStatus => some (s.updateStatus f freeze delivery)
  | .awaiting =>
    (s.acknowledge freeze).map fun phase => s.setFreeze f { freeze with phase := phase }
  | .marking orderIds => some (s.markCanceled f freeze orderIds delivery)
  | .auditing orderIds =>
    some (s.setFreeze f { freeze with phase := insertAuditLog orderIds delivery })
  | .cancelingAll | .succeeded _ | .failed _ => none

/-- One step; `none` where it is not enabled. -/
def step (fuel : ℕ) (mul : Decimal → Decimal → Option Decimal) (s : Console) :
    Action → Option Console
  | .api op => (s.api.step fuel mul op).map fun api => { s with api := api }
  | .freezeUser callerId userId requestId =>
    some { s with
      freezes := s.freezes ++ [⟨callerId, userId, requestId, .ensuringAdmin, none, false⟩] }
  | .proceed f delivery => s.freezes[f]?.bind fun freeze => s.proceed f freeze delivery
  | .cancelAll f k =>
    s.freezes[f]?.bind fun freeze =>
      if freeze.phase = .cancelingAll then
        (s.api.step fuel mul (.forward k (.cancelAll freeze.requestId freeze.userId none))).map
          fun api => { s with api := api }.setFreeze f
            { freeze with phase := .awaiting, call := some k }
      else none
  | .setStatus userId status =>
    some { s with
      users := withStatus s.users userId status
      freezes := s.freezes.map fun freeze =>
        if freeze.userId = userId ∧ status = .active then { freeze with standing := false }
        else freeze }

end Console

/-! ## Freezes in force -/

/-- Its request is not sent yet. -/
def FreezePhase.early : FreezePhase → Bool
  | .ensuringAdmin | .updatingStatus | .cancelingAll => true
  | .awaiting | .marking _ | .auditing _ | .succeeded _ | .failed _ => false

/-- The engine has acknowledged its request. -/
def FreezePhase.acknowledged : FreezePhase → Bool
  | .marking _ | .auditing _ | .succeeded _ => true
  | .ensuringAdmin | .updatingStatus | .cancelingAll | .awaiting | .failed _ => false

/-- The call has not failed, and its user was not made active since the status was written. -/
def Freeze.inForce (freeze : Freeze) : Bool :=
  match freeze.phase with
  | .failed _ => false
  | _ => freeze.standing

/-- A freeze that stands and was acknowledged is in force. -/
theorem Freeze.inForce_of_standing {freeze : Freeze} (h : freeze.standing = true)
    (hphase : freeze.phase.acknowledged = true) : freeze.inForce = true := by
  unfold inForce
  split
  · next error heq =>
    rw [heq] at hphase
    cases hphase
  · exact h

/-- For a freeze in force, the engine takes up the cancel-all when the table and the links lead
to all live orders of the user, and no order of the user that it does not decline once it has
acknowledged the cancel-all. -/
def Freeze.Obeyed (fuel : ℕ) (s : System) (op : Op) (freeze : Freeze) : Prop :=
  freeze.inForce = true → ∀ k, freeze.call = some k →
    ∀ call request, s.next op = some (call, request) →
      (call = some k → System.Listed s.engine freeze.userId) ∧
      (s.Handled fuel k → ∀ requestId order, request = .place requestId order →
        order.userId = freeze.userId → Declines s.engine requestId order)

/-- The freezes in force are obeyed, and no call registers the id of another call in flight. -/
def Console.Guarded (fuel : ℕ) (s : Console) : Action → Prop
  | .api op => s.api.Unshared op ∧ ∀ freeze ∈ s.freezes, freeze.Obeyed fuel s.api op
  | .freezeUser _ _ _ | .proceed _ _ | .cancelAll _ _ | .setStatus _ _ => True

/-- A call of `freeze_user` is where it says, and keeps its user quiet. -/
structure Freeze.Sound (fuel : ℕ) (s : System) (freeze : Freeze) : Prop where
  unsent : freeze.phase.early = true → freeze.call = none
  sent : ∀ k, freeze.call = some k →
    ∃ conn, s.sentBy k = some (.cancelAll freeze.requestId freeze.userId none, conn)
  handled : freeze.phase.acknowledged = true → ∃ k, freeze.call = some k ∧ s.Handled fuel k
  quiet : freeze.inForce = true → ∀ k, freeze.call = some k → s.Handled fuel k →
    s.Quiet freeze.userId

namespace Freeze

variable {fuel : ℕ} {mul : Decimal → Decimal → Option Decimal} {s t : System} {drawn : List Uuid}
  {freeze : Freeze}

/-- A step of the other handlers, the client or the engine. -/
theorem Sound.step {op : Op} (h : Sound fuel s freeze) (hkept : s.Kept fuel drawn)
    (hok : freeze.Obeyed fuel s op) (hfresh : ∀ x ∈ op.drawn, x ∉ drawn)
    (hstep : System.Step fuel s op t) : Sound fuel t freeze where
  unsent := h.unsent
  sent := by
    intro k hk
    rcases h.sent k hk with ⟨conn, hsent⟩
    exact hstep.moves.sentBy hsent
  handled := by
    intro hphase
    rcases h.handled hphase with ⟨k, hk, hhandled⟩
    exact ⟨k, hk, hhandled.step hstep⟩
  quiet := by
    intro hforce k hk hhandled
    rcases hhandled.before hstep with hold | ⟨request, bundle, hnext, hhandle, hserved⟩
    · refine (h.quiet hforce k hk hold).step hkept hfresh hstep ?_
      intro call requestId order hnext huser
      exact (hok hforce k hk call _ hnext).2 hold requestId order rfl huser
    · -- the request that was taken up is the cancel-all of this call
      rcases h.sent k hk with ⟨conn, hsent⟩
      have hrequest := hkept.next_request hnext hsent
      subst hrequest
      exact hkept.quiet_of_cancelAll ((hok hforce k hk _ _ hnext).1 rfl) hhandle hserved

end Freeze

/-! ## Steps of the console -/

/-- What a call of `freeze_user` keeps as it goes on. -/
structure Freeze.Follows (fuel : ℕ) (s : System) (freeze freeze' : Freeze) : Prop where
  userId : freeze'.userId = freeze.userId
  requestId : freeze'.requestId = freeze.requestId
  call : freeze'.call = freeze.call
  early : freeze'.phase.early = true → freeze.phase.early = true
  acknowledged : freeze'.phase.acknowledged = true → freeze.phase.acknowledged = true ∨
    ∃ k, freeze.call = some k ∧ s.Handled fuel k
  /-- It comes into force before its request is sent. -/
  inForce : freeze'.inForce = true → freeze.inForce = true ∨ freeze.phase.early = true

/-- A freeze that goes on stays sound. -/
theorem Freeze.Sound.follows {fuel : ℕ} {s : System} {freeze freeze' : Freeze}
    (h : Sound fuel s freeze) (hfollows : freeze.Follows fuel s freeze') :
    Sound fuel s freeze' where
  unsent := by
    intro hearly
    rw [hfollows.call]
    exact h.unsent (hfollows.early hearly)
  sent := by
    intro k hk
    rw [hfollows.requestId, hfollows.userId]
    exact h.sent k (hfollows.call ▸ hk)
  handled := by
    intro hphase
    rw [hfollows.call]
    rcases hfollows.acknowledged hphase with hold | hnew
    · exact h.handled hold
    · exact hnew
  quiet := by
    intro hforce k hk hhandled
    rw [hfollows.userId]
    rw [hfollows.call] at hk
    rcases hfollows.inForce hforce with hold | hearly
    · exact h.quiet hold k hk hhandled
    · rw [h.unsent hearly] at hk
      cases hk

theorem Freeze.Follows.fails {fuel : ℕ} {s : System} (freeze : Freeze) (error : FreezeError) :
    freeze.Follows fuel s { freeze with phase := .failed error } where
  userId := rfl
  requestId := rfl
  call := rfl
  early := by simp [FreezePhase.early]
  acknowledged := by simp [FreezePhase.acknowledged]
  inForce := by simp [Freeze.inForce]

namespace Console

variable {fuel : ℕ} {mul : Decimal → Decimal → Option Decimal} {s t : Console}
  {drawn : List Uuid} {freeze : Freeze}

/-- Only the acknowledgement of its own request lets a call go on. -/
theorem acknowledge_follows (hmatched : s.api.Matched fuel) {phase : FreezePhase}
    (hphase : freeze.phase = .awaiting) (h : s.acknowledge freeze = some phase) :
    freeze.Follows fuel s.api { freeze with phase := phase } := by
  unfold acknowledge at h
  split at h
  · next send hcall =>
    rcases Option.bind_eq_some_iff.mp hcall with ⟨k, hk, hfind⟩
    split at h
    · -- the acknowledgement answers the call's own request, so the engine has handled it
      next a requestId orderIds seq hreturned hreply =>
      cases h
      rcases hmatched.replies k send _ hfind hreply with ⟨hown, e, he, hserved, _, hhandle⟩
      rcases hhandle with ⟨bundle, engine, hhandle, _⟩
      refine ⟨rfl, rfl, rfl, by simp [FreezePhase.early], ?_, ?_⟩
      · intro _
        exact .inr ⟨k, hk, e, he, hown ▸ hserved, bundle, engine, hhandle⟩
      · intro hforce
        refine .inl ?_
        rw [Freeze.inForce, hphase]
        exact hforce
    · cases h
      exact .fails freeze _
    · -- any other answer ends the freeze with an error
      cases h
  · cases h

/-- A call takes a step of its own. -/
theorem proceed_spec (hmatched : s.api.Matched fuel) {f : ℕ} {delivery : Tables.Delivery}
    (h : s.proceed f freeze delivery = some t) :
    ∃ db users freeze', freeze.Follows fuel s.api freeze' ∧
      t = { s with api := { s.api with db := db }, users := users }.setFreeze f freeze' := by
  unfold proceed at h
  split at h
  · -- the caller must be an administrator
    next hphase =>
    cases h
    refine ⟨s.api.db, s.users, _, ?_, rfl⟩
    have hearly : freeze.phase.early = true := by rw [hphase]; rfl
    unfold ensureAdmin
    split
    · split
      · split_ifs
        · exact ⟨rfl, rfl, rfl, fun _ => hearly, by simp [FreezePhase.acknowledged],
            fun _ => .inr hearly⟩
        · exact .fails freeze _
      · exact .fails freeze _
    · exact .fails freeze _
    · exact .fails freeze _
  · -- the status of the user is written
    next hphase =>
    cases h
    have hearly : freeze.phase.early = true := by rw [hphase]; rfl
    unfold updateStatus
    split
    · exact ⟨s.api.db, s.users, _, .fails freeze _, rfl⟩
    · exact ⟨s.api.db, _, _, .fails freeze _, rfl⟩
    · split_ifs
      · refine ⟨s.api.db, _, _, ?_, rfl⟩
        exact ⟨rfl, rfl, rfl, fun _ => hearly, by simp [FreezePhase.acknowledged],
          fun _ => .inr hearly⟩
      · exact ⟨s.api.db, s.users, _, .fails freeze _, rfl⟩
  · -- the answer of the engine is taken up
    next hphase =>
    rcases Option.map_eq_some_iff.mp h with ⟨phase, hack, rfl⟩
    exact ⟨s.api.db, s.users, _, acknowledge_follows hmatched hphase hack, rfl⟩
  · next orderIds hphase =>
    cases h
    have hnext : freeze.Follows fuel s.api { freeze with phase := .auditing orderIds } := by
      refine ⟨rfl, rfl, rfl, by simp [FreezePhase.early], ?_, ?_⟩
      · intro _
        exact .inl (by rw [hphase]; rfl)
      · intro hforce
        exact .inl (by rw [Freeze.inForce, hphase]; exact hforce)
    unfold markCanceled
    split_ifs
    · exact ⟨s.api.db, s.users, _, hnext, rfl⟩
    · split
      · exact ⟨s.api.db, s.users, _, .fails freeze _, rfl⟩
      · exact ⟨_, s.users, _, .fails freeze _, rfl⟩
      · exact ⟨_, s.users, _, hnext, rfl⟩
  · next orderIds hphase =>
    cases h
    refine ⟨s.api.db, s.users, _, ?_, rfl⟩
    unfold insertAuditLog
    split
    · refine ⟨rfl, rfl, rfl, by simp [FreezePhase.early], ?_, ?_⟩
      · intro _
        exact .inl (by rw [hphase]; rfl)
      · intro hforce
        exact .inl (by rw [Freeze.inForce, hphase]; exact hforce)
    · exact .fails freeze _
    · exact .fails freeze _
  · cases h
  · cases h
  · cases h

/-- A call that has just begun to send its request. -/
theorem sound_cancelAll {s t : System} (h : s.Kept fuel drawn) {k : ℕ}
    (hstep : s.step fuel mul
      (.forward k (.cancelAll freeze.requestId freeze.userId none)) = some t) :
    Freeze.Sound fuel t { freeze with phase := .awaiting, call := some k } := by
  simp only [System.step] at hstep
  split_ifs at hstep with hnew
  cases hstep
  refine ⟨by simp [FreezePhase.early], ?_, by simp [FreezePhase.acknowledged], ?_⟩
  · rintro _ ⟨⟩
    exact ⟨none, by rw [System.sentBy_setCall, if_pos rfl]; rfl⟩
  · rintro _ _ ⟨⟩ ⟨e, he, hcall, _⟩
    -- the number of the call is new
    rcases h.flow.history e he k hcall with ⟨c, hsent⟩
    rw [System.sentBy, hnew.1] at hsent
    cases hsent

/-- The requests are where they belong, and so are the calls of `freeze_user`. -/
structure Ordered (fuel : ℕ) (drawn : List Uuid) (s : Console) : Prop where
  kept : s.api.Kept fuel drawn
  freezes : ∀ freeze ∈ s.freezes, freeze.Sound fuel s.api

theorem Ordered.start {engine : EngineState} (fuel : ℕ) (db : Tables)
    (users : Uuid → Option User) (hempty : engine.exchange = Exchange.empty) :
    Ordered fuel [] (start engine db users) where
  kept := .start fuel db hempty
  freezes := by
    intro freeze hfreeze
    cases hfreeze

theorem Ordered.setFreeze {freezes : List Freeze} {api : System} {users : Uuid → Option User}
    {f : ℕ} (hkept : api.Kept fuel drawn) (hold : ∀ freeze ∈ freezes, freeze.Sound fuel api)
    (hnew : freeze.Sound fuel api) :
    Ordered fuel drawn (setFreeze ⟨api, users, freezes⟩ f freeze) where
  kept := hkept
  freezes := by
    intro freeze' hmem
    rcases List.mem_or_eq_of_mem_set hmem with h | rfl
    · exact hold freeze' h
    · exact hnew

/-- Every guarded step keeps the freezes in order. -/
theorem Ordered.step {a : Action} (h : Ordered fuel drawn s) (hok : Guarded fuel s a)
    (hfresh : ∀ x ∈ a.drawn, x ∉ drawn) (hstep : s.step fuel mul a = some t) :
    Ordered fuel (drawn ++ a.drawn) t := by
  -- a step of the API keeps every freeze sound that it obeys
  have hmono : ∀ {op : Op} {api : System}, s.api.step fuel mul op = some api →
      (∀ freeze ∈ s.freezes, freeze.Obeyed fuel s.api op) → (∀ x ∈ op.drawn, x ∉ drawn) →
        ∀ freeze ∈ s.freezes, freeze.Sound fuel api := by
    intro op api hop hobeyed hnew freeze hfreeze
    exact (h.freezes freeze hfreeze).step h.kept (hobeyed freeze hfreeze) hnew
      (System.step_spec hop)
  have hnone : ∀ {op : Op}, s.api.next op = none →
      ∀ freeze ∈ s.freezes, freeze.Obeyed fuel s.api op := by
    intro op hnext freeze _ _ k _ call request htaken
    rw [hnext] at htaken
    cases htaken
  cases a with
  | api op =>
    rcases Option.map_eq_some_iff.mp hstep with ⟨api, hop, rfl⟩
    exact ⟨h.kept.step hok.1 hfresh hop, hmono hop hok.2 hfresh⟩
  | freezeUser callerId userId requestId =>
    cases hstep
    simp only [Action.drawn, List.append_nil]
    refine ⟨h.kept, ?_⟩
    intro freeze hfreeze
    rcases List.mem_append.mp hfreeze with hold | hnew
    · exact h.freezes freeze hold
    · cases List.mem_singleton.mp hnew
      exact ⟨fun _ => rfl, by simp, by simp [FreezePhase.acknowledged], by simp⟩
  | proceed f delivery =>
    rcases Option.bind_eq_some_iff.mp hstep with ⟨freeze, hfind, hproceed⟩
    rcases proceed_spec h.kept.matched hproceed with ⟨db, users, freeze', hfollows, rfl⟩
    simp only [Action.drawn, List.append_nil]
    have hbefore := h.freezes freeze (List.mem_of_getElem? hfind)
    refine .setFreeze (h.kept.withDb db) ?_ ?_
    · intro freeze₀ hfreeze₀
      have hold := h.freezes freeze₀ hfreeze₀
      exact ⟨hold.unsent, hold.sent, hold.handled, hold.quiet⟩
    · have hafter := hbefore.follows hfollows
      exact ⟨hafter.unsent, hafter.sent, hafter.handled, hafter.quiet⟩
  | cancelAll f k =>
    rcases Option.bind_eq_some_iff.mp hstep with ⟨freeze, hfind, hsend⟩
    split_ifs at hsend with hphase
    rcases Option.map_eq_some_iff.mp hsend with ⟨api, hop, rfl⟩
    have hkept := h.kept.step (by rintro _ ⟨⟩) (by simp [Op.drawn]) hop
    exact .setFreeze hkept (hmono hop (hnone rfl) (by simp [Op.drawn])) (sound_cancelAll h.kept hop)
  | setStatus userId status =>
    cases hstep
    simp only [Action.drawn, List.append_nil]
    refine ⟨h.kept, ?_⟩
    intro freeze hfreeze
    rcases List.mem_map.mp hfreeze with ⟨old, hold, rfl⟩
    have hbefore := h.freezes old hold
    split_ifs
    · have hfree : Freeze.inForce { old with standing := false } = false := by
        unfold Freeze.inForce
        split <;> rfl
      refine ⟨hbefore.unsent, hbefore.sent, hbefore.handled, ?_⟩
      intro hforce
      rw [hfree] at hforce
      cases hforce
    · exact hbefore

/-! ## Runs -/

/-- Once the call has returned with success, and until the user is made active again, no order
of the user is live. -/
def FreezeHolds (s : Console) (freeze : Freeze) : Prop :=
  ∀ orderIds, freeze.phase = .succeeded orderIds → freeze.standing = true →
    ∀ symbol, ∀ o ∈ (s.api.engine.bookOf symbol).live, o.userId ≠ freeze.userId

theorem Ordered.freezeHolds (h : Ordered fuel drawn s) (hfreeze : freeze ∈ s.freezes) :
    s.FreezeHolds freeze := by
  intro orderIds hphase hstanding symbol o ho
  have hsound := h.freezes freeze hfreeze
  have hacknowledged : freeze.phase.acknowledged = true := by rw [hphase]; rfl
  rcases hsound.handled hacknowledged with ⟨k, hk, hhandled⟩
  have hquiet := hsound.quiet (Freeze.inForce_of_standing hstanding hacknowledged) k hk hhandled
  exact hquiet.no_live h.kept ho

/-- Users that are frozen have no live orders, in every run in which the freezes in force are
obeyed and no call registers the id of another call in flight. -/
theorem frozen_without_orders {engine : EngineState} {db : Tables}
    {users : Uuid → Option User} {actions : List Action}
    (hempty : engine.exchange = Exchange.empty) (hids : (actions.flatMap Action.drawn).Nodup)
    (hok : Along (step fuel mul) (Guarded fuel) (start engine db users) actions)
    (hrun : run (step fuel mul) (start engine db users) actions = some s) :
    ∀ freeze ∈ s.freezes, s.FreezeHolds freeze := by
  have hordered : Ordered fuel (actions.flatMap Action.drawn) s := by
    refine Machine.run_induction (fun past s => Ordered fuel (past.flatMap Action.drawn) s)
      (fun past s a => Guarded fuel s a ∧ ∀ x ∈ a.drawn, x ∉ past.flatMap Action.drawn)
      ?_ (Ordered.start fuel db users hempty) ?_ hrun
    · rintro past mid a mid' _ hmid ⟨hguarded, hfresh⟩ hstep
      have hnext := hmid.step hguarded hfresh hstep
      simpa using hnext
    · rintro past a rest mid rfl hpast
      refine ⟨hok.at hpast, ?_⟩
      intro x hx hmem
      rw [List.flatMap_append, List.nodup_append] at hids
      refine hids.2.2 x hmem x ?_ rfl
      exact List.mem_append_left _ hx
  exact fun freeze hfreeze => hordered.freezeHolds hfreeze

/-! ## A frozen user -/

/-- User 1 is an administrator, and user 10 is not. -/
def consoleUsers : Uuid → Option User := fun u =>
  if u = 1 then some ⟨true, .active⟩ else if u = 10 then some ⟨false, .active⟩ else none

/-- User 1 freezes user 10; the request of the freeze is call 1, on connection 0. -/
def freezeSeller (outcome : WriteOutcome) : List Action :=
  [.freezeUser 1 10 8, .proceed 0 .answered, .proceed 0 .answered, .cancelAll 0 1,
    .api (.register 1), .api (.write 1 outcome), .api (.serve 0), .api (.deliver 0),
    .api (.resolve 1), .proceed 0 .answered, .proceed 0 .answered, .proceed 0 .answered]

/-- User 10 places a sell order on the connection that is there. -/
def sellOnPresent : List Op :=
  [.place 0 (System.sellCall .limit), .lookUp 0 .answered, .validate 0 .answered,
    .lock 0 .answered, .insert 0 1 .answered, .register 0, .write 0 .present, .serve 0]

/-- What the runs below show: the freezes, the status of user 10 and who has live orders. -/
def sellerView (s : Console) :
    List (Uuid × FreezePhase × Bool) × Option AccountStatus × List Uuid :=
  (s.freezes.map fun freeze => (freeze.userId, freeze.phase, freeze.standing),
    (s.users 10).map (·.status), (s.api.engine.bookOf "BTCUSDT").live.map (·.userId))

theorem freeze_of_sellerView {orderIds live : List Uuid} {status : Option AccountStatus}
    (h : s.sellerView = ([(10, .succeeded orderIds, true)], status, live)) :
    ∃ freeze ∈ s.freezes, freeze.userId = 10 ∧ freeze.phase = .succeeded orderIds ∧
      freeze.standing = true := by
  have hfreezes := congrArg Prod.fst h
  rcases List.map_eq_singleton_iff.mp hfreezes with ⟨freeze, hone, hseen⟩
  simp only [Prod.mk.injEq] at hseen
  exact ⟨freeze, by simp [hone], hseen⟩

/-- User 10 is frozen, and the call of `freeze_user` has returned with success; then the user
places an order as before, and it rests in the book. -/
theorem frozen_user_trades : ∃ s freeze,
    run (step 10 System.exactMul) (start Server.emptyEngine System.sellersTables consoleUsers)
      (freezeSeller (.fresh 0) ++ sellOnPresent.map .api) = some s ∧ freeze ∈ s.freezes ∧
    (s.users freeze.userId).map (·.status) = some .frozen ∧ ¬ s.FreezeHolds freeze := by
  have hview : (run (step 10 System.exactMul)
      (start Server.emptyEngine System.sellersTables consoleUsers)
      (freezeSeller (.fresh 0) ++ sellOnPresent.map .api)).map sellerView =
        some ([(10, .succeeded [], true)], some .frozen, [10]) := by decide +kernel
  rcases Option.map_eq_some_iff.mp hview with ⟨s, hrun, hseen⟩
  rcases freeze_of_sellerView hseen with ⟨freeze, hmem, huser, hphase, hstanding⟩
  simp only [sellerView, Prod.mk.injEq] at hseen
  refine ⟨s, freeze, hrun, hmem, huser.symm ▸ hseen.2.1, ?_⟩
  intro hholds
  rcases List.map_eq_singleton_iff.mp hseen.2.2 with ⟨o, hlive, howner⟩
  refine hholds [] hphase hstanding "BTCUSDT" o ?_ (howner.trans huser.symm)
  rw [hlive]
  exact List.mem_singleton_self o

/-- A test of `Guarded` for runs that place no order of a user whose freeze has begun to cancel. -/
def checkGuarded (s : Console) (a : Action) : Bool :=
  match a with
  | .api op =>
    System.checkUnshared s.api op && (s.api.next op).all fun taken =>
      s.freezes.all fun freeze =>
        (decide (taken.1 ≠ freeze.call) ||
          s.api.engine.books.entries.all fun e => e.2.live.all fun o =>
            decide (o.userId = freeze.userId →
              o.id ∈ s.api.engine.targets freeze.userId none e.1)) &&
        match taken.2 with
        | .place _ order => decide (freeze.call = none ∨ order.userId ≠ freeze.userId)
        | _ => true
  | .freezeUser _ _ _ | .proceed _ _ | .cancelAll _ _ | .setStatus _ _ => true

theorem listed_of_check {engine : EngineState} {userId : Uuid}
    (h : ∀ e ∈ engine.books.entries, ∀ o ∈ e.2.live, o.userId = userId →
      o.id ∈ engine.targets userId none e.1) : System.Listed engine userId := by
  intro symbol o ho huser
  cases hfind : engine.books.find? symbol with
  | none =>
    rw [EngineState.bookOf, hfind] at ho
    cases ho
  | some book =>
    rw [Server.EngineState.bookOf_of_find? hfind] at ho
    exact .inl (h (symbol, book) (OrdMap.find?_eq_some.mp hfind) o ho huser)

theorem guarded_of_check {a : Action} (h : checkGuarded s a = true) : Guarded fuel s a := by
  cases a with
  | api op =>
    rcases Bool.and_eq_true_iff.mp h with ⟨hunshared, htaken⟩
    refine ⟨System.unshared_of_check hunshared, ?_⟩
    intro freeze hfreeze _ k hk call request hnext
    rw [hnext, Option.all_some, List.all_eq_true] at htaken
    rcases Bool.and_eq_true_iff.mp (htaken freeze hfreeze) with ⟨hlisted, hforeign⟩
    -- the request of the freeze itself, and the requests of its user
    constructor
    · rintro rfl
      simp only [hk, ne_eq, not_true_eq_false, decide_false, Bool.false_or, List.all_eq_true,
        decide_eq_true_eq] at hlisted
      exact listed_of_check hlisted
    · rintro _ requestId order rfl huser
      rcases of_decide_eq_true hforeign with hnone | hne
      · rw [hk] at hnone
        cases hnone
      · exact absurd huser hne
  | freezeUser | proceed | cancelAll | setStatus => trivial

/-- User 10 has an order in the book when it is frozen. -/
def freezeWithOrder : List Action :=
  (System.sellUntilSent .limit ++ [Op.serve 0, .deliver 0]).map .api ++ freezeSeller .present

/-- The freeze takes the order out. -/
theorem freeze_cancels_order : ∃ s freeze,
    run (step 10 System.exactMul) (start Server.emptyEngine System.sellersTables consoleUsers)
      freezeWithOrder = some s ∧
    freeze ∈ s.freezes ∧ freeze.phase = .succeeded [1] ∧ s.FreezeHolds freeze := by
  have hview : (run (step 10 System.exactMul)
      (start Server.emptyEngine System.sellersTables consoleUsers)
      freezeWithOrder).map sellerView =
        some ([(10, .succeeded [1], true)], some .frozen, []) := by decide +kernel
  have htested : Machine.checkAlong (step 10 System.exactMul) checkGuarded
      (start Server.emptyEngine System.sellersTables consoleUsers)
      freezeWithOrder = true := by decide +kernel
  rcases Option.map_eq_some_iff.mp hview with ⟨s, hrun, hseen⟩
  rcases freeze_of_sellerView hseen with ⟨freeze, hmem, _, hphase, _⟩
  have hok : Along (step 10 System.exactMul) (Guarded 10)
      (start Server.emptyEngine System.sellersTables consoleUsers) freezeWithOrder :=
    Machine.along_of_check (fun _ _ hcheck => guarded_of_check hcheck) htested
  have hempty := Server.EngineState.exchange_open (Server.emptyEngine_open 10)
  have hholds := frozen_without_orders hempty (by decide) hok hrun freeze hmem
  exact ⟨s, freeze, hrun, hmem, hphase, hholds⟩

end Console

end CryptoCex.Api
