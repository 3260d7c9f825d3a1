import CryptoCex.Api.Refund

/-!
# Responses and the requests they answer

The engine client finds the call that waits for a response by the request id in it. The id
comes from the caller of the API, and a handler uses one id for all its requests, so two calls
can be under way with the same id. The entry of the later one then takes the place of the
earlier one's, and the response to the earlier request goes to the later call
(`ack_of_another_user`).

A call is in flight while its entry is in the map of pending requests, its frame is about to be
written or is on a connection that the engine reads, or a response to it is on a connection
that the client reads. If no call registers an id that another call in flight has, then every
response goes to the call whose request it answers (`reply_of_own_request`).
-/

namespace CryptoCex.Api

open CryptoCex.Core (Decimal Uuid)
open Db (Tables)
open Machine (run Along)
open Proto (EngineOrder EngineRequest EngineResponse RejectResponse)
open Server (EngineState ResponseBundle ServerError)

/-! ## The engine answers with the id of the request -/

section Ids

variable {fuel : ℕ} {requestId : Uuid} {st st' : EngineState} {bundle : ResponseBundle}

/-- A refusal names the request it refuses. -/
theorem validateWireOrder_requestId {order : EngineOrder} {rejected : RejectResponse}
    (h : Server.validateWireOrder requestId order = some rejected) :
    rejected.requestId = requestId := by
  unfold Server.validateWireOrder at h
  split_ifs at h <;> cases h <;> rfl

/-- So does a rejection after the match. -/
theorem immediatePreReject_requestId {orderId : Uuid} {events : List Core.EngineEvent}
    {rejected : RejectResponse}
    (h : Server.immediatePreReject requestId orderId events = some rejected) :
    rejected.requestId = requestId := by
  rcases List.exists_of_findSome?_eq_some h with ⟨e, _, hpre⟩
  unfold Server.preRejectOf at hpre
  split at hpre
  · split_ifs at hpre
    split at hpre <;> cases hpre <;> rfl
  · cases hpre

/-- The response to a placement has its request id. -/
theorem placeOrder_responseId {order : EngineOrder}
    (h : st.placeOrder fuel requestId order = some (.ok bundle, st')) :
    responseId bundle.response = some requestId := by
  unfold EngineState.placeOrder at h
  split at h
  · next rejected hvalid =>
    cases h
    exact congrArg some (validateWireOrder_requestId hvalid)
  dsimp only at h
  -- a halted market, a failed append, a match that does not end
  split_ifs at h
  · cases h
    rfl
  split at h
  · cases h
  split at h
  · cases h
  split at h
  · -- a rejection after the match
    next rejected hpre =>
    cases h
    exact congrArg some (immediatePreReject_requestId hpre)
  · have hack := Option.some.inj h
    unfold EngineState.acknowledgePlace at hack
    dsimp only at hack
    split at hack
    · cases hack
    · cases hack
      rfl

/-- So has that to a cancel. -/
theorem cancelOrder_responseId {symbol : String} {orderId : Uuid}
    (h : st.cancelOrder requestId symbol orderId = (.ok bundle, st')) :
    responseId bundle.response = some requestId := by
  unfold EngineState.cancelOrder at h
  split at h
  · cases h
    rfl
  split_ifs at h
  · cases h
    rfl
  split at h
  · cases h
  split_ifs at h
  · cases h
    rfl
  dsimp only at h
  split at h
  · cases h
  · cases h
    rfl

/-- And that to a cancel-all. -/
theorem cancelAll_responseId {userId : Uuid} {symbol : Option String}
    (h : st.cancelAll requestId userId symbol = (.ok bundle, st')) :
    responseId bundle.response = some requestId := by
  unfold EngineState.cancelAll at h
  dsimp only at h
  split at h
  · cases h
  split at h
  · cases h
  · cases h
    rfl

theorem marketStatusResponse_responseId {symbol : String} {status : Proto.MarketStatus}
    (h : st.marketStatusResponse requestId symbol status = (.ok bundle, st')) :
    responseId bundle.response = some requestId := by
  unfold EngineState.marketStatusResponse at h
  split at h
  · cases h
  · cases h
    rfl

/-- Every response has the id of its request. -/
theorem handleRequest_responseId {request : EngineRequest}
    (h : st.handleRequest fuel request = some (.ok bundle, st')) :
    responseId bundle.response = some (requestIdOf request) := by
  cases request with
  | place requestId order => exact placeOrder_responseId h
  | cancel requestId symbol orderId => exact cancelOrder_responseId (Option.some.inj h)
  | cancelAll requestId userId symbol => exact cancelAll_responseId (Option.some.inj h)
  | haltMarket requestId symbol => exact marketStatusResponse_responseId (Option.some.inj h)
  | resumeMarket requestId symbol => exact marketStatusResponse_responseId (Option.some.inj h)
  | snapshot requestId symbol depth =>
    cases h
    rfl
  | ping requestId =>
    cases h
    rfl

end Ids

namespace System

variable {fuel : ℕ} {mul : Decimal → Decimal → Option Decimal} {s t : System}

/-! ## Calls in flight -/

/-- A response with the id of the call may still be on its way, or the call may still get the
response of another one with its id. -/
inductive InFlight (s : System) (k : ℕ) : Prop where
  | pending {id : Uuid} (h : s.pending.find? id = some k)
  | registered {send : Sending} (hcall : s.calls.find? k = some (.sending send))
      (hphase : send.phase = .registered)
  | frame {c : ℕ} {link : Link} {request : EngineRequest} (hlink : s.links.find? c = some link)
      (hserving : link.serving = true) (hframe : (k, request) ∈ link.requests)
  | answer {c : ℕ} {link : Link} {answer : Answer} (hlink : s.links.find? c = some link)
      (hreader : link.reader = .reading) (hanswer : answer ∈ link.responses)
      (hcall : answer.call = k)

/-- A call registers its request only when no other call in flight has the same id. -/
def Unshared (s : System) (op : Op) : Prop :=
  ∀ k, op = .register k → ∀ request conn, s.sentBy k = some (request, conn) →
    ∀ k' request' conn', s.sentBy k' = some (request', conn') →
      requestIdOf request' = requestIdOf request → InFlight s k' → k' = k

/-- The answer is the engine's response to the request of its call. -/
def Answers (fuel : ℕ) (s : System) (answer : Answer) : Prop :=
  ∃ e ∈ s.served, e.call = some answer.call ∧
    (∃ conn, s.sentBy answer.call = some (e.request, conn)) ∧
    ∃ bundle engine, e.before.handleRequest fuel e.request = some (.ok bundle, engine) ∧
      bundle.response = answer.response

/-- Requests and responses are where they belong. -/
structure Matched (fuel : ℕ) (s : System) : Prop where
  frames : ∀ c link, s.links.find? c = some link → ∀ f ∈ link.requests,
    ∃ conn, s.sentBy f.1 = some (f.2, conn)
  answers : ∀ c link, s.links.find? c = some link → ∀ a ∈ link.responses, Answers fuel s a
  pending : ∀ id k, s.pending.find? id = some k →
    ∃ request conn, s.sentBy k = some (request, conn) ∧ requestIdOf request = id
  alone : ∀ k k' request request' conn conn', s.sentBy k = some (request, conn) →
    s.sentBy k' = some (request', conn') → requestIdOf request = requestIdOf request' →
    InFlight s k → InFlight s k' → k = k'
  replies : ∀ k send a, s.calls.find? k = some (.sending send) → send.reply = some a →
    a.call = k ∧ Answers fuel s a

/-- An answer has the id of the request the call has sent. -/
theorem Answers.responseId {a : Answer} (h : Answers fuel s a) :
    ∃ request conn, s.sentBy a.call = some (request, conn) ∧
      Api.responseId a.response = some (requestIdOf request) := by
  rcases h with ⟨e, _, _, ⟨conn, hsent⟩, bundle, engine, hhandle, hresponse⟩
  refine ⟨e.request, conn, hsent, ?_⟩
  rw [← hresponse]
  exact handleRequest_responseId hhandle

/-- A call in flight has a request. -/
theorem Matched.sent (h : Matched fuel s) {k : ℕ} (hk : InFlight s k) :
    ∃ request conn, s.sentBy k = some (request, conn) := by
  cases hk with
  | pending hpending =>
    rcases h.pending _ k hpending with ⟨request, conn, hsent, _⟩
    exact ⟨request, conn, hsent⟩
  | registered hcall => exact ⟨_, _, sentBy_of_sending hcall⟩
  | frame hlink _ hframe =>
    rcases h.frames _ _ hlink _ hframe with ⟨conn, hsent⟩
    exact ⟨_, conn, hsent⟩
  | answer hlink _ hanswer hcall =>
    rcases (h.answers _ _ hlink _ hanswer).responseId with ⟨request, conn, hsent, _⟩
    exact ⟨request, conn, hcall ▸ hsent⟩

/-! ## Steps -/

theorem Moves.served {op : Op} (h : Moves fuel s op t) {e : Served} (he : e ∈ s.served) :
    e ∈ t.served := by
  cases h with
  | keeps hkeeps => exact hkeeps.served.symm ▸ he
  | prepares => exact he
  | writes _ _ hkeeps =>
    have hmid := hkeeps.served.symm ▸ he
    exact hmid
  | serves _ _ _ _ hhandle =>
    rcases handle_spec hhandle with ⟨engine, _, rfl⟩
    exact List.mem_append_left _ he
  | direct _ hhandle =>
    rcases handle_spec hhandle with ⟨engine, _, rfl⟩
    exact List.mem_append_left _ he

/-- An answer stays one. -/
theorem Answers.step {op : Op} {a : Answer} (h : Answers fuel s a) (hmoves : Moves fuel s op t) :
    Answers fuel t a := by
  rcases h with ⟨e, he, hcall, ⟨conn, hsent⟩, hhandle⟩
  exact ⟨e, hmoves.served he, hcall, hmoves.sentBy hsent, hhandle⟩

/-- A frame was there before, or its call has just written it. -/
theorem Moves.frame {op : Op} (h : Moves fuel s op t) {c : ℕ} {link' : Link}
    (hlink' : t.links.find? c = some link') {f : ℕ × EngineRequest} (hf : f ∈ link'.requests) :
    (∃ link, s.links.find? c = some link ∧ f ∈ link.requests ∧
      (link'.serving = true → link.serving = true)) ∨
    ∃ send, s.calls.find? f.1 = some (.sending send) ∧ send.phase = .registered ∧
      f.2 = send.request := by
  cases h with
  | keeps hkeeps =>
    rcases hkeeps.links c link' hlink' with ⟨link, hlink, hrequests, hserving⟩
    exact .inl ⟨link, hlink, hrequests ▸ hf, hserving⟩
  | prepares => exact .inl ⟨link', hlink', hf, id⟩
  | @writes k c₀ send link mid requests hcall hphase hkeeps hrequests hlink =>
    rw [setCall, setLink, OrdMap.find?_insert] at hlink'
    -- on the connection that is written the new frame comes last
    split_ifs at hlink' with heq
    · cases hlink'
      rw [hlink] at hf
      rcases List.mem_append.mp hf with hf | hf
      · rcases hrequests with ⟨_, rfl⟩ | ⟨old, hold, rfl, hsame⟩
        · cases hf
        · exact .inl ⟨old, heq ▸ hold, hf, fun hup => hsame ▸ hup⟩
      · cases List.mem_singleton.mp hf
        exact .inr ⟨send, hcall, hphase, rfl⟩
    · rcases hkeeps.links c link' hlink' with ⟨link₀, hlink₀, hrequests₀, hserving⟩
      exact .inl ⟨link₀, hlink₀, hrequests₀ ▸ hf, hserving⟩
  | serves hlink hserving hrequests hafter hhandle =>
    rcases handle_spec hhandle with ⟨engine, _, rfl⟩
    rw [setLink, OrdMap.find?_insert] at hlink'
    split_ifs at hlink' with heq
    · -- the engine has taken the first frame off
      cases hlink'
      rw [hafter] at hf
      exact .inl ⟨_, heq ▸ hlink, hrequests ▸ List.mem_cons_of_mem _ hf, fun _ => hserving⟩
    · exact .inl ⟨link', hlink', hf, id⟩
  | direct _ hhandle =>
    rcases handle_spec hhandle with ⟨engine, _, rfl⟩
    exact .inl ⟨link', hlink', hf, id⟩

/-- A response that the step has put on a connection. -/
structure Serves (fuel : ℕ) (s t : System) (c : ℕ) (a : Answer) (request : EngineRequest) :
    Prop where
  frame : ∃ link, s.links.find? c = some link ∧ link.serving = true ∧
    (a.call, request) ∈ link.requests
  served : ⟨some a.call, request, s.engine⟩ ∈ t.served
  response : ∃ bundle engine, s.engine.handleRequest fuel request = some (.ok bundle, engine) ∧
    bundle.response = a.response

/-- A response was there before, or the engine has just sent it. -/
theorem step_answer {op : Op} (h : s.step fuel mul op = some t) {c : ℕ} {link' : Link}
    (hlink' : t.links.find? c = some link') {a : Answer} (ha : a ∈ link'.responses) :
    (∃ link, s.links.find? c = some link ∧ a ∈ link.responses ∧
      (link'.reader = .reading → link.reader = .reading)) ∨
    ∃ request, Serves fuel s t c a request := by
  have hsame : t.links = s.links → ∃ link, s.links.find? c = some link ∧ a ∈ link.responses ∧
      (link'.reader = .reading → link.reader = .reading) := by
    intro hlinks
    exact ⟨link', hlinks ▸ hlink', ha, id⟩
  -- a step that writes one connection, with no new responses on it
  have hset : ∀ c₀ link₀ new, s.links.find? c₀ = some link₀ → t.links = s.links.insert c₀ new →
      (∀ a ∈ new.responses, a ∈ link₀.responses) →
      (new.reader = .reading → link₀.reader = .reading) →
      ∃ link, s.links.find? c = some link ∧ a ∈ link.responses ∧
        (link'.reader = .reading → link.reader = .reading) := by
    intro c₀ link₀ new hlink₀ hlinks hresponses hreader
    rw [hlinks, OrdMap.find?_insert] at hlink'
    split_ifs at hlink' with heq
    · cases hlink'
      exact ⟨link₀, heq ▸ hlink₀, hresponses a ha, hreader⟩
    · exact ⟨link', hlink', ha, id⟩
  by_cases hserve : ∃ c₀, op = .serve c₀
  · rcases hserve with ⟨c₀, rfl⟩
    simp only [step] at h
    split at h
    · next link₀ hlink₀ =>
      unfold serve at h
      split at h
      · next k request requests hserving hrequests =>
        rcases Option.map_eq_some_iff.mp h with ⟨⟨result, mid⟩, hhandle, hafter⟩
        rcases handle_spec hhandle with ⟨engine, hrequest, rfl⟩
        cases result with
        | error e =>
          cases hafter
          exact .inl (hset c₀ link₀ _ hlink₀ rfl (fun _ ha => ha) id)
        | ok bundle =>
          cases hafter
          change (s.links.insert c₀ _).find? c = some link' at hlink'
          rw [OrdMap.find?_insert] at hlink'
          split_ifs at hlink' with heq
          · cases hlink'
            rcases List.mem_append.mp ha with ha | ha
            · exact .inl ⟨link₀, heq ▸ hlink₀, ha, id⟩
            · cases List.mem_singleton.mp ha
              refine .inr ⟨request, ⟨link₀, heq ▸ hlink₀, hserving, ?_⟩, ?_, bundle, engine,
                hrequest, rfl⟩
              · rw [hrequests]
                exact List.mem_cons_self
              · exact List.mem_append_right _ (List.mem_singleton.mpr rfl)
          · exact .inl ⟨link', hlink', ha, id⟩
      · cases h
    · cases h
  · refine .inl ?_
    cases step_spec h with
    | idle => exact hsame rfl
    | prepared => exact hsame rfl
    | registered => exact hsame rfl
    | wrote _ _ hlink => exact hset _ _ _ hlink rfl (fun _ ha => ha) id
    | connected _ _ hlink =>
      rw [setCall, setLink, OrdMap.find?_insert] at hlink'
      split_ifs at hlink' with heq
      · cases hlink'
        cases ha
      · exact ⟨link', hlink', ha, id⟩
    | unwritten => exact hsame rfl
    | timedOut => exact hsame rfl
    | returned => exact hsame rfl
    | erred => exact hsame rfl
    | unlocked => exact hsame rfl
    | served => exact absurd ⟨_, rfl⟩ hserve
    | hungUp hlink => exact hset _ _ _ hlink rfl (fun _ ha => ha) id
    | @delivered c₀ link₀ answer responses hlink hreader hresponses =>
      refine hset c₀ link₀ { link₀ with responses := responses } hlink ?_ ?_ id
      · unfold deliver
        split
        · rfl
        split
        · rfl
        dsimp only
        split <;> rfl
      · intro a ha
        rw [hresponses]
        exact List.mem_cons_of_mem _ ha
    | readerStopped hlink =>
      refine hset _ _ _ hlink rfl (fun _ ha => ha) ?_
      intro hreading
      cases hreading
    | readerCleared hlink =>
      refine hset _ _ _ hlink rfl (fun _ ha => ha) ?_
      intro hreading
      cases hreading
    | direct hhandle =>
      rcases handle_spec hhandle with ⟨engine, _, rfl⟩
      exact hsame rfl
    | settled => exact hsame rfl

/-- An entry of the map was there before, or its call has just made it. -/
theorem Step.pending {op : Op} (h : Step fuel s op t) {id : Uuid} {k : ℕ}
    (hpending : t.pending.find? id = some k) :
    s.pending.find? id = some k ∨ op = .register k ∧ ∃ send,
      s.calls.find? k = some (.sending send) ∧ requestIdOf send.request = id := by
  have herase : ∀ id', (s.pending.erase id').find? id = some k → s.pending.find? id = some k := by
    intro id' hfind
    rw [OrdMap.find?_erase] at hfind
    split_ifs at hfind
    exact hfind
  cases h with
  -- the only step that makes an entry; the others keep or drop it
  | registered hcall =>
    change (s.pending.insert _ _).find? id = some k at hpending
    rw [OrdMap.find?_insert] at hpending
    split_ifs at hpending with heq
    · cases hpending
      exact .inr ⟨rfl, _, hcall, heq.symm⟩
    · exact .inl hpending
  | unwritten => exact .inl (herase _ hpending)
  | timedOut => exact .inl (herase _ hpending)
  | delivered =>
    refine .inl ?_
    unfold deliver at hpending
    split at hpending
    · exact hpending
    split at hpending
    · exact hpending
    dsimp only at hpending
    split at hpending <;> exact herase _ hpending
  | readerCleared => cases hpending
  | served responses serving hlink hserving hrequests hhandle =>
    rcases handle_spec hhandle with ⟨engine, _, rfl⟩
    exact .inl hpending
  | direct hhandle =>
    rcases handle_spec hhandle with ⟨engine, _, rfl⟩
    exact .inl hpending
  | idle | prepared | wrote | connected | returned | erred | unlocked | hungUp | readerStopped
  | settled => exact .inl hpending

/-- A call has just registered its request, or had done so before. -/
theorem Step.registered_call {op : Op} (h : Step fuel s op t) {k : ℕ} {send' : Sending}
    (hcall' : t.calls.find? k = some (.sending send')) (hphase' : send'.phase = .registered) :
    op = .register k ∨ ∃ send, s.calls.find? k = some (.sending send) ∧
      send.phase = .registered := by
  rcases h.call hcall' with ⟨_, request, lock, rfl⟩ | ⟨send, hcall, hevolves⟩
  · cases hphase'
  cases hevolves with
  | same => exact .inr ⟨send', hcall, hphase'⟩
  | registers hop => exact .inl hop
  | receives => exact .inr ⟨send, hcall, hphase'⟩
  | writes | unwritten | timesOut | returns | errs | unlocks => cases hphase'

/-- Only registering brings a call into flight. -/
theorem InFlight.before {op : Op} (hstep : s.step fuel mul op = some t) {k : ℕ}
    (hk : InFlight t k) : InFlight s k ∨ op = .register k := by
  have hspec := step_spec hstep
  cases hk with
  | pending hpending =>
    rcases hspec.pending hpending with hold | ⟨hop, _⟩
    · exact .inl (.pending hold)
    · exact .inr hop
  | registered hcall hphase =>
    rcases hspec.registered_call hcall hphase with hop | ⟨send, hold, hphase'⟩
    · exact .inr hop
    · exact .inl (.registered hold hphase')
  -- a frame is on its connection until the engine takes it
  | frame hlink hserving hframe =>
    rcases hspec.moves.frame hlink hframe with ⟨link, hold, hf, hup⟩ | ⟨send, hcall, hphase, _⟩
    · exact .inl (.frame hold (hup hserving) hf)
    · exact .inl (.registered hcall hphase)
  -- an answer is there until the reader delivers it
  | answer hlink hreader hanswer hcall =>
    rcases step_answer hstep hlink hanswer with ⟨link, hold, ha, hreading⟩ | ⟨request, hserves⟩
    · exact .inl (.answer hold (hreading hreader) ha hcall)
    · rcases hserves.frame with ⟨link, hold, hserving, hf⟩
      exact .inl (.frame hold hserving (hcall ▸ hf))

/-- Only a reader that still reads delivers. -/
theorem step_deliver_reading {c : ℕ} (h : s.step fuel mul (.deliver c) = some t) {link : Link}
    (hlink : s.links.find? c = some link) : link.reader = .reading := by
  simp only [step, hlink] at h
  split at h
  · assumption
  · cases h

theorem step_register_sends {op : Op} {k : ℕ} (h : s.step fuel mul op = some t)
    (hop : op = .register k) : ∃ request conn, s.sentBy k = some (request, conn) := by
  subst hop
  simp only [step] at h
  split at h
  · next send hcall => exact ⟨_, _, sentBy_of_sending hcall⟩
  · cases h

/-- A step that shares no id keeps answers and calls matched. -/
theorem Matched.step {op : Op} (h : Matched fuel s) (hok : Unshared s op)
    (hstep : s.step fuel mul op = some t) : Matched fuel t := by
  have hspec := step_spec hstep
  have hmoves := hspec.moves
  refine ⟨?_, ?_, ?_, ?_, ?_⟩
  · intro c link' hlink' f hf
    rcases hmoves.frame hlink' hf with ⟨link, hlink, hf', _⟩ | ⟨send, hcall, _, hrequest⟩
    · rcases h.frames c link hlink f hf' with ⟨conn, hsent⟩
      exact hmoves.sentBy hsent
    · rw [hrequest]
      exact hmoves.sentBy (sentBy_of_sending hcall)
  · intro c link' hlink' a ha
    rcases step_answer hstep hlink' ha with ⟨link, hlink, ha', _⟩ | ⟨request, hserves⟩
    · exact (h.answers c link hlink a ha').step hmoves
    · rcases hserves.frame with ⟨link, hlink, _, hf⟩
      rcases h.frames c link hlink _ hf with ⟨conn, hsent⟩
      rcases hserves.response with ⟨bundle, engine, hhandle, hresponse⟩
      exact ⟨_, hserves.served, rfl, hmoves.sentBy hsent, bundle, engine, hhandle, hresponse⟩
  · intro id k hpending
    rcases hspec.pending hpending with hold | ⟨_, send, hcall, hid⟩
    · rcases h.pending id k hold with ⟨request, conn, hsent, hid⟩
      rcases hmoves.sentBy hsent with ⟨conn', hsent'⟩
      exact ⟨request, conn', hsent', hid⟩
    · rcases hmoves.sentBy (sentBy_of_sending hcall) with ⟨conn', hsent'⟩
      exact ⟨send.request, conn', hsent', hid⟩
  · intro k k' request request' conn conn' hsent hsent' hid hk hk'
    -- a call that is in flight had its request before
    have hbefore : ∀ {k₀ request₀ conn₀}, (∃ request conn, s.sentBy k₀ = some (request, conn)) →
        t.sentBy k₀ = some (request₀, conn₀) → ∃ conn, s.sentBy k₀ = some (request₀, conn) := by
      intro k₀ request₀ conn₀ hsends hafter
      rcases hsends with ⟨request₁, conn₁, hsent₁⟩
      rcases hmoves.sentBy hsent₁ with ⟨conn₂, hsent₂⟩
      rw [hafter] at hsent₂
      cases hsent₂
      exact ⟨conn₁, hsent₁⟩
    rcases hk.before hstep with hold | hop
    · rcases hbefore (h.sent hold) hsent with ⟨conn₁, hsent₁⟩
      rcases hk'.before hstep with hold' | hop'
      · rcases hbefore (h.sent hold') hsent' with ⟨conn₂, hsent₂⟩
        exact h.alone k k' request request' conn₁ conn₂ hsent₁ hsent₂ hid hold hold'
      · rcases hbefore (step_register_sends hstep hop') hsent' with ⟨conn₂, hsent₂⟩
        exact hok k' hop' request' conn₂ hsent₂ k request conn₁ hsent₁ hid hold
    · rcases hbefore (step_register_sends hstep hop) hsent with ⟨conn₁, hsent₁⟩
      rcases hk'.before hstep with hold' | hop'
      · rcases hbefore (h.sent hold') hsent' with ⟨conn₂, hsent₂⟩
        exact (hok k hop request conn₁ hsent₁ k' request' conn₂ hsent₂ hid.symm hold').symm
      · rw [hop] at hop'
        cases hop'
        rfl
  · intro k send' a hcall' hreply
    rcases hspec.call hcall' with ⟨_, request, lock, rfl⟩ | ⟨send, hcall, hevolves⟩
    · cases hreply
    have hkept : send.reply = some a → a.call = k ∧ Answers fuel t a := by
      intro hold
      rcases h.replies k send a hcall hold with ⟨hown, hanswers⟩
      exact ⟨hown, hanswers.step hmoves⟩
    cases hevolves with
    | receives c link answer responses id hop hlink hresponses hid hpending =>
      cases hreply
      subst hop
      have hmem : a ∈ link.responses := hresponses ▸ List.mem_cons_self
      have hanswers := h.answers c link hlink a hmem
      refine ⟨?_, hanswers.step hmoves⟩
      -- the call of the answer and the one that waits are both in flight with this id
      rcases hanswers.responseId with ⟨request, conn, hsent, hid'⟩
      rcases h.pending id k hpending with ⟨request', conn', hsent', hsame⟩
      rw [hid] at hid'
      refine h.alone a.call k request request' conn conn' hsent hsent' ?_ ?_ (.pending hpending)
      · rw [hsame]
        exact (Option.some.inj hid').symm
      · exact .answer hlink (step_deliver_reading hstep hlink) hmem rfl
    | same => exact hkept hreply
    | registers => exact hkept hreply
    | writes => exact hkept hreply
    | unwritten => exact hkept hreply
    | timesOut => exact hkept hreply
    | returns => exact hkept hreply
    | errs => exact hkept hreply
    | unlocks => exact hkept hreply

/-! ## Runs -/

theorem Matched.start (fuel : ℕ) (engine : EngineState) (db : Tables) :
    Matched fuel (start engine db) := by
  refine ⟨?_, ?_, ?_, ?_, ?_⟩
  · intro c link hlink
    cases hlink
  · intro c link hlink
    cases hlink
  · intro id k hpending
    cases hpending
  · intro k k' request request' conn conn' hsent
    cases hsent
  · intro k send a hcall
    cases hcall

/-- In every run in which no call registers the id of another call in flight, the response that
`send` returns to a call is what the engine answered to the request of that call. -/
theorem reply_of_own_request {engine : EngineState} {db : Tables} {ops : List Op} {s : System}
    (hok : Along (step fuel mul) Unshared (start engine db) ops)
    (hrun : run (step fuel mul) (start engine db) ops = some s) {k : ℕ} {send : Sending}
    {a : Answer} (hcall : s.calls.find? k = some (.sending send)) (hreply : send.reply = some a) :
    ∃ e ∈ s.served, e.call = some k ∧ e.request = send.request ∧
      ∃ bundle engine', e.before.handleRequest fuel e.request = some (.ok bundle, engine') ∧
        bundle.response = a.response := by
  have hmatched : Matched fuel s := by
    refine Machine.run_invariant (Matched fuel) Unshared ?_ (.start fuel engine db) hok hrun
    intro mid op mid' hmid hunshared hstep
    exact hmid.step hunshared hstep
  rcases hmatched.replies k send a hcall hreply with ⟨hown, e, he, hserved, ⟨conn, hsent⟩, hhandle⟩
  rw [hown] at hserved hsent
  rw [sentBy_of_sending hcall] at hsent
  have hrequest : e.request = send.request := (Prod.mk.inj (Option.some.inj hsent)).1.symm
  exact ⟨e, he, hserved, hrequest, hhandle⟩

/-! ## Two users -/

/-- Users 10 and 20 each own 5 units of asset 1. -/
def sellersTables : Tables := Db.openingTables [((10, 1), ⟨5, 0⟩), ((20, 1), ⟨5, 0⟩)]

/-- User 20 places a sell order too, with the request id of user 10. -/
def otherCall : PlaceCall := { sellCall .limit with userId := 20 }

/-- Both calls register and write their requests; then the engine answers the first of them. -/
def sharedId : List Op :=
  sellUntilSent .limit ++
    [ .place 1 otherCall, .lookUp 1 .answered, .validate 1 .answered, .lock 1 .answered,
      .insert 1 2 .answered, .register 1, .write 1 .present, .serve 0, .deliver 0, .resolve 1 ]

/-- What the runs below show of a call: whether it has returned, the call whose response it got,
and the order that the response is about. -/
def replyView (s : System) (k : ℕ) : Option (Bool × Option (ℕ × Option Uuid)) :=
  match s.calls.find? k with
  | some (.sending send) => some (send.phase = .returned, send.reply.map fun a => (a.call,
      match a.response with
      | .ack _ (.order orderId _ _ _) => some orderId
      | _ => none))
  | _ => none

theorem sending_of_replyView {k : ℕ} {returned : Bool} {p : ℕ × Option Uuid}
    (h : s.replyView k = some (returned, some p)) :
    ∃ send a, s.calls.find? k = some (.sending send) ∧ send.reply = some a ∧
      decide (send.phase = .returned) = returned ∧ a.call = p.1 := by
  unfold replyView at h
  split at h
  · next send hcall =>
    simp only [Option.some.injEq, Prod.mk.injEq, Option.map_eq_some_iff] at h
    rcases h with ⟨hphase, a, hreply, hp⟩
    exact ⟨send, a, hcall, hreply, hphase, by rw [← hp]⟩
  · cases h

/-- The acknowledgement of user 10's order goes to user 20, whose call returns it; the engine
has not even read the request of that call. -/
theorem ack_of_another_user : ∃ s send a,
    run (step 10 exactMul) (start Server.emptyEngine sellersTables) sharedId = some s ∧
    s.calls.find? 1 = some (.sending send) ∧ send.phase = .returned ∧ send.reply = some a ∧
    a.call = 0 ∧ s.replyView 1 = some (true, some (0, some 1)) ∧
    ¬ ∃ e ∈ s.served, e.call = some 1 := by
  have hview : (run (step 10 exactMul) (start Server.emptyEngine sellersTables) sharedId).map
      (·.replyView 1) = some (some (true, some (0, some 1))) := by decide +kernel
  have hcalls : (run (step 10 exactMul) (start Server.emptyEngine sellersTables) sharedId).map
      (fun s => s.served.map fun e => e.call) = some [some 0] := by decide +kernel
  rcases Option.map_eq_some_iff.mp hview with ⟨s, hrun, hreply⟩
  rw [hrun] at hcalls
  have hserved : s.served.map (fun e => e.call) = [some 0] := Option.some.inj hcalls
  rcases sending_of_replyView hreply with ⟨send, a, hcall, hanswer, hphase, hown⟩
  refine ⟨s, send, a, hrun, hcall, of_decide_eq_true hphase, hanswer, hown, hreply, ?_⟩
  rintro ⟨e, he, hone⟩
  have hmem : e.call ∈ s.served.map (fun e => e.call) := List.mem_map.mpr ⟨e, he, rfl⟩
  rw [hserved, hone] at hmem
  simp at hmem

/-- A test of `Unshared`. -/
def checkUnshared (s : System) (op : Op) : Bool :=
  match op with
  | .register k => s.calls.entries.all fun e =>
      match e.2, s.sentBy k with
      | .sending send, some (request, _) =>
        e.1 = k || requestIdOf send.request ≠ requestIdOf request
      | _, _ => true
  | _ => true

/-- The check decides that no id is shared. -/
theorem unshared_of_check {op : Op} (h : checkUnshared s op = true) : Unshared s op := by
  rintro k rfl request conn hsent k' request' conn' hsent' hid _
  simp only [checkUnshared, List.all_eq_true] at h
  unfold sentBy at hsent'
  split at hsent'
  · next send hcall =>
    cases hsent'
    have hother := h (k', .sending send) (OrdMap.find?_eq_some.mp hcall)
    simp only [hsent, Bool.or_eq_true, decide_eq_true_eq] at hother
    rcases hother with heq | hne
    · exact heq
    · exact absurd hid hne
  · cases hsent'

/-- The same two calls under ids of their own: both requests are on the connection before the
engine reads the first, and user 20's call is the first to return. -/
def distinctIds : List Op :=
  sellUntilSent .limit ++
    [ .place 1 { otherCall with requestId := 8 }, .lookUp 1 .answered, .validate 1 .answered,
      .lock 1 .answered, .insert 1 2 .answered, .register 1, .write 1 .present, .serve 0, .serve 0,
      .deliver 0, .deliver 0, .resolve 1, .resolve 0 ]

/-- Each user gets the acknowledgement of its own order. -/
theorem ack_of_own_order : ∃ s,
    run (step 10 exactMul) (start Server.emptyEngine sellersTables) distinctIds = some s ∧
    s.replyView 0 = some (true, some (0, some 1)) ∧
    s.replyView 1 = some (true, some (1, some 2)) ∧
    ∀ k ∈ [0, 1], ∃ send a e, s.calls.find? k = some (.sending send) ∧ send.reply = some a ∧
      e ∈ s.served ∧ e.call = some k ∧ e.request = send.request := by
  have hview : (run (step 10 exactMul) (start Server.emptyEngine sellersTables) distinctIds).map
      (fun s => decide (s.replyView 0 = some (true, some (0, some 1)) ∧
        s.replyView 1 = some (true, some (1, some 2)))) = some true := by decide +kernel
  have hcheck : Machine.checkAlong (step 10 exactMul) checkUnshared
      (start Server.emptyEngine sellersTables) distinctIds = true := by decide +kernel
  obtain ⟨s, hrun, hreplies⟩ := Option.map_eq_some_iff.mp hview
  obtain ⟨hfirst, hsecond⟩ := of_decide_eq_true hreplies
  have hok := Machine.along_of_check (fun _ _ h => unshared_of_check h) hcheck
  -- each of the two answers is to the request of its call
  have hown : ∀ {k returned p}, s.replyView k = some (returned, some p) →
      ∃ send a e, s.calls.find? k = some (.sending send) ∧ send.reply = some a ∧
        e ∈ s.served ∧ e.call = some k ∧ e.request = send.request := by
    intro k returned p hreply
    obtain ⟨send, a, hcall, hanswer, _⟩ := sending_of_replyView hreply
    obtain ⟨e, he, hserved, hrequest, _⟩ := reply_of_own_request hok hrun hcall hanswer
    exact ⟨send, a, e, hcall, hanswer, he, hserved, hrequest⟩
  refine ⟨s, hrun, hfirst, hsecond, ?_⟩
  intro k hk
  rcases List.mem_pair.mp hk with rfl | rfl
  · exact hown hfirst
  · exact hown hsecond

end System

end CryptoCex.Api
