import CryptoCex.Api.System

/-!
# Requests on their way to the engine

A request that a call writes is on one connection once, or was taken up by the engine once,
or is lost (`Flow`). So the engine never places an order twice, and what it makes of an
order is decided in the one state in which it took the order up: an order that it declined
there is in no book and in no fill ever after (`Flow.untouched`).

This needs the ids of the orders to be distinct. They are drawn at random by `place_order`
and by the other clients of the engine.
-/

namespace CryptoCex.Api

open CryptoCex.Core (Decimal Uuid)
open Db (Balance Tables)
open Proto (EngineOrder EngineRequest)
open Server (Declines EngineState ResponseBundle ServerError)
open Server.EngineState (Fresh KnownAfter Untouched)

/-- The order ids a step draws. -/
def Op.drawn : Op → List Uuid
  | .insert _ orderId _ => [orderId]
  | .direct (.place _ order) => [order.id]
  | _ => []

/-- The order ids drawn in a run. -/
def drawnIds (ops : List Op) : List Uuid := ops.flatMap Op.drawn

theorem drawnIds_append (ops ops' : List Op) :
    drawnIds (ops ++ ops') = drawnIds ops ++ drawnIds ops' :=
  List.flatMap_append

namespace System

variable {fuel : ℕ} {mul : Decimal → Decimal → Option Decimal} {s t : System}

/-- The request of a call and the connection it was written on. -/
def sentBy (s : System) (k : ℕ) : Option (EngineRequest × Option ℕ) :=
  match s.calls.find? k with
  | some (.sending send) => some (send.request, send.conn)
  | _ => none

theorem sentBy_of_sending {k : ℕ} {send : Sending} (h : s.calls.find? k = some (.sending send)) :
    s.sentBy k = some (send.request, send.conn) := by
  rw [sentBy, h]

theorem sentBy_eq_none {k : ℕ} (h : ∀ send, s.calls.find? k ≠ some (.sending send)) :
    s.sentBy k = none := by
  unfold sentBy
  split
  · next hcall => exact absurd hcall (h _)
  · rfl

theorem sentBy_setCall (s : System) (k : ℕ) (call : Call) (k' : ℕ) :
    (s.setCall k call).sentBy k' =
      if k' = k then
        match call with
        | .sending send => some (send.request, send.conn)
        | _ => none
      else s.sentBy k' := by
  unfold sentBy setCall
  rw [OrdMap.find?_insert]
  split_ifs with h
  · cases call <;> rfl
  · rfl

/-! ## Steps -/

/-- What a step does, one constructor for each way to take it. The steps of a handler that
is not yet in touch with the engine are one. -/
inductive Step (fuel : ℕ) (s : System) : Op → System → Prop where
  | idle {op : Op} {k : ℕ} {call : Call} (db : Tables)
      (hbefore : ∀ send, s.calls.find? k ≠ some (.sending send))
      (hafter : ∀ send, call ≠ .sending send) : Step fuel s op ({ s with db := db }.setCall k call)
  | prepared {op : Op} {k : ℕ} {request : EngineRequest} {lock : Option Lock} (db : Tables)
      (hbefore : ∀ send, s.calls.find? k ≠ some (.sending send))
      (hdrawn : ∀ requestId order, request = .place requestId order → op.drawn = [order.id]) :
      Step fuel s op ({ s with db := db }.setCall k (.sending (.new request lock)))
  | registered {k : ℕ} {send : Sending} (hcall : s.calls.find? k = some (.sending send))
      (hphase : send.phase = .prepared) : Step fuel s (.register k) (s.register k send)
  | wrote {k c : ℕ} {send : Sending} {link : Link}
      (hcall : s.calls.find? k = some (.sending send)) (hphase : send.phase = .registered)
      (hlink : s.links.find? c = some link) : Step fuel s (.write k .present)
        ((s.setLink c { link with requests := link.requests ++ [(k, send.request)] }).setCall k
          (.sending { send with phase := .waiting, conn := some c }))
  | connected {k c : ℕ} {send : Sending} (hcall : s.calls.find? k = some (.sending send))
      (hphase : send.phase = .registered) (hlink : s.links.find? c = none) :
      Step fuel s (.write k (.fresh c)) (({ s with writer := some c }.setLink c
          ⟨[(k, send.request)], [], true, .reading⟩).setCall k
        (.sending { send with phase := .waiting, conn := some c }))
  | unwritten {k : ℕ} {send : Sending} (hcall : s.calls.find? k = some (.sending send))
      (hphase : send.phase = .registered) : Step fuel s (.write k .failed)
        ({ s with writer := none, pending := s.pending.erase (requestIdOf send.request) }.setCall k
          (.sending { send with phase := .failed (engineFailure .io) }))
  | timedOut {k : ℕ} {send : Sending} (hcall : s.calls.find? k = some (.sending send))
      (hphase : send.phase = .waiting) : Step fuel s (.timeOut k) (s.timeOut k send)
  | returned {k : ℕ} {send : Sending} (hcall : s.calls.find? k = some (.sending send))
      (hphase : send.phase = .waiting) (hanswer : s.resolution k send = some none) :
      Step fuel s (.resolve k) (s.setCall k (.sending { send with phase := .returned }))
  | erred {k : ℕ} {send : Sending} {e : EngineClientError}
      (hcall : s.calls.find? k = some (.sending send)) (hphase : send.phase = .waiting)
      (hanswer : s.resolution k send = some (some e)) : Step fuel s (.resolve k)
        (s.setCall k (.sending { send with phase := .failed (engineFailure e) }))
  | unlocked {k : ℕ} {send : Sending} {error : ApiError} {lock : Lock}
      (delivery : Tables.Delivery) (hcall : s.calls.find? k = some (.sending send))
      (hphase : send.phase = .failed error) (hlock : send.lock = some lock) :
      Step fuel s (.unlock k delivery) (s.unlockBalance k send lock error delivery)
  | served {c k : ℕ} {link : Link} {request : EngineRequest} {requests : List (ℕ × EngineRequest)}
      {result : Except ServerError ResponseBundle} {mid : System}
      (responses : List Answer) (serving : Bool) (hlink : s.links.find? c = some link)
      (hserving : link.serving = true) (hrequests : link.requests = (k, request) :: requests)
      (hhandle : s.handle fuel (some k) request = some (result, mid)) :
      Step fuel s (.serve c) (mid.setLink c { link with
        requests := requests, responses := responses, serving := serving })
  | hungUp {c : ℕ} {link : Link} (hlink : s.links.find? c = some link) :
      Step fuel s (.hangUp c) (s.setLink c { link with serving := false })
  | delivered {c : ℕ} {link : Link} {answer : Answer} {responses : List Answer}
      (hlink : s.links.find? c = some link) (hreader : link.reader = .reading)
      (hresponses : link.responses = answer :: responses) : Step fuel s (.deliver c)
        ((s.setLink c { link with responses := responses }).deliver answer)
  | readerStopped {c : ℕ} {link : Link} (hlink : s.links.find? c = some link) :
      Step fuel s (.readerStops c)
        ({ s with writer := none }.setLink c { link with reader := .clearing })
  | readerCleared {c : ℕ} {link : Link} (hlink : s.links.find? c = some link) :
      Step fuel s (.readerClears c)
        ({ s with pending := OrdMap.empty }.setLink c { link with reader := .gone })
  | direct {request : EngineRequest} {result : Except ServerError ResponseBundle} {mid : System}
      (hhandle : s.handle fuel none request = some (result, mid)) :
      Step fuel s (.direct request) mid
  | settled (userId assetId : Uuid) (balance : Balance) (db : Tables) :
      Step fuel s (.settle userId assetId balance) { s with db := db }

/-- Looking up an earlier order changes one call. -/
theorem lookUp_spec (s : System) (k : ℕ) (call : PlaceCall) (delivery : Tables.Delivery) :
    ∃ db call', s.lookUp k call delivery = { s with db := db }.setCall k call' ∧
      ∀ send, call' ≠ .sending send := by
  unfold lookUp
  cases call.input.clientOrderId with
  | none => exact ⟨s.db, _, rfl, by simp⟩
  | some clientOrderId =>
    refine ⟨_, _, rfl, ?_⟩
    intro send
    split <;> simp

/-- So does the check of the request. -/
theorem validate_spec (s : System) (k : ℕ) (call : PlaceCall) (delivery : Tables.Delivery) :
    ∃ call', s.validate mul k call delivery = s.setCall k call' ∧
      ∀ send, call' ≠ .sending send := by
  refine ⟨_, rfl, ?_⟩
  intro send
  split
  · simp
  split
  · simp
  split
  · simp
  split <;> simp

/-- So does the lock, which writes one balance. -/
theorem lockBalance_spec (s : System) (k : ℕ) (call : PlaceCall) (placement : Placement)
    (delivery : Tables.Delivery) :
    ∃ db call', s.lockBalance k call placement delivery = { s with db := db }.setCall k call' ∧
      ∀ send, call' ≠ .sending send := by
  unfold lockBalance
  cases placement.lock with
  | none => exact ⟨s.db, _, rfl, by simp⟩
  | some lock =>
    refine ⟨_, _, rfl, ?_⟩
    intro send
    split <;> simp

/-- A write puts the frame on a connection, or fails. -/
theorem write_spec {k : ℕ} {send : Sending} {outcome : WriteOutcome}
    (hcall : s.calls.find? k = some (.sending send)) (hphase : send.phase = .registered)
    (h : s.write k send outcome = some t) : Step fuel s (.write k outcome) t := by
  cases outcome with
  | present =>
    simp only [write] at h
    split at h
    · cases h
    split at h
    · cases h
    · next hlink =>
      cases h
      exact .wrote hcall hphase hlink
  | fresh c =>
    simp only [write] at h
    split at h
    · cases h
    · next hlink =>
      cases h
      exact .connected hcall hphase hlink
  | failed =>
    cases h
    exact .unwritten hcall hphase

/-- The engine takes up the request at the front of a connection. -/
theorem serve_spec {c : ℕ} {link : Link} (hlink : s.links.find? c = some link)
    (h : s.serve fuel c link = some t) : Step fuel s (.serve c) t := by
  unfold serve at h
  split at h
  · next k request requests hserving hrequests =>
    rcases Option.map_eq_some_iff.mp h with ⟨⟨result, mid⟩, hhandle, hafter⟩
    cases result with
    | ok bundle =>
      cases hafter
      exact .served _ link.serving hlink hserving hrequests hhandle
    | error e =>
      cases hafter
      exact .served link.responses _ hlink hserving hrequests hhandle
  · cases h

/-- What a step that succeeds did. -/
theorem step_spec {op : Op} (h : s.step fuel mul op = some t) : Step fuel s op t := by
  cases op with
  | place k call =>
    simp only [step] at h
    split_ifs at h with hnone
    cases h
    exact .idle s.db (by simp [hnone]) (by simp)
  | forward k request =>
    simp only [step] at h
    split_ifs at h with hnew
    cases h
    refine .prepared s.db (by simp [hnew.1]) ?_
    rintro requestId order rfl
    cases hnew.2
  | lookUp k delivery =>
    simp only [step] at h
    split at h
    · next call hcall =>
      cases h
      rcases s.lookUp_spec k call delivery with ⟨db, call', heq, hafter⟩
      rw [heq]
      exact .idle db (by simp [hcall]) hafter
    · cases h
  | validate k delivery =>
    simp only [step] at h
    split at h
    · next call hcall =>
      cases h
      rcases s.validate_spec k call delivery with ⟨call', heq, hafter⟩
      rw [heq]
      exact .idle s.db (by simp [hcall]) hafter
    · cases h
  | lock k delivery =>
    simp only [step] at h
    split at h
    · next call placement hcall =>
      cases h
      rcases s.lockBalance_spec k call placement delivery with ⟨db, call', heq, hafter⟩
      rw [heq]
      exact .idle db (by simp [hcall]) hafter
    · cases h
  -- an insert that fails ends the call, and its lock with it
  | insert k orderId delivery =>
    simp only [step] at h
    split at h
    · next call placement hcall =>
      cases h
      unfold insertPending
      dsimp only
      split
      · exact .idle _ (by simp [hcall]) (by simp)
      · refine .prepared _ (by simp [hcall]) ?_
        rintro requestId order ⟨⟩
        rfl
    · cases h
  | register k =>
    simp only [step] at h
    split at h
    · next send hcall =>
      split_ifs at h with hphase
      cases h
      exact .registered hcall hphase
    · cases h
  | write k outcome =>
    simp only [step] at h
    split at h
    · next send hcall =>
      split_ifs at h with hphase
      exact write_spec hcall hphase h
    · cases h
  | timeOut k =>
    simp only [step] at h
    split at h
    · next send hcall =>
      split_ifs at h with hphase
      cases h
      exact .timedOut hcall hphase
    · cases h
  -- the call returns the response, or goes on to give the funds back
  | resolve k =>
    simp only [step] at h
    split at h
    · next send hcall =>
      split_ifs at h with hphase
      rcases Option.map_eq_some_iff.mp h with ⟨outcome, hanswer, rfl⟩
      cases outcome with
      | none => exact .returned hcall hphase hanswer
      | some e => exact .erred hcall hphase hanswer
    · cases h
  | unlock k delivery =>
    simp only [step] at h
    split at h
    · next send hcall =>
      split at h
      · next error lock hphase hlock =>
        cases h
        exact .unlocked delivery hcall hphase hlock
      · cases h
    · cases h
  | serve c =>
    simp only [step] at h
    split at h
    · next link hlink => exact serve_spec hlink h
    · cases h
  | hangUp c =>
    simp only [step] at h
    split at h
    · next link hlink =>
      cases h
      exact .hungUp hlink
    · cases h
  -- the reader looks the call up by the id of the response
  | deliver c =>
    simp only [step] at h
    split at h
    · next link hlink =>
      split at h
      · next hreader hresponses =>
        cases h
        exact .delivered hlink hreader hresponses
      · cases h
    · cases h
  | readerStops c =>
    simp only [step] at h
    split at h
    · next link hlink =>
      split_ifs at h
      cases h
      exact .readerStopped hlink
    · cases h
  | readerClears c =>
    simp only [step] at h
    split at h
    · next link hlink =>
      split_ifs at h
      cases h
      exact .readerCleared hlink
    · cases h
  | direct request =>
    rcases Option.map_eq_some_iff.mp h with ⟨⟨result, mid⟩, hhandle, rfl⟩
    exact .direct hhandle
  | settle userId assetId balance =>
    cases h
    exact .settled userId assetId balance _

/-! ## What most steps leave alone -/

/-- A step that moves no request. -/
structure Keeps (s t : System) : Prop where
  engine : t.engine = s.engine
  served : t.served = s.served
  fills : t.fills = s.fills
  sentBy : ∀ k, t.sentBy k = s.sentBy k
  links : ∀ c link', t.links.find? c = some link' → ∃ link, s.links.find? c = some link ∧
    link'.requests = link.requests ∧ (link'.serving = true → link.serving = true)

/-- A step of a call that keeps its request. -/
theorem Keeps.setCall {k : ℕ} {call : Call} (h : Keeps s t)
    (hcall : (match call with
      | .sending send => some (send.request, send.conn)
      | _ => none) = s.sentBy k) : Keeps s (t.setCall k call) where
  engine := h.engine
  served := h.served
  fills := h.fills
  sentBy := by
    intro k'
    rw [sentBy_setCall]
    split_ifs with heq
    · rw [heq]
      exact hcall
    · exact h.sentBy k'
  links := h.links

theorem Keeps.setLink {c : ℕ} {link link' : Link} (h : Keeps s t)
    (hlink : s.links.find? c = some link) (hrequests : link'.requests = link.requests)
    (hserving : link'.serving = true → link.serving = true) : Keeps s (t.setLink c link') where
  engine := h.engine
  served := h.served
  fills := h.fills
  sentBy := h.sentBy
  links := by
    intro c' found hfound
    rw [System.setLink, OrdMap.find?_insert] at hfound
    split_ifs at hfound with heq
    · cases hfound
      exact ⟨link, heq ▸ hlink, hrequests, hserving⟩
    · exact h.links c' found hfound

theorem keeps_of_eq (hengine : t.engine = s.engine) (hserved : t.served = s.served)
    (hfills : t.fills = s.fills) (hcalls : t.calls = s.calls) (hlinks : t.links = s.links) :
    Keeps s t where
  engine := hengine
  served := hserved
  fills := hfills
  sentBy := by
    intro k
    unfold System.sentBy
    rw [hcalls]
  links := by
    intro c link' hlink'
    rw [hlinks] at hlink'
    exact ⟨link', hlink', rfl, id⟩

theorem deliver_keeps (s : System) (answer : Answer) : Keeps s (s.deliver answer) := by
  have hself : Keeps s s := keeps_of_eq rfl rfl rfl rfl rfl
  unfold deliver
  split
  · exact hself
  split
  · exact hself
  dsimp only
  split
  · next hcall =>
    exact Keeps.setCall (keeps_of_eq rfl rfl rfl rfl rfl) (sentBy_of_sending hcall).symm
  · exact keeps_of_eq rfl rfl rfl rfl rfl

/-- What two steps keep both keep. -/
theorem Keeps.trans {u : System} (h : Keeps s t) (h' : Keeps t u) : Keeps s u where
  engine := h'.engine.trans h.engine
  served := h'.served.trans h.served
  fills := h'.fills.trans h.fills
  sentBy := fun k => (h'.sentBy k).trans (h.sentBy k)
  links := by
    intro c link'' hlink''
    rcases h'.links c link'' hlink'' with ⟨link', hlink', hrequests', hserving'⟩
    rcases h.links c link' hlink' with ⟨link, hlink, hrequests, hserving⟩
    exact ⟨link, hlink, hrequests'.trans hrequests, fun hup => hserving (hserving' hup)⟩

/-- What a step does to the requests on their way. -/
inductive Moves (fuel : ℕ) (s : System) (op : Op) : System → Prop where
  | keeps {t : System} (h : Keeps s t) : Moves fuel s op t
  /-- A call gets a request to send. -/
  | prepares {k : ℕ} {request : EngineRequest} {lock : Option Lock} (db : Tables)
      (hbefore : s.sentBy k = none)
      (hdrawn : ∀ requestId order, request = .place requestId order → op.drawn = [order.id]) :
      Moves fuel s op ({ s with db := db }.setCall k (.sending (.new request lock)))
  /-- A call writes its request on a connection, which may be a new one. -/
  | writes {k c : ℕ} {send : Sending} {link : Link} {t : System}
      {requests : List (ℕ × EngineRequest)}
      (hcall : s.calls.find? k = some (.sending send)) (hphase : send.phase = .registered)
      (hkeeps : Keeps s t)
      (hrequests : s.links.find? c = none ∧ requests = [] ∨
        ∃ old, s.links.find? c = some old ∧ requests = old.requests ∧ link.serving = old.serving)
      (hlink : link.requests = requests ++ [(k, send.request)]) :
      Moves fuel s op ((t.setLink c link).setCall k
        (.sending { send with phase := .waiting, conn := some c }))
  /-- The engine takes up a request of a connection. -/
  | serves {c k : ℕ} {link link' : Link} {request : EngineRequest}
      {requests : List (ℕ × EngineRequest)} {result : Except ServerError ResponseBundle}
      {mid : System} (hlink : s.links.find? c = some link) (hserving : link.serving = true)
      (hrequests : link.requests = (k, request) :: requests) (hafter : link'.requests = requests)
      (hhandle : s.handle fuel (some k) request = some (result, mid)) :
      Moves fuel s op (mid.setLink c link')
  | direct {request : EngineRequest} {result : Except ServerError ResponseBundle} {mid : System}
      (hdrawn : ∀ requestId order, request = .place requestId order → op.drawn = [order.id])
      (hhandle : s.handle fuel none request = some (result, mid)) : Moves fuel s op mid

/-- A step moves the engine only where it serves a request. -/
theorem Step.moves {op : Op} (h : Step fuel s op t) : Moves fuel s op t := by
  -- the steps up to the insert leave the links and the engine alone
  cases h with
  | @idle _ k call db hbefore hafter =>
    refine .keeps (Keeps.setCall (keeps_of_eq rfl rfl rfl rfl rfl) ?_)
    rw [sentBy_eq_none hbefore]
    cases call with
    | sending send => exact absurd rfl (hafter send)
    | looking | validating | locking | inserting | ended | panicked => rfl
  | prepared db hbefore hdrawn => exact .prepares db (sentBy_eq_none hbefore) hdrawn
  | registered hcall =>
    exact .keeps (Keeps.setCall (keeps_of_eq rfl rfl rfl rfl rfl) (sentBy_of_sending hcall).symm)
  -- a frame is put on a connection, old or new
  | wrote hcall hphase hlink =>
    exact .writes hcall hphase (keeps_of_eq rfl rfl rfl rfl rfl) (.inr ⟨_, hlink, rfl, rfl⟩) rfl
  | @connected k c send hcall hphase hlink =>
    have hkeeps : Keeps s { s with writer := some c } := keeps_of_eq rfl rfl rfl rfl rfl
    exact .writes hcall hphase hkeeps (.inl ⟨hlink, rfl⟩) rfl
  | unwritten hcall =>
    exact .keeps (Keeps.setCall (keeps_of_eq rfl rfl rfl rfl rfl) (sentBy_of_sending hcall).symm)
  | timedOut hcall =>
    exact .keeps (Keeps.setCall (keeps_of_eq rfl rfl rfl rfl rfl) (sentBy_of_sending hcall).symm)
  | returned hcall =>
    exact .keeps (Keeps.setCall (keeps_of_eq rfl rfl rfl rfl rfl) (sentBy_of_sending hcall).symm)
  | erred hcall =>
    exact .keeps (Keeps.setCall (keeps_of_eq rfl rfl rfl rfl rfl) (sentBy_of_sending hcall).symm)
  | unlocked delivery hcall =>
    exact .keeps (Keeps.setCall (keeps_of_eq rfl rfl rfl rfl rfl) (sentBy_of_sending hcall).symm)
  -- the engine takes a frame
  | served responses serving hlink hserving hrequests hhandle =>
    exact .serves hlink hserving hrequests rfl hhandle
  -- the rest changes a link only in what it no longer serves, or in its reader
  | hungUp hlink =>
    refine .keeps (Keeps.setLink (keeps_of_eq rfl rfl rfl rfl rfl) hlink rfl ?_)
    intro hup
    cases hup
  | delivered hlink =>
    refine .keeps (Keeps.trans ?_ (deliver_keeps _ _))
    exact Keeps.setLink (keeps_of_eq rfl rfl rfl rfl rfl) hlink rfl id
  | readerStopped hlink =>
    exact .keeps (Keeps.setLink (keeps_of_eq rfl rfl rfl rfl rfl) hlink rfl id)
  | readerCleared hlink =>
    exact .keeps (Keeps.setLink (keeps_of_eq rfl rfl rfl rfl rfl) hlink rfl id)
  | @direct request result mid hhandle =>
    refine .direct ?_ hhandle
    rintro requestId order rfl
    rfl
  | settled => exact .keeps (keeps_of_eq rfl rfl rfl rfl rfl)

/-! ## The invariant -/

/-- The order id belongs to a call, or to another client of the engine. -/
def Owns (s : System) : Option ℕ → Uuid → Prop
  | some k, x => ∃ requestId order conn,
      s.sentBy k = some (.place requestId order, conn) ∧ order.id = x
  | none, x => ∃ e ∈ s.served, e.call = none ∧
      ∃ requestId order, e.request = .place requestId order ∧ order.id = x

/-- Where the requests are, and what has become of the orders. -/
structure Flow (drawn : List Uuid) (s : System) : Prop where
  /-- A frame is the request of the call that wrote it on this connection. -/
  frames : ∀ c link, s.links.find? c = some link →
    ∀ f ∈ link.requests, s.sentBy f.1 = some (f.2, some c)
  /-- No call has two frames on a connection. -/
  once : ∀ c link, s.links.find? c = some link → (link.requests.map Prod.fst).Nodup
  /-- A frame that is under way was not taken up. -/
  unserved : ∀ c link, s.links.find? c = some link →
    ∀ f ∈ link.requests, ∀ e ∈ s.served, e.call ≠ some f.1
  /-- What was taken up came from the call that wrote it. -/
  history : ∀ e ∈ s.served, ∀ k, e.call = some k → ∃ c, s.sentBy k = some (e.request, some c)
  /-- The order ids were drawn, each for one owner. -/
  drawn : ∀ owner x, s.Owns owner x → x ∈ drawn
  unique : ∀ owner owner' x, s.Owns owner x → s.Owns owner' x → owner = owner'
  known : KnownAfter (s.served.map (·.request)) s.engine
  /-- An order that was never taken up, or declined when it was, left no trace. -/
  untouched : ∀ x, (∀ e ∈ s.served, ∀ requestId order, e.request = .place requestId order →
    order.id = x → Declines e.before requestId order) → Untouched x s.engine s.fills

theorem Flow.start {engine : EngineState} (db : Tables)
    (h : engine.exchange = Server.Exchange.empty) : Flow [] (start engine db) where
  frames := by simp [System.start]
  once := by simp [System.start]
  unserved := by simp [System.start]
  history := by simp [System.start]
  drawn := by
    rintro (_ | k) x hx
    · simp [Owns, System.start] at hx
    · simp [Owns, System.start, sentBy] at hx
  unique := by
    rintro (_ | k) owner' x hx
    · simp [Owns, System.start] at hx
    · simp [Owns, System.start, sentBy] at hx
  known := by
    have hempty : (System.start engine db).engine.exchange = Server.Exchange.empty := h
    unfold KnownAfter
    rw [hempty]
    exact Server.Exchange.known_empty
  untouched := fun x _ => Server.EngineState.untouched_empty x h

variable {drawn : List Uuid}

theorem Flow.mono (h : Flow drawn s) (new : List Uuid) : Flow (drawn ++ new) s :=
  { h with drawn := fun owner x hx => List.mem_append_left _ (h.drawn owner x hx) }

theorem Owns.congr (hsent : ∀ k, t.sentBy k = s.sentBy k) (hserved : t.served = s.served)
    {owner : Option ℕ} {x : Uuid} : t.Owns owner x ↔ s.Owns owner x := by
  cases owner with
  | none => rw [Owns, Owns, hserved]
  | some k => rw [Owns, Owns, hsent]

/-- An order that was taken up belongs to the call or client it came from. -/
theorem Flow.owns_served (h : Flow drawn s) {e : Served} (he : e ∈ s.served) {requestId : Uuid}
    {order : EngineOrder} (hreq : e.request = .place requestId order) :
    s.Owns e.call order.id := by
  cases hcall : e.call with
  | none => exact ⟨e, he, hcall, requestId, order, hreq, rfl⟩
  | some k =>
    rcases h.history e he k hcall with ⟨c, hsent⟩
    exact ⟨requestId, order, some c, hreq ▸ hsent, rfl⟩

theorem mem_placedIds {reqs : List EngineRequest} {x : Uuid}
    (h : x ∈ EngineState.placedIds reqs) :
    ∃ requestId order, EngineRequest.place requestId order ∈ reqs ∧ order.id = x := by
  induction reqs with
  | nil => cases h
  | cons req reqs ih =>
    cases req with
    | place requestId order =>
      rcases List.mem_cons.mp h with rfl | h
      · exact ⟨requestId, order, List.mem_cons_self, rfl⟩
      · rcases ih h with ⟨requestId', order', hmem, hid⟩
        exact ⟨requestId', order', List.mem_cons_of_mem _ hmem, hid⟩
    | cancel | cancelAll | haltMarket | resumeMarket | snapshot | ping =>
      rcases ih h with ⟨requestId', order', hmem, hid⟩
      exact ⟨requestId', order', List.mem_cons_of_mem _ hmem, hid⟩

/-- An order that was placed has an owner, the request that placed it. -/
theorem Flow.owns_placed (h : Flow drawn s) {x : Uuid}
    (hx : x ∈ EngineState.placedIds (s.served.map (·.request))) :
    ∃ e ∈ s.served, s.Owns e.call x := by
  rcases mem_placedIds hx with ⟨requestId, order, hmem, rfl⟩
  rcases List.mem_map.mp hmem with ⟨e, he, hreq⟩
  exact ⟨e, he, h.owns_served he hreq⟩

/-- A step that keeps the frames keeps the flow. -/
theorem Flow.keeps (h : Flow drawn s) (hkeeps : Keeps s t) : Flow drawn t where
  frames := by
    intro c link' hlink' f hf
    rcases hkeeps.links c link' hlink' with ⟨link, hlink, hrequests, _⟩
    rw [hkeeps.sentBy]
    exact h.frames c link hlink f (hrequests ▸ hf)
  once := by
    intro c link' hlink'
    rcases hkeeps.links c link' hlink' with ⟨link, hlink, hrequests, _⟩
    rw [hrequests]
    exact h.once c link hlink
  unserved := by
    intro c link' hlink' f hf
    rcases hkeeps.links c link' hlink' with ⟨link, hlink, hrequests, _⟩
    rw [hkeeps.served]
    exact h.unserved c link hlink f (hrequests ▸ hf)
  history := by
    intro e he k hcall
    rw [hkeeps.sentBy]
    exact h.history e (hkeeps.served ▸ he) k hcall
  drawn := by
    intro owner x hx
    exact h.drawn owner x ((Owns.congr hkeeps.sentBy hkeeps.served).mp hx)
  unique := by
    intro owner owner' x hx hx'
    exact h.unique owner owner' x ((Owns.congr hkeeps.sentBy hkeeps.served).mp hx)
      ((Owns.congr hkeeps.sentBy hkeeps.served).mp hx')
  known := by
    rw [hkeeps.served, hkeeps.engine]
    exact h.known
  untouched := by
    rw [hkeeps.served, hkeeps.engine, hkeeps.fills]
    exact h.untouched

/-- The ids stay apart when at most one owner gets a new one, and it was not drawn before. -/
theorem Flow.owners (h : Flow drawn s) {new : Option ℕ} {ids : List Uuid}
    (hnew : ∀ owner x, t.Owns owner x → s.Owns owner x ∨ owner = new ∧ ids = [x])
    (hfresh : ∀ x ∈ ids, x ∉ drawn) :
    (∀ owner x, t.Owns owner x → x ∈ drawn ++ ids) ∧
      ∀ owner owner' x, t.Owns owner x → t.Owns owner' x → owner = owner' := by
  have hapart : ∀ owner x, s.Owns owner x → ids ≠ [x] := by
    rintro owner x hx rfl
    exact hfresh x (List.mem_singleton.mpr rfl) (h.drawn owner x hx)
  constructor
  · intro owner x hx
    rcases hnew owner x hx with hold | ⟨_, rfl⟩
    · exact List.mem_append_left _ (h.drawn owner x hold)
    · exact List.mem_append_right _ (List.mem_singleton.mpr rfl)
  · intro owner owner' x hx hx'
    rcases hnew owner x hx with hold | ⟨rfl, hids⟩
    · rcases hnew owner' x hx' with hold' | ⟨rfl, hids⟩
      · exact h.unique owner owner' x hold hold'
      · exact absurd hids (hapart owner x hold)
    · rcases hnew owner' x hx' with hold' | ⟨rfl, _⟩
      · exact absurd hids (hapart owner' x hold')
      · rfl

/-- So does a request that is prepared. -/
theorem Flow.prepares (h : Flow drawn s) {k : ℕ} {request : EngineRequest} {lock : Option Lock}
    (db : Tables) (hbefore : s.sentBy k = none) {ids : List Uuid}
    (hdrawn : ∀ requestId order, request = .place requestId order → ids = [order.id])
    (hfresh : ∀ x ∈ ids, x ∉ drawn) :
    Flow (drawn ++ ids) ({ s with db := db }.setCall k (.sending (.new request lock))) := by
  have hsent : ∀ k', ({ s with db := db }.setCall k (.sending (.new request lock))).sentBy k' =
      if k' = k then some (request, none) else s.sentBy k' := fun k' => sentBy_setCall _ k _ k'
  have hkept : ∀ {k' r}, s.sentBy k' = some r →
      ({ s with db := db }.setCall k (.sending (.new request lock))).sentBy k' = some r := by
    intro k' r hr
    rw [hsent, if_neg, hr]
    rintro rfl
    rw [hbefore] at hr
    cases hr
  -- the one id that gets an owner is the one just drawn
  have hnew : ∀ owner x,
      ({ s with db := db }.setCall k (.sending (.new request lock))).Owns owner x →
        s.Owns owner x ∨ owner = some k ∧ ids = [x] := by
    intro owner x hx
    cases owner with
    | none => exact .inl hx
    | some k' =>
      rcases hx with ⟨requestId, order, conn, hcall, rfl⟩
      rw [hsent] at hcall
      split_ifs at hcall with heq
      · cases hcall
        exact .inr ⟨congrArg some heq, hdrawn requestId order rfl⟩
      · exact .inl ⟨requestId, order, conn, hcall, rfl⟩
  rcases h.owners hnew hfresh with ⟨hdrawn', hunique⟩
  exact {
    frames := fun c link hlink f hf => hkept (h.frames c link hlink f hf)
    once := h.once
    unserved := h.unserved
    history := by
      intro e he k' hcall
      rcases h.history e he k' hcall with ⟨c, hc⟩
      exact ⟨c, hkept hc⟩
    drawn := hdrawn'
    unique := hunique
    known := h.known
    untouched := h.untouched }

/-- A call whose request is not written. -/
def Unwritten (s : System) (k : ℕ) : Prop := ∀ r, s.sentBy k = some r → r.2 = none

/-- A request that is not written is on no connection. -/
theorem Flow.not_on_link (h : Flow drawn s) {k c : ℕ} {link : Link} (hk : s.Unwritten k)
    (hlink : s.links.find? c = some link) : k ∉ link.requests.map Prod.fst := by
  intro hmem
  rcases List.mem_map.mp hmem with ⟨f, hf, rfl⟩
  cases hk _ (h.frames c link hlink f hf)

theorem Flow.not_served (h : Flow drawn s) {k : ℕ} (hk : s.Unwritten k) :
    ∀ e ∈ s.served, e.call ≠ some k := by
  intro e he hcall
  rcases h.history e he k hcall with ⟨c, hc⟩
  cases hk _ hc

/-- So does a write, which puts it on one. -/
theorem Flow.writes (h : Flow drawn s) {k c : ℕ} {send : Sending} {link : Link} {t : System}
    {requests : List (ℕ × EngineRequest)} (hcall : s.calls.find? k = some (.sending send))
    (hconn : send.conn = none) (hkeeps : Keeps s t)
    (hrequests : s.links.find? c = none ∧ requests = [] ∨
      ∃ old, s.links.find? c = some old ∧ requests = old.requests ∧ link.serving = old.serving)
    (hlink : link.requests = requests ++ [(k, send.request)]) :
    Flow drawn ((t.setLink c link).setCall k
      (.sending { send with phase := .waiting, conn := some c })) := by
  have hunwritten : s.Unwritten k := by
    intro r hr
    rw [sentBy_of_sending hcall] at hr
    cases hr
    exact hconn
  -- the requests that were there before, and the frames of the connection among them
  have hbefore : (∀ f ∈ requests, s.sentBy f.1 = some (f.2, some c) ∧
      ∀ e ∈ s.served, e.call ≠ some f.1) ∧ (requests.map Prod.fst).Nodup ∧
        k ∉ requests.map Prod.fst := by
    rcases hrequests with ⟨_, rfl⟩ | ⟨old, hold, rfl, _⟩
    · simp
    · exact ⟨fun f hf => ⟨h.frames c old hold f hf, h.unserved c old hold f hf⟩,
        h.once c old hold, h.not_on_link hunwritten hold⟩
  rcases hbefore with ⟨hold, hnodup, hfresh⟩
  generalize hafter : (t.setLink c link).setCall k
    (.sending { send with phase := .waiting, conn := some c }) = u
  have hengine : u.engine = s.engine := hafter ▸ hkeeps.engine
  have hserved : u.served = s.served := hafter ▸ hkeeps.served
  have hfills : u.fills = s.fills := hafter ▸ hkeeps.fills
  have hsent : ∀ k', u.sentBy k' = if k' = k then some (send.request, some c) else s.sentBy k' := by
    intro k'
    rw [← hafter, sentBy_setCall]
    split_ifs
    · rfl
    · exact hkeeps.sentBy k'
  have hkept : ∀ {k' r}, s.sentBy k' = some r → r.2 ≠ none → u.sentBy k' = some r := by
    intro k' r hr hne
    rw [hsent, if_neg, hr]
    rintro rfl
    exact hne (hunwritten r hr)
  have hlinks : ∀ c' link', u.links.find? c' = some link' → c' = c ∧ link' = link ∨
      ∃ old, s.links.find? c' = some old ∧ link'.requests = old.requests := by
    intro c' link' hlink'
    simp only [← hafter, setCall, setLink, OrdMap.find?_insert] at hlink'
    split_ifs at hlink' with heq
    · cases hlink'
      exact .inl ⟨heq, rfl⟩
    · rcases hkeeps.links c' link' hlink' with ⟨old, hfound, hsame, _⟩
      exact .inr ⟨old, hfound, hsame⟩
  have howns : ∀ owner x, u.Owns owner x → s.Owns owner x := by
    intro owner x hx
    cases owner with
    | none =>
      rcases hx with ⟨e, he, hnone, hplaces⟩
      exact ⟨e, hserved ▸ he, hnone, hplaces⟩
    | some k' =>
      rcases hx with ⟨requestId, order, conn, hcall', rfl⟩
      rw [hsent] at hcall'
      split_ifs at hcall' with heq
      · rw [Option.some.injEq, Prod.mk.injEq] at hcall'
        rw [heq]
        exact ⟨requestId, order, send.conn, hcall'.1 ▸ sentBy_of_sending hcall, rfl⟩
      · exact ⟨requestId, order, conn, hcall', rfl⟩
  exact {
    frames := by
      intro c' link' hlink' f hf
      rcases hlinks c' link' hlink' with ⟨rfl, rfl⟩ | ⟨old, hfound, hsame⟩
      · rw [hlink] at hf
        rcases List.mem_append.mp hf with hf | hf
        · exact hkept (hold f hf).1 (by simp)
        · cases List.mem_singleton.mp hf
          rw [hsent, if_pos rfl]
      · exact hkept (h.frames c' old hfound f (hsame ▸ hf)) (by simp)
    once := by
      intro c' link' hlink'
      rcases hlinks c' link' hlink' with ⟨rfl, rfl⟩ | ⟨old, hfound, hsame⟩
      · rw [hlink, List.map_append]
        exact List.Nodup.append hnodup (List.nodup_singleton k) (by simpa using hfresh)
      · rw [hsame]
        exact h.once c' old hfound
    unserved := by
      intro c' link' hlink' f hf e he
      rw [hserved] at he
      rcases hlinks c' link' hlink' with ⟨rfl, rfl⟩ | ⟨old, hfound, hsame⟩
      · rw [hlink] at hf
        rcases List.mem_append.mp hf with hf | hf
        · exact (hold f hf).2 e he
        · cases List.mem_singleton.mp hf
          exact h.not_served hunwritten e he
      · exact h.unserved c' old hfound f (hsame ▸ hf) e he
    history := by
      intro e he k' hcall'
      rcases h.history e (hserved ▸ he) k' hcall' with ⟨c', hc'⟩
      exact ⟨c', hkept hc' (by simp)⟩
    drawn := fun owner x hx => h.drawn owner x (howns owner x hx)
    unique := fun owner owner' x hx hx' =>
      h.unique owner owner' x (howns owner x hx) (howns owner' x hx')
    known := by
      rw [hserved, hengine]
      exact h.known
    untouched := by
      rw [hserved, hengine, hfills]
      exact h.untouched }

/-! ### The engine takes up a request -/

/-- Handling a request changes the engine and records it as served. -/
theorem handle_spec {call : Option ℕ} {request : EngineRequest}
    {result : Except ServerError ResponseBundle} {mid : System}
    (h : s.handle fuel call request = some (result, mid)) :
    ∃ engine, s.engine.handleRequest fuel request = some (result, engine) ∧
      mid = { s with
        engine := engine
        served := s.served ++ [⟨call, request, s.engine⟩]
        fills := s.fills ++ s.engine.fillsMade fuel request } := by
  rcases Option.map_eq_some_iff.mp h with ⟨⟨_, engine⟩, hhandle, heq⟩
  cases heq
  exact ⟨engine, hhandle, rfl⟩

/-- Handling keeps the flow if the id is fresh. -/
theorem Flow.handle (h : Flow drawn s) {call : Option ℕ} {request : EngineRequest}
    {result : Except ServerError ResponseBundle} {mid : System}
    (hfresh : Fresh (s.served.map (·.request)) request)
    (hhandle : s.handle fuel call request = some (result, mid)) :
    KnownAfter (mid.served.map (·.request)) mid.engine ∧
      ∀ x, (∀ e ∈ mid.served, ∀ requestId order, e.request = .place requestId order →
        order.id = x → Declines e.before requestId order) → Untouched x mid.engine mid.fills := by
  rcases handle_spec hhandle with ⟨engine, hrequest, rfl⟩
  constructor
  · rw [List.map_append]
    exact Server.EngineState.handleRequest_known h.known hfresh hrequest
  · intro x hdeclined
    refine (h.untouched x ?_).handleRequest h.known hfresh ?_ hrequest
    · intro e he
      exact hdeclined e (List.mem_append_left _ he)
    · rintro requestId order hreq hid
      exact hdeclined ⟨call, request, s.engine⟩ (List.mem_append_right _ (by simp))
        requestId order hreq hid

/-- An order whose id has just been drawn was not placed before. -/
theorem Flow.fresh_drawn (h : Flow drawn s) {request : EngineRequest} {ids : List Uuid}
    (hdrawn : ∀ requestId order, request = .place requestId order → ids = [order.id])
    (hfresh : ∀ x ∈ ids, x ∉ drawn) : Fresh (s.served.map (·.request)) request := by
  intro requestId order hreq hmem
  rcases h.owns_placed hmem with ⟨e, _, howns⟩
  refine hfresh order.id ?_ (h.drawn _ _ howns)
  rw [hdrawn requestId order hreq]
  exact List.mem_singleton.mpr rfl

/-- An order whose frame is under way was not placed before. -/
theorem Flow.fresh_frame (h : Flow drawn s) {c k : ℕ} {link : Link} {request : EngineRequest}
    (hlink : s.links.find? c = some link) (hframe : (k, request) ∈ link.requests) :
    Fresh (s.served.map (·.request)) request := by
  have hsent : s.sentBy k = some (request, some c) := h.frames c link hlink _ hframe
  intro requestId order hreq hmem
  rcases h.owns_placed hmem with ⟨e, he, howns⟩
  have hown : s.Owns (some k) order.id := ⟨requestId, order, some c, hreq ▸ hsent, rfl⟩
  exact h.unserved c link hlink _ hframe e he (h.unique _ _ _ howns hown)

theorem Flow.direct (h : Flow drawn s) {request : EngineRequest}
    {result : Except ServerError ResponseBundle} {mid : System} {ids : List Uuid}
    (hdrawn : ∀ requestId order, request = .place requestId order → ids = [order.id])
    (hfresh : ∀ x ∈ ids, x ∉ drawn)
    (hhandle : s.handle fuel none request = some (result, mid)) : Flow (drawn ++ ids) mid := by
  rcases h.handle (h.fresh_drawn hdrawn hfresh) hhandle with ⟨hknown, huntouched⟩
  rcases handle_spec hhandle with ⟨engine, hrequest, rfl⟩
  -- an id of this request belongs to no call
  have hnew : ∀ owner x, Owns { s with
      engine := engine
      served := s.served ++ [⟨none, request, s.engine⟩]
      fills := s.fills ++ s.engine.fillsMade fuel request } owner x →
        s.Owns owner x ∨ owner = none ∧ ids = [x] := by
    intro owner x hx
    cases owner with
    | some k => exact .inl hx
    | none =>
      rcases hx with ⟨e, he, hnone, requestId, order, hreq, rfl⟩
      rcases List.mem_append.mp he with he | he
      · exact .inl ⟨e, he, hnone, requestId, order, hreq, rfl⟩
      · cases List.mem_singleton.mp he
        exact .inr ⟨rfl, hdrawn requestId order hreq⟩
  rcases h.owners hnew hfresh with ⟨hdrawn', hunique⟩
  exact {
    frames := h.frames
    once := h.once
    unserved := by
      intro c link hlink f hf e he
      rcases List.mem_append.mp he with he | he
      · exact h.unserved c link hlink f hf e he
      · cases List.mem_singleton.mp he
        simp
    history := by
      intro e he k hcall
      rcases List.mem_append.mp he with he | he
      · exact h.history e he k hcall
      · cases List.mem_singleton.mp he
        cases hcall
    drawn := hdrawn'
    unique := hunique
    known := hknown
    untouched := huntouched }

/-- So does taking up a request from a connection. -/
theorem Flow.serves (h : Flow drawn s) {c k : ℕ} {link link' : Link} {request : EngineRequest}
    {requests : List (ℕ × EngineRequest)} {result : Except ServerError ResponseBundle}
    {mid : System} (hlink : s.links.find? c = some link)
    (hrequests : link.requests = (k, request) :: requests) (hafter : link'.requests = requests)
    (hhandle : s.handle fuel (some k) request = some (result, mid)) :
    Flow drawn (mid.setLink c link') := by
  have hhead : (k, request) ∈ link.requests := hrequests ▸ List.mem_cons_self
  have htail : ∀ f ∈ requests, f ∈ link.requests :=
    fun f hf => hrequests ▸ List.mem_cons_of_mem _ hf
  have hsent : s.sentBy k = some (request, some c) := h.frames c link hlink _ hhead
  have honce := h.once c link hlink
  rw [hrequests, List.map_cons, List.nodup_cons] at honce
  rcases h.handle (h.fresh_frame hlink hhead) hhandle with ⟨hknown, huntouched⟩
  rcases handle_spec hhandle with ⟨engine, hrequest, rfl⟩
  have hlinks : ∀ c' found, (s.links.insert c link').find? c' = some found →
      ∃ old, s.links.find? c' = some old ∧ (∀ f ∈ found.requests, f ∈ old.requests ∧ f.1 ≠ k) ∧
        (found.requests.map Prod.fst).Nodup := by
    intro c' found hfound
    rw [OrdMap.find?_insert] at hfound
    split_ifs at hfound with heq
    · cases hfound
      rw [hafter]
      refine ⟨link, heq ▸ hlink, ?_, honce.2⟩
      intro f hf
      refine ⟨htail f hf, ?_⟩
      rintro rfl
      exact honce.1 (List.mem_map.mpr ⟨f, hf, rfl⟩)
    · refine ⟨found, hfound, ?_, h.once c' found hfound⟩
      intro f hf
      refine ⟨hf, ?_⟩
      rintro rfl
      -- a frame of the same call on another connection
      have hother := h.frames c' found hfound f hf
      rw [hsent] at hother
      cases hother
      exact heq rfl
  have howns : ∀ owner x, Owns (setLink { s with
      engine := engine
      served := s.served ++ [⟨some k, request, s.engine⟩]
      fills := s.fills ++ s.engine.fillsMade fuel request } c link') owner x → s.Owns owner x := by
    intro owner x hx
    cases owner with
    | some k' => exact hx
    | none =>
      rcases hx with ⟨e, he, hnone, hplaces⟩
      rcases List.mem_append.mp he with he | he
      · exact ⟨e, he, hnone, hplaces⟩
      · cases List.mem_singleton.mp he
        cases hnone
  exact {
    frames := by
      intro c' found hfound f hf
      rcases hlinks c' found hfound with ⟨old, hold, hsub, _⟩
      exact h.frames c' old hold f (hsub f hf).1
    once := by
      intro c' found hfound
      rcases hlinks c' found hfound with ⟨_, _, _, hnodup⟩
      exact hnodup
    unserved := by
      intro c' found hfound f hf e he
      rcases hlinks c' found hfound with ⟨old, hold, hsub, _⟩
      rcases List.mem_append.mp he with he | he
      · exact h.unserved c' old hold f (hsub f hf).1 e he
      · cases List.mem_singleton.mp he
        intro heq
        exact (hsub f hf).2 (Option.some.inj heq).symm
    history := by
      intro e he k' hcall
      rcases List.mem_append.mp he with he | he
      · exact h.history e he k' hcall
      · cases List.mem_singleton.mp he
        cases hcall
        exact ⟨c, hsent⟩
    drawn := fun owner x hx => h.drawn owner x (howns owner x hx)
    unique := fun owner owner' x hx hx' =>
      h.unique owner owner' x (howns owner x hx) (howns owner' x hx')
    known := hknown
    untouched := huntouched }

/-! ## What a step makes of a call -/

/-- The steps of a call that sends a request. -/
inductive Evolves (s : System) (op : Op) (k : ℕ) (send : Sending) : Sending → Prop where
  | same : Evolves s op k send send
  | registers (hop : op = .register k) (hphase : send.phase = .prepared) :
      Evolves s op k send { send with phase := .registered }
  | writes (c : ℕ) (outcome : WriteOutcome) (hop : op = .write k outcome)
      (hphase : send.phase = .registered) :
      Evolves s op k send { send with phase := .waiting, conn := some c }
  | unwritten (hop : op = .write k .failed) (hphase : send.phase = .registered) :
      Evolves s op k send { send with phase := .failed (engineFailure .io) }
  | timesOut (hop : op = .timeOut k) (hphase : send.phase = .waiting) :
      Evolves s op k send { send with phase := .failed (engineFailure .timeout) }
  | returns (hop : op = .resolve k) (hphase : send.phase = .waiting)
      (hanswer : s.resolution k send = some none) :
      Evolves s op k send { send with phase := .returned }
  | errs (e : EngineClientError) (hop : op = .resolve k) (hphase : send.phase = .waiting)
      (hanswer : s.resolution k send = some (some e)) :
      Evolves s op k send { send with phase := .failed (engineFailure e) }
  | unlocks (delivery : Tables.Delivery) (error : ApiError) (hop : op = .unlock k delivery)
      (hphase : send.phase = .failed error) :
      Evolves s op k send { send with phase := .refunded error }
  | receives (c : ℕ) (link : Link) (answer : Answer) (responses : List Answer) (id : Uuid)
      (hop : op = .deliver c) (hlink : s.links.find? c = some link)
      (hresponses : link.responses = answer :: responses)
      (hid : responseId answer.response = some id) (hpending : s.pending.find? id = some k) :
      Evolves s op k send { send with reply := some answer }

theorem find?_setCall_sending {k k₀ : ℕ} {call : Call} {send' : Sending}
    (h : (t.setCall k₀ call).calls.find? k = some (.sending send')) :
    k = k₀ ∧ call = .sending send' ∨ t.calls.find? k = some (.sending send') := by
  rw [setCall, OrdMap.find?_insert] at h
  split_ifs at h with heq
  · exact .inl ⟨heq, Option.some.inj h⟩
  · exact .inr h

/-- A call that sends a request was sending it before, or begins to. -/
theorem Step.call {op : Op} (h : Step fuel s op t) {k : ℕ} {send' : Sending}
    (hcall' : t.calls.find? k = some (.sending send')) :
    (s.sentBy k = none ∧ ∃ request lock, send' = .new request lock) ∨
      ∃ send, s.calls.find? k = some (.sending send) ∧ Evolves s op k send send' := by
  -- a call that the step leaves alone
  have hsame : s.calls.find? k = some (.sending send') →
      (s.sentBy k = none ∧ ∃ request lock, send' = .new request lock) ∨
        ∃ send, s.calls.find? k = some (.sending send) ∧ Evolves s op k send send' :=
    fun hold => .inr ⟨send', hold, .same⟩
  cases h with
  | idle db hbefore hafter =>
    rcases find?_setCall_sending hcall' with ⟨_, heq⟩ | hold
    · exact absurd heq (hafter send')
    · exact hsame hold
  | prepared db hbefore hdrawn =>
    rcases find?_setCall_sending hcall' with ⟨rfl, heq⟩ | hold
    · cases heq
      exact .inl ⟨sentBy_eq_none hbefore, _, _, rfl⟩
    · exact hsame hold
  | registered hcall hphase =>
    rcases find?_setCall_sending hcall' with ⟨rfl, heq⟩ | hold
    · cases heq
      exact .inr ⟨_, hcall, .registers rfl hphase⟩
    · exact hsame hold
  | wrote hcall hphase hlink =>
    rcases find?_setCall_sending hcall' with ⟨rfl, heq⟩ | hold
    · cases heq
      exact .inr ⟨_, hcall, .writes _ _ rfl hphase⟩
    · exact hsame hold
  | connected hcall hphase hlink =>
    rcases find?_setCall_sending hcall' with ⟨rfl, heq⟩ | hold
    · cases heq
      exact .inr ⟨_, hcall, .writes _ _ rfl hphase⟩
    · exact hsame hold
  | unwritten hcall hphase =>
    rcases find?_setCall_sending hcall' with ⟨rfl, heq⟩ | hold
    · cases heq
      exact .inr ⟨_, hcall, .unwritten rfl hphase⟩
    · exact hsame hold
  | timedOut hcall hphase =>
    rcases find?_setCall_sending hcall' with ⟨rfl, heq⟩ | hold
    · cases heq
      exact .inr ⟨_, hcall, .timesOut rfl hphase⟩
    · exact hsame hold
  | returned hcall hphase hanswer =>
    rcases find?_setCall_sending hcall' with ⟨rfl, heq⟩ | hold
    · cases heq
      exact .inr ⟨_, hcall, .returns rfl hphase hanswer⟩
    · exact hsame hold
  | erred hcall hphase hanswer =>
    rcases find?_setCall_sending hcall' with ⟨rfl, heq⟩ | hold
    · cases heq
      exact .inr ⟨_, hcall, .errs _ rfl hphase hanswer⟩
    · exact hsame hold
  | unlocked delivery hcall hphase hlock =>
    rcases find?_setCall_sending hcall' with ⟨rfl, heq⟩ | hold
    · cases heq
      exact .inr ⟨_, hcall, .unlocks delivery _ rfl hphase⟩
    · exact hsame hold
  | served responses serving hlink hserving hrequests hhandle =>
    rcases handle_spec hhandle with ⟨engine, _, rfl⟩
    exact hsame hcall'
  | hungUp => exact hsame hcall'
  -- the call that is found by the id, if it is still sending
  | delivered hlink hreader hresponses =>
    unfold deliver at hcall'
    split at hcall'
    · exact hsame hcall'
    next id hid =>
    split at hcall'
    · exact hsame hcall'
    next k₀ hpending =>
    dsimp only at hcall'
    split at hcall'
    · next send hcall =>
      rcases find?_setCall_sending hcall' with ⟨rfl, heq⟩ | hold
      · cases heq
        exact .inr ⟨_, hcall, .receives _ _ _ _ id rfl hlink hresponses hid hpending⟩
      · exact hsame hold
    · exact hsame hcall'
  | readerStopped => exact hsame hcall'
  | readerCleared => exact hsame hcall'
  | direct hhandle =>
    rcases handle_spec hhandle with ⟨engine, _, rfl⟩
    exact hsame hcall'
  | settled => exact hsame hcall'

/-- A call keeps the request it sends. -/
theorem Moves.sentBy {op : Op} (h : Moves fuel s op t) {k : ℕ} {request : EngineRequest}
    {conn : Option ℕ} (hsent : s.sentBy k = some (request, conn)) :
    ∃ conn', t.sentBy k = some (request, conn') := by
  cases h with
  | keeps hkeeps => exact ⟨conn, (hkeeps.sentBy k).trans hsent⟩
  | prepares db hbefore =>
    refine ⟨conn, ?_⟩
    rw [sentBy_setCall, if_neg]
    · exact hsent
    · -- a call that prepares has sent nothing yet
      rintro rfl
      rw [hbefore] at hsent
      cases hsent
  | writes hcall _ hkeeps =>
    rw [sentBy_setCall]
    -- a call that writes keeps its request and gets a connection
    split_ifs with heq
    · rw [heq, sentBy_of_sending hcall] at hsent
      cases hsent
      exact ⟨_, rfl⟩
    · exact ⟨conn, (hkeeps.sentBy k).trans hsent⟩
  | serves _ _ _ _ hhandle =>
    rcases handle_spec hhandle with ⟨engine, _, rfl⟩
    exact ⟨conn, hsent⟩
  | direct _ hhandle =>
    rcases handle_spec hhandle with ⟨engine, _, rfl⟩
    exact ⟨conn, hsent⟩

/-- A call that sends a request goes on doing so. -/
theorem Step.call_next {op : Op} (h : Step fuel s op t) {k : ℕ} {send : Sending}
    (hcall : s.calls.find? k = some (.sending send)) :
    ∃ send', t.calls.find? k = some (.sending send') ∧ Evolves s op k send send' := by
  have hsent := sentBy_of_sending hcall
  rcases h.moves.sentBy hsent with ⟨conn', hsent'⟩
  unfold System.sentBy at hsent'
  split at hsent'
  · next send' hcall' =>
    refine ⟨send', hcall', ?_⟩
    rcases h.call hcall' with ⟨hnone, _⟩ | ⟨send₀, hcall₀, hevolves⟩
    · rw [hsent] at hnone
      cases hnone
    · rw [hcall] at hcall₀
      cases hcall₀
      exact hevolves
  · cases hsent'

/-- Before its frame is written, a call is on no connection. -/
def Phased (s : System) : Prop :=
  ∀ k send, s.calls.find? k = some (.sending send) →
    send.phase = .prepared ∨ send.phase = .registered → send.conn = none

theorem Phased.step {op : Op} (h : Phased s) (hstep : Step fuel s op t) : Phased t := by
  intro k send' hcall' hphase'
  rcases hstep.call hcall' with ⟨_, request, lock, rfl⟩ | ⟨send, hcall, hevolves⟩
  · rfl
  · have hbefore := h k send hcall
    cases hevolves with
    | same => exact hbefore hphase'
    | registers _ hphase => exact hbefore (.inl hphase)
    | receives => exact hbefore hphase'
    | writes | unwritten | timesOut | returns | errs | unlocks => simp at hphase'

/-! ## Runs -/

/-- So every step keeps the flow. -/
theorem Flow.step (h : Flow drawn s) (hphased : Phased s) {op : Op}
    (hfresh : ∀ x ∈ op.drawn, x ∉ drawn) (hstep : Step fuel s op t) :
    Flow (drawn ++ op.drawn) t := by
  have hmoves := hstep.moves
  cases hmoves with
  | keeps hkeeps => exact (h.keeps hkeeps).mono _
  | prepares db hbefore hdrawn => exact h.prepares db hbefore hdrawn hfresh
  | writes hcall hphase hkeeps hrequests hlink =>
    exact (h.writes hcall (hphased _ _ hcall (.inr hphase)) hkeeps hrequests hlink).mono _
  | serves hlink _ hrequests hafter hhandle => exact (h.serves hlink hrequests hafter hhandle).mono _
  | direct hdrawn hhandle => exact h.direct hdrawn hfresh hhandle

/-- The flow of requests in every run that draws every order id once. -/
theorem flow_of_run {engine : EngineState} {db : Tables}
    (hempty : engine.exchange = Server.Exchange.empty) {ops : List Op}
    (hids : (drawnIds ops).Nodup)
    (hrun : Machine.run (step fuel mul) (start engine db) ops = some s) :
    Flow (drawnIds ops) s ∧ Phased s := by
  refine Machine.run_induction (fun past s => Flow (drawnIds past) s ∧ Phased s)
    (fun past _ op => ∀ x ∈ op.drawn, x ∉ drawnIds past) ?_ ⟨Flow.start db hempty, ?_⟩ ?_ hrun
  · rintro past mid op mid' _ ⟨hflow, hphased⟩ hfresh hstep
    have hspec := step_spec hstep
    refine ⟨?_, hphased.step hspec⟩
    rw [drawnIds_append]
    have hnext := hflow.step hphased hfresh hspec
    simpa [drawnIds] using hnext
  · intro k send hcall
    cases hcall
  · rintro past op rest _ rfl _ x hx hmem
    rw [drawnIds_append, List.nodup_append] at hids
    refine hids.2.2 x hmem x ?_ rfl
    exact List.mem_append_left _ hx

end System

end CryptoCex.Api
