import CryptoCex.Lib.Machine
import CryptoCex.MarketData.MarketMaker
import CryptoCex.Server.OpenTable

/-!
# The market maker and the engine

The worker of the market maker in front of the engine that others use too. A round is one request
after another: for every ticker the old quotes are withdrawn, and if the ticker is not stale the
new ones are placed. The worker waits for each reply, and a request that fails ends it; a new one
knows no ticker. Between its requests the engine serves other clients, the orders of a market may
be canceled by anyone, and a request that the worker gave up on may still arrive at any time.

However the steps interleave, the live quotes of a market are quotes of one ticker, every level of
it at most once, apart from the requests that the worker gave up on (`one_ladder_per_market`).
-/

namespace CryptoCex.MarketData

open CryptoCex.Core (Decimal Order Uuid)
open Machine (run Along)
open Proto (AckResult EngineOrder EngineRequest EngineResponse OrderSide)
open Server (EngineState Exchange ResponseBundle ServerError mem_live_iff toCoreOrder toCoreSide)
open Server.EngineState (Displays Fresh InScope Tended mem_placements placedIds placements
  placements_append)

deriving instance DecidableEq for TimedTicker

/-! ## The worker -/

/-- The quotes for a ticker in the order in which they are placed. -/
def ladder (arith : Arithmetic) (generator : QuoteGenerator) (ticker : BookTicker) :
    List (OrderSide × QuoteLevel) :=
  let quotes := generator.generate arith ticker
  quotes.bids.map (fun level => (.buy, level)) ++ quotes.asks.map fun level => (.sell, level)

/-- A ladder has every level on both sides. -/
theorem length_ladder (arith : Arithmetic) (generator : QuoteGenerator) (ticker : BookTicker) :
    (ladder arith generator ticker).length = 2 * generator.levels := by
  simp only [ladder, List.length_append, List.length_map, length_bids, length_asks]
  omega

/-- What is left of a round: the tickers it comes to, and the quotes of the one it came to. -/
inductive Task where
  | refresh (symbol : String) (timed : TimedTicker)
  | quote (symbol : String) (side : OrderSide) (level : QuoteLevel)

/-- What becomes of a request of the worker. -/
inductive Fate where
  /-- The reply comes in time. -/
  | answered
  /-- The engine handles it, and the worker does not see the reply. -/
  | unanswered
  /-- The worker stops waiting before the engine reads it. -/
  | delayed
  /-- It cannot be sent. -/
  | unsent

structure Venue where
  engine : EngineState
  maker : MarketMaker
  todo : List Task
  /-- Requests that the worker gave up on and that the engine may still read. -/
  delayed : List EngineRequest
  /-- History: the orders of the requests that the worker gave up on. -/
  abandoned : List Uuid
  /-- History: the requests that the engine handled. -/
  served : List EngineRequest

inductive Action where
  /-- A ticker of the exchange outside arrives. -/
  | ticker (ticker : BookTicker) (now : ℕ)
  /-- A round begins; the map is iterated in any order. -/
  | round (tickers : List (String × TimedTicker))
  /-- The worker makes its next request. -/
  | work (requestId orderId : Uuid) (now : ℕ) (fate : Fate)
  /-- The worker ends, and another one starts. -/
  | restart
  /-- The engine reads a request that the worker gave up on. -/
  | arrive (request : EngineRequest)
  /-- The engine handles a request of another client. -/
  | other (request : EngineRequest)

/-- The ids of orders that are drawn. -/
def Action.drawn : Action → List Uuid
  | .work _ orderId _ _ => [orderId]
  | .other (.place _ order) => [order.id]
  | _ => []

namespace Venue

/-- The engine handles a request. -/
def serve (fuel : ℕ) (v : Venue) (request : EngineRequest) :
    Option (Except ServerError ResponseBundle × Venue) :=
  (v.engine.handleRequest fuel request).map fun answer =>
    (answer.1, { v with engine := answer.2, served := v.served ++ [request] })

/-- A request that fails in the engine gets no reply. -/
def replyOf : Except ServerError ResponseBundle → Except EngineClientError EngineResponse
  | .ok bundle => .ok bundle.response
  | .error _ => .error .timeout

/-- `send` -/
def send (fuel : ℕ) (v : Venue) (request : EngineRequest) :
    Fate → Option (Except EngineClientError EngineResponse × Venue)
  | .answered => (v.serve fuel request).map fun answer => (replyOf answer.1, answer.2)
  | .unanswered => (v.serve fuel request).map fun answer => (.error .timeout, answer.2)
  | .delayed => some (.error .timeout, { v with
      delayed := request :: v.delayed
      abandoned := placedIds [request] ++ v.abandoned })
  | .unsent => some (.error .io, v)

/-- The worker ends; the next one has seen no ticker. -/
def restart (v : Venue) : Venue :=
  { v with maker := { v.maker with latest := OrdMap.empty }, todo := [] }

/-- The worker goes on with `todo` if the request succeeded. -/
def proceed (v : Venue) (result : Except EngineClientError Unit) (todo : List Task) : Venue :=
  match result with
  | .ok () => { v with todo := todo }
  | .error _ => v.restart

/-- What follows once the quotes for the ticker are withdrawn. -/
def quotesFor (arith : Arithmetic) (v : Venue) (symbol : String) (timed : TimedTicker)
    (now : ℕ) : List Task :=
  if v.maker.Stale timed now then []
  else (ladder arith v.maker.quoteGenerator timed.ticker).map fun entry =>
    .quote symbol entry.1 entry.2

def step (arith : Arithmetic) (fuel : ℕ) (v : Venue) : Action → Option Venue
  | .ticker ticker now =>
    if v.todo.isEmpty then some { v with maker := v.maker.recordTicker ticker now } else none
  | .round tickers =>
    if v.todo.isEmpty ∧ tickers.Perm v.maker.latest.entries then
      some { v with todo := tickers.map fun entry => .refresh entry.1 entry.2 }
    else none
  | .work requestId orderId now fate =>
    match v.todo with
    | [] => none
    | .refresh symbol timed :: todo =>
      (v.send fuel (.cancelAll requestId v.maker.userId (some symbol)) fate).map fun sent =>
        sent.2.proceed (resultOf requestId isCancelAll sent.1)
          (v.quotesFor arith symbol timed now ++ todo)
    | .quote symbol side level :: todo =>
      (v.send fuel (.place requestId (quoteOrder orderId v.maker.userId symbol side level))
        fate).map fun sent => sent.2.proceed (resultOf requestId isOrder sent.1) todo
  | .restart => some v.restart
  | .arrive request =>
    if request ∈ v.delayed then
      (v.serve fuel request).map fun answer =>
        { answer.2 with delayed := v.delayed.erase request }
    else none
  | .other request => (v.serve fuel request).map Prod.snd

def start (engine : EngineState) (maker : MarketMaker) : Venue where
  engine := engine
  maker := maker
  todo := []
  delayed := []
  abandoned := []
  served := []

/-- Nobody else places orders under the id of the market maker, and what the orders of others show
is positive. -/
def Fair (v : Venue) : Action → Prop
  | .other request => Displays request ∧
      ∀ requestId order, request = .place requestId order → order.userId ≠ v.maker.userId
  | _ => True

variable {arith : Arithmetic} {fuel : ℕ} {v v' : Venue} {drawn : List Uuid}

/-! ## Requests that are handled -/

/-- What the engine does with a request that it reads. -/
theorem serve_eq_some {request : EngineRequest} {answer : Except ServerError ResponseBundle × Venue}
    (h : v.serve fuel request = some answer) : ∃ engine,
      v.engine.handleRequest fuel request = some (answer.1, engine) ∧
      answer.2 = { v with engine := engine, served := v.served ++ [request] } := by
  rcases Option.map_eq_some_iff.mp h with ⟨⟨result, engine⟩, hhandle, rfl⟩
  exact ⟨engine, hhandle, rfl⟩

/-- What becomes of a request that is sent. -/
inductive Sent (fuel : ℕ) (v : Venue) (request : EngineRequest) :
    Except EngineClientError EngineResponse × Venue → Prop where
  | answered {result : Except ServerError ResponseBundle} {engine : EngineState}
      (hhandle : v.engine.handleRequest fuel request = some (result, engine)) :
      Sent fuel v request
        (replyOf result, { v with engine := engine, served := v.served ++ [request] })
  | unanswered {result : Except ServerError ResponseBundle} {engine : EngineState}
      (hhandle : v.engine.handleRequest fuel request = some (result, engine)) :
      Sent fuel v request
        (.error .timeout, { v with engine := engine, served := v.served ++ [request] })
  | delayed : Sent fuel v request (.error .timeout, { v with
      delayed := request :: v.delayed
      abandoned := placedIds [request] ++ v.abandoned })
  | unsent : Sent fuel v request (.error .io, v)

/-- Every way to send a request is one of these. -/
theorem sent_of_send {request : EngineRequest} {fate : Fate}
    {answer : Except EngineClientError EngineResponse × Venue}
    (h : v.send fuel request fate = some answer) : Sent fuel v request answer := by
  cases fate with
  | answered =>
    rcases Option.map_eq_some_iff.mp h with ⟨served, hserve, rfl⟩
    rcases serve_eq_some hserve with ⟨engine, hhandle, hv⟩
    rw [hv]
    exact .answered hhandle
  | unanswered =>
    rcases Option.map_eq_some_iff.mp h with ⟨served, hserve, rfl⟩
    rcases serve_eq_some hserve with ⟨engine, hhandle, hv⟩
    rw [hv]
    exact .unanswered hhandle
  | delayed =>
    cases h
    exact .delayed
  | unsent =>
    cases h
    exact .unsent

/-- Only an acknowledgement is a success. -/
theorem ok_of_resultOf {requestId : Uuid} {isResult : AckResult → Bool}
    {result : Except ServerError ResponseBundle}
    (h : resultOf requestId isResult (replyOf result) = .ok ()) :
    ∃ bundle, result = .ok bundle := by
  cases result with
  | ok bundle => exact ⟨bundle, rfl⟩
  | error => cases h

/-! ## The ladder of a market -/

/-- For each market the ticker whose quotes were placed last, and their ids. -/
abbrev Ladders := String → Option (BookTicker × List Uuid)

/-- The order is the quote of a level. -/
def Quotes (arith : Arithmetic) (maker : MarketMaker) (symbol : String) (ticker : BookTicker)
    (ids : List Uuid) (order : EngineOrder) : Prop :=
  ∃ (i : ℕ) (side : OrderSide) (level : QuoteLevel), ids[i]? = some order.id ∧
    (ladder arith maker.quoteGenerator ticker)[i]? = some (side, level) ∧
    order = quoteOrder order.id maker.userId symbol side level

/-- What the worker still has to place in the market it came to. -/
inductive Pending (arith : Arithmetic) (generator : QuoteGenerator) (quoted : Ladders) :
    List Task → Prop where
  | tickers (tickers : List (String × TimedTicker))
      (hof : ∀ entry ∈ tickers, entry.2.ticker.symbol = entry.1) :
      Pending arith generator quoted (tickers.map fun entry => .refresh entry.1 entry.2)
  | quotes {symbol : String} {ticker : BookTicker} {ids : List Uuid}
      (hquoted : quoted symbol = some (ticker, ids)) (tickers : List (String × TimedTicker))
      (hof : ∀ entry ∈ tickers, entry.2.ticker.symbol = entry.1) :
      Pending arith generator quoted
        ((((ladder arith generator ticker).drop ids.length).map fun entry =>
          .quote symbol entry.1 entry.2) ++ tickers.map fun entry => .refresh entry.1 entry.2)

/-- What is known of the requests that were and that may still be handled. -/
structure Served (drawn : List Uuid) (v : Venue) : Prop where
  tended : Tended v.served v.engine
  unique : (placedIds (v.served ++ v.delayed)).Nodup
  drawn : ∀ x ∈ placedIds (v.served ++ v.delayed), x ∈ drawn
  displays : ∀ request ∈ v.delayed, Displays request
  abandoned : ∀ x ∈ placedIds v.delayed, x ∈ v.abandoned

/-- The live quotes of every market are of one ladder, apart from the abandoned ones. -/
structure Laddered (arith : Arithmetic) (quoted : Ladders) (v : Venue) : Prop where
  symbol : ∀ symbol ticker ids, quoted symbol = some (ticker, ids) → ticker.symbol = symbol
  few : ∀ symbol ticker ids, quoted symbol = some (ticker, ids) →
    ids.length ≤ (ladder arith v.maker.quoteGenerator ticker).length
  placed : ∀ symbol ticker ids, quoted symbol = some (ticker, ids) →
    ∀ x ∈ ids, x ∈ placedIds v.served
  quotes : ∀ symbol ticker ids, quoted symbol = some (ticker, ids) → ∀ order ∈ placements v.served,
    order.id ∈ ids → Quotes arith v.maker symbol ticker ids order
  live : ∀ symbol, ∀ o ∈ (v.engine.bookOf symbol).live, o.userId = v.maker.userId →
    o.id ∈ v.abandoned ∨ ∃ ticker ids, quoted symbol = some (ticker, ids) ∧ o.id ∈ ids
  todo : Pending arith v.maker.quoteGenerator quoted v.todo
  latest : ∀ symbol timed, v.maker.latest.find? symbol = some timed →
    timed.ticker.symbol = symbol

variable {quoted : Ladders} {request : EngineRequest} {engine : EngineState}
  {result : Except ServerError ResponseBundle}

theorem placedIds_append (reqs reqs' : List EngineRequest) :
    placedIds (reqs ++ reqs') = placedIds reqs ++ placedIds reqs' := by
  simp only [placedIds, placements_append, List.map_append]

theorem placements_perm {reqs reqs' : List EngineRequest} (h : reqs.Perm reqs') :
    (placements reqs).Perm (placements reqs') := by
  have hflat : ∀ reqs, placements reqs = reqs.flatMap fun req => placements [req] := by
    intro reqs
    induction reqs with
    | nil => rfl
    | cons req reqs ih =>
      rw [← List.singleton_append, placements_append, ih]
      rfl
  rw [hflat reqs, hflat reqs']
  exact h.flatMap_right _

theorem placedIds_subset {reqs reqs' : List EngineRequest} (h : reqs ⊆ reqs') :
    placedIds reqs ⊆ placedIds reqs' := by
  intro x hx
  rcases List.mem_map.mp hx with ⟨order, horder, rfl⟩
  rcases mem_placements.mp horder with ⟨requestId, hmem⟩
  exact List.mem_map_of_mem (mem_placements.mpr ⟨requestId, h hmem⟩)

/-- A request is fresh if all order ids are distinct. -/
theorem fresh_of_unique {reqs reqs' : List EngineRequest}
    (h : (placedIds (reqs ++ request :: reqs')).Nodup) : Fresh reqs request :=
  Server.EngineState.fresh_of_nodup h reqs request reqs' rfl

/-- A request is handled, and `delayed` requests are left. -/
theorem Served.handled (h : Served drawn v) {drawn' : List Uuid} {delayed : List EngineRequest}
    (hunique : (placedIds (v.served ++ request :: delayed)).Nodup)
    (hdrawn : ∀ x ∈ placedIds (v.served ++ request :: delayed), x ∈ drawn')
    (hsub : delayed ⊆ v.delayed) (hdisplays : Displays request)
    (hhandle : v.engine.handleRequest fuel request = some (result, engine)) :
    Served drawn'
      { v with engine := engine, served := v.served ++ [request], delayed := delayed } where
  tended := h.tended.step (fresh_of_unique hunique) hdisplays hhandle
  unique := by
    rw [List.append_assoc]
    exact hunique
  drawn := by
    rw [List.append_assoc]
    exact hdrawn
  displays := fun req hreq => h.displays req (hsub hreq)
  abandoned := fun x hx => h.abandoned x (placedIds_subset hsub hx)

/-- A request that places no quote leaves the ladders as they are. -/
theorem Laddered.handled (h : Laddered arith quoted v) (htended : Tended v.served v.engine)
    (hfresh : Fresh v.served request) (hdisplays : Displays request)
    (hhandle : v.engine.handleRequest fuel request = some (result, engine))
    (hown : ∀ requestId order, request = .place requestId order →
      order.userId = v.maker.userId → order.id ∈ v.abandoned) (delayed : List EngineRequest) :
    Laddered arith quoted
      { v with engine := engine, served := v.served ++ [request], delayed := delayed } where
  symbol := h.symbol
  few := h.few
  placed := by
    intro symbol ticker ids hquoted x hx
    rw [placedIds_append]
    exact List.mem_append_left _ (h.placed symbol ticker ids hquoted x hx)
  quotes := by
    intro symbol ticker ids hquoted order horder hid
    rw [placements_append] at horder
    rcases List.mem_append.mp horder with hold | hnew
    · exact h.quotes symbol ticker ids hquoted order hold hid
    · rcases mem_placements.mp hnew with ⟨requestId, hmem⟩
      rw [List.mem_singleton] at hmem
      exact (hfresh requestId order hmem.symm (h.placed symbol ticker ids hquoted _ hid)).elim
  live := by
    intro symbol o ho huser
    rcases htended.live_cases hfresh hdisplays hhandle ho with
      ⟨o', ho', hid, huser'⟩ | ⟨requestId, order, rfl, hid, huser', _⟩
    · rw [← hid]
      exact h.live symbol o' ho' (huser'.trans huser)
    · rw [← hid]
      exact .inl (hown requestId order rfl (huser'.trans huser))
  todo := h.todo
  latest := h.latest

/-- A worker that ends leaves its quotes where they are. -/
theorem Laddered.restart (h : Laddered arith quoted v) : Laddered arith quoted v.restart where
  symbol := h.symbol
  few := h.few
  placed := h.placed
  quotes := h.quotes
  live := h.live
  todo := .tickers [] (by simp)
  latest := by
    intro symbol timed htimed
    cases htimed

/-- The worker forgets its tasks; the engine keeps what it was sent. -/
theorem Served.restart (h : Served drawn v) : Served drawn v.restart where
  tended := h.tended
  unique := h.unique
  drawn := h.drawn
  displays := h.displays
  abandoned := h.abandoned

/-! ## The requests of the worker -/

/-- Sending a request with new ids keeps the ids distinct, wherever the request ends up. -/
theorem Served.sent (h : Served drawn v)
    {answer : Except EngineClientError EngineResponse × Venue}
    (hdisplays : Displays request) (hnew : ∀ x ∈ placedIds [request], x ∉ drawn)
    {drawn' : List Uuid} (hsub : drawn ⊆ drawn') (hin : ∀ x ∈ placedIds [request], x ∈ drawn')
    (hone : (placedIds [request]).Nodup) (hsent : Sent fuel v request answer) :
    Served drawn' answer.2 := by
  have hdisjoint : ∀ x ∈ placedIds [request], x ∉ placedIds (v.served ++ v.delayed) :=
    fun x hx hmem => hnew x hx (h.drawn x hmem)
  have hperm : (placedIds (v.served ++ request :: v.delayed)).Perm
      (placedIds [request] ++ placedIds (v.served ++ v.delayed)) := by
    rw [← List.singleton_append, placedIds_append, placedIds_append, placedIds_append]
    exact List.perm_append_comm_assoc ..
  have hunique : (placedIds (v.served ++ request :: v.delayed)).Nodup := by
    rw [hperm.nodup_iff, List.nodup_append]
    refine ⟨hone, h.unique, ?_⟩
    rintro x hx y hy rfl
    exact hdisjoint x hx hy
  have hdrawn : ∀ x ∈ placedIds (v.served ++ request :: v.delayed), x ∈ drawn' := by
    intro x hx
    rcases List.mem_append.mp (hperm.subset hx) with hx | hx
    · exact hin x hx
    · exact hsub (h.drawn x hx)
  have hhandled : ∀ {result engine}, v.engine.handleRequest fuel request = some (result, engine) →
      Served drawn' { v with engine := engine, served := v.served ++ [request] } :=
    fun hhandle => h.handled hunique hdrawn (List.Subset.refl _) hdisplays hhandle
  cases hsent with
  | answered hhandle => exact hhandled hhandle
  | unanswered hhandle => exact hhandled hhandle
  -- the worker gives up on a request that the engine may still read
  | delayed =>
    refine ⟨h.tended, hunique, hdrawn, ?_, ?_⟩
    · intro req hreq
      rcases List.mem_cons.mp hreq with rfl | hreq
      · exact hdisplays
      · exact h.displays req hreq
    · intro x hx
      rw [← List.singleton_append, placedIds_append] at hx
      rcases List.mem_append.mp hx with hx | hx
      · exact List.mem_append_left _ hx
      · exact List.mem_append_right _ (h.abandoned x hx)
  | unsent => exact { h with drawn := fun x hx => hsub (h.drawn x hx) }

/-- The worker gave up on a request before it was read. -/
theorem Laddered.delayed (h : Laddered arith quoted v) (request : EngineRequest) :
    Laddered arith quoted { v with
      delayed := request :: v.delayed
      abandoned := placedIds [request] ++ v.abandoned } where
  symbol := h.symbol
  few := h.few
  placed := h.placed
  quotes := h.quotes
  live := by
    intro symbol o ho huser
    rcases h.live symbol o ho huser with habandoned | hlisted
    · exact .inl (List.mem_append_right _ habandoned)
    · exact .inr hlisted
  todo := h.todo
  latest := h.latest

/-- What is left to do starts a new ladder. -/
theorem Pending.of_refresh {generator : QuoteGenerator} {symbol : String} {timed : TimedTicker}
    {todo : List Task} (h : Pending arith generator quoted (.refresh symbol timed :: todo)) :
    timed.ticker.symbol = symbol ∧ ∃ tickers : List (String × TimedTicker),
      (∀ entry ∈ tickers, entry.2.ticker.symbol = entry.1) ∧
        todo = tickers.map fun entry => .refresh entry.1 entry.2 := by
  have hmap : ∀ tickers : List (String × TimedTicker),
      (∀ entry ∈ tickers, entry.2.ticker.symbol = entry.1) →
      (tickers.map fun entry => Task.refresh entry.1 entry.2) = .refresh symbol timed :: todo →
      timed.ticker.symbol = symbol ∧ ∃ tickers : List (String × TimedTicker),
        (∀ entry ∈ tickers, entry.2.ticker.symbol = entry.1) ∧
          todo = tickers.map fun entry => .refresh entry.1 entry.2 := by
    intro tickers hof heq
    rcases List.map_eq_cons_iff.mp heq with ⟨entry, rest, rfl, hentry, rfl⟩
    cases hentry
    exact ⟨hof entry List.mem_cons_self, rest,
      fun entry' h' => hof entry' (List.mem_cons_of_mem _ h'), rfl⟩
  generalize htasks : Task.refresh symbol timed :: todo = tasks at h
  cases h with
  | tickers tickers hof => exact hmap tickers hof htasks.symm
  -- the ladder before is complete
  | @quotes symbol' ticker ids hquoted tickers hof =>
    cases hleft : (ladder arith generator ticker).drop ids.length with
    | nil =>
      rw [hleft] at htasks
      exact hmap tickers hof htasks.symm
    | cons entry rest =>
      rw [hleft] at htasks
      cases htasks

theorem getElem?_of_drop {α : Type*} {l rest : List α} {n : ℕ} {a : α}
    (h : l.drop n = a :: rest) : l[n]? = some a ∧ l.drop (n + 1) = rest := by
  constructor
  · have hhead := congrArg List.head? h
    rwa [List.head?_drop, List.head?_cons] at hhead
  · rw [← List.tail_drop, h, List.tail_cons]

/-- What is left to do goes on with the next place of the ladder. -/
theorem Pending.of_quote {generator : QuoteGenerator} {symbol : String} {side : OrderSide}
    {level : QuoteLevel} {todo : List Task}
    (h : Pending arith generator quoted (.quote symbol side level :: todo)) :
    ∃ ticker ids, quoted symbol = some (ticker, ids) ∧
      (ladder arith generator ticker)[ids.length]? = some (side, level) ∧
      ∃ tickers : List (String × TimedTicker),
        (∀ entry ∈ tickers, entry.2.ticker.symbol = entry.1) ∧
        todo = (((ladder arith generator ticker).drop (ids.length + 1)).map fun entry =>
          Task.quote symbol entry.1 entry.2) ++
            tickers.map fun entry => .refresh entry.1 entry.2 := by
  have hmap : ∀ tickers : List (String × TimedTicker),
      (tickers.map fun entry => Task.refresh entry.1 entry.2) ≠ .quote symbol side level :: todo := by
    intro tickers heq
    rcases List.map_eq_cons_iff.mp heq with ⟨entry, rest, rfl, hentry, rfl⟩
    cases hentry
  generalize htasks : Task.quote symbol side level :: todo = tasks at h
  cases h with
  | tickers tickers hof => exact (hmap tickers htasks.symm).elim
  -- the quote is the first of what is left of its ladder
  | @quotes symbol' ticker ids hquoted tickers hof =>
    cases hleft : (ladder arith generator ticker).drop ids.length with
    | nil =>
      rw [hleft] at htasks
      exact (hmap tickers htasks.symm).elim
    | cons entry rest =>
      rw [hleft] at htasks
      cases htasks
      rcases getElem?_of_drop hleft with ⟨hget, hrest⟩
      refine ⟨ticker, ids, hquoted, hget, tickers, hof, ?_⟩
      rw [hrest]
      rfl

/-- The quotes of a market are withdrawn, and those for a ticker are about to be placed. -/
theorem Laddered.withdrawn (h : Laddered arith quoted v) (htended : Tended v.served v.engine)
    {symbol : String} {timed : TimedTicker} {todo : List Task} {requestId : Uuid}
    {bundle : ResponseBundle} (htodo : v.todo = .refresh symbol timed :: todo)
    (hhandle : v.engine.handleRequest fuel
      (.cancelAll requestId v.maker.userId (some symbol)) = some (.ok bundle, engine)) (now : ℕ) :
    Laddered arith (Function.update quoted symbol (some (timed.ticker, []))) { v with
      engine := engine
      served := v.served ++ [.cancelAll requestId v.maker.userId (some symbol)]
      todo := v.quotesFor arith symbol timed now ++ todo } := by
  have hpending := h.todo
  rw [htodo] at hpending
  rcases hpending.of_refresh with ⟨hsymbol, tickers, hof, rfl⟩
  have hfresh : Fresh v.served (.cancelAll requestId v.maker.userId (some symbol)) := by
    rintro requestId order ⟨⟩
  have hdisplays : Displays (.cancelAll requestId v.maker.userId (some symbol)) := by
    rintro requestId order ⟨⟩
  have hnext := htended.step hfresh hdisplays hhandle
  have hplacements : placements
      (v.served ++ [.cancelAll requestId v.maker.userId (some symbol)]) = placements v.served := by
    rw [placements_append]
    exact List.append_nil _
  have hupdate : ∀ {symbol' ticker ids},
      Function.update quoted symbol (some (timed.ticker, [])) symbol' = some (ticker, ids) →
      symbol' = symbol ∧ ticker = timed.ticker ∧ ids = [] ∨ quoted symbol' = some (ticker, ids) := by
    intro symbol' ticker ids hquoted
    rw [Function.update_apply] at hquoted
    split_ifs at hquoted with hsame
    · cases hquoted
      exact .inl ⟨hsame, rfl, rfl⟩
    · exact .inr hquoted
  constructor
  · intro symbol' ticker ids hquoted
    rcases hupdate hquoted with ⟨rfl, rfl, _⟩ | hold
    · exact hsymbol
    · exact h.symbol symbol' ticker ids hold
  · intro symbol' ticker ids hquoted
    rcases hupdate hquoted with ⟨_, _, rfl⟩ | hold
    · exact Nat.zero_le _
    · exact h.few symbol' ticker ids hold
  · intro symbol' ticker ids hquoted x hx
    rw [placedIds, hplacements]
    rcases hupdate hquoted with ⟨_, _, rfl⟩ | hold
    · cases hx
    · exact h.placed symbol' ticker ids hold x hx
  · intro symbol' ticker ids hquoted order horder hid
    rw [hplacements] at horder
    rcases hupdate hquoted with ⟨_, _, rfl⟩ | hold
    · cases hid
    · exact h.quotes symbol' ticker ids hold order horder hid
  · intro symbol' o ho huser
    by_cases hsame : symbol' = symbol
    · -- nothing of the market maker's is left in this market
      have hosymbol := ((hnext.known.bookOf symbol').2 o (mem_live_iff.mp ho)).1
      have hscope : InScope v.maker.userId (some symbol) o := by
        refine ⟨huser, ?_⟩
        rintro s ⟨⟩
        exact hsame.symm.trans hosymbol.symm
      exact (htended.none_in_scope (Option.some.inj hhandle) ho hscope).elim
    · rcases htended.live_cases hfresh hdisplays hhandle ho with
        ⟨o', ho', hid, huser'⟩ | ⟨_, _, ⟨⟩, _⟩
      rw [← hid, Function.update_of_ne hsame]
      exact h.live symbol' o' ho' (huser'.trans huser)
  · unfold quotesFor
    split_ifs
    · exact .tickers tickers hof
    · exact .quotes (Function.update_self ..) tickers hof
  · exact h.latest

/-- The next quote of a market is placed. -/
theorem Laddered.next (h : Laddered arith quoted v) (htended : Tended v.served v.engine)
    {symbol : String} {side : OrderSide} {level : QuoteLevel} {todo : List Task}
    {requestId orderId : Uuid} (htodo : v.todo = .quote symbol side level :: todo)
    (hfresh : orderId ∉ placedIds v.served)
    (hhandle : v.engine.handleRequest fuel
      (.place requestId (quoteOrder orderId v.maker.userId symbol side level)) =
        some (result, engine)) :
    ∃ quoted', Laddered arith quoted' { v with
      engine := engine
      served := v.served ++
        [.place requestId (quoteOrder orderId v.maker.userId symbol side level)]
      todo := todo } := by
  have hpending := h.todo
  rw [htodo] at hpending
  rcases hpending.of_quote with ⟨ticker, ids, hquoted, hget, tickers, hof, rfl⟩
  have hfresh' : Fresh v.served
      (.place requestId (quoteOrder orderId v.maker.userId symbol side level)) := by
    rintro _ _ ⟨⟩
    exact hfresh
  have hdisplays : Displays
      (.place requestId (quoteOrder orderId v.maker.userId symbol side level)) := by
    rintro _ _ ⟨⟩ _ d ⟨⟩
  have hupdate : ∀ {symbol' ticker' ids'},
      Function.update quoted symbol (some (ticker, ids ++ [orderId])) symbol' =
        some (ticker', ids') →
      symbol' = symbol ∧ ticker' = ticker ∧ ids' = ids ++ [orderId] ∨
        quoted symbol' = some (ticker', ids') := by
    intro symbol' ticker' ids' hquoted'
    rw [Function.update_apply] at hquoted'
    split_ifs at hquoted' with hsame
    · cases hquoted'
      exact .inl ⟨hsame, rfl, rfl⟩
    · exact .inr hquoted'
  refine ⟨Function.update quoted symbol (some (ticker, ids ++ [orderId])), ?_⟩
  -- only the ladder of this market has grown, by the order that was sent
  constructor
  · intro symbol' ticker' ids' hquoted'
    rcases hupdate hquoted' with ⟨rfl, rfl, _⟩ | hold
    · exact h.symbol _ _ _ hquoted
    · exact h.symbol _ _ _ hold
  · intro symbol' ticker' ids' hquoted'
    rcases hupdate hquoted' with ⟨rfl, rfl, rfl⟩ | hold
    · have hlt := (List.getElem?_eq_some_iff.mp hget).1
      rw [List.length_append, List.length_singleton]
      exact hlt
    · exact h.few _ _ _ hold
  · intro symbol' ticker' ids' hquoted' x hx
    rw [placedIds_append]
    rcases hupdate hquoted' with ⟨rfl, rfl, rfl⟩ | hold
    · rcases List.mem_append.mp hx with hx | hx
      · exact List.mem_append_left _ (h.placed _ _ _ hquoted x hx)
      · exact List.mem_append_right _ hx
    · exact List.mem_append_left _ (h.placed _ _ _ hold x hx)
  · -- an order of the ladder is one from before, or the new one at the next place
    intro symbol' ticker' ids' hquoted' order horder hid
    rw [placements_append] at horder
    rcases List.mem_append.mp horder with hbefore | hnew
    · have hne : order.id ≠ orderId := by
        rintro rfl
        exact hfresh (List.mem_map_of_mem hbefore)
      rcases hupdate hquoted' with ⟨rfl, rfl, rfl⟩ | hold
      · rcases List.mem_append.mp hid with hid | hid
        · rcases h.quotes _ _ _ hquoted order hbefore hid with ⟨i, side', level', hi, hrest⟩
          have hlt := (List.getElem?_eq_some_iff.mp hi).1
          exact ⟨i, side', level', (List.getElem?_append_left hlt).trans hi, hrest⟩
        · exact (hne (List.mem_singleton.mp hid)).elim
      · exact h.quotes _ _ _ hold order hbefore hid
    · cases List.mem_singleton.mp hnew
      rcases hupdate hquoted' with ⟨rfl, rfl, rfl⟩ | hold
      · exact ⟨ids.length, side, level, by simp [quoteOrder], hget, rfl⟩
      · exact (hfresh (h.placed _ _ _ hold _ hid)).elim
  · -- a live order of the maker was live before, or is the new one
    intro symbol' o ho huser
    have hlisted : ∀ {ticker' ids'}, quoted symbol' = some (ticker', ids') → o.id ∈ ids' →
        ∃ ticker'' ids'', Function.update quoted symbol (some (ticker, ids ++ [orderId])) symbol' =
          some (ticker'', ids'') ∧ o.id ∈ ids'' := by
      intro ticker' ids' hquoted' hid
      by_cases hsame : symbol' = symbol
      · subst hsame
        rw [hquoted] at hquoted'
        cases hquoted'
        exact ⟨ticker, ids ++ [orderId], Function.update_self .., List.mem_append_left _ hid⟩
      · exact ⟨ticker', ids', (Function.update_of_ne hsame ..).trans hquoted', hid⟩
    rcases htended.live_cases hfresh' hdisplays hhandle ho with
      ⟨o', ho', hid, huser'⟩ | ⟨_, _, ⟨⟩, hid, _, rfl, _⟩
    · rcases h.live symbol' o' ho' (huser'.trans huser) with habandoned | ⟨ticker', ids', hq, hmem⟩
      · exact .inl (hid ▸ habandoned)
      · exact .inr (hlisted hq (hid ▸ hmem))
    · refine .inr ⟨ticker, ids ++ [orderId], Function.update_self .., ?_⟩
      rw [← hid]
      exact List.mem_append_right _ List.mem_cons_self
  · have hlength : (ids ++ [orderId]).length = ids.length + 1 := by simp
    rw [← hlength]
    exact .quotes (Function.update_self ..) tickers hof
  · exact h.latest

/-! ## Every step -/

/-- What is known of a venue after steps that drew these ids. -/
structure Sound (arith : Arithmetic) (drawn : List Uuid) (v : Venue) : Prop where
  served : Served drawn v
  laddered : ∃ quoted, Laddered arith quoted v

/-- At the start nothing was sent, and there are no ladders. -/
theorem Sound.start (arith : Arithmetic) {engine : EngineState} {maker : MarketMaker}
    (hempty : engine.exchange = Exchange.empty) (hlatest : maker.latest = OrdMap.empty) :
    Sound arith [] (start engine maker) where
  served := by
    refine ⟨Server.EngineState.tended_of_empty hempty, List.nodup_nil, ?_, ?_, ?_⟩
    · intro x hx
      exact hx
    · intro request hrequest
      cases hrequest
    · intro x hx
      cases hx
  laddered := by
    refine ⟨fun _ => none, ?_⟩
    constructor
    · rintro symbol ticker ids ⟨⟩
    · rintro symbol ticker ids ⟨⟩
    · rintro symbol ticker ids ⟨⟩
    · rintro symbol ticker ids ⟨⟩
    · -- the books are empty
      intro symbol o ho _
      have hnone : engine.bookOf symbol = Core.OrderBook.new := by
        rw [← Server.EngineState.bookOf_exchange, hempty]
        rfl
      have hpool := mem_live_iff.mp ho
      have hempty : o ∈ (Core.OrderBook.new).pool := hnone ▸ hpool
      simp at hempty
    · exact .tickers [] (by simp)
    · intro symbol timed htimed
      change maker.latest.find? symbol = some timed at htimed
      rw [hlatest] at htimed
      cases htimed

/-- The worker makes its next request. -/
theorem Sound.work (h : Sound arith drawn v) {requestId orderId : Uuid} {now : ℕ} {fate : Fate}
    (hnew : orderId ∉ drawn)
    (hstep : v.step arith fuel (.work requestId orderId now fate) = some v') :
    Sound arith (drawn ++ [orderId]) v' := by
  have hsub : drawn ⊆ drawn ++ [orderId] := List.subset_append_left _ _
  rcases h.laddered with ⟨quoted, hladdered⟩
  have htended := h.served.tended
  have hserved' : ∀ {request answer}, Displays request → placedIds [request] ⊆ [orderId] →
      (placedIds [request]).Nodup → Sent fuel v request answer →
      Served (drawn ++ [orderId]) answer.2 := by
    intro request answer hdisplays hids hone hsent
    refine h.served.sent hdisplays ?_ hsub ?_ hone hsent
    · intro x hx
      rw [List.mem_singleton.mp (hids hx)]
      exact hnew
    · exact fun x hx => List.mem_append_right _ (hids hx)
  cases htodo : v.todo with
  | nil =>
    simp only [step, htodo] at hstep
    cases hstep
  | cons task todo =>
    cases task with
    -- all is cancelled first; only when the engine says so does a new ladder begin
    | refresh symbol timed =>
      simp only [step, htodo] at hstep
      rcases Option.map_eq_some_iff.mp hstep with ⟨answer, hsend, rfl⟩
      have hsent := sent_of_send hsend
      have hdisplays : Displays (.cancelAll requestId v.maker.userId (some symbol)) := by
        rintro _ _ ⟨⟩
      have hserved := hserved' hdisplays (List.nil_subset _) List.nodup_nil hsent
      have hfresh : Fresh v.served (.cancelAll requestId v.maker.userId (some symbol)) := by
        rintro _ _ ⟨⟩
      have hother : ∀ {result engine}, v.engine.handleRequest fuel
          (.cancelAll requestId v.maker.userId (some symbol)) = some (result, engine) → _ :=
        fun hhandle => hladdered.handled htended hfresh hdisplays hhandle
          (by rintro _ _ ⟨⟩) v.delayed
      cases hsent with
      | @answered result engine hhandle =>
        cases hresult : resultOf requestId isCancelAll (replyOf result) with
        | error error => exact ⟨hserved.restart, quoted, (hother hhandle).restart⟩
        | ok =>
          rcases ok_of_resultOf hresult with ⟨bundle, rfl⟩
          exact ⟨⟨hserved.tended, hserved.unique, hserved.drawn, hserved.displays,
            hserved.abandoned⟩, _, hladdered.withdrawn htended htodo hhandle now⟩
      -- without an answer the worker starts again, and the old ladder stays what it is
      | unanswered hhandle => exact ⟨hserved.restart, quoted, (hother hhandle).restart⟩
      | delayed => exact ⟨hserved.restart, quoted, (hladdered.delayed _).restart⟩
      | unsent => exact ⟨hserved.restart, quoted, hladdered.restart⟩
    -- the next place is quoted, and on any failure the rest of the ladder is not
    | quote symbol side level =>
      simp only [step, htodo] at hstep
      rcases Option.map_eq_some_iff.mp hstep with ⟨answer, hsend, rfl⟩
      have hsent := sent_of_send hsend
      have hdisplays : Displays
          (.place requestId (quoteOrder orderId v.maker.userId symbol side level)) := by
        rintro _ _ ⟨⟩ _ d ⟨⟩
      have hserved := hserved' hdisplays (List.Subset.refl _) (List.nodup_singleton _) hsent
      have hfresh : orderId ∉ placedIds v.served := by
        intro hmem
        refine hnew (h.served.drawn orderId ?_)
        rw [placedIds_append]
        exact List.mem_append_left _ hmem
      cases hsent with
      | @answered result engine hhandle =>
        rcases hladdered.next htended htodo hfresh hhandle with ⟨quoted', hnext⟩
        cases hresult : resultOf requestId isOrder (replyOf result) with
        | error error => exact ⟨hserved.restart, quoted', hnext.restart⟩
        | ok =>
          exact ⟨⟨hserved.tended, hserved.unique, hserved.drawn, hserved.displays,
            hserved.abandoned⟩, quoted', hnext⟩
      | unanswered hhandle =>
        rcases hladdered.next htended htodo hfresh hhandle with ⟨quoted', hnext⟩
        exact ⟨hserved.restart, quoted', hnext.restart⟩
      | delayed => exact ⟨hserved.restart, quoted, (hladdered.delayed _).restart⟩
      | unsent => exact ⟨hserved.restart, quoted, hladdered.restart⟩

/-- Every step of the venue keeps it sound. -/
theorem Sound.step {a : Action} (h : Sound arith drawn v) (hfair : v.Fair a)
    (hnew : ∀ x ∈ a.drawn, x ∉ drawn) (hstep : v.step arith fuel a = some v') :
    Sound arith (drawn ++ a.drawn) v' := by
  cases a with
  | work requestId orderId now fate =>
    exact h.work (hnew orderId List.mem_cons_self) hstep
  -- a ticker is only noted down
  | ticker ticker now =>
    change Sound arith (drawn ++ []) v'
    rw [List.append_nil]
    rcases h with ⟨hserved, quoted, hladdered⟩
    simp only [Venue.step, Option.ite_none_right_eq_some, Option.some.injEq] at hstep
    rcases hstep with ⟨_, rfl⟩
    refine ⟨⟨hserved.tended, hserved.unique, hserved.drawn, hserved.displays,
      hserved.abandoned⟩, quoted, ?_⟩
    unfold MarketMaker.recordTicker
    split
    · exact hladdered
    · refine ⟨hladdered.symbol, hladdered.few, hladdered.placed, hladdered.quotes,
        hladdered.live, hladdered.todo, ?_⟩
      intro symbol timed htimed
      simp only [OrdMap.find?_insert] at htimed
      split_ifs at htimed with hsame
      · cases htimed
        exact hsame.symm
      · exact hladdered.latest symbol timed htimed
  | round tickers =>
    change Sound arith (drawn ++ []) v'
    rw [List.append_nil]
    rcases h with ⟨hserved, quoted, hladdered⟩
    simp only [Venue.step, Option.ite_none_right_eq_some, Option.some.injEq] at hstep
    rcases hstep with ⟨⟨_, hperm⟩, rfl⟩
    refine ⟨⟨hserved.tended, hserved.unique, hserved.drawn, hserved.displays,
      hserved.abandoned⟩, quoted, ⟨hladdered.symbol, hladdered.few, hladdered.placed,
      hladdered.quotes, hladdered.live, ?_, hladdered.latest⟩⟩
    refine .tickers tickers ?_
    intro entry hentry
    exact hladdered.latest _ _ (OrdMap.find?_eq_some.mpr (hperm.subset hentry))
  | restart =>
    change Sound arith (drawn ++ []) v'
    rw [List.append_nil]
    rcases h with ⟨hserved, quoted, hladdered⟩
    cases hstep
    exact ⟨hserved.restart, quoted, hladdered.restart⟩
  -- a request that was given up on: its order is one of the abandoned
  | arrive request =>
    change Sound arith (drawn ++ []) v'
    rw [List.append_nil]
    rcases h with ⟨hserved, quoted, hladdered⟩
    simp only [Venue.step, Option.ite_none_right_eq_some] at hstep
    rcases hstep with ⟨hmem, hstep⟩
    rcases Option.map_eq_some_iff.mp hstep with ⟨answer, hserve, rfl⟩
    rcases serve_eq_some hserve with ⟨engine, hhandle, hv⟩
    have hperm : (placedIds (v.served ++ request :: v.delayed.erase request)).Perm
        (placedIds (v.served ++ v.delayed)) := by
      simp only [placedIds_append]
      refine List.Perm.append_left _ ?_
      exact ((placements_perm (List.perm_cons_erase hmem)).map _).symm
    have hunique := hperm.nodup_iff.mpr hserved.unique
    have hdrawn : ∀ x ∈ placedIds (v.served ++ request :: v.delayed.erase request), x ∈ drawn :=
      fun x hx => hserved.drawn x (hperm.subset hx)
    have hdisplays := hserved.displays request hmem
    rw [hv]
    refine ⟨hserved.handled hunique hdrawn List.erase_subset hdisplays hhandle, quoted, ?_⟩
    refine hladdered.handled hserved.tended (fresh_of_unique hunique) hdisplays hhandle ?_ _
    rintro requestId order rfl _
    exact hserved.abandoned _ (List.mem_map_of_mem (mem_placements.mpr ⟨requestId, hmem⟩))
  -- an order of another user is on no ladder
  | other request =>
    rcases h with ⟨hserved, quoted, hladdered⟩
    rcases hfair with ⟨hdisplays, hforeign⟩
    rcases Option.map_eq_some_iff.mp hstep with ⟨answer, hserve, rfl⟩
    rcases serve_eq_some hserve with ⟨engine, hhandle, hv⟩
    have hdrawn : (Action.other request).drawn = placedIds [request] := by
      cases request <;> rfl
    rw [hdrawn] at hnew ⊢
    have hone : (placedIds [request]).Nodup := by
      cases request with
      | place => exact List.nodup_singleton _
      | cancel | cancelAll | haltMarket | resumeMarket | snapshot | ping => exact List.nodup_nil
    have hserved' := hserved.sent hdisplays hnew (List.subset_append_left _ _)
      (fun x hx => List.mem_append_right _ hx) hone (.unanswered hhandle)
    have hfresh : Fresh v.served request := by
      refine @fresh_of_unique request v.served [] ?_
      have hunique := hserved'.unique
      rw [placedIds_append] at hunique
      exact (List.nodup_append.mp hunique).1
    rw [hv]
    refine ⟨hserved', quoted, ?_⟩
    refine hladdered.handled hserved.tended hfresh hdisplays hhandle ?_ v.delayed
    intro requestId order hrequest huser
    exact (hforeign requestId order hrequest huser).elim

/-! ## Every run -/

/-- The order is what is left of the quote at this place of the ladder. -/
def AtLevel (arith : Arithmetic) (generator : QuoteGenerator) (ticker : BookTicker) (i : ℕ)
    (o : Order) : Prop :=
  ∃ side level, (ladder arith generator ticker)[i]? = some (side, level) ∧
    o.side = toCoreSide side ∧ o.price = some level.price ∧ o.quantity = level.quantity ∧
    o.remaining ≤ level.quantity

theorem Laddered.atLevel (h : Laddered arith quoted v) (htended : Tended v.served v.engine)
    {symbol : String} {ticker : BookTicker} {ids : List Uuid}
    (hquoted : quoted symbol = some (ticker, ids)) {o : Order}
    (ho : o ∈ (v.engine.bookOf symbol).live) (hid : o.id ∈ ids) :
    ∃ i : ℕ, ids[i]? = some o.id ∧ AtLevel arith v.maker.quoteGenerator ticker i o := by
  rcases htended.descends_of_live ho with ⟨w, hw, hwid, _, hside, hprice, hquantity, hle⟩
  rcases h.quotes _ _ _ hquoted w hw (hwid ▸ hid) with ⟨i, side, level, hi, hlevel, horder⟩
  rw [hwid] at hi
  refine ⟨i, hi, side, level, hlevel, ?_, ?_, ?_, ?_⟩
  · rw [← hside, horder]
    rfl
  · rw [← hprice, horder]
    rfl
  · rw [← hquantity, horder]
    rfl
  · rw [horder] at hle
    exact hle

theorem nodup_live_ids (htended : Tended v.served v.engine) (symbol : String) :
    ((v.engine.bookOf symbol).live.map (·.id)).Nodup := by
  have hunique := (htended.known.bookOf symbol).1.book.unique
  rw [Core.OrderBook.pool_eq_coe_live] at hunique
  exact hunique

/-- Whatever the interleaving, from empty books and with distinct order ids over all markets, the
live quotes of a market are quotes of one ticker, and they are at different places of its ladder;
the only others are those of requests that the worker gave up on. -/
theorem one_ladder_per_market {engine : EngineState} {maker : MarketMaker}
    {actions : List Action} (hempty : engine.exchange = Exchange.empty)
    (hlatest : maker.latest = OrdMap.empty) (hids : (actions.flatMap Action.drawn).Nodup)
    (hfair : Along (step arith fuel) Fair (start engine maker) actions)
    (hrun : run (step arith fuel) (start engine maker) actions = some v) (symbol : String) :
    (∃ (ticker : BookTicker) (ids : List Uuid), ticker.symbol = symbol ∧
      ∀ o ∈ (v.engine.bookOf symbol).live, o.userId = v.maker.userId → o.id ∉ v.abandoned →
        ∃ i : ℕ, ids[i]? = some o.id ∧ AtLevel arith v.maker.quoteGenerator ticker i o) ∧
    ((v.engine.bookOf symbol).live.filter fun o =>
      o.userId = v.maker.userId ∧ o.id ∉ v.abandoned).length ≤
        2 * v.maker.quoteGenerator.levels := by
  have hsound : Sound arith (actions.flatMap Action.drawn) v := by
    refine Machine.run_induction (fun past v => Sound arith (past.flatMap Action.drawn) v)
      (fun past v a => v.Fair a ∧ ∀ x ∈ a.drawn, x ∉ past.flatMap Action.drawn)
      ?_ (Sound.start arith hempty hlatest) ?_ hrun
    · rintro past mid a mid' _ hmid ⟨hok, hnew⟩ hstep
      have hnext := hmid.step hok hnew hstep
      simpa using hnext
    · rintro past a rest mid rfl hpast
      refine ⟨hfair.at hpast, ?_⟩
      intro x hx hmem
      rw [List.flatMap_append, List.nodup_append] at hids
      exact hids.2.2 x hmem x (List.mem_append_left _ hx) rfl
  rcases hsound with ⟨hserved, quoted, hladdered⟩
  -- the ladder of the market, or none if it was never quoted
  have hladder : ∃ (ticker : BookTicker) (ids : List Uuid), ticker.symbol = symbol ∧
      ids.length ≤ 2 * v.maker.quoteGenerator.levels ∧
      ∀ o ∈ (v.engine.bookOf symbol).live, o.userId = v.maker.userId → o.id ∉ v.abandoned →
        ∃ i : ℕ, ids[i]? = some o.id ∧ AtLevel arith v.maker.quoteGenerator ticker i o := by
    cases hquoted : quoted symbol with
    | none =>
      refine ⟨⟨symbol, 0, 0, 0, 0⟩, [], rfl, Nat.zero_le _, ?_⟩
      intro o ho huser hkept
      rcases hladdered.live symbol o ho huser with habandoned | ⟨ticker, ids, hsome, _⟩
      · exact (hkept habandoned).elim
      · rw [hquoted] at hsome
        cases hsome
    | some entry =>
      have hfew := hladdered.few symbol entry.1 entry.2 hquoted
      rw [length_ladder] at hfew
      refine ⟨entry.1, entry.2, hladdered.symbol symbol _ _ hquoted, hfew, ?_⟩
      intro o ho huser hkept
      rcases hladdered.live symbol o ho huser with habandoned | ⟨ticker, ids, hsome, hid⟩
      · exact (hkept habandoned).elim
      · rw [hquoted] at hsome
        cases hsome
        exact hladdered.atLevel hserved.tended hquoted ho hid
  rcases hladder with ⟨ticker, ids, hsymbol, hfew, hat⟩
  refine ⟨⟨ticker, ids, hsymbol, hat⟩, ?_⟩
  -- different live orders have different ids, and these are among so many
  refine le_trans ?_ hfew
  rw [← List.length_map (·.id)]
  refine (List.Nodup.subperm ?_ ?_).length_le
  · exact (List.filter_sublist.map _).nodup (nodup_live_ids hserved.tended symbol)
  · intro x hx
    rcases List.mem_map.mp hx with ⟨o, ho, rfl⟩
    rcases List.mem_filter.mp ho with ⟨hlive, hkept⟩
    rcases of_decide_eq_true hkept with ⟨huser, hnot⟩
    rcases hat o hlive huser hnot with ⟨i, hi, _⟩
    exact List.mem_of_getElem? hi

/-- The second bid for the first ticker. -/
def lateQuote : EngineOrder :=
  quoteOrder 101 7 "BTCUSDT" .buy
    (((ladder sampleArithmetic .default10x10 (sampleTicker "BTCUSDT"))[1]?.map Prod.snd).getD
      ⟨0, 0⟩)

/-- A ticker at a higher price. -/
def higherTicker : BookTicker := ⟨"BTCUSDT", decimal 110, decimal 1, decimal 112, decimal 1⟩

/-- The worker places one bid and gives up on the second. The next worker withdraws the first and
quotes a higher ticker; a seller takes a part of its bid, and then the lost request arrives. -/
def lateArrival : List Action :=
  [.ticker (sampleTicker "BTCUSDT") 0, .round [("BTCUSDT", ⟨sampleTicker "BTCUSDT", 0⟩)],
    .work 1 900 0 .answered, .work 2 100 0 .answered, .work 3 101 0 .delayed,
    .ticker higherTicker 10, .round [("BTCUSDT", ⟨higherTicker, 10⟩)],
    .work 4 901 10 .answered, .work 5 102 10 .answered,
    .other (.place 6 (Server.wireLimit 200 8 .sell (decimal 105) (10 ^ 27) .cancelTaker)),
    .arrive (.place 3 lateQuote)]

/-- A test of `Fair`. -/
def checkFair (v : Venue) : Action → Bool
  | .other (.place _ order) => order.displayQty.isNone && order.userId != v.maker.userId
  | _ => true

theorem fair_of_check {a : Action} (h : v.checkFair a = true) : v.Fair a := by
  cases a with
  | other request =>
    cases request with
    | place requestId order =>
      simp only [checkFair, Bool.and_eq_true, Option.isNone_iff_eq_none, bne_iff_ne, ne_eq] at h
      constructor
      · rintro _ _ ⟨⟩ _ d hd
        rw [h.1] at hd
        cases hd
      · rintro _ _ ⟨⟩
        exact h.2
    | cancel | cancelAll | haltMarket | resumeMarket | snapshot | ping =>
      constructor
      · rintro _ _ ⟨⟩
      · rintro _ _ ⟨⟩
  | ticker | round | work | restart | arrive => trivial

/-- What rests of the market maker's is a part of the bid for the higher ticker, and the quote
that arrived late. -/
theorem lateArrival_ladder : ∃ v,
    run (step sampleArithmetic 10) (start Server.emptyEngine (.new 7 30000 ["BTCUSDT"]))
      lateArrival = some v ∧
    (v.engine.bookOf "BTCUSDT").live.map (·.id) = [101, 102] ∧ v.abandoned = [101] ∧
    (∃ (ticker : BookTicker) (ids : List Uuid), ticker.symbol = "BTCUSDT" ∧
      ∀ o ∈ (v.engine.bookOf "BTCUSDT").live, o.userId = v.maker.userId → o.id ∉ v.abandoned →
        ∃ i : ℕ, ids[i]? = some o.id ∧
          AtLevel sampleArithmetic v.maker.quoteGenerator ticker i o) ∧
    ((v.engine.bookOf "BTCUSDT").live.filter fun o =>
      o.userId = v.maker.userId ∧ o.id ∉ v.abandoned).length ≤
        2 * v.maker.quoteGenerator.levels := by
  have hview : (run (step sampleArithmetic 10)
      (start Server.emptyEngine (.new 7 30000 ["BTCUSDT"])) lateArrival).map (fun v =>
        ((v.engine.bookOf "BTCUSDT").live.map (·.id), v.abandoned)) = some ([101, 102], [101]) := by
    decide +kernel
  have hchecked : Machine.checkAlong (step sampleArithmetic 10) checkFair
      (start Server.emptyEngine (.new 7 30000 ["BTCUSDT"])) lateArrival = true := by
    decide +kernel
  rcases Option.map_eq_some_iff.mp hview with ⟨v, hrun, hlive⟩
  rw [Prod.mk.injEq] at hlive
  refine ⟨v, hrun, hlive.1, hlive.2, ?_⟩
  exact one_ladder_per_market rfl rfl (by decide)
    (Machine.along_of_check (fun _ _ h => fair_of_check h) hchecked) hrun "BTCUSDT"

end Venue

end CryptoCex.MarketData
