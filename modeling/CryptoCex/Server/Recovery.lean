import CryptoCex.Core.FillOrKill
import CryptoCex.Server.Exclusive
import CryptoCex.Server.Replay
import CryptoCex.Server.Restart

/-!
# Crash consistency of the two logs

A restart rebuilds the books from the command log, and what happened to an order can be
learnt from the event log alone. The command of an order is written before its
`OrderAccepted` event, so an engine that stops between the two comes back with a live
order that no event announced.

`recovered_orders_accepted` is the result for runs in which this does not happen and in
which replay reproduces the books.
-/

namespace CryptoCex.Server

open CryptoCex.Core CryptoCex.Core.OrderBook
open Proto (EngineOrder EngineRequest SequencedEngineEvent)

/-- An order that its match kills is not in the book. -/
theorem Exchange.Known.killed_gone {fuel : ℕ} {x : Exchange} {placed : List Order} {order : Order}
    {book : OrderBook} {events : List EngineEvent} {e : EngineEvent} (h : x.Known placed)
    (hadm : order.Admissible) (hfresh : order.id ∉ placed.map (·.id))
    (hmatch : EngineState.matchInBook fuel (x.bookOf order.symbol) order = some (book, events))
    (he : e ∈ events) (hkill : e.Kills order.id) : order.id ∉ book.toPool.ids :=
  matchOrder_killed_gone (sound_linkOco (h.bookOf order.symbol).1 order) hadm
    (h.fresh_linkOco hfresh) he hkill hmatch

namespace EngineState

variable {fuel : ℕ} {st st' init : EngineState} {R : OpenOrders}

/-- The event log says that the order was accepted. -/
def AcceptedIn (log : EventLog) (id : Uuid) : Prop :=
  ∃ event ∈ log.entries, ∃ order, event.event = .orderAccepted order ∧ order.id = id

/-- An acceptance stays in the log. -/
theorem AcceptedIn.extends {log log' : EventLog} {new : List SequencedEngineEvent} {id : Uuid}
    (h : AcceptedIn log id) (hext : log.Extends new log') : AcceptedIn log' id := by
  rcases h with ⟨event, hevent, order, heq, hid⟩
  refine ⟨event, ?_, order, heq, hid⟩
  rw [hext.entries]
  exact List.mem_append_left _ hevent

/-- An acknowledged order is announced first, if its append succeeds. -/
theorem acknowledgePlace_accepted {requestId : Uuid} {wireOrder : EngineOrder} {order : Order}
    {coreEvents : List EngineEvent} {result : Except ServerError ResponseBundle}
    (h : st.acknowledgePlace requestId wireOrder order coreEvents = (result, st'))
    (hdisk : st.disk.head = true) : AcceptedIn st'.eventLog wireOrder.id := by
  have hports := toWireCoreEvents_ports { st with
    openOrders := applyOpenOrderUpdates st.openOrders (some order) coreEvents }
    wireOrder.symbol coreEvents
  -- the announcement is the first event, so one append is enough for it
  have hlogged : ∀ {mid : EngineState} {events : List Proto.EngineEvent}
      {r : Except ServerError (List SequencedEngineEvent)}, mid.disk = st.disk →
      mid.sequenceEvents (.orderAccepted wireOrder :: events) = (r, st') →
      AcceptedIn st'.eventLog wireOrder.id := by
    intro mid events r hmid hseq
    rcases sequenceEvents_extends hseq with ⟨new, hext, _, _, hfirst⟩
    rcases List.mem_map.mp (hfirst (by rw [hmid]; exact hdisk) _ rfl) with ⟨event, hevent, heq⟩
    refine ⟨event, ?_, wireOrder, heq, rfl⟩
    rw [hext.entries]
    exact List.mem_append_right _ hevent
  unfold acknowledgePlace at h
  dsimp only at h
  split at h
  · next hseq =>
    cases h
    exact hlogged hports.2.1 hseq
  · next hseq =>
    cases h
    exact hlogged hports.2.1 hseq

/-- A placed order is rejected or, if the append after that of its command succeeds,
announced. -/
theorem placeOrder_accepted {requestId : Uuid} {order : EngineOrder}
    {result : Except ServerError ResponseBundle}
    (h : st.placeOrder fuel requestId order = some (result, st')) :
    st'.books = st.books ∨ ∃ book events,
      matchInBook fuel (st.bookOf order.symbol) (toCoreOrder order) = some (book, events) ∧
      st'.books = st.books.insert order.symbol book ∧
      ((∃ e ∈ events, e.Kills order.id) ∨
        (st.disk.tail.head = true → AcceptedIn st'.eventLog order.id)) := by
  unfold placeOrder at h
  split at h
  · cases h
    exact Or.inl rfl
  · dsimp only at h
    split_ifs at h
    · cases h
      exact Or.inl rfl
    · split at h
      · next happ =>
        cases h
        exact Or.inl (congrArg Exchange.books (appendCommand_error happ).exchange)
      · next st₁ happ =>
        have hbooks : st₁.books = st.books :=
          congrArg Exchange.books (appendCommand_ok happ).2.1
        have hbook : st₁.bookOf order.symbol = st.bookOf order.symbol := by
          rw [bookOf, hbooks]
          rfl
        have hports := appendCommand_eventLog happ
        rw [hbook] at h
        split at h
        · cases h
        · -- the command is logged, and the book has changed, whatever is answered
          next book coreEvents hmatch =>
          refine Or.inr ⟨book, coreEvents, hmatch, ?_⟩
          split at h
          · next hrejected =>
            cases h
            exact ⟨by rw [hbooks], Or.inl
              (exists_kills_of_preReject (hrejected ▸ Option.some_ne_none _))⟩
          · have hack := acknowledgePlace_reports { st₁ with
              books := st₁.books.insert order.symbol book } requestId order
              (toCoreOrder order) coreEvents
            rw [Option.some.inj h] at hack
            refine ⟨?_, Or.inr ?_⟩
            · rw [← hbooks]
              exact congrArg Exchange.books hack.exchange
            · intro hdisk
              refine acknowledgePlace_accepted (Option.some.inj h) ?_
              change st₁.disk.head = true
              rw [hports.2.1]
              exact hdisk

/-! ## Steps -/

/-- A rejected match since the last restart concerned this order. -/
def UntoldSince (fuel : ℕ) (init : EngineState) (ops : List EngineOp) (id : Uuid) : Prop :=
  ∃ l req l' mid, ops = l ++ .request req :: l' ∧ EngineOp.restart ∉ l' ∧
    init.runOps fuel l = some mid ∧ id ∈ untoldBy fuel mid req

/-- A step that leaves no live order unannounced: its cancels are repeatable, an order it
places is announced or not live, and at a restart there are numbers left. -/
structure SafeStep (fuel : ℕ) (init : EngineState) (past : List EngineOp) (st : EngineState)
    (op : EngineOp) : Prop where
  repeatable : ∀ req, op = .request req → ∀ id ∈ st.cancelTargets req,
    Repeatable (UntoldSince fuel init past) st.exchange id
  announced : ∀ requestId order, op = .request (.place requestId order) →
    st.Admits requestId order → st.disk.tail.head = true ∨ ∀ book events,
      matchInBook fuel (st.bookOf order.symbol) (toCoreOrder order) = some (book, events) →
        order.id ∉ book.live.map (·.id)
  numbers : op = .restart → st.eventLog.sequence < u64Max

/-- What is known after `past`: replay follows the engine, and every live order was
announced. -/
structure Recoverable (fuel : ℕ) (init : EngineState) (past : List EngineOp) (st : EngineState) :
    Prop where
  whole : st.Whole
  ids : ∀ w ∈ Exchange.placedOrders st.commands, w.id ∈ [] ++ placedIds (requestsOf past)
  follows : ∃ R, Follows fuel st.commands (UntoldSince fuel init past) st.exchange R
  accepted : ∀ symbol, ∀ id ∈ (st.bookOf symbol).toPool.ids, AcceptedIn st.eventLog id

/-- Cancels take orders out of the books and bring none in. -/
theorem mem_ids_of_cancels {x y : Exchange} {placed : List Order} {ids : List Uuid}
    (hknown : x.Known placed) (h : Exchange.Steps fuel x (ids.map .cancelOrder) y)
    {symbol : String} {id : Uuid} (hid : id ∈ (y.bookOf symbol).toPool.ids) :
    id ∈ (x.bookOf symbol).toPool.ids := by
  refine (h.cancels_invariant (fun z => z.Known placed ∧
    ∀ id ∈ (z.bookOf symbol).toPool.ids, id ∈ (x.bookOf symbol).toPool.ids) ?_
    ⟨hknown, fun _ hid => hid⟩).2 id hid
  rintro z orderId z' ⟨hz, hinv⟩ hstep
  refine ⟨hstep.known_cancel hz, ?_⟩
  intro id hid
  rcases hstep.mem_ids hz (by rintro order ⟨⟩) hid with hid | ⟨order, hcmd, _⟩
  · exact hinv id hid
  · cases hcmd

/-- A request announces the order it places, if that is live. -/
theorem handleRequest_accepted {req : EngineRequest} {result : Except ServerError ResponseBundle}
    {placed : List Order} (hknown : st.exchange.Known placed)
    (hnew : ∀ requestId order, req = .place requestId order →
      order.id ∉ placed.map (·.id))
    (hsafe : ∀ requestId order, req = .place requestId order → st.Admits requestId order →
      st.disk.tail.head = true ∨ ∀ book events,
        matchInBook fuel (st.bookOf order.symbol) (toCoreOrder order) = some (book, events) →
          order.id ∉ book.live.map (·.id))
    (haccepted : ∀ symbol, ∀ id ∈ (st.bookOf symbol).toPool.ids, AcceptedIn st.eventLog id)
    (h : st.handleRequest fuel req = some (result, st')) :
    ∀ symbol, ∀ id ∈ (st'.bookOf symbol).toPool.ids, AcceptedIn st'.eventLog id := by
  rcases handleRequest_logs h with ⟨new, hext, _⟩
  intro symbol id hid
  cases handleRequest_effect h with
  | @place requestId order hvalid htrading hdisk _ hstep =>
    have hadm := admissible_of_valid hvalid
    have hfresh := hnew requestId order rfl
    have hcmd : ∀ o, WalCommand.placeOrder (toCoreOrder order) = .placeOrder o →
        o.Admissible ∧ o.id ∉ placed.map (·.id) := by
      rintro _ ⟨⟩
      exact ⟨hadm, hfresh⟩
    rcases hstep.mem_ids hknown hcmd hid with hold | ⟨_, ⟨⟩, hself, hsymbol⟩
    · exact (haccepted symbol id hold).extends hext
    · -- the order itself: killed, announced or not live
      rcases placeOrder_accepted h with hbooks | ⟨book, events, hmatch, hbooks, hwhy⟩
      · rw [bookOf, hbooks] at hid
        exact (haccepted symbol id hid).extends hext
      · have hsame : symbol = order.symbol := hsymbol
        rw [bookOf_insert hbooks, if_pos hsame, hself] at hid
        rcases hwhy with ⟨e, he, hkill⟩ | hannounced
        · have hgone : (toCoreOrder order).id ∉ book.toPool.ids :=
            hknown.killed_gone hadm hfresh hmatch he hkill
          exact absurd hid hgone
        · rcases hsafe requestId order rfl ⟨hvalid, htrading, hdisk⟩ with htail | hgone
          · rw [hself]
            exact hannounced htail
          · exact absurd (mem_live_ids.mpr (mem_ids_iff.mp hid)) (hgone book events hmatch)
  | cancels ids _ hdoes =>
    have hold : id ∈ (st.bookOf symbol).toPool.ids :=
      mem_ids_of_cancels hknown hdoes.steps hid
    exact (haccepted symbol id hold).extends hext

theorem UntoldSince.mono {past : List EngineOp} {id : Uuid} (h : UntoldSince fuel init past id)
    (req : EngineRequest) : UntoldSince fuel init (past ++ [.request req]) id := by
  rcases h with ⟨l, req', l', mid, rfl, hnone, hmid, hid⟩
  refine ⟨l, req', l' ++ [.request req], mid, ?_, ?_, hmid, hid⟩
  · rw [List.append_assoc, List.cons_append]
  · simpa using hnone

/-- A safe step keeps the engine recoverable. -/
theorem Recoverable.step {past : List EngineOp} {op : EngineOp}
    (hpast : init.runOps fuel past = some st) (h : Recoverable fuel init past st)
    (hsafe : SafeStep fuel init past st op)
    (hfresh : ∀ requestId order, op = .request (.place requestId order) →
      order.id ∉ placedIds (requestsOf past))
    (hstep : st.step fuel op = some st') : Recoverable fuel init (past ++ [op]) st' := by
  rcases h.follows with ⟨R, hfollows⟩
  cases op with
  | request req =>
    rcases step_request hstep with ⟨result, hhandle⟩
    rcases handleRequest_logs hhandle with ⟨new, hext, _⟩
    have hnew : ∀ requestId order, req = .place requestId order →
        order.id ∉ (Exchange.placedOrders st.commands).map (·.id) := by
      rintro requestId order rfl hmem
      rcases List.mem_map.mp hmem with ⟨w, hw, hid⟩
      exact hfresh requestId order rfl (hid ▸ h.ids w hw)
    refine ⟨h.whole.extends hext, ?_, ?_, ?_⟩
    · rw [requestsOf_append]
      exact handleRequest_logged_ids h.ids hhandle
    · refine handleRequest_follows hfollows hnew (fun id hid => hid.mono req) ?_
        (hsafe.repeatable req rfl) hhandle
      intro id hid
      exact ⟨past, req, [], st, rfl, List.not_mem_nil, hpast, hid⟩
    · refine handleRequest_accepted hfollows.tracks.known hnew ?_ h.accepted hhandle
      rintro requestId order rfl hadmits
      exact hsafe.announced requestId order rfl hadmits
  | restart =>
    rcases reopen_spec h.whole hstep with ⟨hcommands, hlog, _, hreplay⟩
    -- replay gives the books back, and its table is the new one
    have hsame : some (st'.books, st'.openOrders) = some (st.books, R) := by
      rw [← hreplay]
      exact hfollows.replayed _ rfl
    rcases Prod.mk.inj (Option.some.inj hsame) with ⟨hbooks, hopen⟩
    have hexchange : st'.exchange = ⟨st.books, R⟩ := by
      rw [exchange, hbooks, hopen]
    refine ⟨?_, ?_, ⟨R, ?_⟩, ?_⟩
    · rw [Whole, hlog]
      exact h.whole
    · rw [hcommands, requestsOf_append]
      exact fun w hw => by simpa [requestsOf] using h.ids w hw
    · rw [hcommands, hexchange]
      exact ⟨hfollows.replayed, hfollows.placeable, hfollows.tracks.replay,
        hfollows.tracks.replay.traced, fun _ _ => rfl⟩
    · intro symbol id hid
      rw [bookOf, hbooks] at hid
      rw [hlog]
      exact h.accepted symbol id hid

/-! ## Runs -/

/-- After every restart of the run, every live order has an `OrderAccepted` event in the
log, with a smaller number than all events that come after the restart. -/
def CrashConsistent (fuel : ℕ) (init : EngineState) (ops : List EngineOp) : Prop :=
  ∀ past later recovered st, ops = past ++ .restart :: later →
    init.runOps fuel (past ++ [.restart]) = some recovered →
    recovered.runOps fuel later = some st → ∀ id, recovered.Live id →
      ∃ event ∈ recovered.eventLog.entries,
        (∃ order, event.event = .orderAccepted order ∧ order.id = id) ∧
        ∀ e ∈ st.eventLog.entries.drop recovered.eventLog.entries.length, event.seq < e.seq

/-- Every run leaves the engine recoverable. -/
theorem recoverable_of_runOps {idSource : Stream' Uuid} {clock : Stream' String}
    {disk : Stream' Bool} {snapshotDepth : ℕ}
    (hopen : EngineState.open fuel [] [] idSource clock disk snapshotDepth = some init)
    {ops : List EngineOp} (hfresh : (placedIds (requestsOf ops)).Nodup)
    (hsafe : ∀ l op l' mid, ops = l ++ op :: l' → init.runOps fuel l = some mid →
      SafeStep fuel init l mid op)
    (hrun : init.runOps fuel ops = some st) : Recoverable fuel init ops st := by
  refine runOps_invariant (Recoverable fuel init)
    (fun past mid op => SafeStep fuel init past mid op ∧
      ∀ requestId order, op = .request (.place requestId order) →
        order.id ∉ placedIds (requestsOf past))
    (fun past mid op mid' hpast hinv hok hstep => hinv.step hpast hok.1 hok.2 hstep) ?_ ?_ hrun
  · -- an engine that has just been opened
    rcases replays_open hopen ⟨by decide, by simp [Exchange.placedOrders]⟩ with
      ⟨_, R, hfollows⟩
    have hstart := exchange_open hopen
    refine ⟨whole_open hopen, ?_, ⟨R, hfollows.mono ?_⟩, ?_⟩
    · cases hopen
      intro w hw
      cases hw
    · rintro id ⟨l, req, l', mid, hsplit, _⟩
      exact absurd hsplit (by simp)
    · intro symbol id hid
      rw [← bookOf_exchange, hstart] at hid
      rcases mem_ids_iff.mp hid with ⟨o, ho, _⟩
      cases ho
  · -- and every step from there
    intro l op l' mid hsplit hmid
    refine ⟨hsafe l op l' mid hsplit hmid, ?_⟩
    rintro requestId order rfl
    refine fresh_of_nodup hfresh (requestsOf l) (.place requestId order) (requestsOf l') ?_
      requestId order rfl
    rw [hsplit, requestsOf_append]
    rfl

/-- In every run with fresh order ids whose steps are safe, the two logs are crash
consistent. -/
theorem recovered_orders_accepted {idSource : Stream' Uuid} {clock : Stream' String}
    {disk : Stream' Bool} {snapshotDepth : ℕ}
    (hopen : EngineState.open fuel [] [] idSource clock disk snapshotDepth = some init)
    (ops : List EngineOp) (hfresh : (placedIds (requestsOf ops)).Nodup)
    (hsafe : ∀ l op l' mid, ops = l ++ op :: l' → init.runOps fuel l = some mid →
      SafeStep fuel init l mid op) : CrashConsistent fuel init ops := by
  intro past later recovered st hsplit hrecovered hlater id hlive
  -- the run up to the restart
  have hfresh' : (placedIds (requestsOf (past ++ [.restart]))).Nodup := by
    have hall : requestsOf ops = requestsOf (past ++ [.restart]) ++ requestsOf later := by
      rw [hsplit, requestsOf_append, requestsOf_append, List.append_assoc]
      rfl
    exact nodup_past hfresh hall
  have hsafe' : ∀ l op l' mid, past ++ [.restart] = l ++ op :: l' →
      init.runOps fuel l = some mid → SafeStep fuel init l mid op := by
    intro l op l' mid hsplit' hmid
    refine hsafe l op (l' ++ later) mid ?_ hmid
    rw [hsplit, ← List.cons_append, ← List.append_assoc, ← hsplit', List.append_assoc]
    rfl
  have hrec := recoverable_of_runOps hopen hfresh' hsafe' hrecovered
  -- a restart keeps the event log
  rcases runOps_concat hrecovered with ⟨before, hbefore, hreopen⟩
  have hwhole := (runOps_extends (whole_open hopen) hbefore).1
  have hlog := (reopen_spec hwhole hreopen).2.1
  have hnumbers := (hsafe past .restart later before hsplit hbefore).numbers rfl
  rw [← hlog] at hnumbers
  rcases live_iff.mp hlive with ⟨symbol, hid⟩
  rcases hrec.accepted symbol id hid with ⟨event, hevent, hannounced⟩
  refine ⟨event, hevent, hannounced, ?_⟩
  rcases (runOps_extends hrec.whole hlater).2 with ⟨new, hext⟩
  have hold := (hrec.whole.bounds (Nat.zero_le _)).2.2 event hevent
  intro e he
  rw [hext.entries, List.drop_left] at he
  have hnew := ((hext.numbered.bounds hnumbers.le).2.2 e he).1
  omega

/-! ## A crash behind the command -/

/-- The engine over empty logs, with a disk that takes this many appends. -/
def engineWithAppends (appends : ℕ) : EngineState :=
  { emptyEngine with disk := fun k => decide (k < appends) }

theorem engineWithAppends_open (fuel appends : ℕ) : EngineState.open fuel [] [] (fun n => n)
    (fun _ => "1970-01-01T00:00:00.000Z") (fun k => decide (k < appends)) 20 =
      some (engineWithAppends appends) := rfl

/-- A limit sell order is placed and the engine restarts. -/
def placeThenRestart : List EngineOp :=
  [.request (.place 0 (wireLimit 1 10 .sell 100 5 .cancelTaker)), .restart]

/-- The engine stops behind the append of the command: the order is in the recovered
book, and the event log is empty. -/
theorem crash_behind_command_unannounced :
    ¬ CrashConsistent 10 (engineWithAppends 1) placeThenRestart := by
  have hview : ((engineWithAppends 1).runOps 10 placeThenRestart).map (fun st =>
      (st.liveIds, st.eventLog.entries)) = some ([1], []) := by
    decide +kernel
  rcases Option.map_eq_some_iff.mp hview with ⟨recovered, hrun, hids⟩
  rcases Prod.mk.inj hids with ⟨hlive, hlog⟩
  intro hconsistent
  have hone : recovered.Live 1 := by
    rw [live_iff_mem_liveIds, hlive]
    exact List.mem_cons_self
  rcases hconsistent [.request (.place 0 (wireLimit 1 10 .sell 100 5 .cancelTaker))] [] recovered
    recovered rfl hrun rfl 1 hone with ⟨event, hevent, _⟩
  rw [hlog] at hevent
  cases hevent

/-- The run theorem on an engine that stops one append later. -/
theorem crash_behind_accepted_consistent :
    CrashConsistent 10 (engineWithAppends 2) placeThenRestart := by
  refine recovered_orders_accepted (engineWithAppends_open 10 2) placeThenRestart (by decide) ?_
  intro l op l' mid hsplit hmid
  rcases List.cons_eq_append_iff.mp hsplit with ⟨rfl, hop⟩ | ⟨l₁, rfl, hsplit₁⟩
  · -- the placement
    cases hop
    cases hmid
    refine ⟨?_, ?_, by rintro ⟨⟩⟩
    · rintro _ ⟨⟩ id hid
      cases hid
    · rintro _ _ ⟨⟩ _
      exact Or.inl rfl
  · rcases List.cons_eq_append_iff.mp hsplit₁ with ⟨rfl, hop⟩ | ⟨l₂, rfl, hnil⟩
    · -- the restart, after which the event log is one entry longer
      cases hop
      refine ⟨by rintro _ ⟨⟩, by rintro _ _ ⟨⟩, ?_⟩
      intro _
      have hseq : ((engineWithAppends 2).runOps 10
          [.request (.place 0 (wireLimit 1 10 .sell 100 5 .cancelTaker))]).map
            (fun st => st.eventLog.sequence) = some 1 := by
        decide +kernel
      rw [hmid, Option.map_some] at hseq
      rw [Option.some.inj hseq]
      decide
    · exact absurd (List.append_eq_nil_iff.mp hnil.symm).2 (List.cons_ne_nil _ _)

end EngineState

end CryptoCex.Server
