import CryptoCex.Server.Restart

/-!
# Halted markets across restarts

The set of halted symbols is neither in the command log nor read back from the event
log, so a restart forgets it. `halts_respected` is the result for runs without a restart
while a market is halted, and without a resumption that took effect and was not
acknowledged, as its event could not be written.
-/

namespace CryptoCex.Server

open CryptoCex.Core
open Proto (EngineOrder EngineRequest EngineResponse MarketStatus SequencedEngineEvent)

namespace EngineState

variable {fuel : ℕ} {st st' init : EngineState}

/-! ## What requests do to the halted symbols -/

/-- The halted symbols after a request. -/
def haltedAfter (st : EngineState) : EngineRequest → Finset String
  | .haltMarket _ symbol => insert symbol st.haltedSymbols
  | .resumeMarket _ symbol => st.haltedSymbols.erase symbol
  | _ => st.haltedSymbols

/-- Logging events halts no market. -/
theorem sequenceEvents_haltedSymbols {events : List Proto.EngineEvent}
    {result : Except ServerError (List SequencedEngineEvent)}
    (h : st.sequenceEvents events = (result, st')) : st'.haltedSymbols = st.haltedSymbols := by
  induction events generalizing st result with
  | nil =>
    cases h
    rfl
  | cons event events ih =>
    unfold sequenceEvents at h
    dsimp only at h
    split at h
    · cases h
      rfl
    · split at h
      · next hrest =>
        cases h
        have htail := ih hrest
        exact htail
      · next hrest =>
        cases h
        have htail := ih hrest
        exact htail

/-- Nor does a placement. -/
theorem placeOrder_haltedSymbols {requestId : Uuid} {order : EngineOrder}
    {result : Except ServerError ResponseBundle}
    (h : st.placeOrder fuel requestId order = some (result, st')) :
    st'.haltedSymbols = st.haltedSymbols := by
  unfold placeOrder at h
  split at h
  · cases h
    rfl
  · dsimp only at h
    split_ifs at h
    · cases h
      rfl
    · split at h
      · next happ =>
        cases h
        exact (appendCommand_eventLog happ).2.2
      · next st₁ happ =>
        have hhalted := (appendCommand_eventLog happ).2.2
        split at h
        · cases h
        · next book coreEvents hmatch =>
          split at h
          · cases h
            exact hhalted
          · -- accepted: the acknowledgement writes to the log and the table only
            have hack := Option.some.inj h
            have hports := toWireCoreEvents_ports { st₁ with
              books := st₁.books.insert order.symbol book
              openOrders := applyOpenOrderUpdates st₁.openOrders (some (toCoreOrder order))
                coreEvents } order.symbol coreEvents
            unfold acknowledgePlace at hack
            dsimp only at hack
            split at hack
            · next hseq =>
              cases hack
              exact (sequenceEvents_haltedSymbols hseq).trans (hports.2.2.trans hhalted)
            · next hseq =>
              cases hack
              exact (sequenceEvents_haltedSymbols hseq).trans (hports.2.2.trans hhalted)

theorem cancelOrder_haltedSymbols {requestId : Uuid} {symbol : String} {orderId : Uuid}
    {result : Except ServerError ResponseBundle}
    (h : st.cancelOrder requestId symbol orderId = (result, st')) :
    st'.haltedSymbols = st.haltedSymbols := by
  unfold cancelOrder at h
  split at h
  · cases h
    rfl
  · split_ifs at h
    · cases h
      rfl
    · split at h
      · next hcancel =>
        cases h
        exact (cancelKnownOrder_eventLog hcancel).2
      · -- the cancel was done, and its events are logged
        next hcancel =>
        have hhalted := (cancelKnownOrder_eventLog hcancel).2
        split_ifs at h
        · cases h
          exact hhalted
        · dsimp only at h
          split at h
          · next hseq =>
            cases h
            exact (sequenceEvents_haltedSymbols hseq).trans hhalted
          · next hseq =>
            cases h
            exact (sequenceEvents_haltedSymbols hseq).trans hhalted

theorem cancelAll_haltedSymbols {requestId userId : Uuid} {symbol : Option String}
    {result : Except ServerError ResponseBundle}
    (h : st.cancelAll requestId userId symbol = (result, st')) :
    st'.haltedSymbols = st.haltedSymbols := by
  unfold cancelAll at h
  dsimp only at h
  split at h
  · next heach =>
    cases h
    exact (cancelEach_eventLog heach).2
  · next heach =>
    have hhalted := (cancelEach_eventLog heach).2
    split at h
    · next hseq =>
      cases h
      exact (sequenceEvents_haltedSymbols hseq).trans hhalted
    · next hseq =>
      cases h
      exact (sequenceEvents_haltedSymbols hseq).trans hhalted

/-- A market status is acknowledged if and only if its event is written. -/
theorem marketStatusResponse_spec {requestId : Uuid} {symbol : String} {status : MarketStatus}
    {result : Except ServerError ResponseBundle}
    (h : st.marketStatusResponse requestId symbol status = (result, st')) :
    st'.haltedSymbols = st.haltedSymbols ∧
      ((∃ bundle, result = .ok bundle) ↔ st.disk.head = true) := by
  unfold marketStatusResponse at h
  cases hdisk : st.disk.head with
  | true =>
    simp only [sequenceEvents, EventLog.appendNext, hdisk, if_true] at h
    cases h
    exact ⟨rfl, by simp⟩
  | false =>
    simp only [sequenceEvents, EventLog.appendNext, hdisk, if_neg Bool.false_ne_true] at h
    cases h
    exact ⟨rfl, by simp⟩

/-- Only a halt or a resumption changes which markets are halted. -/
theorem handleRequest_haltedSymbols {req : EngineRequest}
    {result : Except ServerError ResponseBundle}
    (h : st.handleRequest fuel req = some (result, st')) :
    st'.haltedSymbols = st.haltedAfter req := by
  cases req with
  | place requestId order => exact placeOrder_haltedSymbols h
  | cancel requestId symbol orderId => exact cancelOrder_haltedSymbols (Option.some.inj h)
  | cancelAll requestId userId symbol => exact cancelAll_haltedSymbols (Option.some.inj h)
  | haltMarket requestId symbol =>
    have hhalt : st.haltMarket requestId symbol = (result, st') := Option.some.inj h
    exact (marketStatusResponse_spec hhalt).1
  | resumeMarket requestId symbol =>
    have hresume : st.resumeMarket requestId symbol = (result, st') := Option.some.inj h
    exact (marketStatusResponse_spec hresume).1
  | snapshot requestId symbol depth =>
    cases h
    rfl
  | ping requestId =>
    cases h
    rfl

/-! ## Runs -/

/-- The market status that an answer acknowledges. -/
def acknowledgedStatus : EngineRequest → Except ServerError ResponseBundle →
    Option (String × MarketStatus)
  | .haltMarket _ symbol, .ok { response := .ack _ _, .. } => some (symbol, .halted)
  | .resumeMarket _ symbol, .ok { response := .ack _ _, .. } => some (symbol, .trading)
  | _, _ => none

theorem acknowledgedStatus_eq_some {req : EngineRequest}
    {result : Except ServerError ResponseBundle} {symbol : String} {status : MarketStatus}
    (h : acknowledgedStatus req result = some (symbol, status)) :
    (∃ requestId, req = .haltMarket requestId symbol ∧ status = .halted) ∨
      ∃ requestId, req = .resumeMarket requestId symbol ∧ status = .trading := by
  unfold acknowledgedStatus at h
  split at h
  · cases h
    exact Or.inl ⟨_, rfl, rfl⟩
  · cases h
    exact Or.inr ⟨_, rfl, rfl⟩
  · cases h

/-- The last status acknowledged for the symbol in a run from `st`; `last` is the one
acknowledged before it. -/
def lastStatus (fuel : ℕ) (symbol : String) (st : EngineState) (last : Option MarketStatus) :
    List EngineOp → Option MarketStatus
  | [] => last
  | .request req :: ops =>
    match st.handleRequest fuel req with
    | none => last
    | some (result, st) =>
      match acknowledgedStatus req result with
      | none => st.lastStatus fuel symbol last ops
      | some (symbol', status) =>
        st.lastStatus fuel symbol (if symbol' = symbol then some status else last) ops
  | .restart :: ops =>
    match st.reopen fuel with
    | none => last
    | some st => st.lastStatus fuel symbol last ops

/-- The status a step leaves. -/
def statusAfter (symbol : String) (last : Option MarketStatus) (req : EngineRequest)
    (result : Except ServerError ResponseBundle) : Option MarketStatus :=
  match acknowledgedStatus req result with
  | none => last
  | some (symbol', status) => if symbol' = symbol then some status else last

theorem lastStatus_request {symbol : String} {last : Option MarketStatus} {req : EngineRequest}
    {ops : List EngineOp} {result : Except ServerError ResponseBundle}
    (h : st.handleRequest fuel req = some (result, st')) :
    st.lastStatus fuel symbol last (.request req :: ops) =
      st'.lastStatus fuel symbol (statusAfter symbol last req result) ops := by
  simp only [lastStatus, h, statusAfter]
  split
  · rfl
  · rfl

/-- The last status after two runs is that after the second, going on from the first. -/
theorem lastStatus_append {symbol : String} {last : Option MarketStatus} {ops ops' : List EngineOp}
    (h : st.runOps fuel ops = some st') :
    st.lastStatus fuel symbol last (ops ++ ops') =
      st'.lastStatus fuel symbol (st.lastStatus fuel symbol last ops) ops' := by
  induction ops generalizing st last with
  | nil =>
    cases h
    rfl
  | cons op ops ih =>
    rcases Option.bind_eq_some_iff.mp h with ⟨mid, hstep, hrest⟩
    cases op with
    | request req =>
      rcases step_request hstep with ⟨result, hhandle⟩
      rw [List.cons_append, lastStatus_request hhandle, lastStatus_request hhandle, ih hrest]
    | restart =>
      have hreopen : st.reopen fuel = some mid := hstep
      simp only [List.cons_append, lastStatus, hreopen]
      exact ih hrest

/-- The run accepts an order only if the last status acknowledged for its symbol, if any,
was a resumption. -/
def HaltsRespected (fuel : ℕ) (init : EngineState) (ops : List EngineOp) : Prop :=
  ∀ past requestId order later mid bundle st',
    ops = past ++ .request (.place requestId order) :: later →
    init.runOps fuel past = some mid →
    mid.handleRequest fuel (.place requestId order) = some (.ok bundle, st') →
    (∃ id result, bundle.response = .ack id result) →
    init.lastStatus fuel order.symbol none past ≠ some .halted

/-- A step that forgets no acknowledged halt: no symbol is halted at a restart, and the
resumption of a halted symbol can be written. -/
structure KeepsHalts (fuel : ℕ) (init : EngineState) (past : List EngineOp) (st : EngineState)
    (op : EngineOp) : Prop where
  restart : op = .restart → ∀ symbol, init.lastStatus fuel symbol none past ≠ some .halted
  resume : ∀ requestId symbol, op = .request (.resumeMarket requestId symbol) →
    init.lastStatus fuel symbol none past = some .halted → st.disk.head = true

/-- The symbols whose halt was acknowledged last are halted. -/
def HaltsKept (fuel : ℕ) (init : EngineState) (past : List EngineOp) (st : EngineState) : Prop :=
  ∀ symbol, init.lastStatus fuel symbol none past = some .halted → symbol ∈ st.haltedSymbols

/-- A step that keeps halts leaves the halted markets as the last acknowledgement says. -/
theorem HaltsKept.step {past : List EngineOp} {op : EngineOp}
    (hpast : init.runOps fuel past = some st) (h : HaltsKept fuel init past st)
    (hkeeps : KeepsHalts fuel init past st op) (hstep : st.step fuel op = some st') :
    HaltsKept fuel init (past ++ [op]) st' := by
  intro symbol hlast
  rw [lastStatus_append hpast] at hlast
  cases op with
  | restart =>
    have hreopen : st.reopen fuel = some st' := hstep
    simp only [lastStatus, hreopen] at hlast
    exact absurd hlast (hkeeps.restart rfl symbol)
  | request req =>
    rcases step_request hstep with ⟨result, hhandle⟩
    rw [lastStatus_request hhandle] at hlast
    change statusAfter symbol _ req result = some .halted at hlast
    rw [handleRequest_haltedSymbols hhandle]
    unfold statusAfter at hlast
    split at hlast
    · next hnone =>
      -- nothing was acknowledged, so the halt is an old one
      have hold := h symbol hlast
      cases req with
      | haltMarket requestId symbol' => exact Finset.mem_insert_of_mem hold
      | resumeMarket requestId symbol' =>
        refine Finset.mem_erase.mpr ⟨?_, hold⟩
        rintro rfl
        have hdisk := hkeeps.resume requestId symbol rfl hlast
        have hresume : st.resumeMarket requestId symbol = (result, st') := Option.some.inj hhandle
        simp only [resumeMarket, marketStatusResponse, sequenceEvents, EventLog.appendNext, hdisk,
          if_true] at hresume
        cases hresume
        cases hnone
      | _ => exact hold
    · next symbol' status hack =>
      rcases acknowledgedStatus_eq_some hack with ⟨requestId, rfl, rfl⟩ | ⟨requestId, rfl, rfl⟩
      · by_cases heq : symbol' = symbol
        · rw [heq]
          exact Finset.mem_insert_self _ _
        · rw [if_neg heq] at hlast
          exact Finset.mem_insert_of_mem (h symbol hlast)
      · by_cases heq : symbol' = symbol
        · rw [if_pos heq] at hlast
          cases hlast
        · rw [if_neg heq] at hlast
          exact Finset.mem_erase.mpr ⟨fun hsame => heq hsame.symm, h symbol hlast⟩

/-- In every run whose steps forget no acknowledged halt, halts are respected. -/
theorem halts_respected (ops : List EngineOp)
    (hkeeps : ∀ l op l' mid, ops = l ++ op :: l' → init.runOps fuel l = some mid →
      KeepsHalts fuel init l mid op) : HaltsRespected fuel init ops := by
  intro past requestId order later mid bundle st' hsplit hmid hhandle hack hhalted
  -- every acknowledged halt before the placement is still in force
  have hkept : HaltsKept fuel init past mid := by
    refine runOps_invariant (HaltsKept fuel init) (KeepsHalts fuel init)
      (fun past mid op mid' hpast hinv hok hstep => hinv.step hpast hok hstep) ?_ ?_ hmid
    · intro symbol hlast
      cases hlast
    · intro l op l' mid' hpast hl
      refine hkeeps l op (l' ++ .request (.place requestId order) :: later) mid' ?_ hl
      rw [hsplit, hpast, List.append_assoc, List.cons_append]
  have hsymbol := hkept order.symbol hhalted
  rcases hack with ⟨id, result, hresponse⟩
  have hplace : mid.placeOrder fuel requestId order = some (.ok bundle, st') := hhandle
  -- a placement that finds its market halted is not acknowledged
  unfold placeOrder at hplace
  split at hplace
  · cases hplace
    cases hresponse
  · simp only [if_pos hsymbol] at hplace
    cases hplace
    cases hresponse

/-- A halt, a restart and a limit order of the halted symbol. -/
def haltThenPlace : List EngineOp :=
  [.request (.haltMarket 0 "BTCUSDT"), .restart,
    .request (.place 0 (wireLimit 1 10 .sell 100 5 .cancelTaker))]

/-- The answer acknowledges its request. -/
def isAck : Except ServerError ResponseBundle → Bool
  | .ok { response := .ack _ _, .. } => true
  | _ => false

/-- The halt was acknowledged, and after the restart the order is accepted. -/
theorem halt_forgotten : ¬ HaltsRespected 10 emptyEngine haltThenPlace := by
  have hview : ((emptyEngine.runOps 10 [.request (.haltMarket 0 "BTCUSDT"), .restart]).bind
      fun mid => (mid.handleRequest 10 (.place 0
        (wireLimit 1 10 .sell 100 5 .cancelTaker))).map fun r => (isAck r.1,
        emptyEngine.lastStatus 10 "BTCUSDT" none
          [.request (.haltMarket 0 "BTCUSDT"), .restart])) = some (true, some .halted) := by
    decide +kernel
  rcases Option.bind_eq_some_iff.mp hview with ⟨mid, hmid, hplace⟩
  rcases Option.map_eq_some_iff.mp hplace with ⟨⟨answer, st'⟩, hhandle, hpair⟩
  rcases Prod.mk.inj hpair with ⟨hack, hlast⟩
  intro hrespected
  dsimp only at hack
  unfold isAck at hack
  split at hack
  · exact hrespected _ 0 (wireLimit 1 10 .sell 100 5 .cancelTaker) [] mid _ st' rfl hmid hhandle
      ⟨_, _, rfl⟩ hlast
  · cases hack

/-- The run theorem on a restart after the market was resumed. -/
theorem resumed_halt_respected : HaltsRespected 10 emptyEngine
    [.request (.haltMarket 0 "BTCUSDT"), .request (.resumeMarket 0 "BTCUSDT"), .restart,
      .request (.place 0 (wireLimit 1 10 .sell 100 5 .cancelTaker))] := by
  refine halts_respected _ ?_
  intro l op l' mid hsplit hmid
  rcases List.cons_eq_append_iff.mp hsplit with ⟨rfl, hop⟩ | ⟨l₁, rfl, hsplit₁⟩
  · cases hop
    exact ⟨by rintro ⟨⟩, by rintro _ _ ⟨⟩⟩
  · rcases List.cons_eq_append_iff.mp hsplit₁ with ⟨rfl, hop⟩ | ⟨l₂, rfl, hsplit₂⟩
    · cases hop
      cases hmid
      exact ⟨by rintro ⟨⟩, fun _ _ _ _ => rfl⟩
    · rcases List.cons_eq_append_iff.mp hsplit₂ with ⟨rfl, hop⟩ | ⟨l₃, rfl, hsplit₃⟩
      · cases hop
        refine ⟨?_, by rintro _ _ ⟨⟩⟩
        intro _ symbol
        have hlast : emptyEngine.lastStatus 10 symbol none [.request (.haltMarket 0 "BTCUSDT"),
            .request (.resumeMarket 0 "BTCUSDT")] = if "BTCUSDT" = symbol then some .trading
              else if "BTCUSDT" = symbol then some .halted else none := rfl
        rw [hlast]
        split_ifs
        · decide
        · decide
      · rcases List.cons_eq_append_iff.mp hsplit₃ with ⟨rfl, hop⟩ | ⟨l₄, rfl, hnil⟩
        · cases hop
          exact ⟨by rintro ⟨⟩, by rintro _ _ ⟨⟩⟩
        · exact absurd (List.append_eq_nil_iff.mp hnil.symm).2 (List.cons_ne_nil _ _)

end EngineState

end CryptoCex.Server
