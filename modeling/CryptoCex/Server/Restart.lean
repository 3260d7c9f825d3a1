import CryptoCex.Server.EventStream

/-!
# Runs with restarts

A run of the engine process is a sequence of requests and restarts. A restart opens the
engine over the records of its two files. An append that does not complete ends its
request (the disk of the state says which appends do), so a crash between two appends is
a request that fails at that point, followed by a restart.
-/

namespace CryptoCex.Server

open CryptoCex.Core
open Proto (EngineOrder EngineRequest SequencedEngineEvent)

/-- What happens to the engine process. -/
inductive EngineOp where
  | request (req : EngineRequest)
  | restart
deriving DecidableEq, Repr

/-- The requests of a run. -/
def requestsOf : List EngineOp → List EngineRequest
  | [] => []
  | .request req :: ops => req :: requestsOf ops
  | .restart :: ops => requestsOf ops

theorem requestsOf_append (ops ops' : List EngineOp) :
    requestsOf (ops ++ ops') = requestsOf ops ++ requestsOf ops' := by
  induction ops with
  | nil => rfl
  | cons op ops ih => cases op <;> simp only [List.cons_append, requestsOf, ih]

namespace EngineState

/-- Opens the engine over the files it has written. -/
def reopen [Rounding] (fuel : ℕ) (st : EngineState) : Option EngineState :=
  EngineState.open fuel st.commandWal.entries st.eventLog.entries st.idSource st.clock st.disk
    st.snapshotDepth

def step [Rounding] (fuel : ℕ) (st : EngineState) : EngineOp → Option EngineState
  | .request req => (st.handleRequest fuel req).map Prod.snd
  | .restart => st.reopen fuel

def runOps [Rounding] (fuel : ℕ) (st : EngineState) : List EngineOp → Option EngineState
  | [] => some st
  | op :: ops => (st.step fuel op).bind fun st => st.runOps fuel ops

variable {fuel : ℕ} {st st' init : EngineState}

theorem runOps_append [Rounding] (fuel : ℕ) (st : EngineState) (ops ops' : List EngineOp) :
    st.runOps fuel (ops ++ ops') = (st.runOps fuel ops).bind fun mid => mid.runOps fuel ops' := by
  induction ops generalizing st with
  | nil => rfl
  | cons op ops ih =>
    simp only [List.cons_append, runOps]
    cases st.step fuel op with
    | none => rfl
    | some mid => exact ih mid

/-- A run of operations ends with its last one. -/
theorem runOps_concat [Rounding] {ops : List EngineOp} {op : EngineOp}
    (h : init.runOps fuel (ops ++ [op]) = some st) :
    ∃ mid, init.runOps fuel ops = some mid ∧ mid.step fuel op = some st := by
  rw [runOps_append] at h
  rcases Option.bind_eq_some_iff.mp h with ⟨mid, hmid, hlast⟩
  rcases Option.bind_eq_some_iff.mp hlast with ⟨st₁, hstep, hnil⟩
  cases hnil
  exact ⟨mid, hmid, hstep⟩

/-- The induction rule for runs with restarts: `Ok` is what is known of a step that
follows `past` in the state it leads to. -/
theorem runOps_invariant [Rounding] (Inv : List EngineOp → EngineState → Prop)
    (Ok : List EngineOp → EngineState → EngineOp → Prop)
    (hstep : ∀ past st op st', init.runOps fuel past = some st → Inv past st → Ok past st op →
      st.step fuel op = some st' → Inv (past ++ [op]) st')
    (h0 : Inv [] init) {ops : List EngineOp}
    (hok : ∀ l op l' mid, ops = l ++ op :: l' → init.runOps fuel l = some mid → Ok l mid op)
    (hrun : init.runOps fuel ops = some st) : Inv ops st := by
  induction ops using List.reverseRecOn generalizing st with
  | nil =>
    cases hrun
    exact h0
  | append_singleton ops op ih =>
    rcases runOps_concat hrun with ⟨mid, hmid, hlast⟩
    refine hstep ops mid op st hmid (ih ?_ hmid) (hok ops op [] mid rfl hmid) hlast
    intro l op' l' mid' hsplit hl
    exact hok l op' (l' ++ [op]) mid' (by rw [hsplit, List.append_assoc, List.cons_append]) hl

theorem step_request [Rounding] {req : EngineRequest} (h : st.step fuel (.request req) = some st') :
    ∃ result, st.handleRequest fuel req = some (result, st') := by
  rcases Option.map_eq_some_iff.mp h with ⟨⟨result, st₁⟩, hhandle, rfl⟩
  exact ⟨result, hhandle⟩

/-! ## Logs across restarts -/

/-- The event log is numbered from one on. -/
def Whole (st : EngineState) : Prop := Numbered 0 st.eventLog.entries st.eventLog.sequence

/-- What a restart keeps: the files, and what they are read as. -/
theorem reopen_spec [Rounding] (hwhole : st.Whole) (h : st.reopen fuel = some st') :
    st'.commands = st.commands ∧ st'.eventLog = st.eventLog ∧ st'.haltedSymbols = ∅ ∧
      replayBooks fuel st.commandWal.entries OrdMap.empty OrdMap.empty =
        some (st'.books, st'.openOrders) := by
  unfold reopen EngineState.open at h
  split at h
  · cases h
  · next books openOrders hreplay =>
    cases h
    refine ⟨rfl, ?_, rfl, hreplay⟩
    simp only [EventLog.open, Numbered.lastSeq_eq hwhole]

/-- An operation adds to the event log; a restart reads it as it was. -/
theorem step_extends [Rounding] (hwhole : st.Whole) {op : EngineOp}
    (h : st.step fuel op = some st') : ∃ new, st.eventLog.Extends new st'.eventLog := by
  cases op with
  | request req =>
    rcases step_request h with ⟨result, hhandle⟩
    rcases handleRequest_logs hhandle with ⟨new, hext, _⟩
    exact ⟨new, hext⟩
  | restart =>
    refine ⟨[], ?_⟩
    rw [(reopen_spec hwhole h).2.1]
    exact .refl _

theorem Whole.extends {new : List SequencedEngineEvent} (h : st.Whole)
    (hext : st.eventLog.Extends new st'.eventLog) : st'.Whole := by
  have happend := h.append hext.numbered
  rw [← hext.entries] at happend
  exact happend

/-- A run only adds to the event log. -/
theorem runOps_extends [Rounding] {ops : List EngineOp} (hwhole : st.Whole)
    (h : st.runOps fuel ops = some st') :
    st'.Whole ∧ ∃ new, st.eventLog.Extends new st'.eventLog := by
  induction ops using List.reverseRecOn generalizing st' with
  | nil =>
    cases h
    exact ⟨hwhole, [], .refl _⟩
  | append_singleton ops op ih =>
    rcases runOps_concat h with ⟨mid, hmid, hlast⟩
    rcases ih hmid with ⟨hmidWhole, new, hext⟩
    rcases step_extends hmidWhole hlast with ⟨new', hext'⟩
    exact ⟨hmidWhole.extends hext', new ++ new', hext.trans hext'⟩

/-- An engine that is opened has read its whole log. -/
theorem whole_open [Rounding] {walFuel : ℕ} {idSource : Stream' Uuid} {clock : Stream' String}
    {disk : Stream' Bool} {snapshotDepth : ℕ}
    (h : EngineState.open walFuel [] [] idSource clock disk snapshotDepth = some init) :
    init.Whole := by
  cases h
  exact .nil

end EngineState

end CryptoCex.Server
