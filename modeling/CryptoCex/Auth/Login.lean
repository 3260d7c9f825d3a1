import CryptoCex.Lib.Machine
import CryptoCex.Lib.Tasks
import Mathlib.Data.List.Basic
import Mathlib.Data.Set.Basic
import Mathlib.Logic.Function.Basic
import Mathlib.Tactic.Linarith

/-!
# Login attempts

`AuthService::login` checks the failure counters, looks the user up, verifies the password and
records the failure. The counters are behind a lock, but the check and the record take it
separately, and what is done in between can take long. A counter runs from the first failure it
counts; a check drops those that began more than `LOGIN_WINDOW_SECONDS` ago.

Two things can therefore let more failures through than `MAX_LOGIN_FAILURES`: logins that are let
through while others are still to be counted, and a counter that is dropped while it counts recent
failures (`bound_exceeded`). Where neither happens, the counters bound the
failures in every interval (`failures_le_max`).
-/

namespace CryptoCex.Auth.Login

def loginWindowSeconds : ℤ := 15 * 60

def maxLoginFailures : ℕ := 5

/-! ## Counters -/

structure FailureWindow where
  count : ℕ
  firstFailureAt : ℤ
deriving DecidableEq, Repr

structure LoginAttempts where
  byEmail : String → Option FailureWindow
  byIp : String → Option FailureWindow

/-- `saturating_add` on a `u32`. -/
def incrementWindow (window : FailureWindow) : FailureWindow :=
  { window with count := min (window.count + 1) (2 ^ 32 - 1) }

/-- The entry of a key, or a new one that begins now, is incremented. -/
def recordKey (windows : String → Option FailureWindow) (key : String) (now : ℤ) :
    String → Option FailureWindow :=
  Function.update windows key (some (incrementWindow ((windows key).getD ⟨0, now⟩)))

def pruneWindows (windows : String → Option FailureWindow) (now : ℤ) :
    String → Option FailureWindow :=
  fun key => (windows key).filter fun window =>
    now - window.firstFailureAt ≤ loginWindowSeconds

def lockedWindow (window : Option FailureWindow) : Bool :=
  window.any fun window => maxLoginFailures ≤ window.count

namespace LoginAttempts

def record (attempts : LoginAttempts) (email ipKey : String) (now : ℤ) : LoginAttempts where
  byEmail := recordKey attempts.byEmail email now
  byIp := recordKey attempts.byIp ipKey now

def prune (attempts : LoginAttempts) (now : ℤ) : LoginAttempts where
  byEmail := pruneWindows attempts.byEmail now
  byIp := pruneWindows attempts.byIp now

def isLocked (attempts : LoginAttempts) (email ipKey : String) : Bool :=
  lockedWindow (attempts.byEmail email) || lockedWindow (attempts.byIp ipKey)

/-- `clear_login_failures`. -/
def clear (attempts : LoginAttempts) (email ipKey : String) : LoginAttempts where
  byEmail := Function.update attempts.byEmail email none
  byIp := Function.update attempts.byIp ipKey none

/-- The failures counted for an email. -/
def failures (attempts : LoginAttempts) (email : String) : ℕ :=
  (attempts.byEmail email).elim 0 FailureWindow.count

end LoginAttempts

/-! ## Logins -/

inductive LoginError where
  | invalidCredentials
  | tooManyAttempts
  | internal
deriving DecidableEq, Repr

/-- What a login does next. It has read the clock once, at its start. -/
inductive Phase where
  | checking (email ipKey : String) (now : ℤ)
  | findingUser (email ipKey : String) (now : ℤ)
  | verifying (email ipKey : String) (now : ℤ)
  | recording (email ipKey : String) (now : ℤ)
  | clearing (email ipKey : String)
  | failed (error : LoginError)
  /-- The tokens are minted now, or the second factor is asked for. -/
  | loggedIn
deriving DecidableEq, Repr

/-- The outcome of `find_user_by_email`. -/
inductive Lookup where
  | unavailable
  | unknown
  | inactive
  | active
deriving DecidableEq, Repr

/-- The outcome of `verify_password`: an error if the stored hash cannot be read. -/
inductive Verdict where
  | unreadable
  | wrong
  | right
deriving DecidableEq, Repr

/-- A failed verification for an email, or a login that succeeded. -/
structure Event where
  email : String
  time : ℤ
  failed : Bool
deriving DecidableEq, Repr

structure State where
  attempts : LoginAttempts
  clock : ℤ
  /-- The logins so far. -/
  calls : List Phase
  /-- What happened so far. -/
  log : List Event

def State.setCall (s : State) (c : ℕ) (phase : Phase) : State :=
  { s with calls := s.calls.set c phase }

/-- Something happens now. -/
def State.write (s : State) (email : String) (failed : Bool) : State :=
  { s with log := s.log ++ [⟨email, s.clock, failed⟩] }

inductive Action where
  /-- The clock moves on. -/
  | tick (seconds : ℕ)
  /-- `login` is called; the email is normalised and valid. -/
  | login (email ipKey : String)
  | ensureLoginAllowed (c : ℕ)
  | findUserByEmail (c : ℕ) (lookup : Lookup)
  | verifyPassword (c : ℕ) (verdict : Verdict)
  | recordLoginFailure (c : ℕ)
  | clearLoginFailures (c : ℕ)
deriving DecidableEq, Repr

def step (s : State) : Action → Option State
  | .tick seconds => some { s with clock := s.clock + seconds }
  | .login email ipKey => some { s with calls := s.calls ++ [.checking email ipKey s.clock] }
  | .ensureLoginAllowed c =>
    match s.calls[c]? with
    | some (.checking email ipKey now) =>
      let attempts := s.attempts.prune now
      some ({ s with attempts }.setCall c
        (if attempts.isLocked email ipKey then .failed .tooManyAttempts
        else .findingUser email ipKey now))
    | _ => none
  | .findUserByEmail c lookup =>
    match s.calls[c]? with
    | some (.findingUser email ipKey now) =>
      some (s.setCall c
        (match lookup with
        | .unavailable => .failed .internal
        | .unknown | .inactive => .recording email ipKey now
        | .active => .verifying email ipKey now))
    | _ => none
  | .verifyPassword c verdict =>
    match s.calls[c]? with
    | some (.verifying email ipKey now) =>
      match verdict with
      | .unreadable => some (s.setCall c (.failed .internal))
      | .wrong => some ((s.write email true).setCall c (.recording email ipKey now))
      | .right => some (s.setCall c (.clearing email ipKey))
    | _ => none
  | .recordLoginFailure c =>
    match s.calls[c]? with
    | some (.recording email ipKey now) =>
      some ({ s with attempts := s.attempts.record email ipKey now }.setCall c
        (.failed .invalidCredentials))
    | _ => none
  | .clearLoginFailures c =>
    match s.calls[c]? with
    | some (.clearing email ipKey) =>
      some ({ s.write email false with
        attempts := s.attempts.clear email ipKey }.setCall c .loggedIn)
    | _ => none

/-! ## What is counted -/

/-- The email of a login that has been let through and is neither counted nor over. -/
def Phase.inFlight : Phase → Option String
  | findingUser email _ _ | verifying email _ _ | recording email _ _ | clearing email _ =>
    some email
  | _ => none

/-- The email of a login whose failure is still to be counted. -/
def Phase.failing : Phase → Option String
  | recording email _ _ => some email
  | _ => none

namespace State

def inFlight (s : State) (email : String) : ℕ :=
  s.calls.countP fun phase => phase.inFlight = some email

def failing (s : State) (email : String) : ℕ :=
  s.calls.countP fun phase => phase.failing = some email

/-- The failed verifications for an email from `a` on. -/
def failedSince (s : State) (email : String) (a : ℤ) : ℕ :=
  s.log.countP fun event => event.email = email ∧ event.failed = true ∧ a ≤ event.time

/-- The failed verifications for an email in the interval that begins at `a`. -/
def failedWithin (s : State) (email : String) (a : ℤ) : ℕ :=
  s.log.countP fun event => event.email = email ∧ event.failed = true ∧
    a ≤ event.time ∧ event.time ≤ a + loginWindowSeconds

/-- A login for the email succeeded in the interval that begins at `a`. -/
def SucceededWithin (s : State) (email : String) (a : ℤ) : Prop :=
  ∃ event ∈ s.log, event.email = email ∧ event.failed = false ∧
    a ≤ event.time ∧ event.time ≤ a + loginWindowSeconds

instance (s : State) (email : String) (a : ℤ) : Decidable (s.SucceededWithin email a) :=
  inferInstanceAs (Decidable (∃ event ∈ s.log, _))

/-- The failed verifications for an email that are not older than a window at time `now`, and
after which no login for the email has succeeded. -/
def recentFailures (s : State) (email : String) (now : ℤ) : ℕ :=
  s.log.countP fun event => event.email = email ∧ event.failed = true ∧
    now ≤ event.time + loginWindowSeconds ∧
    ∀ later ∈ s.log, later.email = email → later.failed = false → later.time < event.time

end State

/-! ## Careful checks -/

/-- A login is let through only if all those in flight could fail besides it. -/
def State.Affords (s : State) (email ipKey : String) (now : ℤ) : Prop :=
  (s.attempts.prune now).isLocked email ipKey = false →
    (s.attempts.prune now).failures email + s.inFlight email < maxLoginFailures

/-- The counter of an email is dropped only if no recent failure of the email is counted: there
are no more of them than logins that have still to record one. -/
def State.DropsOld (s : State) (now : ℤ) : Prop :=
  ∀ event ∈ s.log, (s.attempts.prune now).byEmail event.email ≠ s.attempts.byEmail event.email →
    s.recentFailures event.email now ≤ s.failing event.email

/-- The login that a check is about. -/
def Phase.check : Phase → Option (String × String × ℤ)
  | checking email ipKey now => some (email, ipKey, now)
  | _ => none

def Careful (s : State) : Action → Prop
  | .ensureLoginAllowed c => ∀ login ∈ s.calls[c]?.bind Phase.check,
      s.Affords login.1 login.2.1 login.2.2 ∧ s.DropsOld login.2.2
  | _ => True

instance (s : State) (email ipKey : String) (now : ℤ) : Decidable (s.Affords email ipKey now) :=
  inferInstanceAs (Decidable (_ → _))

instance (s : State) (now : ℤ) : Decidable (s.DropsOld now) :=
  inferInstanceAs (Decidable (∀ event ∈ s.log, _ → _))

instance (s : State) (a : Action) : Decidable (Careful s a) :=
  match a with
  | .ensureLoginAllowed _ => inferInstanceAs (Decidable (∀ login ∈ Option.bind _ _, _ ∧ _))
  | .tick _ | .login _ _ | .findUserByEmail _ _ | .verifyPassword _ _ | .recordLoginFailure _
  | .clearLoginFailures _ => isTrue trivial

/-! ## Invariant -/

/-- What the counters say about the failures for an email. -/
structure Inv (email : String) (s : State) : Prop where
  /-- Nothing happened in the future. -/
  past : ∀ event ∈ s.log, event.time ≤ s.clock
  /-- All logins in flight may fail. -/
  budget : s.attempts.failures email + s.inFlight email ≤ maxLoginFailures
  /-- The failures in an interval that is not over are counted or about to be. -/
  counted : ∀ a, s.clock ≤ a + loginWindowSeconds →
    (∀ event ∈ s.log, event.email = email → event.failed = false → event.time < a) →
    s.failedSince email a ≤ s.attempts.failures email + s.failing email
  bounded : ∀ a, ¬s.SucceededWithin email a → s.failedWithin email a ≤ maxLoginFailures

variable {email : String} {s s' : State}

/-- A call that will record a failure is in flight. -/
theorem failing_le_inFlight (s : State) (email : String) : s.failing email ≤ s.inFlight email := by
  refine List.countP_mono_left fun phase _ hphase => ?_
  cases phase with
  | recording email ipKey now => exact hphase
  | _ => cases of_decide_eq_true hphase

/-- What one call adds to those in flight, before and after it moves on. -/
theorem inFlight_setCall {c : ℕ} {old : Phase} (hc : s.calls[c]? = some old) (phase : Phase)
    (email : String) :
    (s.setCall c phase).inFlight email + (if old.inFlight = some email then 1 else 0) =
      s.inFlight email + (if phase.inFlight = some email then 1 else 0) := by
  have hcount := Tasks.countP_set (b := phase) hc fun phase => phase.inFlight = some email
  simp only [decide_eq_true_eq] at hcount
  exact hcount

/-- The same for the calls that will record a failure. -/
theorem failing_setCall {c : ℕ} {old : Phase} (hc : s.calls[c]? = some old) (phase : Phase)
    (email : String) :
    (s.setCall c phase).failing email + (if old.failing = some email then 1 else 0) =
      s.failing email + (if phase.failing = some email then 1 else 0) := by
  have hcount := Tasks.countP_set (b := phase) hc fun phase => phase.failing = some email
  simp only [decide_eq_true_eq] at hcount
  exact hcount

/-! ## The counter of an email -/

section Counter

variable (attempts : LoginAttempts) (key ipKey : String) (now : ℤ)

/-- A recorded failure counts, unless the counter is full. -/
theorem failures_record_self (h : attempts.failures email < 2 ^ 32 - 1) :
    (attempts.record email ipKey now).failures email = attempts.failures email + 1 := by
  simp only [LoginAttempts.failures, LoginAttempts.record, recordKey, Function.update_self,
    incrementWindow, Option.elim_some] at h ⊢
  cases hwindow : attempts.byEmail email with
  | none => rfl
  | some window =>
    rw [hwindow, Option.elim_some] at h
    exact min_eq_left h

theorem failures_record_of_ne (h : email ≠ key) :
    (attempts.record key ipKey now).failures email = attempts.failures email := by
  simp only [LoginAttempts.failures, LoginAttempts.record, recordKey, Function.update_of_ne h]

theorem failures_clear_self : (attempts.clear email ipKey).failures email = 0 := by
  simp only [LoginAttempts.failures, LoginAttempts.clear, Function.update_self, Option.elim_none]

theorem failures_clear_of_ne (h : email ≠ key) :
    (attempts.clear key ipKey).failures email = attempts.failures email := by
  simp only [LoginAttempts.failures, LoginAttempts.clear, Function.update_of_ne h]

/-- A counter is kept as it is, or dropped. -/
theorem failures_prune (email : String) :
    (attempts.prune now).failures email = attempts.failures email ∨
      (attempts.prune now).failures email = 0 ∧
        (attempts.prune now).byEmail email ≠ attempts.byEmail email := by
  simp only [LoginAttempts.failures, LoginAttempts.prune, pruneWindows]
  cases hwindow : attempts.byEmail email with
  | none => exact .inl rfl
  | some window =>
    by_cases hold : now - window.firstFailureAt ≤ loginWindowSeconds
    · left
      simp only [Option.filter, hold, decide_true, if_true]
    · right
      simp only [Option.filter, hold, decide_false]
      exact ⟨rfl, by simp⟩

theorem failures_prune_le (email : String) :
    (attempts.prune now).failures email ≤ attempts.failures email := by
  rcases failures_prune attempts now email with heq | ⟨hzero, -⟩
  · exact heq.le
  · omega

end Counter

/-! ## Steps -/

/-- Nothing happens that is written down. -/
theorem Inv.of_log_eq (h : Inv email s) (hlog : s'.log = s.log) (hclock : s'.clock = s.clock)
    (hbudget : s'.attempts.failures email + s'.inFlight email ≤ maxLoginFailures)
    (hcounted : ∀ a, s.clock ≤ a + loginWindowSeconds →
      (∀ event ∈ s.log, event.email = email → event.failed = false → event.time < a) →
      s.failedSince email a ≤ s'.attempts.failures email + s'.failing email) :
    Inv email s' := by
  have hsince : ∀ a, s'.failedSince email a = s.failedSince email a := by
    intro a
    rw [State.failedSince, hlog, State.failedSince]
  constructor
  · rw [hlog, hclock]
    exact h.past
  · exact hbudget
  · intro a hopen hlast
    rw [hclock] at hopen
    rw [hlog] at hlast
    rw [hsince]
    exact hcounted a hopen hlast
  · intro a hnone
    rw [State.SucceededWithin, hlog] at hnone
    rw [State.failedWithin, hlog]
    exact h.bounded a hnone

theorem one_if_le {p q : Prop} [Decidable p] [Decidable q] (h : p → q) :
    (if p then 1 else 0) ≤ (if q then 1 else 0) := by
  by_cases hp : p
  · rw [if_pos hp, if_pos (h hp)]
  · rw [if_neg hp]
    exact Nat.zero_le _

/-- A login goes on, and the counter stays as it is. -/
theorem Inv.setCall (h : Inv email s) {c : ℕ} {old phase : Phase} (hc : s.calls[c]? = some old)
    (hinFlight : phase.inFlight = some email → old.inFlight = some email)
    (hfailing : old.failing = some email → phase.failing = some email) :
    Inv email (s.setCall c phase) := by
  have hin := inFlight_setCall hc phase email
  have hfail := failing_setCall hc phase email
  have hfewer := one_if_le hinFlight
  have hmore := one_if_le hfailing
  refine h.of_log_eq rfl rfl ?_ ?_
  · have hbudget := h.budget
    show s.attempts.failures email + _ ≤ _
    omega
  · intro a hopen hlast
    have hsince := h.counted a hopen hlast
    show _ ≤ s.attempts.failures email + _
    omega

/-- A login is let through, or not; old counters are dropped first. -/
theorem Inv.ensureLoginAllowed (h : Inv email s) {c : ℕ} {key ipKey : String} {now : ℤ}
    (hc : s.calls[c]? = some (.checking key ipKey now)) (hnow : now ≤ s.clock)
    (haffords : s.Affords key ipKey now) (hdrops : s.DropsOld now) :
    Inv email ({ s with attempts := s.attempts.prune now }.setCall c
      (if (s.attempts.prune now).isLocked key ipKey then .failed .tooManyAttempts
      else .findingUser key ipKey now)) := by
  have hin : ∀ phase, (s.setCall c phase).inFlight email =
      s.inFlight email + (if phase.inFlight = some email then 1 else 0) := by
    intro phase
    have hcount := inFlight_setCall hc phase email
    rwa [if_neg (show ¬(Phase.checking key ipKey now).inFlight = some email by
      simp [Phase.inFlight])] at hcount
  have hfail : ∀ phase : Phase, phase.failing = none →
      (s.setCall c phase).failing email = s.failing email := by
    intro phase hnone
    have hcount := failing_setCall hc phase email
    rwa [if_neg (show ¬(Phase.checking key ipKey now).failing = some email by simp [Phase.failing]),
      if_neg (by simp [hnone])] at hcount
  have hle := failures_prune_le s.attempts now email
  have hbudget := h.budget
  refine h.of_log_eq rfl rfl ?_ ?_
  · show (s.attempts.prune now).failures email + (s.setCall c _).inFlight email ≤ _
    rw [hin]
    split_ifs with hlocked hthis hthis
    · cases hthis
    · omega
    · -- the login is let through: there was room for one more
      cases Option.some.inj hthis
      have hroom := haffords (Bool.eq_false_of_not_eq_true hlocked)
      omega
    · omega
  · intro a hopen hlast
    have hsince := h.counted a hopen hlast
    show _ ≤ (s.attempts.prune now).failures email + (s.setCall c _).failing email
    rw [hfail _ (by split_ifs <;> rfl)]
    rcases failures_prune s.attempts now email with hkept | ⟨hzero, hdropped⟩
    · omega
    · -- what began before the window is not in an interval that is not over
      have hrecent : s.failedSince email a ≤ s.recentFailures email now := by
        refine List.countP_mono_left fun event hevent hcounts => ?_
        rcases of_decide_eq_true hcounts with ⟨hemail, hfailed, hfrom⟩
        refine decide_eq_true ⟨hemail, hfailed, by omega, ?_⟩
        intro later hlater hsame hok
        have := hlast later hlater hsame hok
        omega
      by_cases hany : s.failedSince email a = 0
      · omega
      · rcases List.countP_pos_iff.mp (Nat.pos_of_ne_zero hany) with ⟨event, hevent, hcounts⟩
        rcases of_decide_eq_true hcounts with ⟨rfl, -, -⟩
        have hfew := hdrops event hevent hdropped
        omega

/-- A failure is counted. -/
theorem Inv.recordLoginFailure (h : Inv email s) {c : ℕ} {key ipKey : String} {now : ℤ}
    (hc : s.calls[c]? = some (.recording key ipKey now)) :
    Inv email ({ s with attempts := s.attempts.record key ipKey now }.setCall c
      (.failed .invalidCredentials)) := by
  have hin := inFlight_setCall hc (.failed .invalidCredentials) email
  have hfail := failing_setCall hc (.failed .invalidCredentials) email
  rw [if_neg (show ¬(Phase.failed .invalidCredentials).inFlight = some email by
    simp [Phase.inFlight])] at hin
  rw [if_neg (show ¬(Phase.failed .invalidCredentials).failing = some email by
    simp [Phase.failing])] at hfail
  have hbudget := h.budget
  -- for its own key the call stops failing and its failure is counted; other keys see nothing
  have hcount : (s.attempts.record key ipKey now).failures email =
      s.attempts.failures email +
        (if (Phase.recording key ipKey now).failing = some email then 1 else 0) := by
    by_cases hkey : email = key
    · subst hkey
      rw [if_pos (show (Phase.recording email ipKey now).failing = some email from rfl)]
      refine failures_record_self _ _ _ ?_
      have : maxLoginFailures = 5 := rfl
      omega
    · have hother : ¬(Phase.recording key ipKey now).failing = some email :=
        fun heq => hkey (Option.some.inj heq).symm
      rw [failures_record_of_ne _ _ _ _ hkey, if_neg hother]
      rfl
  have hsame : (Phase.recording key ipKey now).inFlight = (Phase.recording key ipKey now).failing :=
    rfl
  rw [hsame] at hin
  refine h.of_log_eq rfl rfl ?_ ?_
  · show (s.attempts.record key ipKey now).failures email + (s.setCall c _).inFlight email ≤ _
    omega
  · intro a hopen hlast
    have hsince := h.counted a hopen hlast
    show _ ≤ (s.attempts.record key ipKey now).failures email + (s.setCall c _).failing email
    omega

/-- Something happens: only intervals that are not over can contain it. -/
theorem Inv.of_write (h : Inv email s) {key : String} {failed : Bool}
    (hlog : s'.log = (s.write key failed).log) (hclock : s'.clock = s.clock)
    (hbudget : s'.attempts.failures email + s'.inFlight email ≤ maxLoginFailures)
    (hcounted : ∀ a, s.clock ≤ a + loginWindowSeconds →
      (∀ event ∈ s'.log, event.email = email → event.failed = false → event.time < a) →
      s'.failedSince email a ≤ s'.attempts.failures email + s'.failing email) :
    Inv email s' := by
  have hlog' : s'.log = s.log ++ [⟨key, s.clock, failed⟩] := hlog
  have hpast : ∀ event ∈ s'.log, event.time ≤ s.clock := by
    intro event hevent
    rw [hlog'] at hevent
    rcases List.mem_append.mp hevent with hold | hnew
    · exact h.past event hold
    · rw [List.mem_singleton.mp hnew]
  constructor
  · rw [hclock]
    exact hpast
  · exact hbudget
  · rw [hclock]
    exact hcounted
  · intro a hnone
    by_cases hopen : s.clock ≤ a + loginWindowSeconds
    · -- all failures since the interval began are counted or in flight
      have hall : s'.failedWithin email a ≤ s'.failedSince email a := by
        refine List.countP_mono_left fun event _ hcounts => ?_
        rcases of_decide_eq_true hcounts with ⟨hemail, hfailed, hfrom, -⟩
        exact decide_eq_true ⟨hemail, hfailed, hfrom⟩
      have hsince := hcounted a hopen fun event hevent hemail hok => by
        by_contra hnot
        have := hpast event hevent
        exact hnone ⟨event, hevent, hemail, hok, by omega, by omega⟩
      have hle := failing_le_inFlight s' email
      omega
    · have hbefore : ¬s.SucceededWithin email a := by
        rintro ⟨event, hevent, hrest⟩
        exact hnone ⟨event, hlog' ▸ List.mem_append.mpr (.inl hevent), hrest⟩
      have hbounded := h.bounded a hbefore
      rw [State.failedWithin, hlog', List.countP_append, List.countP_singleton, if_neg]
      · exact hbounded
      · intro hmine
        exact hopen (of_decide_eq_true hmine).2.2.2

/-- A verification fails. -/
theorem Inv.wrongPassword (h : Inv email s) {c : ℕ} {key ipKey : String} {now : ℤ}
    (hc : s.calls[c]? = some (.verifying key ipKey now)) :
    Inv email ((s.write key true).setCall c (.recording key ipKey now)) := by
  have hin := inFlight_setCall hc (.recording key ipKey now) email
  have hfail := failing_setCall hc (.recording key ipKey now) email
  have hsame : (Phase.recording key ipKey now).inFlight = (Phase.verifying key ipKey now).inFlight :=
    rfl
  rw [hsame] at hin
  rw [if_neg (show ¬(Phase.verifying key ipKey now).failing = some email by
    simp [Phase.failing])] at hfail
  -- the budget pays for the call as in flight, and the log's new entry for it as failing
  refine h.of_write rfl rfl ?_ ?_
  · have hbudget := h.budget
    show s.attempts.failures email + (s.setCall c _).inFlight email ≤ _
    omega
  · intro a hopen hlast
    have hsince := h.counted a hopen fun event hevent =>
      hlast event (List.mem_append.mpr (.inl hevent))
    have hone : (if decide (key = email ∧ true = true ∧ a ≤ s.clock) = true then 1 else 0) ≤
        if (Phase.recording key ipKey now).failing = some email then 1 else 0 :=
      one_if_le fun hmine => congrArg some (of_decide_eq_true hmine).1
    have hnew : ((s.write key true).setCall c (.recording key ipKey now)).failedSince email a =
        s.failedSince email a +
          (if decide (key = email ∧ true = true ∧ a ≤ s.clock) = true then 1 else 0) := by
      show List.countP _ (s.log ++ [_]) = _
      rw [List.countP_append, List.countP_singleton]
      rfl
    show _ ≤ s.attempts.failures email + (s.setCall c _).failing email
    omega

/-- A login succeeds: its email starts afresh. -/
theorem Inv.clearLoginFailures (h : Inv email s) {c : ℕ} {key ipKey : String}
    (hc : s.calls[c]? = some (.clearing key ipKey)) :
    Inv email ({ s.write key false with attempts := s.attempts.clear key ipKey }.setCall c
      .loggedIn) := by
  have hin := inFlight_setCall hc .loggedIn email
  have hfail := failing_setCall hc .loggedIn email
  rw [if_neg (show ¬Phase.loggedIn.inFlight = some email by simp [Phase.inFlight])] at hin
  rw [if_neg (show ¬Phase.loggedIn.failing = some email by simp [Phase.failing]),
    if_neg (show ¬(Phase.clearing key ipKey).failing = some email by simp [Phase.failing])] at hfail
  have hbudget := h.budget
  have hnew : ∀ a, ({ s.write key false with
      attempts := s.attempts.clear key ipKey }.setCall c .loggedIn).failedSince email a =
      s.failedSince email a := by
    intro a
    show List.countP _ (s.log ++ [_]) = _
    rw [List.countP_append, List.countP_singleton, if_neg]
    · rfl
    · intro hmine
      exact Bool.false_ne_true (of_decide_eq_true hmine).2.1
  refine h.of_write rfl rfl ?_ ?_
  · show (s.attempts.clear key ipKey).failures email + (s.setCall c _).inFlight email ≤ _
    by_cases hkey : email = key
    · subst hkey
      rw [failures_clear_self]
      omega
    · rw [failures_clear_of_ne _ _ _ hkey]
      omega
  · intro a hopen hlast
    rw [hnew]
    by_cases hkey : email = key
    · -- the interval begins after this success, and nothing has happened since
      subst hkey
      have hafter := hlast ⟨email, s.clock, false⟩
        (List.mem_append.mpr (.inr (List.mem_singleton_self _))) rfl rfl
      have hzero : s.failedSince email a = 0 := by
        refine List.countP_eq_zero.mpr fun event hevent hcounts => ?_
        have hpast := h.past event hevent
        have hfrom := (of_decide_eq_true hcounts).2.2
        dsimp only at hafter
        omega
      omega
    · have hsince := h.counted a hopen fun event hevent =>
        hlast event (List.mem_append.mpr (.inl hevent))
      show _ ≤ (s.attempts.clear key ipKey).failures email + (s.setCall c _).failing email
      rw [failures_clear_of_ne _ _ _ hkey]
      omega

/-- Every login that is to be checked has read the clock in the past. -/
def HasReadClock (s : State) : Prop :=
  ∀ phase ∈ s.calls, ∀ login ∈ phase.check, login.2.2 ≤ s.clock

/-- No call has read a time that is still to come. -/
theorem HasReadClock.step {a : Action} (h : HasReadClock s) (hstep : step s a = some s') :
    HasReadClock s' := by
  have hset : ∀ {c : ℕ} {phase : Phase}, phase.check = none →
      ∀ q ∈ s.calls.set c phase, ∀ login ∈ q.check, login.2.2 ≤ s.clock := by
    intro c phase hnone q hq login hlogin
    rcases List.mem_or_eq_of_mem_set hq with hold | rfl
    · exact h q hold login hlogin
    · rw [hnone] at hlogin
      cases hlogin
  cases a with
  | tick seconds =>
    cases hstep
    intro q hq login hlogin
    have := h q hq login hlogin
    show _ ≤ s.clock + (seconds : ℤ)
    omega
  -- the only step that reads the clock
  | login email ipKey =>
    cases hstep
    intro q hq login hlogin
    rcases List.mem_append.mp hq with hold | hnew
    · exact h q hold login hlogin
    · cases List.mem_singleton.mp hnew
      cases hlogin
      exact le_refl s.clock
  -- the steps of a call hand the time on or drop it
  | ensureLoginAllowed c =>
    simp only [Login.step] at hstep
    split at hstep
    next email ipKey now hc =>
      cases hstep
      exact hset (by split_ifs <;> rfl)
    · cases hstep
  | findUserByEmail c lookup =>
    simp only [Login.step] at hstep
    split at hstep
    next email ipKey now hc =>
      cases hstep
      exact hset (by cases lookup <;> rfl)
    · cases hstep
  | verifyPassword c verdict =>
    simp only [Login.step] at hstep
    split at hstep
    next email ipKey now hc =>
      cases verdict with
      | unreadable =>
        cases hstep
        exact hset rfl
      | wrong =>
        cases hstep
        exact hset rfl
      | right =>
        cases hstep
        exact hset rfl
    · cases hstep
  | recordLoginFailure c =>
    simp only [Login.step] at hstep
    split at hstep
    next email ipKey now hc =>
      cases hstep
      exact hset rfl
    · cases hstep
  | clearLoginFailures c =>
    simp only [Login.step] at hstep
    split at hstep
    next email ipKey hc =>
      cases hstep
      exact hset rfl
    · cases hstep

/-- Every careful step keeps the invariant. -/
theorem Inv.step {a : Action} (h : Inv email s) (hread : HasReadClock s) (hcareful : Careful s a)
    (hstep : step s a = some s') : Inv email s' := by
  cases a with
  | tick seconds =>
    cases hstep
    have hlater : s.clock ≤ s.clock + (seconds : ℤ) := by omega
    exact ⟨fun event hevent => (h.past event hevent).trans hlater, h.budget,
      fun a hopen => h.counted a (hlater.trans hopen), h.bounded⟩
  -- a call that has only begun is neither in flight nor failing
  | login key ipKey =>
    cases hstep
    have hcount : ∀ p : Phase → Bool, p (.checking key ipKey s.clock) = false →
        (s.calls ++ [Phase.checking key ipKey s.clock]).countP p = s.calls.countP p := by
      intro p hp
      rw [List.countP_append, List.countP_singleton, hp]
      rfl
    have hin := hcount (fun phase => phase.inFlight = some email) rfl
    have hfail := hcount (fun phase => phase.failing = some email) rfl
    refine h.of_log_eq rfl rfl ?_ fun a hopen hlast => ?_
    · exact (congrArg (s.attempts.failures email + ·) hin).trans_le h.budget
    · exact (h.counted a hopen hlast).trans_eq
        (congrArg (s.attempts.failures email + ·) hfail.symm)
  -- here a call gets into flight, while the budget lasts
  | ensureLoginAllowed c =>
    simp only [Login.step] at hstep
    split at hstep
    next key ipKey now hc =>
      cases hstep
      have hcheck := hcareful (key, ipKey, now) (by rw [hc]; rfl)
      exact h.ensureLoginAllowed hc (hread _ (List.mem_of_getElem? hc) _ rfl) hcheck.1 hcheck.2
    · cases hstep
  | findUserByEmail c lookup =>
    simp only [Login.step] at hstep
    split at hstep
    next key ipKey now hc =>
      cases hstep
      cases lookup with
      | unavailable => exact h.setCall hc (by simp [Phase.inFlight]) (by simp [Phase.failing])
      | unknown => exact h.setCall hc id (by simp [Phase.failing])
      | inactive => exact h.setCall hc id (by simp [Phase.failing])
      | active => exact h.setCall hc id (by simp [Phase.failing])
    · cases hstep
  | verifyPassword c verdict =>
    simp only [Login.step] at hstep
    split at hstep
    next key ipKey now hc =>
      cases verdict with
      | unreadable =>
        cases hstep
        exact h.setCall hc (by simp [Phase.inFlight]) (by simp [Phase.failing])
      -- the guess is in the log, and is yet to be recorded
      | wrong =>
        cases hstep
        exact h.wrongPassword hc
      | right =>
        cases hstep
        exact h.setCall hc id (by simp [Phase.failing])
    · cases hstep
  -- now it is
  | recordLoginFailure c =>
    simp only [Login.step] at hstep
    split at hstep
    next key ipKey now hc =>
      cases hstep
      exact h.recordLoginFailure hc
    · cases hstep
  | clearLoginFailures c =>
    simp only [Login.step] at hstep
    split at hstep
    next key ipKey hc =>
      cases hstep
      exact h.clearLoginFailures hc
    · cases hstep

/-! ## The bound -/

/-- The service has just started. -/
def start (clock : ℤ) : State where
  attempts := ⟨fun _ => none, fun _ => none⟩
  clock := clock
  calls := []
  log := []

/-- At the start nothing is logged and nobody is in flight. -/
theorem inv_start (email : String) (clock : ℤ) : Inv email (start clock) where
  past _ hevent := absurd hevent List.not_mem_nil
  budget := Nat.zero_le _
  counted _ _ _ := le_refl 0
  bounded _ _ := Nat.zero_le _

/-- Where logins are checked with care, an interval without a successful login for an email has
at most `MAX_LOGIN_FAILURES` failed verifications for it. -/
theorem failures_le_max {clock : ℤ} {actions : List Action}
    (hcareful : Machine.Along step Careful (start clock) actions)
    (hrun : Machine.run step (start clock) actions = some s) {a : ℤ}
    (hnone : ¬s.SucceededWithin email a) : s.failedWithin email a ≤ maxLoginFailures := by
  have hinv := Machine.run_invariant (fun s => Inv email s ∧ HasReadClock s) Careful
    (fun _ _ _ h hok hstep => ⟨h.1.step h.2 hok hstep, h.2.step hstep⟩)
    ⟨inv_start email clock, fun _ hmem => absurd hmem List.not_mem_nil⟩ hcareful hrun
  exact hinv.1.bounded a hnone

/-- A login that is let through and fails. -/
def wrongGuess (c : ℕ) : List Action :=
  [.login "a@b.c" "ip", .ensureLoginAllowed c, .findUserByEmail c .active, .verifyPassword c .wrong,
    .recordLoginFailure c]

/-- Five wrong guesses, a sixth login that is refused, and another guess after the window. -/
def patientGuesses : List Action :=
  (List.range 5).flatMap wrongGuess ++
    [.tick 10, .login "a@b.c" "ip", .ensureLoginAllowed 5, .tick 891] ++ wrongGuess 6

theorem patientGuesses_bounded : ∃ s ∈ Machine.run step (start 0) patientGuesses,
    s.failedWithin "a@b.c" 0 ≤ maxLoginFailures ∧ s.log.length = 6 ∧
      s.calls[5]? = some (.failed .tooManyAttempts) := by
  have htested : Machine.checkAlong step (fun s a => decide (Careful s a)) (start 0)
      patientGuesses = true := by decide +kernel
  have hcareful : Machine.Along step Careful (start 0) patientGuesses :=
    Machine.along_of_check (fun _ _ hcheck => of_decide_eq_true hcheck) htested
  have hends : ∃ s ∈ Machine.run step (start 0) patientGuesses,
      ¬s.SucceededWithin "a@b.c" 0 ∧ s.log.length = 6 ∧
        s.calls[5]? = some (.failed .tooManyAttempts) := by decide +kernel
  rcases hends with ⟨s, hs, hnone, hrest⟩
  exact ⟨s, hs, failures_le_max hcareful hs hnone, hrest⟩

/-- Six logins are let through before the first of them is counted. -/
def guessesAtOnce : List Action :=
  (List.range 6).flatMap (fun c => [.login "a@b.c" "ip", .ensureLoginAllowed c,
    .findUserByEmail c .active]) ++ (List.range 6).map fun c => .verifyPassword c .wrong

/-- One guess, four more at the end of its window, and five when the window is over. -/
def guessesAcross : List Action :=
  wrongGuess 0 ++ [.tick 850] ++ [1, 2, 3, 4].flatMap wrongGuess ++
    [.tick 51] ++ [5, 6, 7, 8, 9].flatMap wrongGuess

theorem bound_exceeded :
    (∃ s ∈ Machine.run step (start 0) guessesAtOnce,
      ¬s.SucceededWithin "a@b.c" 0 ∧ s.failedWithin "a@b.c" 0 = 6) ∧
    ∃ s ∈ Machine.run step (start 0) guessesAcross,
      ¬s.SucceededWithin "a@b.c" 850 ∧ s.failedWithin "a@b.c" 850 = 9 := by
  constructor
  · decide +kernel
  · decide +kernel

end CryptoCex.Auth.Login
