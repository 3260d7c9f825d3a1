import CryptoCex.Lib.Machine
import Mathlib.Logic.Function.Basic

/-!
# Strict two-phase locking

Transactions work on cells. A statement of a transaction takes the lock of one cell, reads it and
writes it, and what the transaction does next may depend on what it has read. The lock is kept
until the transaction ends. What was written is there for others once the transaction commits;
a transaction can also end at any time without a trace. Each statement may use a number of a
sequence, which no rollback turns back.

* `serializable`: whatever the order of the statements of many transactions, the cells are as if
  the committed ones had run one after the other, in the order of their commits.
* `Serial.simulates`: so what each does alone to some other state, they do together.
* `keeps`: what every write keeps of a cell, given its number, holds of all cells.
* `grows`: cells only change as writes change them.
* `apart`: a number that was drawn is in one cell at most.
-/

namespace TwoPhase

universe u v w

variable {K : Type u} {V : K → Type v} {α β : Type v} {T : Type w}

/-! ## Transactions -/

/-- What is left to do of a transaction. -/
inductive Script (V : K → Type v) (α : Type v)
  | done (result : α)
  | fail
  | access (k : K) (write : V k → ℕ → V k) (next : V k → ℕ → Script V α)

namespace Script

protected def bind : Script V α → (α → Script V β) → Script V β
  | done a, f => f a
  | fail, _ => fail
  | access k write next, f => access k write fun v n => (next v n).bind f

instance : Monad (Script V) where
  pure := done
  bind := Script.bind

/-- A statement: it fails, or writes the cell and has a result. -/
def statement (k : K) (f : V k → ℕ → Option (V k × α)) : Script V α :=
  access k (fun value n => ((f value n).map Prod.fst).getD value) fun value n =>
    match f value n with
    | some (_, a) => done a
    | none => fail

/-- Whatever it reads, the transaction writes only what `Q` allows. -/
def Writes (Q : ∀ k, (V k → ℕ → V k) → Prop) : Script V α → Prop
  | done _ => True
  | fail => True
  | access k write next => Q k write ∧ ∀ value n, (next value n).Writes Q

/-- A sequence writes what its parts write. -/
theorem Writes.bind {Q : ∀ k, (V k → ℕ → V k) → Prop} {x : Script V α} {f : α → Script V β}
    (hx : x.Writes Q) (hf : ∀ a, (f a).Writes Q) : (x >>= f).Writes Q := by
  induction x with
  | done a => exact hf a
  | fail => trivial
  | access k write next ih => exact ⟨hx.1, fun value n => ih value n (hx.2 value n)⟩

theorem Writes.imp {Q Q' : ∀ k, (V k → ℕ → V k) → Prop} {x : Script V α}
    (himp : ∀ k write, Q k write → Q' k write) (h : x.Writes Q) : x.Writes Q' := by
  induction x with
  | done a => trivial
  | fail => trivial
  | access k write next ih =>
    exact ⟨himp k write h.1, fun value n => ih value n (h.2 value n)⟩

/-- A statement writes one cell. -/
theorem writes_statement {Q : ∀ k, (V k → ℕ → V k) → Prop} {k : K}
    {f : V k → ℕ → Option (V k × α)}
    (h : Q k fun value n => ((f value n).map Prod.fst).getD value) :
    (statement k f).Writes Q := by
  refine ⟨h, ?_⟩
  intro value n
  dsimp only
  split
  · trivial
  · trivial

variable [DecidableEq K]

/-- Runs a transaction alone: its result and the cells after it, if it uses these numbers. -/
def exec : Script V α → List ℕ → (∀ k, V k) → Option (α × ∀ k, V k)
  | done a, [], cells => some (a, cells)
  | access k write next, n :: ns, cells =>
    (next (cells k) n).exec ns (Function.update cells k (write (cells k) n))
  | _, _, _ => none

variable {cells cells' : ∀ k, V k} {ns : List ℕ}

/-- A script that is done needs no more numbers. -/
theorem exec_done {a : α} {r : α × ∀ k, V k} :
    (done a : Script V α).exec ns cells = some r ↔ ns = [] ∧ r = (a, cells) := by
  cases ns with
  | nil => simp [exec, eq_comm]
  | cons n ns => simp [exec]

theorem exec_fail (r : α × ∀ k, V k) : (fail : Script V α).exec ns cells ≠ some r := by
  unfold exec
  simp

/-- An access reads its cell, writes it, and goes on. -/
theorem exec_access {k : K} {write : V k → ℕ → V k} {next : V k → ℕ → Script V α}
    {r : α × ∀ k, V k} : (access k write next).exec ns cells = some r ↔ ∃ n ns', ns = n :: ns' ∧
      (next (cells k) n).exec ns' (Function.update cells k (write (cells k) n)) = some r := by
  cases ns with
  | nil => simp [exec]
  | cons n ns => simp [exec]

/-- A statement that succeeds has changed one cell. -/
theorem exec_statement {k : K} {f : V k → ℕ → Option (V k × α)} {a : α}
    (h : (statement k f).exec ns cells = some (a, cells')) : ∃ n value, ns = [n] ∧
      f (cells k) n = some (value, a) ∧ cells' = Function.update cells k value := by
  rcases exec_access.mp h with ⟨n, ns', rfl, hrest⟩
  cases hf : f (cells k) n with
  | none =>
    rw [hf] at hrest
    exact absurd hrest (exec_fail _)
  | some result =>
    rw [hf] at hrest
    rcases exec_done.mp hrest with ⟨rfl, hresult⟩
    cases hresult
    exact ⟨n, result.1, rfl, hf, rfl⟩

/-- One part of a transaction after the other. -/
theorem exec_bind {x : Script V α} {f : α → Script V β} {r : β × ∀ k, V k}
    (h : (x >>= f).exec ns cells = some r) : ∃ ns₁ ns₂ a mid, ns = ns₁ ++ ns₂ ∧
      x.exec ns₁ cells = some (a, mid) ∧ (f a).exec ns₂ mid = some r := by
  induction x generalizing ns cells with
  | done a => exact ⟨[], ns, a, cells, rfl, rfl, h⟩
  | fail => exact absurd h (exec_fail r)
  | access k write next ih =>
    rcases exec_access.mp h with ⟨n, ns', rfl, hrest⟩
    rcases ih _ _ hrest with ⟨ns₁, ns₂, a, mid, rfl, hx, hf⟩
    exact ⟨n :: ns₁, ns₂, a, mid, rfl, exec_access.mpr ⟨n, ns₁, rfl, hx⟩, hf⟩

end Script

/-! ## Many transactions at once -/

/-- A transaction that has not ended: the numbers its statements used, the cells it has locked,
as it sees them, and what it will do. -/
structure Session (V : K → Type v) (α : Type v) (T : Type w) where
  name : T
  drawn : List ℕ
  own : ∀ k, Option (V k)
  todo : Script V α

/-- The cells as the transaction sees them. -/
def Session.view (s : Session V α T) (cells : ∀ k, V k) : ∀ k, V k :=
  fun k => (s.own k).getD (cells k)

/-- A session sees what it wrote itself. -/
theorem Session.view_eq {s : Session V α T} {cells : ∀ k, V k} {k : K} {value : V k}
    (h : s.own k = some value) : s.view cells k = value := by
  unfold Session.view
  rw [h]
  rfl

/-- What a session has not used is as it was committed. -/
theorem Session.view_of_none {s : Session V α T} {cells : ∀ k, V k} {k : K}
    (h : s.own k = none) : s.view cells k = cells k := by
  unfold Session.view
  rw [h]
  rfl

/-- A committed transaction. -/
structure Entry (α : Type v) (T : Type w) where
  name : T
  drawn : List ℕ
  result : α

structure State (V : K → Type v) (α : Type v) (T : Type w) where
  /-- As they were committed. -/
  cells : ∀ k, V k
  sessions : ℕ → Option (Session V α T)
  /-- Who has the lock of a cell. -/
  owner : K → Option ℕ
  /-- The next number of the sequence. -/
  counter : ℕ
  log : List (Entry α T)

/-- No transaction has begun. -/
def State.start (cells : ∀ k, V k) (counter : ℕ) : State V α T where
  cells := cells
  sessions := fun _ => none
  owner := fun _ => none
  counter := counter
  log := []

/-- What session `i` does. A transaction can be rolled back at any time. -/
inductive Act (T : Type w)
  | start (i : ℕ) (t : T)
  | access (i : ℕ)
  | commit (i : ℕ)
  | rollback (i : ℕ)

/-- Session `i` is over, and its locks are free. -/
def State.release (st : State V α T) (i : ℕ) : State V α T :=
  { st with
    sessions := Function.update st.sessions i none
    owner := fun k => if st.owner k = some i then none else st.owner k }

/-- Session `i` goes on as `s`. -/
def State.put (st : State V α T) (i : ℕ) (s : Session V α T) : State V α T :=
  { st with sessions := Function.update st.sessions i (some s) }

variable {script : T → Script V α} {st st' : State V α T} {cells cells' : ∀ k, V k}

/-- The session that goes on, or another one. -/
theorem sessions_put {i j : ℕ} {s s' : Session V α T}
    (h : (st.put i s).sessions j = some s') : j = i ∧ s' = s ∨ j ≠ i ∧ st.sessions j = some s' := by
  unfold State.put at h
  dsimp only at h
  rw [Function.update_apply] at h
  split_ifs at h with hj
  · cases h
    exact .inl ⟨hj, rfl⟩
  · exact .inr ⟨hj, h⟩

/-- A session other than the one that ended. -/
theorem sessions_release {i j : ℕ} {s : Session V α T}
    (h : (st.release i).sessions j = some s) : j ≠ i ∧ st.sessions j = some s := by
  unfold State.release at h
  dsimp only at h
  rw [Function.update_apply] at h
  split_ifs at h with hj
  exact ⟨hj, h⟩

/-- A session has the lock of every cell it has used. -/
def Locked (st : State V α T) : Prop :=
  ∀ i s k, st.sessions i = some s → s.own k ≠ none → st.owner k = some i

theorem locked_start (cells : ∀ k, V k) (counter : ℕ) :
    Locked (State.start cells counter : State V α T) := by
  intro i s k hs
  cases hs

/-- Two sessions have not used one cell. -/
theorem Locked.apart (h : Locked st) {i j : ℕ} {s s' : Session V α T}
    (hs : st.sessions i = some s) (hs' : st.sessions j = some s') (hij : j ≠ i) {k : K}
    (hk : s'.own k ≠ none) : s.own k = none := by
  by_contra hown
  have heq := (h i s k hs hown).symm.trans (h j s' k hs' hk)
  exact hij (Option.some.inj heq).symm

/-- Letting go of locks keeps the others apart. -/
theorem Locked.release (h : Locked st) (i : ℕ) : Locked (st.release i) := by
  intro j s k hs hk
  rcases sessions_release hs with ⟨hj, hs⟩
  have howner := h j s k hs hk
  have hother : st.owner k ≠ some i := by
    rw [howner]
    exact fun heq => hj (Option.some.inj heq)
  show (if st.owner k = some i then none else st.owner k) = some j
  rw [if_neg hother, howner]

/-! ## What writes keep -/

/-- Open transactions will only write what `Q` allows. -/
def Writing (Q : ∀ k, (V k → ℕ → V k) → Prop) (st : State V α T) : Prop :=
  ∀ i s, st.sessions i = some s → s.todo.Writes Q

theorem writing_start (Q : ∀ k, (V k → ℕ → V k) → Prop) (cells : ∀ k, V k) (counter : ℕ) :
    Writing Q (State.start cells counter : State V α T) := by
  intro i s hs
  cases hs

/-- The write keeps `P` of the cell, which may speak of the next number. -/
def KeepsCell (P : ∀ k, ℕ → V k → Prop) (k : K) (write : V k → ℕ → V k) : Prop :=
  ∀ value n, P k n value → P k (n + 1) (write value n)

/-- `P` holds of every cell, as it was committed and as a session sees it, and of what is left
to do. -/
structure Kept (P : ∀ k, ℕ → V k → Prop) (st : State V α T) : Prop where
  cells : ∀ k, P k st.counter (st.cells k)
  own : ∀ i s, st.sessions i = some s → ∀ k value, s.own k = some value → P k st.counter value
  todo : Writing (KeepsCell P) st

variable {P : ∀ k, ℕ → V k → Prop}

/-- What is kept of the cells is kept of what a session sees. -/
theorem Kept.view (h : Kept P st) {i : ℕ} {s : Session V α T} (hs : st.sessions i = some s)
    (k : K) : P k st.counter (s.view st.cells k) := by
  cases hown : s.own k with
  | none =>
    rw [Session.view_of_none hown]
    exact h.cells k
  | some value =>
    rw [Session.view_eq hown]
    exact h.own i s hs k value hown

theorem Kept.start {counter : ℕ} (h : ∀ k, P k counter (cells k)) :
    Kept P (State.start cells counter : State V α T) where
  cells := h
  own := by
    intro i s hs
    cases hs
  todo := writing_start _ cells counter

/-- The write changes the cell as `R` allows. -/
def ChangesCell (R : ∀ k, V k → V k → Prop) (k : K) (write : V k → ℕ → V k) : Prop :=
  ∀ value n, R k value (write value n)

/-- A session has changed its cells as `R` allows, and will. -/
structure Changed (R : ∀ k, V k → V k → Prop) (st : State V α T) : Prop where
  own : ∀ i s, st.sessions i = some s → ∀ k, R k (st.cells k) (s.view st.cells k)
  todo : Writing (ChangesCell R) st

variable {R : ∀ k, V k → V k → Prop}

theorem Changed.start (cells : ∀ k, V k) (counter : ℕ) :
    Changed R (State.start cells counter : State V α T) where
  own := by
    intro i s hs
    cases hs
  todo := writing_start _ cells counter

/-- The write puts no number into the cell but its own. -/
def DrawsCell (numbers : ∀ k, V k → Set ℕ) (k : K) (write : V k → ℕ → V k) : Prop :=
  ∀ value n m, m ∈ numbers k (write value n) → m ∈ numbers k value ∨ m = n

/-- The number is in the cell, as it was committed or as a session sees it. -/
def Holds (numbers : ∀ k, V k → Set ℕ) (st : State V α T) (k : K) (m : ℕ) : Prop :=
  m ∈ numbers k (st.cells k) ∨
    ∃ i s, st.sessions i = some s ∧ m ∈ numbers k (s.view st.cells k)

/-- Numbers that have been drawn are in one cell at most. -/
structure Apart (numbers : ∀ k, V k → Set ℕ) (st : State V α T) : Prop where
  below : ∀ k m, Holds numbers st k m → m < st.counter
  unique : ∀ k k' m, Holds numbers st k m → Holds numbers st k' m → k = k'
  todo : Writing (DrawsCell numbers) st

variable {numbers : ∀ k, V k → Set ℕ}

/-- A step that draws no number. -/
theorem Apart.mono (h : Apart numbers st) (hcounter : st'.counter = st.counter)
    (hholds : ∀ k m, Holds numbers st' k m → Holds numbers st k m)
    (htodo : Writing (DrawsCell numbers) st') :
    Apart numbers st' where
  below := by
    intro k m hm
    rw [hcounter]
    exact h.below k m (hholds k m hm)
  unique := fun k k' m hm hm' => h.unique k k' m (hholds k m hm) (hholds k' m hm')
  todo := htodo

/-! ## Steps -/

variable [DecidableEq K]

/-- A session after a statement that used the number `n`. -/
def Session.advance (s : Session V α T) (cells : ∀ k, V k) (k : K) (write : V k → ℕ → V k)
    (next : V k → ℕ → Script V α) (n : ℕ) : Session V α T where
  name := s.name
  drawn := s.drawn ++ [n]
  own := Function.update s.own k (some (write (s.view cells k) n))
  todo := next (s.view cells k) n

section

variable {s : Session V α T} {k : K} {write : V k → ℕ → V k}
  {next : V k → ℕ → Script V α} {n : ℕ}

theorem Session.advance_own_self :
    (s.advance cells k write next n).own k = some (write (s.view cells k) n) :=
  Function.update_self ..

theorem Session.advance_own_of_ne {k' : K} (hne : k' ≠ k) :
    (s.advance cells k write next n).own k' = s.own k' :=
  Function.update_of_ne hne ..

/-- An access locks its cell and keeps the other locks. -/
theorem Session.advance_own_ne_none {k' : K} :
    (s.advance cells k write next n).own k' ≠ none ↔ k' = k ∨ s.own k' ≠ none := by
  by_cases hkk : k' = k
  · subst hkk
    rw [Session.advance_own_self]
    simp
  · rw [Session.advance_own_of_ne hkk]
    simp [hkk]

/-- The statement wrote the cell for the session, and no other. -/
theorem Session.advance_view (hagree : s.view cells' k = s.view cells k) :
    (s.advance cells k write next n).view cells' =
      Function.update (s.view cells') k (write (s.view cells k) n) := by
  funext k'
  by_cases hkk : k' = k
  · subst hkk
    rw [Function.update_self]
    exact Session.view_eq Session.advance_own_self
  · rw [Function.update_of_ne hkk]
    unfold Session.view
    rw [Session.advance_own_of_ne hkk]

end

/-- One step; the statement of a session waits while another one has the lock of its cell. -/
def step (script : T → Script V α) (st : State V α T) : Act T → Option (State V α T)
  | .start i t =>
    match st.sessions i with
    | some _ => none
    | none => some (st.put i ⟨t, [], fun _ => none, script t⟩)
  | .access i => do
    let s ← st.sessions i
    match s.todo with
    | .access k write next =>
      if st.owner k = none ∨ st.owner k = some i then
        some { st.put i (s.advance st.cells k write next st.counter) with
          owner := Function.update st.owner k (some i)
          counter := st.counter + 1 }
      else none
    | _ => none
  | .commit i => do
    let s ← st.sessions i
    match s.todo with
    | .done result =>
      some { st.release i with
        cells := s.view st.cells
        log := st.log ++ [⟨s.name, s.drawn, result⟩] }
    | _ => none
  | .rollback i => do
    let _ ← st.sessions i
    return st.release i

/-- What one step does. -/
inductive Steps (script : T → Script V α) (st : State V α T) : Act T → State V α T → Prop
  | start {i : ℕ} {t : T} (hfree : st.sessions i = none) :
      Steps script st (.start i t) (st.put i ⟨t, [], fun _ => none, script t⟩)
  | access {i : ℕ} {s : Session V α T} {k : K} {write : V k → ℕ → V k}
      {next : V k → ℕ → Script V α} (hs : st.sessions i = some s)
      (htodo : s.todo = .access k write next)
      (hlock : st.owner k = none ∨ st.owner k = some i) :
      Steps script st (.access i) { st.put i (s.advance st.cells k write next st.counter) with
        owner := Function.update st.owner k (some i)
        counter := st.counter + 1 }
  | commit {i : ℕ} {s : Session V α T} {result : α} (hs : st.sessions i = some s)
      (htodo : s.todo = .done result) :
      Steps script st (.commit i) { st.release i with
        cells := s.view st.cells
        log := st.log ++ [⟨s.name, s.drawn, result⟩] }
  | rollback {i : ℕ} {s : Session V α T} (hs : st.sessions i = some s) :
      Steps script st (.rollback i) (st.release i)

/-- What a step that succeeds did. -/
theorem step_steps {a : Act T} (h : step script st a = some st') : Steps script st a st' := by
  cases a with
  | start i t =>
    simp only [step] at h
    split at h
    · cases h
    · next hfree =>
      cases h
      exact .start hfree
  | access i =>
    rcases Option.bind_eq_some_iff.mp h with ⟨s, hs, hrest⟩
    split at hrest
    · -- the cell is free, or the session has it already
      next htodo =>
      split_ifs at hrest with hlock
      cases hrest
      exact .access hs htodo hlock
    · cases hrest
  | commit i =>
    rcases Option.bind_eq_some_iff.mp h with ⟨s, hs, hrest⟩
    split at hrest
    · next htodo =>
      cases hrest
      exact .commit hs htodo
    · cases hrest
  | rollback i =>
    rcases Option.bind_eq_some_iff.mp h with ⟨s, hs, hrest⟩
    cases hrest
    exact .rollback hs

/-! ## Locks -/

/-- No two sessions ever hold the same lock. -/
theorem Locked.step (h : Locked st) {a : Act T} (hstep : Steps script st a st') :
    Locked st' := by
  cases hstep with
  | @start i t hfree =>
    intro j s k hs hk
    rcases sessions_put hs with ⟨_, rfl⟩ | ⟨_, hs⟩
    · exact absurd rfl hk
    · exact h j s k hs hk
  | @access i s k write next hs htodo hlock =>
    intro j s' k' hs' hk'
    show Function.update st.owner k (some i) k' = some j
    rcases sessions_put hs' with ⟨rfl, rfl⟩ | ⟨hj, hs'⟩
    · rcases Session.advance_own_ne_none.mp hk' with rfl | hk'
      · exact Function.update_self ..
      · have howner := h j s k' hs hk'
        by_cases hkk : k' = k
        · subst hkk
          exact Function.update_self ..
        · rw [Function.update_of_ne hkk, howner]
    · -- the other session has not locked the cell, for this one can take it
      have howner := h j s' k' hs' hk'
      have hkk : k' ≠ k := by
        rintro rfl
        rw [howner] at hlock
        rcases hlock with hlock | hlock
        · cases hlock
        · exact hj (Option.some.inj hlock)
      rw [Function.update_of_ne hkk, howner]
  | commit hs htodo => exact h.release _
  | rollback hs => exact h.release _

/-- What is left of every session writes as its script does. -/
theorem Writing.step {Q : ∀ k, (V k → ℕ → V k) → Prop} (hscript : ∀ t, (script t).Writes Q)
    (h : Writing Q st) {a : Act T} (hstep : Steps script st a st') : Writing Q st' := by
  cases hstep with
  | @start i t hfree =>
    intro j s hs
    rcases sessions_put hs with ⟨_, rfl⟩ | ⟨_, hs⟩
    · exact hscript t
    · exact h j s hs
  -- what is left after an access is a rest of the script
  | @access i s k write next hs htodo hlock =>
    intro j s' hs'
    rcases sessions_put hs' with ⟨rfl, rfl⟩ | ⟨_, hs'⟩
    · have hwrites := h j s hs
      rw [htodo] at hwrites
      exact hwrites.2 _ _
    · exact h j s' hs'
  | commit hs htodo =>
    intro j s' hs'
    exact h j s' (sessions_release hs').2
  | rollback hs =>
    intro j s' hs'
    exact h j s' (sessions_release hs').2

/-! ## Serial runs -/

/-- The transactions of the log run one after the other. -/
inductive Serial (script : T → Script V α) (start : ∀ k, V k) :
    List (Entry α T) → (∀ k, V k) → Prop
  | nil : Serial script start [] start
  | snoc {log : List (Entry α T)} {cells cells' : ∀ k, V k} {entry : Entry α T}
      (h : Serial script start log cells)
      (hexec : (script entry.name).exec entry.drawn cells = some (entry.result, cells')) :
      Serial script start (log ++ [entry]) cells'

/-- What the transactions of the log do to some other state, one after the other and with these
results. -/
inductive Performed {D : Type*} (perform : D → T → α → D → Prop) (start : D) :
    List (Entry α T) → D → Prop
  | nil : Performed perform start [] start
  | snoc {log : List (Entry α T)} {d d' : D} {entry : Entry α T}
      (h : Performed perform start log d) (hperform : perform d entry.name entry.result d') :
      Performed perform start (log ++ [entry]) d'

/-- What each does alone to the other state, they do together. -/
theorem Serial.simulates {D : Type*} {Rep : (∀ k, V k) → D → Prop}
    {perform : D → T → α → D → Prop}
    (hperform : ∀ t ns cells result cells' d, Rep cells d →
      (script t).exec ns cells = some (result, cells') →
      ∃ d', perform d t result d' ∧ Rep cells' d')
    {start : ∀ k, V k} {log : List (Entry α T)} (h : Serial script start log cells) {d₀ : D}
    (hstart : Rep start d₀) : ∃ d, Performed perform d₀ log d ∧ Rep cells d := by
  induction h with
  | nil => exact ⟨d₀, .nil, hstart⟩
  | snoc _ hexec ih =>
    rcases ih with ⟨d, hd, hrep⟩
    rcases hperform _ _ _ _ _ d hrep hexec with ⟨d', hd', hrep'⟩
    exact ⟨d', .snoc hd hd', hrep'⟩

/-- What the session has done so far it would do alone, wherever the cells it has locked are as
they are. -/
def Session.Replays (script : T → Script V α) (cells : ∀ k, V k) (s : Session V α T) : Prop :=
  ∀ cells' ns, (∀ k, s.own k ≠ none → cells' k = cells k) →
    (script s.name).exec (s.drawn ++ ns) cells' = s.todo.exec ns (s.view cells')

/-- A session that repeats its script so far does so after the next access. -/
theorem Session.Replays.advance {s : Session V α T} (h : s.Replays script cells) {k : K}
    {write : V k → ℕ → V k} {next : V k → ℕ → Script V α} (htodo : s.todo = .access k write next)
    (n : ℕ) : (s.advance cells k write next n).Replays script cells := by
  intro cells' ns hagree
  have hrest : ∀ k', s.own k' ≠ none → cells' k' = cells k' := by
    intro k' hk'
    exact hagree k' (Session.advance_own_ne_none.mpr (.inr hk'))
  -- the accessed cell is the same in both, as it is locked from now on
  have hvalue : s.view cells' k = s.view cells k := by
    unfold Session.view
    rw [hagree k (Session.advance_own_ne_none.mpr (.inl rfl))]
  calc (script s.name).exec (s.drawn ++ [n] ++ ns) cells'
      = (script s.name).exec (s.drawn ++ n :: ns) cells' := by
        rw [List.append_assoc, List.singleton_append]
    _ = s.todo.exec (n :: ns) (s.view cells') := h cells' (n :: ns) hrest
    _ = (next (s.view cells' k) n).exec ns
          (Function.update (s.view cells') k (write (s.view cells' k) n)) := by
        rw [htodo]
        rfl
    _ = (next (s.view cells k) n).exec ns
          ((s.advance cells k write next n).view cells') := by
        rw [Session.advance_view hvalue, hvalue]

/-- The cells are those of a serial run, and every open transaction could still be run alone. -/
structure Serially (script : T → Script V α) (start : ∀ k, V k) (st : State V α T) : Prop where
  locked : Locked st
  serial : Serial script start st.log st.cells
  replays : ∀ i s, st.sessions i = some s → s.Replays script st.cells

theorem Serially.start (script : T → Script V α) (cells : ∀ k, V k) (counter : ℕ) :
    Serially script cells (State.start cells counter) where
  locked := locked_start cells counter
  serial := .nil
  replays := by
    intro i s hs
    cases hs

/-- Every step keeps the committed cells those of a serial run. -/
theorem Serially.step {start : ∀ k, V k} (h : Serially script start st) {a : Act T}
    (hstep : Steps script st a st') : Serially script start st' := by
  refine ⟨h.locked.step hstep, ?_, ?_⟩
  · cases hstep with
    | start hfree => exact h.serial
    | access hs htodo hlock => exact h.serial
    | @commit i s result hs htodo =>
      refine .snoc h.serial ?_
      have hexec := h.replays i s hs st.cells [] fun _ _ => rfl
      rw [List.append_nil, htodo] at hexec
      exact hexec
    | rollback hs => exact h.serial
  · cases hstep with
    | @start i t hfree =>
      intro j s hs
      rcases sessions_put hs with ⟨_, rfl⟩ | ⟨_, hs⟩
      · intro cells' ns _
        rfl
      · exact h.replays j s hs
    | @access i s k write next hs htodo hlock =>
      intro j s' hs'
      rcases sessions_put hs' with ⟨rfl, rfl⟩ | ⟨_, hs'⟩
      · exact (h.replays j s hs).advance htodo st.counter
      · exact h.replays j s' hs'
    | @commit i s result hs htodo =>
      intro j s' hs'
      rcases sessions_release hs' with ⟨hj, hs'⟩
      -- the commit changes only cells that the other session has not locked
      intro cells' ns hagree
      refine h.replays j s' hs' cells' ns ?_
      intro k hk
      rw [hagree k hk]
      exact Session.view_of_none (h.locked.apart hs hs' hj hk)
    | rollback hs =>
      intro j s' hs'
      exact h.replays j s' (sessions_release hs').2

/-- The cells are those of a serial run after every run. -/
theorem serially_of_run {start : ∀ k, V k} (h : Serially script start st) {acts : List (Act T)}
    (hrun : Machine.run (step script) st acts = some st') : Serially script start st' := by
  induction acts generalizing st with
  | nil =>
    cases hrun
    exact h
  | cons a acts ih =>
    rcases Option.bind_eq_some_iff.mp hrun with ⟨mid, hstep, hrest⟩
    exact ih (h.step (step_steps hstep)) hrest

/-- Any run of many transactions is a serial run of those that committed. -/
theorem serializable {counter : ℕ} {acts : List (Act T)}
    (hrun : Machine.run (step script) (State.start cells counter) acts = some st) :
    Serial script cells st.log st.cells :=
  (serially_of_run (.start script cells counter) hrun).serial

/-- A step keeps what every write keeps. -/
theorem Kept.step (hmono : ∀ k n value, P k n value → P k (n + 1) value)
    (hscript : ∀ t, (script t).Writes (KeepsCell P)) (h : Kept P st) {a : Act T}
    (hstep : Steps script st a st') : Kept P st' := by
  have htodo' := h.todo.step hscript hstep
  cases hstep with
  | @start i t hfree =>
    refine ⟨h.cells, ?_, htodo'⟩
    intro j s hs k value hvalue
    rcases sessions_put hs with ⟨_, rfl⟩ | ⟨_, hs⟩
    · cases hvalue
    · exact h.own j s hs k value hvalue
  | @access i s k write next hs htodo hlock =>
    -- the one write there is, on what the session sees
    have hkeeps := h.todo i s hs
    rw [htodo] at hkeeps
    refine ⟨fun k' => hmono k' _ _ (h.cells k'), ?_, htodo'⟩
    intro j s' hs' k' value hvalue
    rcases sessions_put hs' with ⟨rfl, rfl⟩ | ⟨_, hs'⟩
    · by_cases hkk : k' = k
      · subst hkk
        rw [Session.advance_own_self] at hvalue
        cases hvalue
        exact hkeeps.1 _ _ (h.view hs k')
      · rw [Session.advance_own_of_ne hkk] at hvalue
        exact hmono k' _ _ (h.own j s hs k' value hvalue)
    · exact hmono k' _ _ (h.own j s' hs' k' value hvalue)
  | @commit i s result hs htodo =>
    -- what was its own is committed
    refine ⟨h.view hs, ?_, htodo'⟩
    intro j s' hs'
    exact h.own j s' (sessions_release hs').2
  | rollback hs =>
    refine ⟨h.cells, ?_, htodo'⟩
    intro j s' hs'
    exact h.own j s' (sessions_release hs').2

/-- What every write keeps of a cell holds of all cells. -/
theorem keeps (hmono : ∀ k n value, P k n value → P k (n + 1) value)
    (hscript : ∀ t, (script t).Writes (KeepsCell P)) (h : Kept P st) {acts : List (Act T)}
    (hrun : Machine.run (step script) st acts = some st') : Kept P st' := by
  induction acts generalizing st with
  | nil =>
    cases hrun
    exact h
  | cons a acts ih =>
    rcases Option.bind_eq_some_iff.mp hrun with ⟨mid, hstep, hrest⟩
    exact ih (h.step hmono hscript (step_steps hstep)) hrest

/-- The committed cells change as the writes of a session together do. -/
theorem Changed.step (hrefl : ∀ k value, R k value value)
    (htrans : ∀ k a b c, R k a b → R k b c → R k a c)
    (hscript : ∀ t, (script t).Writes (ChangesCell R)) (hlocked : Locked st) (h : Changed R st)
    {a : Act T} (hstep : Steps script st a st') :
    Changed R st' ∧ ∀ k, R k (st.cells k) (st'.cells k) := by
  have htodo' := h.todo.step hscript hstep
  cases hstep with
  | @start i t hfree =>
    refine ⟨⟨?_, htodo'⟩, fun k => hrefl k _⟩
    intro j s hs k
    rcases sessions_put hs with ⟨_, rfl⟩ | ⟨_, hs⟩
    · exact hrefl k _
    · exact h.own j s hs k
  | @access i s k write next hs htodo hlock =>
    have hwrites := h.todo i s hs
    rw [htodo] at hwrites
    refine ⟨⟨?_, htodo'⟩, fun k => hrefl k _⟩
    intro j s' hs' k'
    rcases sessions_put hs' with ⟨rfl, rfl⟩ | ⟨_, hs'⟩
    · show R k' (st.cells k') ((s.advance st.cells k write next st.counter).view st.cells k')
      rw [Session.advance_view rfl]
      by_cases hkk : k' = k
      · subst hkk
        rw [Function.update_self]
        exact htrans k' _ _ _ (h.own j s hs k') (hwrites.1 _ _)
      · rw [Function.update_of_ne hkk]
        exact h.own j s hs k'
    · exact h.own j s' hs' k'
  | @commit i s result hs htodo =>
    refine ⟨⟨?_, htodo'⟩, h.own i s hs⟩
    intro j s' hs' k
    rcases sessions_release hs' with ⟨hj, hs'⟩
    show R k (s.view st.cells k) (s'.view (s.view st.cells) k)
    cases hown : s'.own k with
    | none =>
      rw [Session.view_of_none hown]
      exact hrefl k _
    | some value =>
      -- the cell is locked by the other session, so the commit leaves it alone
      have hk : s'.own k ≠ none := by rw [hown]; simp
      have hview := h.own j s' hs' k
      rw [Session.view_of_none (hlocked.apart hs hs' hj hk), Session.view_eq hown]
      rwa [Session.view_eq hown] at hview
  | rollback hs =>
    refine ⟨⟨?_, htodo'⟩, fun k => hrefl k _⟩
    intro j s' hs'
    exact h.own j s' (sessions_release hs').2

/-- Cells only change as writes change them. -/
theorem grows (hrefl : ∀ k value, R k value value)
    (htrans : ∀ k a b c, R k a b → R k b c → R k a c)
    (hscript : ∀ t, (script t).Writes (ChangesCell R)) (hlocked : Locked st) (h : Changed R st)
    {acts : List (Act T)} (hrun : Machine.run (step script) st acts = some st') :
    ∀ k, R k (st.cells k) (st'.cells k) := by
  induction acts generalizing st with
  | nil =>
    cases hrun
    exact fun k => hrefl k _
  | cons a acts ih =>
    rcases Option.bind_eq_some_iff.mp hrun with ⟨mid, hstep, hrest⟩
    have hsteps := step_steps hstep
    rcases h.step hrefl htrans hscript hlocked hsteps with ⟨hmid, hchange⟩
    intro k
    exact htrans k _ _ _ (hchange k) (ih (hlocked.step hsteps) hmid hrest k)

/-- Numbers that were drawn stay apart. -/
theorem Apart.step (hscript : ∀ t, (script t).Writes (DrawsCell numbers))
    (h : Apart numbers st) {a : Act T} (hstep : Steps script st a st') : Apart numbers st' := by
  have htodo' := h.todo.step hscript hstep
  cases hstep with
  | @start i t hfree =>
    refine h.mono rfl ?_ htodo'
    rintro k m (hm | ⟨j, s, hs, hm⟩)
    · exact .inl hm
    · rcases sessions_put hs with ⟨_, rfl⟩ | ⟨_, hs⟩
      · exact .inl hm
      · exact .inr ⟨j, s, hs, hm⟩
  | @access i s k write next hs htodo hlock =>
    have hwrites := h.todo i s hs
    rw [htodo] at hwrites
    -- only the number of this statement is new, and only in its cell
    have hnew : ∀ k' m, Holds numbers { st.put i (s.advance st.cells k write next st.counter) with
        owner := Function.update st.owner k (some i)
        counter := st.counter + 1 } k' m →
        Holds numbers st k' m ∨ k' = k ∧ m = st.counter := by
      rintro k' m (hm | ⟨j, s', hs', hm⟩)
      · exact .inl (.inl hm)
      · rcases sessions_put hs' with ⟨rfl, rfl⟩ | ⟨_, hs'⟩
        · change m ∈ numbers k' ((s.advance st.cells k write next st.counter).view st.cells k') at hm
          rw [Session.advance_view rfl] at hm
          by_cases hkk : k' = k
          · subst hkk
            rw [Function.update_self] at hm
            rcases hwrites.1 _ _ _ hm with hm | rfl
            · exact .inl (.inr ⟨j, s, hs, hm⟩)
            · exact .inr ⟨rfl, rfl⟩
          · rw [Function.update_of_ne hkk] at hm
            exact .inl (.inr ⟨j, s, hs, hm⟩)
        · exact .inl (.inr ⟨j, s', hs', hm⟩)
    refine ⟨?_, ?_, htodo'⟩
    · intro k' m hm
      show m < st.counter + 1
      rcases hnew k' m hm with hm | ⟨_, rfl⟩
      · exact Nat.lt_succ_of_lt (h.below k' m hm)
      · exact Nat.lt_succ_self _
    · intro k₁ k₂ m hm₁ hm₂
      rcases hnew k₁ m hm₁ with hm₁ | ⟨rfl, rfl⟩
      · rcases hnew k₂ m hm₂ with hm₂ | ⟨_, rfl⟩
        · exact h.unique k₁ k₂ m hm₁ hm₂
        · exact absurd (h.below k₁ _ hm₁) (Nat.lt_irrefl _)
      · rcases hnew k₂ _ hm₂ with hm₂ | ⟨rfl, _⟩
        · exact absurd (h.below k₂ _ hm₂) (Nat.lt_irrefl _)
        · rfl
  | @commit i s result hs htodo =>
    refine h.mono rfl ?_ htodo'
    rintro k m (hm | ⟨j, s', hs', hm⟩)
    · exact .inr ⟨i, s, hs, hm⟩
    · rcases sessions_release hs' with ⟨_, hs'⟩
      change m ∈ numbers k (s'.view (s.view st.cells) k) at hm
      cases hown : s'.own k with
      | none =>
        rw [Session.view_of_none hown] at hm
        exact .inr ⟨i, s, hs, hm⟩
      | some value =>
        rw [Session.view_eq hown] at hm
        refine .inr ⟨j, s', hs', ?_⟩
        rwa [Session.view_eq hown]
  | rollback hs =>
    refine h.mono rfl ?_ htodo'
    rintro k m (hm | ⟨j, s', hs', hm⟩)
    · exact .inl hm
    · exact .inr ⟨j, s', (sessions_release hs').2, hm⟩

/-- A number that has been drawn stays in one cell. -/
theorem apart (hscript : ∀ t, (script t).Writes (DrawsCell numbers)) (h : Apart numbers st)
    {acts : List (Act T)} (hrun : Machine.run (step script) st acts = some st') :
    Apart numbers st' := by
  induction acts generalizing st with
  | nil =>
    cases hrun
    exact h
  | cons a acts ih =>
    rcases Option.bind_eq_some_iff.mp hrun with ⟨mid, hstep, hrest⟩
    exact ih (h.step hscript (step_steps hstep)) hrest

end TwoPhase
