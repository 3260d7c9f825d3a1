import CryptoCex.Api.Correlation

/-!
# Connections one after the other

All connections of the engine client share one slot for the write half and one map of pending
requests. A reader that leaves its loop empties both, whatever is in them: it does not know
whether the client has connected anew in the meantime. The reader of an old connection can
therefore throw away the write half of the new one and the requests that wait for a response on
it, which fail with `Io` although nothing happened to their connection (`new_request_lost`).

It cannot where a connection is opened only after the readers of the older ones are gone, and
requests keep their entries in the map until they are written (`io_only_if_broken`).
-/

namespace CryptoCex.Api

open CryptoCex.Core (Decimal Uuid)
open Db (Tables)
open Machine (run Along)
open Proto (EngineRequest)
open Server (EngineState)

namespace System

variable {fuel : ℕ} {mul : Decimal → Decimal → Option Decimal} {s t : System}

/-! ## What a step does to connections -/

/-- How the reader of a connection moves. -/
inductive ReaderMoves (op : Op) (c : ℕ) (reader : Reader) : Reader → Prop where
  | same : ReaderMoves op c reader reader
  | stops (hop : op = .readerStops c) : ReaderMoves op c reader .clearing
  | clears (hop : op = .readerClears c) : ReaderMoves op c reader .gone

theorem find?_setLink {c c' : ℕ} {link : Link} :
    (s.setLink c link).links.find? c' = if c' = c then some link else s.links.find? c' :=
  OrdMap.find?_insert _ _ _ _

theorem links_deliver (s : System) (answer : Answer) : (s.deliver answer).links = s.links := by
  unfold deliver
  split
  · rfl
  split
  · rfl
  dsimp only
  split <;> rfl

/-- A connection stays, and its reader moves on. -/
theorem Step.link {op : Op} (h : Step fuel s op t) {c : ℕ} {link : Link}
    (hlink : s.links.find? c = some link) :
    ∃ link', t.links.find? c = some link' ∧ ReaderMoves op c link.reader link'.reader := by
  have hset : ∀ {u : System} {c₀ : ℕ} {link₀ link₁ : Link}, u.links = s.links →
      s.links.find? c₀ = some link₀ → ReaderMoves op c₀ link₀.reader link₁.reader →
      ∃ link', (u.setLink c₀ link₁).links.find? c = some link' ∧
        ReaderMoves op c link.reader link'.reader := by
    intro u c₀ link₀ link₁ hlinks hlink₀ hmoves
    rw [find?_setLink, hlinks]
    by_cases heq : c = c₀
    · subst heq
      rw [hlink] at hlink₀
      cases hlink₀
      exact ⟨link₁, if_pos rfl, hmoves⟩
    · exact ⟨link, (if_neg heq).trans hlink, .same⟩
  -- one connection is written back by each of these steps
  cases h with
  | wrote _ _ hlink₀ => exact hset rfl hlink₀ .same
  -- the new connection is another one
  | connected _ _ hnone =>
    refine ⟨link, ?_, .same⟩
    show (setLink _ _ _).links.find? c = some link
    rw [find?_setLink, if_neg]
    · exact hlink
    · rintro rfl
      rw [hlink] at hnone
      cases hnone
  | served responses serving hlink₀ _ _ hhandle =>
    rcases handle_spec hhandle with ⟨engine, _, rfl⟩
    exact hset rfl hlink₀ .same
  | hungUp hlink₀ => exact hset rfl hlink₀ .same
  | delivered hlink₀ =>
    rw [links_deliver]
    exact hset rfl hlink₀ .same
  | readerStopped hlink₀ => exact hset rfl hlink₀ (.stops rfl)
  | readerCleared hlink₀ => exact hset rfl hlink₀ (.clears rfl)
  | direct hhandle =>
    rcases handle_spec hhandle with ⟨engine, _, rfl⟩
    exact ⟨link, hlink, .same⟩
  | idle | prepared | registered | unwritten | timedOut | returned | erred | unlocked | settled =>
    exact ⟨link, hlink, .same⟩

/-- A connection was there before, or has just been opened. -/
theorem Step.link_before {op : Op} (h : Step fuel s op t) {c : ℕ} {link' : Link}
    (hlink' : t.links.find? c = some link') :
    (∃ link, s.links.find? c = some link ∧ ReaderMoves op c link.reader link'.reader) ∨
      ∃ k, op = .write k (.fresh c) := by
  cases hlink : s.links.find? c with
  | some link =>
    rcases h.link hlink with ⟨link₁, hlink₁, hmoves⟩
    rw [hlink'] at hlink₁
    cases hlink₁
    exact .inl ⟨link, rfl, hmoves⟩
  | none =>
    have hset : ∀ {u : System} {c₀ : ℕ} {link₀ link₁ : Link}, u.links = s.links →
        s.links.find? c₀ = some link₀ → (u.setLink c₀ link₁).links.find? c ≠ some link' := by
      intro u c₀ link₀ link₁ hlinks hlink₀ hfind
      rw [find?_setLink, hlinks] at hfind
      split_ifs at hfind with heq
      · rw [heq, hlink₀] at hlink
        cases hlink
      · rw [hlink] at hfind
        cases hfind
    have hsame : s.links.find? c ≠ some link' := by simp [hlink]
    cases h with
    | wrote _ _ hlink₀ => exact absurd hlink' (hset rfl hlink₀)
    -- the only step that opens one
    | @connected k c₀ send _ _ _ =>
      change (setLink _ _ _).links.find? c = some link' at hlink'
      rw [find?_setLink] at hlink'
      split_ifs at hlink' with heq
      · exact .inr ⟨k, by rw [heq]⟩
      · exact absurd hlink' hsame
    | served responses serving hlink₀ _ _ hhandle =>
      rcases handle_spec hhandle with ⟨engine, _, rfl⟩
      exact absurd hlink' (hset rfl hlink₀)
    | hungUp hlink₀ => exact absurd hlink' (hset rfl hlink₀)
    | delivered hlink₀ =>
      rw [links_deliver] at hlink'
      exact absurd hlink' (hset rfl hlink₀)
    | readerStopped hlink₀ => exact absurd hlink' (hset rfl hlink₀)
    | readerCleared hlink₀ => exact absurd hlink' (hset rfl hlink₀)
    | direct hhandle =>
      rcases handle_spec hhandle with ⟨engine, _, rfl⟩
      exact absurd hlink' hsame
    | idle | prepared | registered | unwritten | timedOut | returned | erred | unlocked | settled =>
      exact absurd hlink' hsame

/-- A write half is of the connection it was of before, or of a new one. -/
theorem Step.writer {op : Op} (h : Step fuel s op t) {c : ℕ} (hwriter : t.writer = some c) :
    s.writer = some c ∨ ∃ k, op = .write k (.fresh c) := by
  cases h with
  | connected =>
    cases hwriter
    exact .inr ⟨_, rfl⟩
  -- delivering an answer leaves the writer alone
  | delivered =>
    refine .inl ?_
    unfold deliver at hwriter
    split at hwriter
    · exact hwriter
    split at hwriter
    · exact hwriter
    dsimp only at hwriter
    split at hwriter <;> exact hwriter
  | served responses serving hlink hserving hrequests hhandle =>
    rcases handle_spec hhandle with ⟨engine, _, rfl⟩
    exact .inl hwriter
  | direct hhandle =>
    rcases handle_spec hhandle with ⟨engine, _, rfl⟩
    exact .inl hwriter
  -- after an error, or when the reader stops, there is no writer
  | unwritten => cases hwriter
  | readerStopped => cases hwriter
  | idle | prepared | registered | wrote | timedOut | returned | erred | unlocked | hungUp
  | readerCleared | settled => exact .inl hwriter

theorem step_readerStops {c : ℕ} (h : s.step fuel mul (.readerStops c) = some t) :
    ∃ link, s.links.find? c = some link ∧ link.reader = .reading ∧
      t = { s with writer := none }.setLink c { link with reader := .clearing } := by
  simp only [step] at h
  split at h
  · next link hlink =>
    split_ifs at h with hreader
    exact ⟨link, hlink, hreader, (Option.some.inj h).symm⟩
  · cases h

theorem step_readerClears {c : ℕ} (h : s.step fuel mul (.readerClears c) = some t) :
    ∃ link, s.links.find? c = some link ∧ link.reader = .clearing ∧
      t = { s with pending := OrdMap.empty }.setLink c { link with reader := .gone } := by
  simp only [step] at h
  split at h
  · next link hlink =>
    split_ifs at h with hreader
    exact ⟨link, hlink, hreader, (Option.some.inj h).symm⟩
  · cases h

theorem step_register {k : ℕ} (h : s.step fuel mul (.register k) = some t) :
    ∃ send, s.calls.find? k = some (.sending send) ∧ send.phase = .prepared ∧
      t = s.register k send := by
  simp only [step] at h
  split at h
  · next send hcall =>
    split_ifs at h with hphase
    exact ⟨send, hcall, hphase, (Option.some.inj h).symm⟩
  · cases h

theorem step_timeOut {k : ℕ} (h : s.step fuel mul (.timeOut k) = some t) :
    ∃ send, t = s.timeOut k send := by
  simp only [step] at h
  split at h
  · next send hcall =>
    split_ifs at h
    exact ⟨send, (Option.some.inj h).symm⟩
  · cases h

/-- A frame goes out on the connection of the write half, or on a new one. -/
theorem step_write {k : ℕ} {outcome : WriteOutcome}
    (h : s.step fuel mul (.write k outcome) = some t) :
    ∃ send, s.calls.find? k = some (.sending send) ∧ send.phase = .registered ∧
      s.write k send outcome = some t := by
  simp only [step] at h
  split at h
  · next send hcall =>
    split_ifs at h with hphase
    exact ⟨send, hcall, hphase, h⟩
  · cases h

/-- A write that finds a connection puts its request on it. -/
theorem write_present {k : ℕ} {send : Sending} (h : s.write k send .present = some t) :
    ∃ c link, s.writer = some c ∧ s.links.find? c = some link ∧
      t = (s.setLink c { link with requests := link.requests ++ [(k, send.request)] }).setCall k
        (.sending { send with phase := .waiting, conn := some c }) := by
  simp only [write] at h
  split at h
  · cases h
  next c hwriter =>
  split at h
  · cases h
  next link hlink => exact ⟨c, link, hwriter, hlink, (Option.some.inj h).symm⟩

/-- A write that finds none opens one. -/
theorem write_fresh {k c : ℕ} {send : Sending} (h : s.write k send (.fresh c) = some t) :
    s.links.find? c = none ∧ t = ({ s with writer := some c }.setLink c
      { requests := [(k, send.request)], responses := [], serving := true,
        reader := .reading }).setCall k
      (.sending { send with phase := .waiting, conn := some c }) := by
  simp only [write] at h
  split at h
  · cases h
  next hlink => exact ⟨hlink, (Option.some.inj h).symm⟩

/-- A call whose write failed does not wait. -/
theorem not_failed_of_waiting {k : ℕ} {outcome : WriteOutcome} {send : Sending}
    (h : s.step fuel mul (.write k outcome) = some t)
    (hcall : t.calls.find? k = some (.sending send)) (hphase : send.phase = .waiting) :
    outcome ≠ .failed := by
  rintro rfl
  rcases step_write h with ⟨send₀, -, -, hwrite⟩
  have ht := Option.some.inj hwrite
  rw [← ht, setCall, OrdMap.find?_insert_self] at hcall
  injection Option.some.inj hcall with hsend
  rw [← hsend] at hphase
  cases hphase

/-! ## Connections that do not overlap -/

/-- A call registers its request where no entry has its id, its entry is still in the map when
the frame is written, and it takes no entry out of the map but its own. A connection is opened
when the readers of all older ones are gone. -/
def Apart (s : System) : Op → Prop
  | .register k => ∀ sent ∈ s.sentBy k, s.pending.find? (requestIdOf sent.1) = none
  | .write k .present => ∀ sent ∈ s.sentBy k, s.pending.find? (requestIdOf sent.1) = some k
  | .write k (.fresh _) =>
      (∀ sent ∈ s.sentBy k, s.pending.find? (requestIdOf sent.1) = some k) ∧
        ∀ e ∈ s.links.entries, e.2.reader = .gone
  | .write k .failed | .timeOut k =>
      ∀ sent ∈ s.sentBy k, ∀ k' ∈ s.pending.find? (requestIdOf sent.1), k' = k
  | _ => True

instance (s : System) (op : Op) : Decidable (Apart s op) :=
  match op with
  | .register _ => inferInstanceAs (Decidable (∀ sent ∈ s.sentBy _, _))
  | .write _ .present => inferInstanceAs (Decidable (∀ sent ∈ s.sentBy _, _))
  | .write _ (.fresh _) =>
    inferInstanceAs (Decidable ((∀ sent ∈ s.sentBy _, _) ∧ ∀ e ∈ s.links.entries, _))
  | .write _ .failed | .timeOut _ =>
    inferInstanceAs (Decidable (∀ sent ∈ s.sentBy _, ∀ k' ∈ s.pending.find? _, _))
  | .place _ _ | .forward _ _ | .lookUp _ _ | .validate _ _ | .lock _ _ | .insert _ _ _
  | .resolve _ | .unlock _ _ | .serve _ | .hangUp _ | .deliver _ | .readerStops _
  | .readerClears _ | .direct _ | .settle _ _ _ => isTrue trivial

/-- The connections, the write half and the entries of the map fit together. -/
structure Tidy (s : System) : Prop where
  /-- At most one reader is not gone. -/
  alone : ∀ c c' link link', s.links.find? c = some link → s.links.find? c' = some link' →
    link.reader ≠ .gone → link'.reader ≠ .gone → c = c'
  writer : ∀ c, s.writer = some c → ∃ link, s.links.find? c = some link ∧ link.reader = .reading
  /-- An entry waits for a connection whose reader is not gone, or for none yet. -/
  entry : ∀ id k, s.pending.find? id = some k → ∃ send, s.calls.find? k = some (.sending send) ∧
    requestIdOf send.request = id ∧
    ∀ c, send.conn = some c → ∃ link, s.links.find? c = some link ∧ link.reader ≠ .gone
  /-- A call that waits has its response, or its entry, or a reason to fail. -/
  waiting : ∀ k send, s.calls.find? k = some (.sending send) → send.phase = .waiting →
    ∃ c link, send.conn = some c ∧ s.links.find? c = some link ∧
      (send.reply ≠ none ∨ s.pending.find? (requestIdOf send.request) = some k ∨
        link.reader ≠ .reading)

theorem ReaderMoves.gone {op : Op} {c : ℕ} {link : Link} {reader : Reader}
    (h : ReaderMoves op c link.reader reader) (hstep : s.step fuel mul op = some t)
    (hlink : s.links.find? c = some link) (hreader : link.reader = .gone) : reader = .gone := by
  cases h with
  | same => exact hreader
  | stops hop =>
    subst hop
    rcases step_readerStops hstep with ⟨link₀, hlink₀, hreading, -⟩
    rw [hlink] at hlink₀
    cases hlink₀
    rw [hreader] at hreading
    cases hreading
  | clears => rfl

/-- A reader that is not gone was not gone before, or reads a new connection. -/
theorem alive_before {op : Op} (hstep : s.step fuel mul op = some t) {c : ℕ} {link' : Link}
    (hlink' : t.links.find? c = some link') (halive : link'.reader ≠ .gone) :
    (∃ link, s.links.find? c = some link ∧ link.reader ≠ .gone) ∨
      ∃ k, op = .write k (.fresh c) := by
  rcases (step_spec hstep).link_before hlink' with ⟨link, hlink, hmoves⟩ | hfresh
  · exact .inl ⟨link, hlink, fun hgone => halive (hmoves.gone hstep hlink hgone)⟩
  · exact .inr hfresh

/-- A connection is opened when all readers are gone. -/
theorem Apart.fresh {k c : ℕ} (h : Apart s (.write k (.fresh c))) {c' : ℕ} {link : Link}
    (hlink : s.links.find? c' = some link) : link.reader = .gone := by
  exact h.2 (c', link) (OrdMap.find?_eq_some.mp hlink)

/-- There is still at most one reader that is not gone. -/
theorem Tidy.alone_step {op : Op} (h : Tidy s) (hok : Apart s op)
    (hstep : s.step fuel mul op = some t) {c c' : ℕ} {link link' : Link}
    (hlink : t.links.find? c = some link) (hlink' : t.links.find? c' = some link')
    (halive : link.reader ≠ .gone) (halive' : link'.reader ≠ .gone) : c = c' := by
  rcases alive_before hstep hlink halive with ⟨old, hold, holdAlive⟩ | ⟨k, rfl⟩
  · rcases alive_before hstep hlink' halive' with ⟨old', hold', holdAlive'⟩ | ⟨k, rfl⟩
    · exact h.alone c c' old old' hold hold' holdAlive holdAlive'
    · exact absurd (hok.fresh hold) holdAlive
  · rcases alive_before hstep hlink' halive' with ⟨old', hold', holdAlive'⟩ | ⟨k', hop⟩
    · exact absurd (hok.fresh hold') holdAlive'
    · cases hop
      rfl

/-- A written request is on a connection that is read. -/
theorem Tidy.written (h : Tidy s) {k : ℕ} {outcome : WriteOutcome}
    (hstep : s.step fuel mul (.write k outcome) = some t) (hout : outcome ≠ .failed) :
    ∃ c link send, t.links.find? c = some link ∧ link.reader = .reading ∧
      s.calls.find? k = some (.sending send) ∧
      t.calls.find? k = some (.sending { send with phase := .waiting, conn := some c }) ∧
      t.pending = s.pending := by
  rcases step_write hstep with ⟨send, hcall, -, hwrite⟩
  cases outcome with
  | present =>
    rcases write_present hwrite with ⟨c, link, hwriter, hlink, rfl⟩
    rcases h.writer c hwriter with ⟨link₀, hlink₀, hreading⟩
    rw [hlink] at hlink₀
    cases hlink₀
    exact ⟨c, _, send, OrdMap.find?_insert_self _ _ _, hreading, hcall,
      OrdMap.find?_insert_self _ _ _, rfl⟩
  | fresh c =>
    rcases write_fresh hwrite with ⟨-, rfl⟩
    exact ⟨c, _, send, OrdMap.find?_insert_self _ _ _, rfl, hcall,
      OrdMap.find?_insert_self _ _ _, rfl⟩
  | failed => exact absurd rfl hout

/-- The writer of a step is one whose reader reads. -/
theorem Tidy.writer_step {op : Op} (h : Tidy s) (hstep : s.step fuel mul op = some t) {c : ℕ}
    (hwriter : t.writer = some c) :
    ∃ link, t.links.find? c = some link ∧ link.reader = .reading := by
  have hspec := step_spec hstep
  rcases hspec.writer hwriter with hold | ⟨k, rfl⟩
  · rcases h.writer c hold with ⟨link, hlink, hreading⟩
    rcases hspec.link hlink with ⟨link', hlink', hmoves⟩
    refine ⟨link', hlink', ?_⟩
    generalize link'.reader = reader at hmoves
    cases hmoves with
    | same => exact hreading
    -- a reader that stops takes the writer with it
    | stops hop =>
      subst hop
      rcases step_readerStops hstep with ⟨_, _, _, rfl⟩
      cases hwriter
    | clears hop =>
      subst hop
      rcases step_readerClears hstep with ⟨link₀, hlink₀, hclearing, -⟩
      rw [hlink] at hlink₀
      cases hlink₀
      rw [hreading] at hclearing
      cases hclearing
  · -- a new connection starts with its reader reading
    rcases step_write hstep with ⟨send, -, -, hwrite⟩
    rcases write_fresh hwrite with ⟨-, rfl⟩
    exact ⟨_, OrdMap.find?_insert_self _ _ _, rfl⟩

/-- A call keeps the connection it was written on. -/
theorem Evolves.conn {op : Op} {k : ℕ} {send send' : Sending} (h : Evolves s op k send send') :
    send'.request = send.request ∧ (send'.conn = send.conn ∨
      ∃ outcome, op = .write k outcome ∧ send'.phase = .waiting) := by
  cases h with
  | writes c outcome hop => exact ⟨rfl, .inr ⟨outcome, hop, rfl⟩⟩
  | same | registers | unwritten | timesOut | returns | errs | unlocks | receives =>
    exact ⟨rfl, .inl rfl⟩

/-- What is pending is a call that waits for its answer. -/
theorem Tidy.entry_step {op : Op} (h : Tidy s) (hphased : Phased s)
    (hstep : s.step fuel mul op = some t) {id : Uuid} {k : ℕ}
    (hentry : t.pending.find? id = some k) :
    ∃ send, t.calls.find? k = some (.sending send) ∧ requestIdOf send.request = id ∧
      ∀ c, send.conn = some c → ∃ link, t.links.find? c = some link ∧ link.reader ≠ .gone := by
  have hspec := step_spec hstep
  rcases hspec.pending hentry with hold | ⟨rfl, send, hcall, hid⟩
  · rcases h.entry id k hold with ⟨send, hcall, hid, hconn⟩
    rcases hspec.call_next hcall with ⟨send', hcall', hevolves⟩
    rcases hevolves.conn with ⟨hrequest, hkeeps | ⟨outcome, rfl, hwaiting⟩⟩
    · refine ⟨send', hcall', by rw [hrequest, hid], ?_⟩
      intro c hc
      rcases hconn c (hkeeps ▸ hc) with ⟨link, hlink, halive⟩
      rcases hspec.link hlink with ⟨link', hlink', hmoves⟩
      refine ⟨link', hlink', ?_⟩
      generalize link'.reader = reader at hmoves
      cases hmoves with
      | same => exact halive
      | stops => simp
      | clears hop =>
        -- the map is empty now
        subst hop
        rcases step_readerClears hstep with ⟨_, _, _, rfl⟩
        cases hentry
    · have hout := not_failed_of_waiting hstep hcall' hwaiting
      rcases h.written hstep hout with ⟨c, link, send₀, hlink, hreading, hcall₀, hcall₁, -⟩
      rw [hcall] at hcall₀
      cases hcall₀
      refine ⟨_, hcall₁, hid, ?_⟩
      intro c' hc'
      cases Option.some.inj hc'
      exact ⟨link, hlink, by simp [hreading]⟩
  · rcases step_register hstep with ⟨send₀, hcall₀, hphase, rfl⟩
    rw [hcall] at hcall₀
    cases hcall₀
    refine ⟨_, OrdMap.find?_insert_self _ _ _, hid, ?_⟩
    intro c hc
    change send.conn = some c at hc
    rw [hphased k send hcall (.inl hphase)] at hc
    cases hc

/-- What can become of the entry of a call that waits. -/
theorem Step.entry_kept {op : Op} (h : Step fuel s op t) (hok : Apart s op) {k : ℕ}
    {send : Sending} (hcall : s.calls.find? k = some (.sending send))
    (hphase : send.phase = .waiting)
    (hentry : s.pending.find? (requestIdOf send.request) = some k) :
    t.pending.find? (requestIdOf send.request) = some k ∨ (∃ c, op = .readerClears c) ∨
      op = .timeOut k ∨ ∃ send', t.calls.find? k = some (.sending send') ∧ send'.reply ≠ none := by
  cases h with
  | @registered k₀ send₀ hcall₀ =>
    left
    show (s.pending.insert _ _).find? _ = some k
    rw [OrdMap.find?_insert, if_neg]
    · exact hentry
    · intro heq
      have hnone := hok _ (sentBy_of_sending hcall₀)
      rw [← heq, hentry] at hnone
      cases hnone
  | @unwritten k₀ send₀ hcall₀ hphase₀ =>
    left
    show (s.pending.erase _).find? _ = some k
    rw [OrdMap.find?_erase, if_neg]
    · exact hentry
    · intro heq
      -- the entry is of the call that is not written yet
      have hown := hok _ (sentBy_of_sending hcall₀) k (heq ▸ hentry)
      subst hown
      rw [hcall] at hcall₀
      cases hcall₀
      rw [hphase] at hphase₀
      cases hphase₀
  | @timedOut k₀ send₀ hcall₀ hphase₀ =>
    by_cases heq : requestIdOf send.request = requestIdOf send₀.request
    · have hown := hok _ (sentBy_of_sending hcall₀) k (heq ▸ hentry)
      exact .inr (.inr (.inl (by rw [hown])))
    · left
      show (s.pending.erase _).find? _ = some k
      rw [OrdMap.find?_erase, if_neg heq]
      exact hentry
  | @delivered c link answer responses hlink =>
    unfold deliver
    split
    · exact .inl hentry
    next id hid =>
    split
    · exact .inl hentry
    next k₀ hpending =>
    dsimp only
    by_cases heq : requestIdOf send.request = id
    · -- its response has come
      have hown : k₀ = k := by
        change s.pending.find? id = some k₀ at hpending
        rw [← heq, hentry] at hpending
        exact (Option.some.inj hpending).symm
      subst hown
      refine .inr (.inr (.inr ⟨{ send with reply := some answer }, ?_, by simp⟩))
      split
      · next send₀ hcall₀ =>
        change s.calls.find? k₀ = some (.sending send₀) at hcall₀
        rw [hcall] at hcall₀
        cases hcall₀
        exact OrdMap.find?_insert_self _ _ _
      · next hnot => exact absurd hcall (hnot send)
    · left
      split
      · show (s.pending.erase _).find? _ = some k
        rw [OrdMap.find?_erase, if_neg heq]
        exact hentry
      · show (s.pending.erase _).find? _ = some k
        rw [OrdMap.find?_erase, if_neg heq]
        exact hentry
  | readerCleared => exact .inr (.inl ⟨_, rfl⟩)
  | served responses serving hlink hserving hrequests hhandle =>
    rcases handle_spec hhandle with ⟨engine, _, rfl⟩
    exact .inl hentry
  | direct hhandle =>
    rcases handle_spec hhandle with ⟨engine, _, rfl⟩
    exact .inl hentry
  | idle | prepared | wrote | connected | returned | erred | unlocked | hungUp | readerStopped
  | settled => exact .inl hentry

/-- A call that waits still has its response, its entry or a reason to fail. -/
theorem Tidy.waiting_step {op : Op} (h : Tidy s) (hok : Apart s op)
    (hstep : s.step fuel mul op = some t) {k : ℕ} {send' : Sending}
    (hcall' : t.calls.find? k = some (.sending send')) (hphase' : send'.phase = .waiting) :
    ∃ c link, send'.conn = some c ∧ t.links.find? c = some link ∧
      (send'.reply ≠ none ∨ t.pending.find? (requestIdOf send'.request) = some k ∨
        link.reader ≠ .reading) := by
  have hspec := step_spec hstep
  -- a call that was waiting before
  have hstays : ∀ send, s.calls.find? k = some (.sending send) → send.phase = .waiting →
      send'.conn = send.conn → send'.request = send.request →
      (send.reply ≠ none → send'.reply ≠ none) →
      ∃ c link, send'.conn = some c ∧ t.links.find? c = some link ∧
        (send'.reply ≠ none ∨ t.pending.find? (requestIdOf send'.request) = some k ∨
          link.reader ≠ .reading) := by
    intro send hcall hphase hconn hrequest hreply
    rcases h.waiting k send hcall hphase with ⟨c, link, hc, hlink, hwhy⟩
    rcases hspec.link hlink with ⟨link', hlink', hmoves⟩
    refine ⟨c, link', hconn.trans hc, hlink', ?_⟩
    rcases hwhy with hreplied | hentry | hbroken
    · exact .inl (hreply hreplied)
    · rcases hspec.entry_kept hok hcall hphase hentry with
        hkept | ⟨c', rfl⟩ | rfl | ⟨send₁, hcall₁, hreplied⟩
      · exact .inr (.inl (hrequest ▸ hkept))
      · -- only the reader of the same connection clears the map
        rcases h.entry _ k hentry with ⟨send₀, hcall₀, -, hconn₀⟩
        rw [hcall] at hcall₀
        cases hcall₀
        rcases hconn₀ c hc with ⟨link₀, hlink₀, halive⟩
        rcases step_readerClears hstep with ⟨link₁, hlink₁, hclearing, rfl⟩
        have heq := h.alone c c' link₀ link₁ hlink₀ hlink₁ halive (by simp [hclearing])
        subst heq
        change (setLink _ _ _).links.find? c = some link' at hlink'
        rw [find?_setLink, if_pos rfl] at hlink'
        cases hlink'
        exact .inr (.inr (by simp))
      · rcases step_timeOut hstep with ⟨send₀, rfl⟩
        rw [timeOut, setCall, OrdMap.find?_insert_self] at hcall'
        cases hcall'
        cases hphase'
      · rw [hcall'] at hcall₁
        cases hcall₁
        exact .inl hreplied
    · refine .inr (.inr ?_)
      generalize link'.reader = reader at hmoves
      cases hmoves with
      | same => exact hbroken
      | stops => simp
      | clears => simp
  rcases hspec.call hcall' with ⟨-, request, lock, rfl⟩ | ⟨send, hcall, hevolves⟩
  · cases hphase'
  cases hevolves with
  | same => exact hstays send' hcall hphase' rfl rfl id
  | receives => exact hstays send hcall hphase' rfl rfl (by simp)
  | writes c outcome hop hphase =>
    subst hop
    have hout := not_failed_of_waiting hstep hcall' rfl
    rcases h.written hstep hout with ⟨c', link, send₀, hlink, -, hcall₀, hcall₁, hpending⟩
    rw [hcall] at hcall₀
    obtain rfl : send = send₀ := by cases hcall₀; rfl
    rw [hcall'] at hcall₁
    have hc : c = c' := by
      injection hcall₁ with hcall₁
      injection hcall₁ with hsend
      injection hsend with _ _ _ hconn
      exact Option.some.inj hconn
    subst hc
    refine ⟨c, link, rfl, hlink, .inr (.inl ?_)⟩
    rw [hpending]
    cases outcome with
    | present => exact hok _ (sentBy_of_sending hcall)
    | fresh c => exact hok.1 _ (sentBy_of_sending hcall)
    | failed => exact absurd rfl hout
  | registers | unwritten | timesOut | returns | errs | unlocks => cases hphase'

/-- So a step keeps everything tidy. -/
theorem Tidy.step {op : Op} (h : Tidy s) (hphased : Phased s) (hok : Apart s op)
    (hstep : s.step fuel mul op = some t) : Tidy t where
  alone _ _ _ _ hlink hlink' halive halive' :=
    h.alone_step hok hstep hlink hlink' halive halive'
  writer _ hwriter := h.writer_step hstep hwriter
  entry _ _ hentry := h.entry_step hphased hstep hentry
  waiting _ _ hcall hphase := h.waiting_step hok hstep hcall hphase

theorem Tidy.start (engine : EngineState) (db : Tables) : Tidy (start engine db) where
  alone _ _ _ _ hlink := by cases hlink
  writer _ hwriter := by cases hwriter
  entry _ _ hentry := by cases hentry
  waiting _ _ hcall := by cases hcall

/-! ## Runs -/

/-- A request that fails with `Io` was written on a connection whose reader has met an error or
the end of the stream. -/
def IoOnlyIfBroken (s : System) : Prop :=
  ∀ k send, s.calls.find? k = some (.sending send) → send.phase = .waiting →
    s.resolution k send = some (some .io) →
    ∃ c link, send.conn = some c ∧ s.links.find? c = some link ∧ link.reader ≠ .reading

/-- The reader of connection `c` leaves other connections what is theirs. -/
structure ExitSpares (s t : System) (c : ℕ) : Prop where
  writer : ∀ c', s.writer = some c' → c' ≠ c → t.writer = some c'
  pending : ∀ id k send c', s.pending.find? id = some k →
    s.calls.find? k = some (.sending send) → send.conn = some c' → c' ≠ c →
    t.pending.find? id = some k

/-- No answer of the engine is turned into an I/O error. -/
theorem clientError_ne_io (request : EngineRequest) (response : Proto.EngineResponse) :
    clientError request response ≠ some .io := by
  unfold clientError
  split <;> try split_ifs
  all_goals simp

/-- A call sees an I/O error only if its connection is gone. -/
theorem Tidy.ioOnlyIfBroken (h : Tidy s) : IoOnlyIfBroken s := by
  intro k send hcall hphase hio
  rcases h.waiting k send hcall hphase with ⟨c, link, hc, hlink, hwhy⟩
  refine ⟨c, link, hc, hlink, ?_⟩
  unfold resolution at hio
  split at hio
  · exact absurd (Option.some.inj hio) (clientError_ne_io _ _)
  · next hnone =>
    split_ifs at hio with hentry
    rcases hwhy with hreplied | hown | hbroken
    · exact absurd hnone hreplied
    · exact absurd hown hentry
    · exact hbroken

/-- A reader that exits takes no call of another connection with it. -/
theorem Tidy.exitSpares (h : Tidy s) {c : ℕ} (hexit : s.step fuel mul (.readerStops c) = some t ∨
    s.step fuel mul (.readerClears c) = some t) : ExitSpares s t c := by
  rcases hexit with hstep | hstep
  · rcases step_readerStops hstep with ⟨link, hlink, hreading, rfl⟩
    refine ⟨fun c' hwriter hne => absurd ?_ hne, fun _ _ _ _ hentry _ _ _ => hentry⟩
    rcases h.writer c' hwriter with ⟨link', hlink', hreading'⟩
    exact h.alone c' c link' link hlink' hlink (by simp [hreading'])
      (by simp [hreading])
  · rcases step_readerClears hstep with ⟨link, hlink, hclearing, rfl⟩
    refine ⟨fun _ hwriter _ => hwriter, fun id k send c' hentry hcall hconn hne => absurd ?_ hne⟩
    rcases h.entry id k hentry with ⟨send', hcall', -, hconn'⟩
    rw [hcall] at hcall'
    obtain rfl : send = send' := by
      injection Option.some.inj hcall'
    rcases hconn' c' hconn with ⟨link', hlink', halive⟩
    exact h.alone c' c link' link hlink' hlink halive (by simp [hclearing])

/-- Where connections do not overlap, requests fail with `Io` only if their own connection is
broken, and readers of old connections do no harm. -/
theorem io_only_if_broken {engine : EngineState} {db : Tables} {ops : List Op}
    (hok : Along (step fuel mul) Apart (start engine db) ops)
    (hrun : run (step fuel mul) (start engine db) ops = some s) :
    IoOnlyIfBroken s ∧ ∀ c t, (s.step fuel mul (.readerStops c) = some t ∨
      s.step fuel mul (.readerClears c) = some t) → ExitSpares s t c := by
  have htidy : Tidy s ∧ Phased s := by
    refine Machine.run_invariant (fun s => Tidy s ∧ Phased s) Apart ?_
      ⟨.start engine db, ?_⟩ hok hrun
    · intro mid op mid' hmid hapart hstep
      exact ⟨hmid.1.step hmid.2 hapart hstep, hmid.2.step (step_spec hstep)⟩
    · intro k send hcall
      cases hcall
  exact ⟨htidy.1.ioOnlyIfBroken, fun c t hexit => htidy.1.exitSpares hexit⟩

/-- Two pings. The first is on its way when the connection breaks, and the second is written on
a new connection before the reader of the old one has noticed. -/
def pingsAcross : List Op :=
  [.forward 0 (.ping 1), .register 0, .write 0 (.fresh 0), .hangUp 0, .forward 1 (.ping 2),
    .register 1, .write 1 (.fresh 1)]

/-- The old reader throws away the new write half and the entry of the second ping, which fails
although its connection is read. -/
theorem new_request_lost : ∃ s t u,
    run (step 10 exactMul) (start Server.emptyEngine sellersTables) pingsAcross = some s ∧
    s.step 10 exactMul (.readerStops 0) = some t ∧
    t.step 10 exactMul (.readerClears 0) = some u ∧
    ¬ExitSpares s t 0 ∧ ¬ExitSpares t u 0 ∧ ¬IoOnlyIfBroken u := by
  refine ⟨_, _, _, rfl, rfl, rfl, ?_, ?_, ?_⟩
  · intro h
    have hwriter := h.writer 1 rfl (by decide)
    cases hwriter
  · intro h
    have hentry := h.pending 2 1 _ 1 rfl rfl rfl (by decide)
    cases hentry
  · intro h
    rcases h 1 _ rfl rfl rfl with ⟨c, link, hconn, hlink, hbroken⟩
    cases hconn
    cases hlink
    exact hbroken rfl

/-- The second ping is written when the old reader is gone. -/
def pingsApart : List Op :=
  [.forward 0 (.ping 1), .register 0, .write 0 (.fresh 0), .hangUp 0, .readerStops 0,
    .readerClears 0, .forward 1 (.ping 2), .register 1, .write 1 (.fresh 1)]

/-- The first ping fails, and only that. -/
theorem old_request_fails : ∃ s,
    run (step 10 exactMul) (start Server.emptyEngine sellersTables) pingsApart = some s ∧
    IoOnlyIfBroken s ∧ (∃ send, s.calls.find? 0 = some (.sending send) ∧
      s.resolution 0 send = some (some .io)) ∧
    ∃ send, s.calls.find? 1 = some (.sending send) ∧ s.resolution 1 send = none := by
  have htested : Machine.checkAlong (step 10 exactMul) (fun s op => decide (Apart s op))
      (start Server.emptyEngine sellersTables) pingsApart = true := by decide +kernel
  have hok := Machine.along_of_check (fun _ _ hcheck => of_decide_eq_true hcheck) htested
  refine ⟨_, rfl, (io_only_if_broken hok rfl).1, ⟨_, rfl, rfl⟩, ⟨_, rfl, rfl⟩⟩

end System

end CryptoCex.Api
