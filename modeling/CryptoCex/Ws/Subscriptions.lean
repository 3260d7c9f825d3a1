import CryptoCex.Lib.Tasks
import CryptoCex.Ws.Feed
import Mathlib.Data.List.Nodup
import Mathlib.Order.Nat

/-!
# How often a frame is queued

A frame is on its way to the client as often as it is queued and as often as a forwarder of its
channel has it before it. The sum does not grow while forwarders work, and a channel is joined
behind everything that was published there. So it depends on two moments only: how many forwarders
a channel has when the frame is published, and whether the frame has been on its way when it is
replayed (`Orderly`).
-/

namespace CryptoCex.Ws.Feed

open Broadcast (Receiver)
open Machine (run Along)

variable {s t : Feed} {c : Channel} {n : ℕ}

/-- How often the `n`-th frame of a channel is queued. -/
def timesQueued (s : Feed) (c : Channel) (n : ℕ) : ℕ :=
  s.conn.queue.countP fun o => o.origin = some (c, n)

/-- How many forwarders have it before them. -/
def timesWaiting (s : Feed) (c : Channel) (n : ℕ) : ℕ :=
  s.conn.forwarders.countP fun f => f.channel = c ∧ f.rx.next ≤ n

def forwardersOf (s : Feed) (c : Channel) : ℕ := s.conn.forwarders.countP fun f => f.channel = c

/-- Every published frame is queued at most once, and not at all if the client had left its
channel when it was published. -/
structure QueuedOnce (s : Feed) : Prop where
  once : ∀ c n, s.timesQueued c n ≤ 1
  missed : ∀ p ∈ s.missed, s.timesQueued p.1 p.2 = 0

/-- The frames that are replayed if the loop goes on now. -/
def toReplay (s : Feed) (now : ℕ) : List (Channel × ℕ) :=
  match s.conn.task with
  | .looping ⟨_, some seq, .bookDiff symbol :: _, _⟩ =>
    ((s.hub.replayDiffs now symbol seq).getD []).map fun e => (.bookDiff symbol, e.position)
  | _ => []

/-- A frame is published when its channel has at most one forwarder, and none if the client has
left it. A frame is replayed if it has not been on its way to the client, and was not published
while the client had left the channel. -/
def Orderly (s : Feed) : Op → Prop
  | .input i _ => ∀ frame ∈ i.frames,
      s.forwardersOf frame.channel ≤ if frame.channel ∈ s.left then 0 else 1
  | .advance now => ∀ p ∈ s.toReplay now,
      s.timesQueued p.1 p.2 = 0 ∧ s.timesWaiting p.1 p.2 = 0 ∧ p ∉ s.missed
  | .receive _ _ | .fetched _ | .join | .forward _ => True

instance (s : Feed) (op : Op) : Decidable (Orderly s op) :=
  match op with
  | .input i _ => inferInstanceAs (Decidable (∀ frame ∈ i.frames, _ ≤ _))
  | .advance now => inferInstanceAs (Decidable (∀ p ∈ s.toReplay now, _ ∧ _ ∧ _))
  | .receive _ _ | .fetched _ | .join | .forward _ => isTrue trivial

/-! ## The invariant -/

/-- On its way at most once, and not at all if it was missed. -/
structure Counted (s : Feed) : Prop where
  recorded : s.hub.Recorded
  next_le : ∀ f ∈ s.conn.forwarders, f.rx.next ≤ (s.hub.sent f.channel).length
  origin_lt : ∀ o ∈ s.conn.queue, ∀ c n, o.origin = some (c, n) → n < (s.hub.sent c).length
  missed_lt : ∀ p ∈ s.missed, p.2 < (s.hub.sent p.1).length
  once : ∀ c n, n < (s.hub.sent c).length → s.timesQueued c n + s.timesWaiting c n ≤ 1
  missed : ∀ p ∈ s.missed, s.timesQueued p.1 p.2 + s.timesWaiting p.1 p.2 = 0

/-- Nothing is queued yet, and nobody forwards. -/
theorem counted_start {hub : Hub} (h : hub.Recorded) (userId : Option Core.Uuid) :
    Counted (start hub userId) where
  recorded := h
  next_le := by
    intro f hf
    cases hf
  origin_lt := by
    intro o ho
    cases ho
  missed_lt := by
    intro p hp
    cases hp
  once := by
    intro c n _
    exact Nat.zero_le 1
  missed := by
    intro p hp
    cases hp

/-- What was not sent is not queued. -/
theorem Counted.unqueued (h : Counted s) (hn : (s.hub.sent c).length ≤ n) :
    s.timesQueued c n = 0 := by
  refine List.countP_eq_zero.mpr ?_
  intro o ho
  rw [decide_eq_true_eq]
  intro horigin
  exact absurd (h.origin_lt o ho c n horigin) (by omega)

/-- A forwarder has a frame to send at most once. -/
theorem timesWaiting_le (s : Feed) (c : Channel) (n : ℕ) :
    s.timesWaiting c n ≤ s.forwardersOf c := by
  refine List.countP_mono_left ?_
  intro f _ hf
  simp only [decide_eq_true_eq] at hf ⊢
  exact hf.1

/-- So no frame is queued twice. -/
theorem Counted.queuedOnce (h : Counted s) : QueuedOnce s where
  once := by
    intro c n
    by_cases hn : n < (s.hub.sent c).length
    · exact le_trans (Nat.le_add_right _ _) (h.once c n hn)
    · rw [h.unqueued (not_lt.mp hn)]
      exact Nat.zero_le 1
  missed := by
    intro p hp
    have hzero := h.missed p hp
    omega

/-- The count after more was queued. -/
theorem timesQueued_append {queue out : List Outbound} :
    (queue ++ out).countP (fun o => o.origin = some (c, n)) =
      queue.countP (fun o => o.origin = some (c, n)) +
        out.countP (fun o => o.origin = some (c, n)) := List.countP_append

theorem countP_origin_none {out : List Outbound} (h : ∀ o ∈ out, o.origin = none) :
    out.countP (fun o => o.origin = some (c, n)) = 0 := by
  refine List.countP_eq_zero.mpr ?_
  intro o ho
  simp [h o ho]

/-! ## Steps -/

/-- An input is sent once to each forwarder of its channel. -/
theorem Counted.input (h : Counted s) {i : Input} {now : ℕ} (hok : Orderly s (.input i now)) :
    Counted (s.input i now) := by
  have hsent : ∀ c, (s.input i now).hub.sent c = s.hub.sent c ++ i.framesOn c := by
    intro c
    exact s.hub.sent_take now i c
  have hlen : ∀ c, ((s.input i now).hub.sent c).length =
      (s.hub.sent c).length + (i.framesOn c).length := by
    intro c
    rw [hsent, List.length_append]
  -- a frame that has just been published is before the forwarders of its channel
  have hnew : ∀ c n, (s.hub.sent c).length ≤ n → n < ((s.input i now).hub.sent c).length →
      s.timesQueued c n + s.timesWaiting c n ≤ if c ∈ s.left then 0 else 1 := by
    intro c n hle hlt
    rw [hlen] at hlt
    have hsome : i.framesOn c ≠ [] := by
      intro hnil
      rw [hnil, List.length_nil] at hlt
      omega
    rcases List.exists_mem_of_ne_nil _ hsome with ⟨frame, hframe⟩
    rcases List.mem_filter.mp hframe with ⟨hmem, hchannel⟩
    have hfew := hok frame hmem
    rw [of_decide_eq_true hchannel] at hfew
    rw [h.unqueued hle, Nat.zero_add]
    exact (s.timesWaiting_le c n).trans hfew
  have hmissed : ∀ p ∈ (s.input i now).missed, p ∈ s.missed ∨ p.1 ∈ s.left ∧
      (s.hub.sent p.1).length ≤ p.2 ∧ p.2 < ((s.input i now).hub.sent p.1).length := by
    intro p hp
    rcases List.mem_append.mp hp with hold | hadded
    · exact .inl hold
    · rcases List.mem_flatMap.mp hadded with ⟨c, hc, hmem⟩
      rcases List.mem_map.mp hmem with ⟨k, hk, rfl⟩
      refine .inr ⟨hc, Nat.le_add_right _ _, ?_⟩
      rw [hlen]
      exact Nat.add_lt_add_left (List.mem_range.mp hk) _
  refine ⟨h.recorded.take now i, ?_, ?_, ?_, ?_, ?_⟩
  · intro f hf
    rw [hlen]
    exact (h.next_le f hf).trans (Nat.le_add_right _ _)
  · intro o ho c n horigin
    rw [hlen]
    exact Nat.lt_add_right _ (h.origin_lt o ho c n horigin)
  · intro p hp
    rcases hmissed p hp with hold | ⟨_, _, hlt⟩
    · rw [hlen]
      exact Nat.lt_add_right _ (h.missed_lt p hold)
    · exact hlt
  · intro c n hn
    by_cases hold : n < (s.hub.sent c).length
    · exact h.once c n hold
    · refine (hnew c n (not_lt.mp hold) hn).trans ?_
      split_ifs <;> omega
  · intro p hp
    rcases hmissed p hp with hold | ⟨hleft, hle, hlt⟩
    · exact h.missed p hold
    · have hnone := hnew p.1 p.2 hle hlt
      rw [if_pos hleft] at hnone
      exact Nat.le_zero.mp hnone

/-- A step that leaves the hub as it is and puts no frame on its way that is not accounted for. -/
theorem Counted.of_counts (h : Counted s) (hhub : t.hub = s.hub) (hmissed : t.missed = s.missed)
    (hnext : ∀ f ∈ t.conn.forwarders, f.rx.next ≤ (s.hub.sent f.channel).length)
    (horigin : ∀ o ∈ t.conn.queue, ∀ c n, o.origin = some (c, n) → n < (s.hub.sent c).length)
    (hcount : ∀ c n, n < (s.hub.sent c).length →
      t.timesQueued c n + t.timesWaiting c n ≤ s.timesQueued c n + s.timesWaiting c n ∨
        t.timesQueued c n + t.timesWaiting c n ≤ 1 ∧ (c, n) ∉ s.missed) : Counted t := by
  refine ⟨hhub ▸ h.recorded, hhub ▸ hnext, hhub ▸ horigin, ?_, ?_, ?_⟩
  · rw [hhub, hmissed]
    exact h.missed_lt
  · intro c n hn
    rw [hhub] at hn
    rcases hcount c n hn with hle | ⟨hle, _⟩
    · exact hle.trans (h.once c n hn)
    · exact hle
  · intro p hp
    rw [hmissed] at hp
    rcases hcount p.1 p.2 (h.missed_lt p hp) with hle | ⟨_, hout⟩
    · have hzero := h.missed p hp
      omega
    · exact absurd hp hout

/-- Answers of the connection itself do not count. -/
theorem Counted.tells (h : Counted s) {l : List Outbound} (hhub : t.hub = s.hub)
    (hforwarders : t.conn.forwarders = s.conn.forwarders)
    (hqueue : t.conn.queue = s.conn.queue ++ l) (hout : ∀ o ∈ l, o.origin = none)
    (hmissed : t.missed = s.missed) : Counted t := by
  refine h.of_counts hhub hmissed (hforwarders ▸ h.next_le) ?_ ?_
  · intro o ho c n horigin
    rw [hqueue] at ho
    rcases List.mem_append.mp ho with hold | hnew
    · exact h.origin_lt o hold c n horigin
    · rw [hout o hnew] at horigin
      cases horigin
  · intro c n _
    refine .inl (le_of_eq ?_)
    unfold timesQueued timesWaiting
    rw [hqueue, hforwarders, timesQueued_append, countP_origin_none hout]
    rfl

/-- A frame is replayed once, and only where it has not been on its way. -/
theorem Counted.replays (h : Counted s) {now seq : ℕ} {msg : Subscribe} {symbol : String}
    {requested : List Channel} {entries : List ReplayEntry} {task : Task}
    (hok : Orderly s (.advance now)) (htask : s.conn.task = .looping msg)
    (hrequested : msg.requested = .bookDiff symbol :: requested) (hseq : msg.afterSeq = some seq)
    (hentries : s.hub.replayDiffs now symbol seq = some entries) :
    Counted ((s.push (replayed symbol entries)).setTask task) := by
  have hsub := Hub.mem_replayDiffs hentries
  have hreplay : ∀ e ∈ entries, (Channel.bookDiff symbol, e.position) ∈ s.toReplay now := by
    intro e he
    rcases msg with ⟨id, afterSeq, channels, subscribed⟩
    obtain rfl : channels = _ := hrequested
    obtain rfl : afterSeq = _ := hseq
    simp only [toReplay, htask, hentries, Option.getD_some]
    exact List.mem_map.mpr ⟨e, he, rfl⟩
  have horigin : ∀ o ∈ replayed symbol entries, ∃ e ∈ entries,
      o.origin = some (.bookDiff symbol, e.position) := by
    intro o ho
    rcases List.mem_map.mp ho with ⟨e, he, rfl⟩
    exact ⟨e, he, rfl⟩
  refine h.of_counts rfl rfl h.next_le ?_ ?_
  · intro o ho c n hon
    rcases List.mem_append.mp ho with hold | hnew
    · exact h.origin_lt o hold c n hon
    · rcases horigin o hnew with ⟨e, he, heq⟩
      rw [heq] at hon
      cases hon
      have hsent := h.recorded.sent (.bookDiff symbol) e (hsub.subset he)
      exact (List.getElem?_eq_some_iff.mp hsent).1
  · intro c n hn
    have hafter : timesQueued ((s.push (replayed symbol entries)).setTask task) c n =
        s.timesQueued c n +
          (replayed symbol entries).countP (fun o => o.origin = some (c, n)) := timesQueued_append
    by_cases hzero : (replayed symbol entries).countP (fun o => o.origin = some (c, n)) = 0
    · refine .inl (le_of_eq ?_)
      rw [hafter, hzero]
      rfl
    · rcases List.countP_pos_iff.mp (Nat.pos_of_ne_zero hzero) with ⟨o, ho, hon⟩
      rcases horigin o ho with ⟨e, he, heq⟩
      rw [of_decide_eq_true hon] at heq
      cases heq
      rcases hok _ (hreplay e he) with ⟨hqueued, hwaiting, hmissed⟩
      refine .inr ⟨?_, hmissed⟩
      rw [hafter, hqueued]
      change 0 + _ + s.timesWaiting (.bookDiff symbol) e.position ≤ 1
      rw [hwaiting, Nat.zero_add, Nat.add_zero]
      -- the positions in the buffer are distinct
      have hdistinct : (entries.map (·.position)).Nodup :=
        ((h.recorded.ordered _).sublist (hsub.map _)).imp Nat.ne_of_lt
      have hcount : (replayed symbol entries).countP
          (fun o => o.origin = some (.bookDiff symbol, e.position)) =
            (entries.map (·.position)).count e.position := by
        unfold replayed List.count
        rw [List.countP_map, List.countP_map]
        refine List.countP_congr ?_
        intro e' _
        simp [Outbound.origin]
      rw [hcount]
      exact List.nodup_iff_count_le_one.mp hdistinct _

/-- A new forwarder has nothing before it. -/
theorem Counted.joins (h : Counted s) {channel : Channel} {snapshot : Option ℕ} {task : Task} :
    Counted { s with conn := { s.conn with
      subscriptions := s.conn.subscriptions ++ [channel]
      forwarders := s.conn.forwarders ++ [⟨channel, .subscribe (s.hub.sent channel),
        (s.hub.sent channel).length, snapshot⟩]
      task := task } } := by
  refine h.of_counts rfl rfl ?_ h.origin_lt ?_
  · intro f hf
    rcases List.mem_append.mp hf with hold | hnew
    · exact h.next_le f hold
    · cases List.mem_singleton.mp hnew
      exact Nat.le_refl _
  · intro c n hn
    refine .inl (Nat.add_le_add_left ?_ _)
    unfold timesWaiting
    rw [List.countP_append, List.countP_singleton, if_neg]
    · exact Nat.le_refl _
    · rw [decide_eq_true_eq]
      rintro ⟨rfl, hle⟩
      exact absurd hn (Nat.not_lt.mpr hle)

/-- What a forwarder queues it no longer has before it. -/
theorem Counted.forwards (h : Counted s) {f : ℕ} {forwarder : Forwarder} {rx : Receiver WsFrame}
    (hfind : s.conn.forwarders[f]? = some forwarder)
    (hrecv : forwarder.rx.recv channelCapacity (s.hub.sent forwarder.channel) = some rx) :
    Counted ({ s with conn := { s.conn with
      forwarders := s.conn.forwarders.set f { forwarder with rx := rx } } }.push
        [forwarded forwarder (s.hub.sent forwarder.channel)]) := by
  have hbefore := h.next_le forwarder (List.mem_of_getElem? hfind)
  have hwaiting : ∀ c n, (s.conn.forwarders.set f { forwarder with rx := rx }).countP
      (fun f => f.channel = c ∧ f.rx.next ≤ n) +
        (if forwarder.channel = c ∧ forwarder.rx.next ≤ n then 1 else 0) =
      s.timesWaiting c n + (if forwarder.channel = c ∧ rx.next ≤ n then 1 else 0) := by
    intro c n
    have hcount := Tasks.countP_set (b := { forwarder with rx := rx }) hfind
      fun f => f.channel = c ∧ f.rx.next ≤ n
    simp only [decide_eq_true_eq] at hcount
    exact hcount
  generalize hafter : ({ s with conn := { s.conn with
      forwarders := s.conn.forwarders.set f { forwarder with rx := rx } } }.push
        [forwarded forwarder (s.hub.sent forwarder.channel)]) = t
  have hqueued : ∀ c n, t.timesQueued c n = s.timesQueued c n +
      if (forwarded forwarder (s.hub.sent forwarder.channel)).origin = some (c, n) then 1
        else 0 := by
    intro c n
    rw [← hafter]
    refine timesQueued_append.trans (congrArg _ ?_)
    rw [List.countP_singleton]
    simp only [decide_eq_true_eq]
  have hleft : ∀ c n, t.timesWaiting c n +
      (if forwarder.channel = c ∧ forwarder.rx.next ≤ n then 1 else 0) =
        s.timesWaiting c n + (if forwarder.channel = c ∧ rx.next ≤ n then 1 else 0) := by
    intro c n
    rw [← hafter]
    exact hwaiting c n
  have hmem : ∀ o ∈ t.conn.queue, o ∈ s.conn.queue ∨
      o = forwarded forwarder (s.hub.sent forwarder.channel) := by
    intro o ho
    rw [← hafter] at ho
    rcases List.mem_append.mp ho with hold | hnew
    · exact .inl hold
    · exact .inr (List.mem_singleton.mp hnew)
  have hset : ∀ f' ∈ t.conn.forwarders, f' ∈ s.conn.forwarders ∨
      f' = { forwarder with rx := rx } := by
    intro f' hf'
    rw [← hafter] at hf'
    exact List.mem_or_eq_of_mem_set hf'
  have hframe : t.hub = s.hub ∧ t.missed = s.missed := by
    rw [← hafter]
    exact ⟨rfl, rfl⟩
  rcases Receiver.recv_cases hrecv with ⟨hlags, hnext, _, _⟩ | ⟨frame, hlags, hget, hrx⟩
  · -- the frames it lost are not on their way any more
    have hbehind : forwarder.rx.next + channelCapacity <
        (s.hub.sent forwarder.channel).length := hlags
    have horigin : (forwarded forwarder (s.hub.sent forwarder.channel)).origin = none := by
      rw [forwarded, if_pos hlags]
      rfl
    refine h.of_counts hframe.1 hframe.2 ?_ ?_ ?_
    · intro f' hf'
      rcases hset f' hf' with hold | rfl
      · exact h.next_le f' hold
      · show rx.next ≤ (s.hub.sent forwarder.channel).length
        omega
    · intro o ho c n hon
      rcases hmem o ho with hold | rfl
      · exact h.origin_lt o hold c n hon
      · rw [horigin] at hon
        cases hon
    · intro c n _
      have hsum := hleft c n
      rw [hqueued, horigin, if_neg (by simp)]
      by_cases hc : forwarder.channel = c
      · simp only [hc, true_and] at hsum
        split_ifs at hsum <;> omega
      · simp only [hc, false_and, if_false] at hsum
        omega
  · have horigin : (forwarded forwarder (s.hub.sent forwarder.channel)).origin =
        some (forwarder.channel, forwarder.rx.next) := by
      rw [forwarded, if_neg hlags, hget]
      rfl
    have hlt := (List.getElem?_eq_some_iff.mp hget).1
    refine h.of_counts hframe.1 hframe.2 ?_ ?_ ?_
    · intro f' hf'
      rcases hset f' hf' with hold | rfl
      · exact h.next_le f' hold
      · show rx.next ≤ _
        rw [hrx]
        exact hlt
    · intro o ho c n hon
      rcases hmem o ho with hold | rfl
      · exact h.origin_lt o hold c n hon
      · rw [horigin] at hon
        cases hon
        exact hlt
    · intro c n _
      have hsum := hleft c n
      rw [hrx] at hsum
      rw [hqueued, horigin]
      simp only [Option.some.injEq, Prod.mk.injEq]
      by_cases hc : forwarder.channel = c
      · simp only [hc, true_and] at hsum ⊢
        split_ifs at hsum ⊢ <;> omega
      · simp only [hc, false_and, if_false] at hsum ⊢
        omega

/-- Every orderly step keeps the count. -/
theorem Counted.step {op : Op} (h : Counted s) (hok : Orderly s op) (hstep : s.step op = some t) :
    Counted t := by
  have hspec := step_spec hstep
  cases hspec with
  | input i now => exact h.input hok
  | tells out hhub hforwarders hqueue hout hmissed _ =>
    exact h.tells hhub hforwarders hqueue hout hmissed
  | replays htask hrequested hseq _ hentries =>
    exact h.replays hok htask hrequested hseq hentries
  | answers => exact h.tells (l := [_]) rfl rfl rfl (by simp [Outbound.origin]) rfl
  | joins => exact h.joins
  | forwards hfind hrecv => exact h.forwards hfind hrecv

/-! ## Runs -/

/-- In every run whose publications and replays are orderly, every published frame is queued to
the connection at most once, and not at all if its channel was left when it was published. -/
theorem queued_once {hub : Hub} (hrecorded : hub.Recorded) {userId : Option Core.Uuid}
    {ops : List Op} (hok : Along step Orderly (start hub userId) ops)
    (hrun : run step (start hub userId) ops = some s) : QueuedOnce s := by
  have hcounted : Counted s := by
    refine Machine.run_invariant Counted Orderly ?_ (counted_start hrecorded userId) hok hrun
    intro mid op mid' hmid horderly hstep
    exact hmid.step horderly hstep
  exact hcounted.queuedOnce

/-- The client subscribes to the trades of a market. -/
def subscribeTrades : List Op :=
  [.receive (.subscribe (some "ws-1") [.trade "BTCUSDT"] none) 0, .advance 0, .join, .advance 0]

/-- A fill of BTCUSDT with this number. -/
def fillInput (seq : ℕ) : Input :=
  .event ⟨seq, .fill ⟨seq, "BTCUSDT", 1, 2, 100, 1, .buy, "2024-01-01T00:00:00Z"⟩⟩

/-- What the web client does on a gap: it unsubscribes and subscribes again. A fill comes between,
and another one afterwards. -/
def resubscribe : List Op :=
  subscribeTrades ++
    [ .receive (.unsubscribe (some "ws-2") [.trade "BTCUSDT"]) 0, .input (fillInput 1) 1,
      .forward 0, .receive (.subscribe (some "ws-3") [.trade "BTCUSDT"] (some 0)) 1, .advance 1,
      .join, .advance 1, .input (fillInput 2) 2, .forward 0, .forward 1 ]

/-- The first fill is queued although the channel was left, and the second one is queued twice. -/
theorem resubscribed_twice : ∃ s, run step (start Hub.new none) resubscribe = some s ∧
    (.trade "BTCUSDT", 0) ∈ s.missed ∧ s.timesQueued (.trade "BTCUSDT") 0 = 1 ∧
    s.timesQueued (.trade "BTCUSDT") 1 = 2 ∧ ¬QueuedOnce s := by
  refine ⟨_, rfl, by decide +kernel, by decide +kernel, by decide +kernel, ?_⟩
  intro h
  have htwice := h.once (.trade "BTCUSDT") 1
  revert htwice
  decide +kernel

/-- Each fill is forwarded as it comes. -/
def listenToTrades : List Op :=
  subscribeTrades ++ [.input (fillInput 1) 1, .forward 0, .input (fillInput 2) 2, .forward 0]

theorem each_fill_once : ∃ s, run step (start Hub.new none) listenToTrades = some s ∧
    QueuedOnce s ∧ s.timesQueued (.trade "BTCUSDT") 0 = 1 ∧
    s.timesQueued (.trade "BTCUSDT") 1 = 1 := by
  have htested : Machine.checkAlong step (fun s op => decide (Orderly s op))
      (start Hub.new none) listenToTrades = true := by decide +kernel
  have hok : Along step Orderly (start Hub.new none) listenToTrades :=
    Machine.along_of_check (fun _ _ hcheck => of_decide_eq_true hcheck) htested
  exact ⟨_, rfl, queued_once Hub.recorded_new hok rfl, by decide +kernel, by decide +kernel⟩

end CryptoCex.Ws.Feed
