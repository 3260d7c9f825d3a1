import CryptoCex.Ws.Hub
import Mathlib.Data.List.Induction
import Mathlib.Data.List.Sort

/-!
# Replay of diffs

A client that comes back names the number of the last diff it has seen. `replay_diffs` should
return the diffs of the symbol with greater numbers, or nothing if one of them has left the
buffer. It compares the number with the count of the buffered diffs instead, and returns all of
them: `replaysExactly_iff` says when that comes to the same.
-/

namespace CryptoCex.Ws

open Proto (EngineEvent SequencedEngineEvent)

/-! ## Histories -/

/-- The number of an engine event. -/
def Input.eventSeq : Input → Option ℕ
  | .event e => some e.seq
  | _ => none

/-- The number of a diff of the symbol. -/
def Input.diffSeq (symbol : String) : Input → Option ℕ
  | .event ⟨seq, .bookDelta symbol' _ _⟩ => if symbol' = symbol then some seq else none
  | _ => none

/-- The number of a frame; frames of diffs have one. -/
def WsFrame.number (frame : WsFrame) : ℕ := frame.seq.getD 0

namespace Hub

/-- The hub after these inputs, each at its time. -/
def after (history : List (ℕ × Input)) : Hub :=
  history.foldl (fun hub i => hub.take i.1 i.2) new

/-- The events of the history are numbered upwards. -/
def Numbered (history : List (ℕ × Input)) : Prop :=
  (history.filterMap fun i => i.2.eventSeq).Pairwise (· < ·)

instance (history : List (ℕ × Input)) : Decidable (Numbered history) :=
  inferInstanceAs (Decidable (List.Pairwise _ _))

/-- The diffs of the symbol that the buffer holds now. -/
def recent (hub : Hub) (now : ℕ) (symbol : String) : List WsFrame :=
  ((hub.replay (.bookDiff symbol)).filter fun e => now - e.capturedAt < replayWindow).map (·.frame)

/-- The published diffs of the symbol with numbers above `afterSeq`. -/
def missed (hub : Hub) (symbol : String) (afterSeq : ℕ) : List WsFrame :=
  (hub.sent (.bookDiff symbol)).filter fun frame => afterSeq < frame.number

/-- What is replayed is what the client has missed, and nothing is replayed only if some of that
is no longer in the buffer. -/
def ReplaysExactly (hub : Hub) (now : ℕ) (symbol : String) (afterSeq : ℕ) : Prop :=
  match hub.replayDiffs now symbol afterSeq with
  | some entries => entries.map (·.frame) = hub.missed symbol afterSeq
  | none => ∃ frame ∈ hub.missed symbol afterSeq, frame ∉ hub.recent now symbol

variable {hub : Hub} {now : ℕ} {symbol : String} {history : List (ℕ × Input)}

theorem after_append (history : List (ℕ × Input)) (i : ℕ × Input) :
    after (history ++ [i]) = (after history).take i.1 i.2 := by
  unfold after
  rw [List.foldl_append]
  rfl

/-- Every replay buffer holds frames of its channel, in the order in which they were sent. -/
theorem recorded_after (history : List (ℕ × Input)) : Recorded (after history) := by
  induction history using List.reverseRecOn with
  | nil => exact recorded_new
  | append_singleton history i ih =>
    rw [after_append]
    exact ih.take i.1 i.2

/-- The numbers of the frames of diffs. -/
theorem numbers_framesOn (i : Input) (symbol : String) :
    (i.framesOn (.bookDiff symbol)).map WsFrame.number = (i.diffSeq symbol).toList := by
  cases i with
  | event e =>
    rcases e with ⟨seq, event⟩
    cases event with
    | bookDelta symbol' bids asks =>
      by_cases h : symbol' = symbol <;>
        simp [Input.framesOn, Input.frames, eventFrames, Input.diffSeq, WsFrame.number, h]
    | _ => rfl
  | balanceUpdate => rfl
  -- tickers go to other channels
  | tickers items =>
    have hnone : Input.framesOn (.tickers items) (.bookDiff symbol) = [] := by
      unfold Input.framesOn Input.frames
      rw [List.filter_eq_nil_iff]
      intro frame hframe
      rcases List.mem_append.mp hframe with hitem | hall
      · rcases List.mem_map.mp hitem with ⟨item, _, rfl⟩
        simp
      · split_ifs at hall
        · cases hall
        · rw [List.mem_singleton.mp hall]
          simp
    rw [hnone]
    rfl

/-- The numbers sent on a channel are those of the deltas of its symbol. -/
theorem numbers_sent (history : List (ℕ × Input)) (symbol : String) :
    ((after history).sent (.bookDiff symbol)).map WsFrame.number =
      history.filterMap fun i => i.2.diffSeq symbol := by
  induction history using List.reverseRecOn with
  | nil => rfl
  | append_singleton history i ih =>
    rw [after_append, sent_take, List.map_append, ih, numbers_framesOn, List.filterMap_append]
    cases hseq : i.2.diffSeq symbol <;> simp [hseq]

/-- The diffs of a symbol are numbered upwards. -/
theorem Numbered.sent (h : Numbered history) (symbol : String) :
    ((after history).sent (.bookDiff symbol)).Pairwise fun f g => f.number < g.number := by
  -- the diffs of a symbol are some of the events, so their numbers rise with the others
  have hsub : ∀ history : List (ℕ × Input), (history.filterMap fun i => i.2.diffSeq symbol).Sublist
      (history.filterMap fun i => i.2.eventSeq) := by
    intro history
    induction history with
    | nil => exact .slnil
    | cons i history ih =>
      have hseq : i.2.diffSeq symbol = none ∨ i.2.diffSeq symbol = i.2.eventSeq := by
        rcases i with ⟨_, input⟩
        cases input with
        | event e =>
          rcases e with ⟨seq, event⟩
          cases event with
          | bookDelta symbol' bids asks =>
            by_cases h : symbol' = symbol <;> simp [Input.diffSeq, Input.eventSeq, h]
          | _ => exact .inl rfl
        | _ => exact .inl rfl
      rw [List.filterMap_cons, List.filterMap_cons]
      rcases hseq with hnone | hsame
      · rw [hnone]
        cases i.2.eventSeq with
        | none => exact ih
        | some n => exact ih.cons n
      · rw [hsame]
        cases i.2.eventSeq with
        | none => exact ih
        | some n => exact ih.cons_cons n
  have hnumbers := h.sublist (hsub history)
  rw [← numbers_sent, List.pairwise_map] at hnumbers
  exact hnumbers

/-! ## The buffer -/

/-- Only diffs change the buffer of a symbol, and each stays there until the next. -/
theorem replay_take_eq_nil (hub : Hub) (now : ℕ) (i : Input) (symbol : String) :
    (hub.take now i).replay (.bookDiff symbol) = [] ↔
      hub.replay (.bookDiff symbol) = [] ∧ i.diffSeq symbol = none := by
  cases i with
  | event e =>
    rcases e with ⟨seq, event⟩
    cases event with
    -- a delta is put into the buffer of its own symbol
    | bookDelta symbol' bids asks =>
      simp only [Hub.take, dispatch, onBookDelta, publishWithReplay, Input.diffSeq,
        Function.update_apply, Channel.bookDiff.injEq]
      by_cases h : symbol = symbol'
      · simp [h]
      · simp [h, Ne.symm h]
    | _ => exact (and_iff_left rfl).symm
  | balanceUpdate => exact (and_iff_left rfl).symm
  -- tickers are published without a replay
  | tickers items =>
    have hitems : ∀ (items : List TickerItem) (hub : Hub), (items.foldl (fun hub item =>
        hub.publish (.ticker item.symbol) ⟨.ticker item.symbol, none, .ticker [item]⟩) hub).replay =
          hub.replay := by
      intro items
      induction items with
      | nil => exact fun _ => rfl
      | cons item items ih => exact fun hub => ih _
    have hsame : (hub.take now (.tickers items)).replay = hub.replay := by
      simp only [Hub.take, publishTicker]
      split_ifs
      · exact hitems items hub
      · exact hitems items hub
    rw [hsame]
    exact (and_iff_left rfl).symm

theorem replay_eq_nil (history : List (ℕ × Input)) (symbol : String) :
    (after history).replay (.bookDiff symbol) = [] ↔
      (after history).sent (.bookDiff symbol) = [] := by
  rw [← List.map_eq_nil_iff (f := WsFrame.number), numbers_sent]
  induction history using List.reverseRecOn with
  | nil => exact iff_of_true rfl rfl
  | append_singleton history i ih =>
    rw [after_append, replay_take_eq_nil, ih, List.filterMap_append, List.append_eq_nil_iff]
    cases hseq : i.2.diffSeq symbol <;> simp [hseq]

/-- What is replayed is all that is recent, or nothing. -/
theorem replayDiffs_frames (hub : Hub) (now : ℕ) (symbol : String) (afterSeq : ℕ) :
    (hub.replayDiffs now symbol afterSeq).map (·.map (·.frame)) =
      if hub.replay (.bookDiff symbol) ≠ [] ∧ afterSeq ≤ (hub.recent now symbol).length then
        some (hub.recent now symbol)
      else none := by
  unfold replayDiffs recent
  cases hub.replay (.bookDiff symbol) with
  | nil => simp
  | cons e entries =>
    dsimp only
    rw [List.length_map]
    by_cases h : afterSeq > ((e :: entries).filter fun e => now - e.capturedAt < replayWindow).length
    · rw [if_pos h, if_neg (fun hle => absurd hle.2 (not_le.mpr h))]
      rfl
    · rw [if_neg h, if_pos ⟨by simp, not_lt.mp h⟩]
      rfl

/-- The buffered diffs are numbered upwards, and all of them were published. -/
theorem Numbered.recent (h : Numbered history) (now : ℕ) (symbol : String) :
    ((after history).recent now symbol).Pairwise (fun f g => f.number < g.number) ∧
      ∀ frame ∈ (after history).recent now symbol,
        frame ∈ (after history).sent (.bookDiff symbol) := by
  have hrecorded := recorded_after history
  constructor
  · unfold Hub.recent
    rw [List.pairwise_map]
    have hordered := List.pairwise_map.mp (hrecorded.ordered (.bookDiff symbol))
    refine (hordered.filter _).imp_of_mem ?_
    intro e e' he he' hlt
    have hfound := hrecorded.sent _ e (List.mem_filter.mp he).1
    have hfound' := hrecorded.sent _ e' (List.mem_filter.mp he').1
    rcases List.getElem?_eq_some_iff.mp hfound with ⟨hpos, hframe⟩
    rcases List.getElem?_eq_some_iff.mp hfound' with ⟨hpos', hframe'⟩
    rw [← hframe, ← hframe']
    exact List.pairwise_iff_getElem.mp (h.sent symbol) _ _ hpos hpos' hlt
  · intro frame hframe
    rcases List.mem_map.mp hframe with ⟨e, he, rfl⟩
    exact List.mem_of_getElem? (hrecorded.sent _ e (List.mem_filter.mp he).1)

/-- The buffered diffs are those that the client has missed if and only if the buffer holds a
diff just when its number is greater. -/
theorem Numbered.recent_eq_missed (h : Numbered history) (now : ℕ) (symbol : String)
    (afterSeq : ℕ) :
    (after history).recent now symbol = (after history).missed symbol afterSeq ↔
      ∀ frame ∈ (after history).sent (.bookDiff symbol),
        frame ∈ (after history).recent now symbol ↔ afterSeq < frame.number := by
  rcases h.recent now symbol with ⟨hsorted, hsent⟩
  constructor
  · intro heq frame hframe
    rw [heq, missed, List.mem_filter, decide_eq_true_eq]
    exact and_iff_right hframe
  · intro hiff
    have : Std.Irrefl fun f g : WsFrame => f.number < g.number := ⟨fun f => lt_irrefl f.number⟩
    have : Std.Antisymm fun f g : WsFrame => f.number < g.number :=
      ⟨fun f g hlt hgt => absurd hlt (lt_asymm hgt)⟩
    -- two lists that rise are equal if they have the same elements
    refine List.Pairwise.eq_of_mem_iff hsorted ((h.sent symbol).filter _) ?_
    intro frame
    rw [missed, List.mem_filter, decide_eq_true_eq]
    constructor
    · intro hrecent
      exact ⟨hsent frame hrecent, (hiff frame (hsent frame hrecent)).mp hrecent⟩
    · intro hmissed
      exact (hiff frame hmissed.1).mpr hmissed.2

/-- What a client gets replayed is exact if and only if: the number it names is at most the count
of the buffered diffs, and these are the ones with greater numbers; or its number is greater than
that count, and some diff with a greater number is no longer in the buffer. -/
theorem replaysExactly_iff (h : Numbered history) (now : ℕ) (symbol : String) (afterSeq : ℕ) :
    (after history).ReplaysExactly now symbol afterSeq ↔
      ((after history).sent (.bookDiff symbol) ≠ [] ∧
        afterSeq ≤ ((after history).recent now symbol).length ∧
        ∀ frame ∈ (after history).sent (.bookDiff symbol),
          frame ∈ (after history).recent now symbol ↔ afterSeq < frame.number) ∨
      ((after history).recent now symbol).length < afterSeq ∧
        ∃ frame ∈ (after history).sent (.bookDiff symbol),
          frame ∉ (after history).recent now symbol ∧ afterSeq < frame.number := by
  have hframes := replayDiffs_frames (after history) now symbol afterSeq
  unfold ReplaysExactly
  by_cases hreplayed : (after history).replay (.bookDiff symbol) ≠ [] ∧
      afterSeq ≤ ((after history).recent now symbol).length
  · rw [if_pos hreplayed] at hframes
    rcases Option.map_eq_some_iff.mp hframes with ⟨entries, hentries, hmap⟩
    rw [hentries]
    dsimp only
    rw [hmap, h.recent_eq_missed]
    have hsent := mt (replay_eq_nil history symbol).mpr hreplayed.1
    constructor
    · intro hiff
      exact .inl ⟨hsent, hreplayed.2, hiff⟩
    · rintro (⟨_, _, hiff⟩ | ⟨hlt, _⟩)
      · exact hiff
      · exact absurd hreplayed.2 (not_le.mpr hlt)
  · rw [if_neg hreplayed, Option.map_eq_none_iff] at hframes
    rw [hframes]
    dsimp only
    constructor
    · rintro ⟨frame, hmissed, hgone⟩
      rw [missed, List.mem_filter, decide_eq_true_eq] at hmissed
      -- a diff was published, so the count is what kept the buffer back
      have hsent : (after history).replay (.bookDiff symbol) ≠ [] := by
        rw [Ne, replay_eq_nil]
        exact List.ne_nil_of_mem hmissed.1
      refine .inr ⟨?_, frame, hmissed.1, hgone, hmissed.2⟩
      exact not_le.mp fun hle => hreplayed ⟨hsent, hle⟩
    · rintro (⟨hsent, hle, _⟩ | ⟨_, frame, hframe, hgone, hlt⟩)
      · exact absurd ⟨mt (replay_eq_nil history symbol).mp hsent, hle⟩ hreplayed
      · refine ⟨frame, ?_, hgone⟩
        rw [missed, List.mem_filter, decide_eq_true_eq]
        exact ⟨hframe, hlt⟩

/-- A diff of a book. -/
def bookDelta (now seq : ℕ) : ℕ × Input := (now, .event ⟨seq, .bookDelta "BTCUSDT" [] []⟩)

/-- Three diffs within a second; the client has seen the second of them. -/
def threeDiffs : List (ℕ × Input) := [bookDelta 0 1, bookDelta 10 2, bookDelta 20 3]

/-- All three are replayed, two of which the client has seen. -/
theorem seen_diffs_replayed : ¬ (after threeDiffs).ReplaysExactly 30 "BTCUSDT" 2 := by
  have hframes : (((after threeDiffs).replayDiffs 30 "BTCUSDT" 2).map
      fun entries => entries.map (·.frame.number)) = some [1, 2, 3] := by decide
  rcases Option.map_eq_some_iff.mp hframes with ⟨entries, hentries, hnumbers⟩
  intro h
  unfold ReplaysExactly at h
  rw [hentries] at h
  have hmap := congrArg (List.map WsFrame.number) h
  rw [List.map_map] at hmap
  have hmissed : ((after threeDiffs).missed "BTCUSDT" 2).map WsFrame.number = [3] := by decide
  rw [hmissed] at hmap
  have hlength := congrArg List.length (hnumbers.symm.trans hmap)
  cases hlength

/-- The theorem on a client that has seen no diff of the symbol. -/
theorem all_diffs_replayed : (after threeDiffs).ReplaysExactly 30 "BTCUSDT" 0 :=
  (replaysExactly_iff (by decide) 30 "BTCUSDT" 0).mpr (.inl (by decide))

end Hub

end CryptoCex.Ws
