import CryptoCex.Core.Runs

/-!
# The book is never crossed

Every bid level lies strictly below every ask level. Orders only leave the
levels while a taker is matched; the one step that could cross the book is a
taker that rests, and it rests only after the matching loop found no acceptable
opposite price. The early exits of the loop through self-trade prevention do not
rest the taker.

Ids play no role here: orders may share one.
-/

namespace CryptoCex.Core

open Loop OrderBook

/-- Every bid level lies strictly below every ask level. -/
def OrderBook.Uncrossed (b : OrderBook) : Prop :=
  ∀ bid ask, b.queue .buy bid ≠ [] → b.queue .sell ask ≠ [] → bid < ask

theorem uncrossed_new : OrderBook.new.Uncrossed := by
  intro bid ask hbid
  exact absurd rfl hbid

/-- One side is empty, or the best bid is strictly below the best ask. -/
def OrderBook.NotCrossed (b : OrderBook) : Prop :=
  b.bestBid = none ∨ b.bestAsk = none ∨
    ∃ bid ask, b.bestBid = some bid ∧ b.bestAsk = some ask ∧ bid < ask

/-- On an uncrossed book the best bid is below the best ask. -/
theorem OrderBook.Uncrossed.notCrossed {b : OrderBook} (h : b.Uncrossed) (hb : b.NoEmptyLevel) :
    b.NotCrossed := by
  cases hbid : b.bestBid with
  | none => exact Or.inl hbid
  | some bid =>
    cases hask : b.bestAsk with
    | none => exact Or.inr (Or.inl hask)
    | some ask =>
      refine Or.inr (Or.inr ⟨bid, ask, hbid, hask, h bid ask ?_ ?_⟩)
      · have hkey : bid ∈ (b.levels .buy).keys := OrdMap.mem_keys_of_maxKey? hbid
        exact (queue_ne_nil_iff hb).mpr hkey
      · have hkey : ask ∈ (b.levels .sell).keys := OrdMap.mem_keys_of_minKey? hask
        exact (queue_ne_nil_iff hb).mpr hkey

/-! ## Steps that keep the levels -/

/-- A book whose levels are among those of an uncrossed book is uncrossed. -/
theorem OrderBook.Uncrossed.of_levels {b b' : OrderBook} (h : b.Uncrossed)
    (hsub : ∀ side price, b'.queue side price ≠ [] → b.queue side price ≠ []) : b'.Uncrossed :=
  fun bid ask hbid hask => h bid ask (hsub .buy bid hbid) (hsub .sell ask hask)

/-- A price at which orders are left is one at which orders were. -/
theorem OrderBook.Within.level {b b' : OrderBook} (hw : b'.Within b) {side : Side}
    {price : Decimal} (hne : b'.queue side price ≠ []) : b.queue side price ≠ [] := by
  intro hnil
  have hsub := hw.queues side price
  rw [hnil] at hsub
  exact hne (List.sublist_nil.mp hsub)

theorem OrderBook.Uncrossed.within {b b' : OrderBook} (h : b.Uncrossed) (hw : b'.Within b) :
    b'.Uncrossed :=
  h.of_levels fun _ _ => hw.level

/-- Rewriting a level that is there opens no new one. -/
theorem level_of_withQueue {b : OrderBook} {side : Side} {price : Decimal} {m : Order}
    {rest : List Order} (hlevel : (b.levels side).find? price = some (m :: rest)) {q : List Order}
    {side' : Side} {price' : Decimal} (hne : (b.withQueue side price q).queue side' price' ≠ []) :
    b.queue side' price' ≠ [] := by
  rw [queue_withQueue] at hne
  split_ifs at hne with hsame
  · rw [hsame.1, hsame.2, queue_eq_of_find? hlevel]
    exact List.cons_ne_nil m rest
  · exact hne

variable {b : OrderBook} {taker : Order} {s : MatchState}

/-- A turn of the matching loop opens no level. -/
theorem TurnSpec.level {t : Turn MatchState (MatchState × MatchExit)} (h : TurnSpec s t)
    {side : Side} {price : Decimal} (hne : (stateAfter t).book.queue side price ≠ []) :
    s.book.queue side price ≠ [] := by
  cases h with
  | exhausted => exact hne
  | cancelTaker => exact hne
  | cancelMaker hm => exact (within_dropFront hm.level).level hne
  | decrementTaker hm => exact level_of_withQueue hm.level hne
  | decrementMaker hm => exact (within_dropFront hm.level).level hne
  | decrementBoth hm => exact (within_dropFront hm.level).level hne
  | fillPart hm => exact level_of_withQueue hm.level hne
  | fillWhole hm =>
    exact ((within_maybeCancelOco _ _).trans (within_dropFront hm.level)).level hne

theorem TurnSpec.uncrossed {t : Turn MatchState (MatchState × MatchExit)} (h : TurnSpec s t)
    (hs : s.book.Uncrossed) : (stateAfter t).book.Uncrossed :=
  hs.of_levels fun _ _ => h.level

/-! ## The taker that rests -/

/-- The loop was left with nothing left to match. -/
def MatchState.Settled (s : MatchState) : Prop :=
  s.taker.remaining ≤ 0 ∨ ∀ price, s.book.bestOppositePrice s.taker.side = some price →
    takerPriceSatisfied s.taker price = false

/-- A loop that is exhausted leaves the taker settled: nothing acceptable is left for it. -/
theorem TurnSpec.settled {s' : MatchState} (h : TurnSpec s (.done (s', .exhausted))) :
    s'.Settled := by
  cases h with
  | exhausted hex => exact hex

/-- Resting a taker that no opposite level accepts keeps the book uncrossed. -/
theorem OrderBook.Uncrossed.insertMaker (h : s.book.Uncrossed) (hb : s.book.NoEmptyLevel)
    (hsettled : s.Settled) (hpos : 0 < s.taker.remaining) :
    (s.book.insertMaker s.taker).Uncrossed := by
  cases hprice : s.taker.price with
  | none =>
    have hsame : s.book.insertMaker s.taker = s.book := by
      unfold OrderBook.insertMaker
      rw [hprice]
    rw [hsame]
    exact h
  | some limit =>
    -- every opposite level is worse than the limit
    have hworse : ∀ price, s.book.queue s.taker.side.opposite price ≠ [] →
        takerPriceSatisfied s.taker price = false := by
      intro price hne
      rcases hsettled with hle | hbest
      · exact absurd hpos (not_lt.mpr hle)
      · cases hopp : s.book.bestOppositePrice s.taker.side with
        | none => exact absurd (bestOppositePrice_eq_none hb hopp price) hne
        | some best =>
          by_contra hok
          rw [Bool.not_eq_false] at hok
          have hgood := bestOppositePrice_best hb hopp hne
          have hbad := takerPriceSatisfied_of_atLeastAsGood hgood hok
          rw [hbest best hopp] at hbad
          cases hbad
    have hqueue : ∀ side price, (s.book.insertMaker s.taker).queue side price =
        (s.book.withQueue s.taker.side limit
          (s.book.queue s.taker.side limit ++ [s.taker])).queue side price := by
      intro side price
      rw [insertMaker_eq hprice]
      rfl
    intro bid ask hbid hask
    rw [hqueue, queue_withQueue] at hbid hask
    cases hside : s.taker.side with
    | buy =>
      rw [hside] at hbid hask hworse
      have hask' : s.book.queue .sell ask ≠ [] := by simpa using hask
      split_ifs at hbid with heq
      · rw [heq.2]
        have hbad := hworse ask hask'
        simpa [takerPriceSatisfied, hprice, hside] using hbad
      · exact h bid ask hbid hask'
    | sell =>
      rw [hside] at hbid hask hworse
      have hbid' : s.book.queue .buy bid ≠ [] := by simpa using hbid
      split_ifs at hask with heq
      · rw [heq.2]
        have hbad := hworse bid hbid'
        simpa [takerPriceSatisfied, hprice, hside] using hbad
      · exact h bid ask hbid' hask

/-! ## Passes, calls and runs -/

/-- What rests at the end crosses nothing. -/
theorem uncrossed_afterLoop {exit : MatchExit} (hs : Tidy Order.Sized b taker s)
    (h : s.book.Uncrossed) (hexit : exit = .exhausted → s.Settled) :
    (afterLoop s exit).1.Uncrossed := by
  cases exit with
  | takerConsumed => exact h.within (within_drainAfter _ _)
  | exhausted =>
    unfold afterLoop
    have hfinal : (s.book.finalizeTaker s.taker s.hadFills).1.Uncrossed := by
      have hspec := s.book.finalizeTaker_spec s.taker s.hadFills
      generalize s.book.finalizeTaker s.taker s.hadFills = final at hspec ⊢
      cases hspec with
      | filled => exact h
      | cancelled => exact h
      | rested hne =>
        exact h.insertMaker hs.book.noEmpty (hexit rfl)
          (lt_of_le_of_ne hs.nonneg (Ne.symm hne))
    exact (hfinal.within (within_ite_maybeCancelOco _ _ _).1).within (within_drainAfter _ _)

/-- A run keeps the book uncrossed. -/
theorem runMatchingLoop_uncrossed {fuel : ℕ} {r : OrderBook × List EngineEvent × List Order}
    (hb : b.All Order.Sized) (ht : taker.Sized) (h : b.Uncrossed)
    (hrun : b.runMatchingLoop fuel taker = some r) : r.1.Uncrossed := by
  unfold runMatchingLoop at hrun
  cases hloop : loop matchTurn fuel (b.enterLoop taker) with
  | none =>
    rw [hloop] at hrun
    cases hrun
  | some out =>
    rw [hloop] at hrun
    cases hrun
    -- the turns keep the book uncrossed, and where the taker may rest no level meets it
    have hout := loop_invariant
      (fun s => Tidy Order.Sized b taker s ∧ s.book.Uncrossed)
      (fun r => Tidy Order.Sized b taker r.1 ∧ r.1.book.Uncrossed ∧
        (r.2 = .exhausted → r.1.Settled)) ⟨tidy_enterLoop hb ht kept_sized, h⟩ ?_ ?_ hloop
    · exact uncrossed_afterLoop hout.1 hout.2.1 hout.2.2
    · rintro s s' ⟨hs, hu⟩ hnext
      rcases matchTurn_tidy kept_sized hs hnext with ⟨hs', hspec⟩
      exact ⟨hs', hspec.uncrossed hu⟩
    · rintro s ⟨s', exit⟩ ⟨hs, hu⟩ hdone
      rcases matchTurn_tidy kept_sized hs hdone with ⟨hs', hspec⟩
      refine ⟨hs', hspec.uncrossed hu, ?_⟩
      rintro rfl
      exact hspec.settled

/-- So does a pass of the cascade. -/
theorem CascadeStep.uncrossed {fuel R N : ℕ} {c c' : CascadeState} (h : CascadeStep fuel c c')
    (hc : CascadeTidy Order.Sized R N c) (hu : c.book.Uncrossed) : c'.book.Uncrossed := by
  cases h with
  | push hqueue hrun =>
    exact runMatchingLoop_uncrossed hc.book (hc.queue _ (mem_workQueue_head hqueue)) hu hrun
  | cut hqueue hrun =>
    exact runMatchingLoop_uncrossed hc.book (hc.queue _ (mem_workQueue_head hqueue)) hu hrun

/-- So does a call. -/
theorem matchOrder_uncrossed {fuel : ℕ} {r : OrderBook × List EngineEvent}
    (hb : b.All Order.Sized) (ht : taker.Sized) (h : b.Uncrossed)
    (hcall : b.matchOrder fuel taker = some r) : r.1.Uncrossed := by
  cases matchOrder_cases hcall with
  | rejected => exact h
  -- the levels stay as they are
  | stop =>
    unfold registerStopOrder
    cases b.stops.insert taker with
    | error e => exact h
    | ok stops =>
      refine h.of_levels ?_
      intro side price hne
      simpa [queue] using hne
  -- one pass after the other
  | matched _ _ hloop =>
    rcases exists_cascadeTidy hb ht with ⟨R, N, hc⟩
    refine loop_invariant (fun c => CascadeTidy Order.Sized R N c ∧ c.book.Uncrossed)
      (fun r => r.1.Uncrossed) ⟨hc, h⟩ ?_ ?_ hloop
    · rintro c c' ⟨hc, hu⟩ hnext
      have hstep := cascadeTurn_next hnext
      exact ⟨(hstep.tidy kept_sized hc).1, hstep.uncrossed hc hu⟩
    · rintro c r ⟨_, hu⟩ hdone
      rw [(cascadeTurn_done hdone).2]
      exact hu

/-- So does every command. -/
theorem exec_uncrossed {fuel : ℕ} {cmd : BookCommand} {r : OrderBook × List EngineEvent}
    (hb : b.All Order.Sized) (hcmd : ∀ order, cmd = .matchOrder order → order.Sized)
    (h : b.Uncrossed) (hexec : b.exec fuel cmd = some r) : r.1.Uncrossed := by
  cases cmd with
  | registerOco legA legB =>
    cases hexec
    exact h
  | matchOrder order => exact matchOrder_uncrossed hb (hcmd order rfl) h hexec
  | cancelOrder id =>
    cases hexec
    exact h.within (within_cancelOrder b id)

/-- After every run of calls on an empty book, with orders that have something
to trade and to show, the book is not crossed. -/
theorem notCrossed_of_runCommands (cmds : List BookCommand)
    (hpos : ∀ o ∈ submitted cmds, 0 < o.remaining)
    (hdisplay : ∀ o ∈ submitted cmds, ∀ d, o.displayQty = some d → 0 < d) :
    ∃ n b, (∀ fuel ≥ n, OrderBook.new.runCommands fuel cmds = some b) ∧ b.NotCrossed := by
  -- every call returns for some fuel and leaves the book uncrossed
  have hexec : ∀ (_ : List BookCommand) (b : OrderBook) (cmd : BookCommand),
      (b.All Order.Sized ∧ b.Uncrossed) →
      (∀ order, cmd = .matchOrder order → order.Sized) →
      ∃ fuel r, b.exec fuel cmd = some r ∧ r.1.All Order.Sized ∧ r.1.Uncrossed := by
    rintro past b cmd ⟨hall, hu⟩ hcmd
    rcases exec_terminates kept_sized hall hcmd with ⟨⟨fuel, r, hr⟩, hkeep⟩
    exact ⟨fuel, r, hr, hkeep fuel r hr, exec_uncrossed hall hcmd hu hr⟩
  have hok : ∀ l cmd l', cmds = l ++ cmd :: l' →
      ∀ order, cmd = .matchOrder order → order.Sized := by
    rintro l cmd l' hsplit order rfl
    have hmem : order ∈ submitted cmds := by
      rw [hsplit, submitted_append]
      exact List.mem_append_right _ List.mem_cons_self
    exact ⟨hpos order hmem, hdisplay order hmem⟩
  rcases runCommands_terminates (fun _ b => b.All Order.Sized ∧ b.Uncrossed)
    (fun _ cmd => ∀ order, cmd = .matchOrder order → order.Sized) hexec
    [] ⟨all_new _, uncrossed_new⟩ hok with ⟨n, b, hrun, hall, hu⟩
  exact ⟨n, b, hrun, hu.notCrossed hall.noEmpty⟩

/-- An uncrossed book after a taker that takes one level and rests at the next. -/
theorem notCrossed_after_rest :
    ∃ n b, (∀ fuel ≥ n, OrderBook.new.runCommands fuel
      [.matchOrder (limitOrder 1 10 .sell 100 5), .matchOrder (limitOrder 2 10 .sell 102 5),
        .matchOrder (limitOrder 3 11 .buy 101 8)] = some b) ∧ b.NotCrossed :=
  notCrossed_of_runCommands _ (by decide) (by simp [submitted, limitOrder])

end CryptoCex.Core
