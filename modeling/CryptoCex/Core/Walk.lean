import CryptoCex.Core.Conservation

/-!
# How far a taker gets

The pre-check of a fill-or-kill order adds up what rests at acceptable prices.
What the order really gets is decided by the walk it takes through the book, one
resting order at a time in price-time priority: another user's order trades a
slice, and takes its OCO sibling off the book once it is used up; an order of the
taker's own is skipped under cancel-maker prevention, wears the taker down under
decrement prevention and ends the walk under cancel-taker prevention.

`Fillable` says that the walk fills the taker, `FallsShort` that the book runs
out of acceptable orders before the taker is done. Both are about a book and a
taker only; `Fillable.loop`, `fillable_of_loop`, `FallsShort.loop` and
`fallsShort_of_loop` connect them to the matching loop.
-/

namespace CryptoCex.Core

open Loop OrderBook

/-- The book after a trade of the taker with the first order of a level. -/
def OrderBook.afterTrade (b : OrderBook) (taker m : Order) (price : Decimal)
    (rest : List Order) : OrderBook :=
  if m.remaining = (fillOf taker m price).quantity then
    ((b.dropFront taker.side.opposite price m rest).maybeCancelOco m.id).1
  else
    b.withQueue taker.side.opposite price
      (levelAfterFill m rest (fillOf taker m price).quantity)

/-- The order the taker meets gives way to it: it trades, or it is the taker's
own and cancelled in its favour. -/
inductive Gives (b : OrderBook) (taker : Order) : OrderBook → Order → Prop where
  | trade {price : Decimal} {m : Order} {rest : List Order}
      (hm : Meets (b.enterLoop taker) price m rest) (hother : taker.userId ≠ m.userId) :
      Gives b taker (b.afterTrade taker m price rest)
        (taker.withRemaining (taker.remaining - (fillOf taker m price).quantity))
  | skip {price : Decimal} {m : Order} {rest : List Order}
      (hm : Meets (b.enterLoop taker) price m rest) (hown : taker.userId = m.userId)
      (hmode : taker.stpMode = .cancelMaker) :
      Gives b taker (b.dropFront taker.side.opposite price m rest) taker

/-- The order the taker meets is its own, and smaller, and takes its quantity off
the taker. -/
inductive Wears (b : OrderBook) (taker : Order) : OrderBook → Order → Prop where
  | decrement {price : Decimal} {m : Order} {rest : List Order}
      (hm : Meets (b.enterLoop taker) price m rest) (hown : taker.userId = m.userId)
      (hmode : taker.stpMode = .decrement) (hgt : m.remaining < taker.remaining) :
      Wears b taker (b.dropFront taker.side.opposite price m rest)
        (taker.withRemaining (taker.remaining - m.remaining))

/-- The resting orders, as they give way one after another, fill the taker. -/
inductive Fillable : OrderBook → Order → Prop where
  | filled {b : OrderBook} {taker : Order} (h : taker.remaining = 0) : Fillable b taker
  | gives {b b' : OrderBook} {taker taker' : Order} (h : Gives b taker b' taker')
      (hrest : Fillable b' taker') : Fillable b taker

/-- The book has no acceptable order left before the taker is filled. -/
inductive FallsShort : OrderBook → Order → Prop where
  | dry {b : OrderBook} {taker : Order} (hpos : 0 < taker.remaining)
      (hno : ∀ price, b.bestOppositePrice taker.side = some price →
        takerPriceSatisfied taker price = false) : FallsShort b taker
  | gives {b b' : OrderBook} {taker taker' : Order} (h : Gives b taker b' taker')
      (hrest : FallsShort b' taker') : FallsShort b taker
  | wears {b b' : OrderBook} {taker taker' : Order} (h : Wears b taker b' taker')
      (hrest : FallsShort b' taker') : FallsShort b taker

variable {b b' : OrderBook} {taker taker' m : Order} {fuel : ℕ} {s s' : MatchState}
  {price : Decimal} {rest : List Order} {exit : MatchExit}

/-! ## A turn of the loop is a step of the walk -/

/-- What a taker meets depends on the book and the taker only. -/
theorem meets_enterLoop :
    Meets (s.book.enterLoop s.taker) price m rest ↔ Meets s price m rest :=
  ⟨fun h => ⟨h.pos, h.best, h.acceptable, h.level⟩,
    fun h => ⟨h.pos, h.best, h.acceptable, h.level⟩⟩

/-- A state meets one maker. -/
theorem Meets.unique {price' : Decimal} {m' : Order} {rest' : List Order}
    (h : Meets s price m rest) (h' : Meets s price' m' rest') :
    price' = price ∧ m' = m ∧ rest' = rest := by
  have hprice : price' = price := Option.some.inj (h'.best.symm.trans h.best)
  subst hprice
  have hlevel := Option.some.inj (h'.level.symm.trans h.level)
  rw [List.cons.injEq] at hlevel
  exact ⟨rfl, hlevel⟩

/-- A state that meets a maker goes on. -/
theorem Meets.not_exhausted (h : Meets s price m rest) :
    ¬ (s.taker.remaining ≤ 0 ∨ ∀ price, s.book.bestOppositePrice s.taker.side = some price →
      takerPriceSatisfied s.taker price = false) := by
  rintro (hpos | hno)
  · exact absurd h.pos (not_lt.mpr hpos)
  · have hbad := hno price h.best
    rw [h.acceptable] at hbad
    cases hbad

/-- A turn that meets another user's order is the trade with it. -/
theorem TurnSpec.of_trade {t : Turn MatchState (MatchState × MatchExit)} (h : TurnSpec s t)
    (hm : Meets s price m rest) (hother : s.taker.userId ≠ m.userId) :
    ∃ s', t = .next s' ∧ s'.book = s.book.afterTrade s.taker m price rest ∧
      s'.taker = s.taker.withRemaining (s.taker.remaining - (fillOf s.taker m price).quantity) := by
  unfold afterTrade
  cases h with
  | exhausted hex => exact absurd hex hm.not_exhausted
  | fillPart hm' _ hpart =>
    rcases hm.unique hm' with ⟨rfl, rfl, rfl⟩
    rw [if_neg hpart]
    exact ⟨_, rfl, rfl, rfl⟩
  | fillWhole hm' _ hwhole =>
    rcases hm.unique hm' with ⟨rfl, rfl, rfl⟩
    rw [if_pos hwhole]
    exact ⟨_, rfl, rfl, rfl⟩
  | cancelTaker hm' hown | cancelMaker hm' hown | decrementTaker hm' hown
  | decrementMaker hm' hown | decrementBoth hm' hown =>
    rcases hm.unique hm' with ⟨rfl, rfl, rfl⟩
    exact absurd hown hother

/-- A turn that meets an order of the taker's own follows the taker's mode. -/
theorem TurnSpec.of_own {t : Turn MatchState (MatchState × MatchExit)} (h : TurnSpec s t)
    (hm : Meets s price m rest) (hown : s.taker.userId = m.userId) :
    (s.taker.stpMode = .cancelMaker → ∃ s', t = .next s' ∧
      s'.book = s.book.dropFront s.taker.side.opposite price m rest ∧ s'.taker = s.taker) ∧
    (s.taker.stpMode = .decrement → m.remaining < s.taker.remaining → ∃ s', t = .next s' ∧
      s'.book = s.book.dropFront s.taker.side.opposite price m rest ∧
      s'.taker = s.taker.withRemaining (s.taker.remaining - m.remaining)) := by
  cases h with
  -- the meeting is unique, so of the eight turns only that of the mode is left
  | exhausted hex => exact absurd hex hm.not_exhausted
  | fillPart hm' hother | fillWhole hm' hother =>
    rcases hm.unique hm' with ⟨rfl, rfl, rfl⟩
    exact absurd hown hother
  | cancelTaker _ _ hmode =>
    rw [hmode]
    exact ⟨by simp, by simp⟩
  | cancelMaker hm' _ hmode =>
    rcases hm.unique hm' with ⟨rfl, rfl, rfl⟩
    rw [hmode]
    exact ⟨fun _ => ⟨_, rfl, rfl, rfl⟩, by simp⟩
  | decrementMaker hm' _ hmode =>
    rcases hm.unique hm' with ⟨rfl, rfl, rfl⟩
    rw [hmode]
    exact ⟨by simp, fun _ _ => ⟨_, rfl, rfl, rfl⟩⟩
  | decrementTaker hm' _ hmode hlt =>
    rcases hm.unique hm' with ⟨rfl, rfl, rfl⟩
    rw [hmode]
    exact ⟨by simp, fun _ hgt => absurd hgt (not_lt.mpr hlt.le)⟩
  | decrementBoth hm' _ hmode heq =>
    rcases hm.unique hm' with ⟨rfl, rfl, rfl⟩
    rw [hmode]
    exact ⟨by simp, fun _ hgt => absurd hgt (not_lt.mpr heq.le)⟩

/-- A turn that meets nothing ends the loop. -/
theorem TurnSpec.of_unmet {t : Turn MatchState (MatchState × MatchExit)} (h : TurnSpec s t)
    (hno : ∀ price m rest, ¬ Meets s price m rest) : t = .done (s, .exhausted) := by
  cases h with
  | exhausted => rfl
  | cancelTaker hm | cancelMaker hm | decrementTaker hm | decrementMaker hm | decrementBoth hm
  | fillPart hm | fillWhole hm => exact absurd hm (hno _ _ _)

theorem Gives.not_wears (h : Gives b taker b' taker') {b'' : OrderBook} {taker'' : Order} :
    ¬ Wears b taker b'' taker'' := by
  rintro ⟨hm', hown', hmode', _⟩
  cases h with
  | trade hm hother =>
    rcases hm.unique hm' with ⟨rfl, rfl, rfl⟩
    exact hother hown'
  | skip _ _ hmode =>
    rw [hmode] at hmode'
    cases hmode'

/-- A step of the walk that trades or skips is a turn of the loop. -/
theorem Gives.turn {t : Turn MatchState (MatchState × MatchExit)}
    (hgives : Gives s.book s.taker b' taker') (h : TurnSpec s t) :
    ∃ s', t = .next s' ∧ s'.book = b' ∧ s'.taker = taker' := by
  cases hgives with
  | trade hm hother => exact h.of_trade (meets_enterLoop.mp hm) hother
  | skip hm hown hmode => exact (h.of_own (meets_enterLoop.mp hm) hown).1 hmode

/-- So is one that wears the walker down. -/
theorem Wears.turn {t : Turn MatchState (MatchState × MatchExit)}
    (hwears : Wears s.book s.taker b' taker') (h : TurnSpec s t) :
    ∃ s', t = .next s' ∧ s'.book = b' ∧ s'.taker = taker' := by
  cases hwears with
  | decrement hm hown hmode hgt => exact (h.of_own (meets_enterLoop.mp hm) hown).2 hmode hgt

/-- What the taker with the given id has traded and has left. -/
def MatchState.due (s : MatchState) (id : Uuid) : Decimal :=
  fillSum (·.takerOrderId = id) s.events + s.taker.remaining

/-- A turn after which the loop goes on is a step of the walk. Only a trade is
paid out to the taker. -/
theorem TurnSpec.walks (h : TurnSpec s (.next s')) (hs : LoopSound taker s) :
    (Gives s.book s.taker s'.book s'.taker ∧ s'.due taker.id = s.due taker.id) ∨
      (Wears s.book s.taker s'.book s'.taker ∧ s'.due taker.id < s.due taker.id) := by
  have hid : ∀ m price, (fillOf s.taker m price).takerOrderId = taker.id := fun _ _ => hs.pass.id_eq
  cases h with
  -- an own maker is skipped
  | cancelMaker hm hown hmode =>
    refine Or.inl ⟨.skip (meets_enterLoop.mpr hm) hown hmode, ?_⟩
    simp [MatchState.due]
  -- the taker shrinks without a trade, so more than it is paid is gone
  | decrementMaker hm hown hmode hgt =>
    refine Or.inr ⟨.decrement (meets_enterLoop.mpr hm) hown hmode hgt, ?_⟩
    have hpos := (hs.book.front hm.level).2.2.2
    simp only [MatchState.due, fillSum_append, fillSum_cancelled, fillSum_nil,
      Order.remaining_withRemaining]
    lia
  -- the trade pays the taker what it takes off
  | @fillPart price m rest hm hother hpart =>
    have htrade := Gives.trade (meets_enterLoop.mpr hm) hother
    rw [afterTrade, if_neg hpart] at htrade
    refine Or.inl ⟨htrade, ?_⟩
    simp only [MatchState.due, fillSum_append, fillSum_fill, hid, Order.remaining_withRemaining,
      decide_true, if_true]
    lia
  | @fillWhole price m rest hm hother hwhole =>
    have htrade := Gives.trade (meets_enterLoop.mpr hm) hother
    rw [afterTrade, if_pos hwhole] at htrade
    refine Or.inl ⟨htrade, ?_⟩
    simp only [MatchState.due, fillSum_append, fillSum_fill, hid, Order.remaining_withRemaining,
      decide_true, if_true, fillSum_eq_zero (fill_notMem_oco _ _)]
    lia

/-- A turn that goes on does not name the taker as cancelled. -/
theorem Pass.Turn.spares_taker {a a' : Pass} (ht : a.Turn (.next a')) (hs : a.Sound taker)
    {reason : CancelReason} (h : EngineEvent.cancelled taker.id reason ∈ a'.events) :
    EngineEvent.cancelled taker.id reason ∈ a.events := by
  have hne : ∀ {price m others}, a.Faces price m others → taker.id ≠ m.id := by
    intro price m others hm heq
    exact hs.taker_notMem (heq ▸ hm.mem_ids)
  cases ht with
  | cancelMaker hm | decrementMaker hm =>
    rcases List.mem_append.mp h with h | h
    · exact h
    · have heq := List.mem_singleton.mp h
      rw [EngineEvent.cancelled.injEq] at heq
      exact absurd heq.1 (hne hm)
  | fillPart hm =>
    rcases List.mem_append.mp h with h | h
    · exact h
    · cases List.mem_singleton.mp h
  | @fillWhole price m others hm _ _ r hoco =>
    rcases List.mem_append.mp h with h | h
    · rcases List.mem_append.mp h with h | h
      · exact h
      · cases List.mem_singleton.mp h
    · -- a sibling that is named was on the book, where the taker is not
      have hnamed : taker.id ∈ named r.2 :=
        List.mem_flatMap.mpr ⟨_, h, List.mem_singleton.mpr rfl⟩
      have hids := hm.ids_eq
      have hunique : (Pool.ids { a.pool with resting := others }).Nodup := by
        have hall := (Multiset.nodup_cons.mp hs.unique).2
        rw [hids] at hall
        exact (Multiset.nodup_cons.mp hall).2
      have hmem := (hoco.named_gone hunique hnamed).1
      refine absurd ?_ hs.taker_notMem
      rw [hids]
      exact Multiset.mem_cons_of_mem hmem

/-! ## The loop is the walk -/

/-- A loop whose first turn can only leave has left with its result. -/
theorem loop_leaves {r : MatchState × MatchExit} (hs : LoopSound taker s)
    (hloop : loop matchTurn fuel s = some (s', exit))
    (hturn : ∀ t, TurnSpec s t → t = .done r) : r = (s', exit) := by
  rcases loop_eq_some hloop with ⟨n, _, hdone | ⟨u, hnext, _⟩⟩
  · cases hturn _ (turnSpec_of_eq hs.book.noEmpty hdone)
    rfl
  · cases hturn _ (turnSpec_of_eq hs.book.noEmpty hnext)

/-- A loop whose first turn goes round with a book and a taker goes on from these. -/
theorem loop_goes_on (hs : LoopSound taker s) (hloop : loop matchTurn fuel s = some (s', exit))
    (hturn : ∀ t, TurnSpec s t → ∃ u, t = .next u ∧ u.book = b' ∧ u.taker = taker') :
    ∃ n u, TurnSpec s (.next u) ∧ LoopSound taker u ∧ u.book = b' ∧ u.taker = taker' ∧
      loop matchTurn n u = some (s', exit) := by
  rcases loop_eq_some hloop with ⟨n, _, hdone | ⟨u, hnext, hrest⟩⟩
  · rcases hturn _ (turnSpec_of_eq hs.book.noEmpty hdone) with ⟨u, hu, _⟩
    cases hu
  · have hspec := turnSpec_of_eq hs.book.noEmpty hnext
    rcases hturn _ hspec with ⟨v, hv, hbook, htaker⟩
    cases hv
    exact ⟨n, u, hspec, hspec.sound_next hs, hbook, htaker, hrest⟩

/-- What holds where the loop leaves, and before each turn if after it, holds where it begins. -/
theorem loop_backward (P : MatchState → Prop) (hs : LoopSound taker s)
    (hloop : loop matchTurn fuel s = some (s', exit))
    (hdone : ∀ u, LoopSound taker u → TurnSpec u (.done (s', exit)) → P u)
    (hnext : ∀ n u v, LoopSound taker u → TurnSpec u (.next v) → LoopSound taker v →
      loop matchTurn n v = some (s', exit) → P v → P u) : P s := by
  induction fuel generalizing s with
  | zero => cases hloop
  | succ fuel ih =>
    rcases loop_eq_some hloop with ⟨n, hn, hend | ⟨u, hgo, hrest⟩⟩
    · exact hdone s hs (turnSpec_of_eq hs.book.noEmpty hend)
    · have hspec := turnSpec_of_eq hs.book.noEmpty hgo
      have hu := hspec.sound_next hs
      cases hn
      exact hnext fuel s u hs hspec hu hrest (ih hu hrest)

/-- Whatever the loop does, it does not pay out more than was due. -/
theorem loop_due_le (hs : LoopSound taker s) (hloop : loop matchTurn fuel s = some (s', exit)) :
    s'.due taker.id ≤ s.due taker.id := by
  refine loop_backward (fun u => s'.due taker.id ≤ u.due taker.id) hs hloop ?_ ?_
  · intro u hu hspec
    have hnonneg : 0 ≤ u.taker.remaining := hu.pass.remaining
    cases hspec with
    | exhausted => exact le_refl _
    | cancelTaker => simp [MatchState.due]
    | decrementTaker => simpa [MatchState.due] using hnonneg
    | decrementBoth => simpa [MatchState.due] using hnonneg
  · intro n u v hu hspec _ _ hrest
    rcases hspec.walks hu with ⟨_, heq⟩ | ⟨_, hlt⟩
    · exact hrest.trans heq.le
    · exact hrest.trans hlt.le

/-- The loop of a fillable taker fills it, and cancels it nowhere. -/
theorem Fillable.loop {walker : Order} (h : Fillable b walker) (hbook : s.book = b)
    (hwalker : s.taker = walker) (hs : LoopSound taker s)
    (hloop : loop matchTurn fuel s = some (s', exit)) :
    exit = .exhausted ∧ s'.taker.remaining = 0 ∧ s'.due taker.id = s.due taker.id ∧
      ∀ reason, EngineEvent.cancelled taker.id reason ∈ s'.events →
        EngineEvent.cancelled taker.id reason ∈ s.events := by
  induction h generalizing s fuel with
  | filled hzero =>
    subst hbook hwalker
    have hend := loop_leaves hs hloop fun _ h => h.of_unmet fun _ _ _ hm =>
      absurd hm.pos (by rw [hzero]; exact lt_irrefl 0)
    cases hend
    exact ⟨rfl, hzero, rfl, fun _ h => h⟩
  | gives hgives _ ih =>
    subst hbook hwalker
    rcases loop_goes_on hs hloop fun _ => hgives.turn with
      ⟨n, u, hspec, hu, hbook, hwalker, hrest⟩
    rcases ih hbook hwalker hu hrest with ⟨hexit, hzero, hdue, hspared⟩
    rcases hspec.walks hs with ⟨_, heq⟩ | ⟨hwears, _⟩
    · refine ⟨hexit, hzero, hdue.trans heq, fun reason hmem => ?_⟩
      exact (hspec.refines hs.book).spares_taker hs.pass (hspared reason hmem)
    · exact absurd hwears hgives.not_wears

/-- A loop that fills the taker and pays out all that was due walked past other
users' orders and skipped ones only. -/
theorem fillable_of_loop (hs : LoopSound taker s)
    (hloop : loop matchTurn fuel s = some (s', .exhausted)) (hzero : s'.taker.remaining = 0)
    (hdue : s'.due taker.id = s.due taker.id) : Fillable s.book s.taker := by
  revert hdue
  refine loop_backward (fun u => s'.due taker.id = u.due taker.id → Fillable u.book u.taker)
    hs hloop ?_ ?_
  · intro u _ hspec _
    cases hspec with
    | exhausted => exact .filled hzero
  · intro n u v hu hspec hv hrest hfillable hdue
    rcases hspec.walks hu with ⟨hgives, heq⟩ | ⟨_, hlt⟩
    · exact .gives hgives (hfillable (hdue.trans heq.symm))
    · -- then less is paid out in the end than was due
      exact absurd (hdue ▸ loop_due_le hv hrest) (not_le.mpr hlt)

/-- The loop of a taker that falls short ends with something left of it. -/
theorem FallsShort.loop {walker : Order} (h : FallsShort b walker) (hbook : s.book = b)
    (hwalker : s.taker = walker) (hs : LoopSound taker s)
    (hloop : loop matchTurn fuel s = some (s', exit)) :
    exit = .exhausted ∧ s'.taker.remaining ≠ 0 := by
  induction h generalizing s fuel with
  | dry hpos hno =>
    subst hbook hwalker
    have hend := loop_leaves hs hloop fun _ h => h.of_unmet fun _ _ _ hm =>
      absurd (Or.inr hno) hm.not_exhausted
    cases hend
    exact ⟨rfl, hpos.ne'⟩
  | gives hgives _ ih =>
    subst hbook hwalker
    rcases loop_goes_on hs hloop fun _ => hgives.turn with
      ⟨n, u, _, hu, hbook, hwalker, hrest⟩
    exact ih hbook hwalker hu hrest
  | wears hwears _ ih =>
    subst hbook hwalker
    rcases loop_goes_on hs hloop fun _ => hwears.turn with
      ⟨n, u, _, hu, hbook, hwalker, hrest⟩
    exact ih hbook hwalker hu hrest

/-- A loop that ends with something left of the taker ran out of orders. -/
theorem fallsShort_of_loop (hs : LoopSound taker s)
    (hloop : loop matchTurn fuel s = some (s', .exhausted)) (hne : s'.taker.remaining ≠ 0) :
    FallsShort s.book s.taker := by
  refine loop_backward (fun u => FallsShort u.book u.taker) hs hloop ?_ ?_
  · intro u hu hspec
    cases hspec with
    | exhausted hex =>
      have hpos := lt_of_le_of_ne hu.pass.remaining (Ne.symm hne)
      exact .dry hpos (hex.resolve_left (not_le.mpr hpos))
  · intro n u v hu hspec _ _ hrest
    rcases hspec.walks hu with ⟨hgives, _⟩ | ⟨hwears, _⟩
    · exact .gives hgives hrest
    · exact .wears hwears hrest

end CryptoCex.Core
