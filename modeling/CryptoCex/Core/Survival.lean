import CryptoCex.Core.Outcome

/-!
# Whether a resting order survives the call

An order that rests at the end of its own pass is a resting order like any other
for the stops its trades triggered: one of them may trade with it, cancel it under
self-trade prevention, or cancel it as the OCO sibling of an order that is done.
`TakesOff` lists the turns that take an order off the book, and
`cascade_keeps_iff` says that it is there when the cascade returns exactly when no
pass has such a turn. What it traded meanwhile is bounded by what it has lost
(`cascade_later`).
-/

namespace CryptoCex.Core

open Loop OrderBook

/-- The turn takes the order `x` off the book. -/
inductive TakesOff (s : MatchState) (x : Uuid) : Prop where
  /-- A trade uses it up. -/
  | filled {price : Decimal} {m : Order} {rest : List Order} (hm : Meets s price m rest)
      (hother : s.taker.userId ≠ m.userId)
      (hwhole : m.remaining = (fillOf s.taker m price).quantity) (hx : m.id = x)
  /-- It is the taker's own and cancelled in its favour. -/
  | skipped {price : Decimal} {m : Order} {rest : List Order} (hm : Meets s price m rest)
      (hown : s.taker.userId = m.userId) (hmode : s.taker.stpMode = .cancelMaker) (hx : m.id = x)
  /-- It is the taker's own and not larger than the taker. -/
  | decremented {price : Decimal} {m : Order} {rest : List Order} (hm : Meets s price m rest)
      (hown : s.taker.userId = m.userId) (hmode : s.taker.stpMode = .decrement)
      (hle : m.remaining ≤ s.taker.remaining) (hx : m.id = x)
  /-- It is the OCO sibling of an order that a trade uses up. -/
  | sibling {price : Decimal} {m : Order} {rest : List Order} (hm : Meets s price m rest)
      (hother : s.taker.userId ≠ m.userId)
      (hwhole : m.remaining = (fillOf s.taker m price).quantity)
      (hlink : s.book.ocoLinks.find? m.id = some x)
  /-- It is the OCO sibling of the taker, which is done. -/
  | taker (hend : matchTurn s = some (.done (s, .exhausted)))
      (hterm : takerTerminal s.taker (s.book.finalizeTaker s.taker s.hadFills).2 = true)
      (hlink : s.book.ocoLinks.find? s.taker.id = some x)

/-- A turn of the pass of `taker` takes the live order `x` off the book. -/
def PassTakesOff (b : OrderBook) (taker : Order) (x : Uuid) : Prop :=
  ∃ s, Visits matchTurn (b.enterLoop taker) s ∧ x ∈ s.book.live.map (·.id) ∧ TakesOff s x

/-! ## One turn -/

/-- An OCO cancel keeps every order but the linked one. -/
theorem Pool.OcoCancel.keeps_iff {P : Pool} {id x : Uuid} {r : Pool × List EngineEvent}
    (h : OcoCancel P id r) (hunique : P.ids.Nodup) (hx : x ∈ P.ids) :
    x ∈ r.1.ids ↔ P.links.find? id ≠ some x := by
  have hnamed : x ∈ named r.2 ↔ P.links.find? id = some x := by
    cases h with
    | unlinked hlink => simp [hlink]
    | linked sibling hlink hcancel =>
      rw [hlink, Option.some.injEq]
      cases hcancel with
      | absent hid =>
        rcases Multiset.mem_map.mp hx with ⟨o, ho, rfl⟩
        simpa using fun heq : sibling = o.id => hid o ho heq.symm
      | resting o others hid hpool => simp [EngineEvent.names, eq_comm]
      | stop o others hid hpool => simp [EngineEvent.names, eq_comm]
  rw [ne_eq, ← hnamed]
  constructor
  · intro hin hmem
    exact (h.named_gone hunique hmem).2 hin
  · intro hmem
    exact (h.kept hx).resolve_right hmem

variable {b b' : OrderBook} {taker m : Order} {fuel : ℕ} {s s' : MatchState} {price : Decimal}
  {rest : List Order} {exit : MatchExit} {x : Uuid} {events : List EngineEvent}
  {triggered : List Order}

/-- Without the order the taker meets, the others are still there. -/
theorem Meets.mem_dropFront (hm : Meets s price m rest) (hs : LoopSound taker s)
    (hx : x ∈ s.book.toPool.ids) :
    x ∈ (s.book.dropFront s.taker.side.opposite price m rest).toPool.ids ↔ m.id ≠ x := by
  have hunique : s.book.toPool.ids.Nodup := (Multiset.nodup_cons.mp hs.pass.unique).2
  rw [hm.ids_dropFront] at hunique hx
  constructor
  · rintro hmem rfl
    exact (Multiset.nodup_cons.mp hunique).1 hmem
  · intro hne
    exact (Multiset.mem_cons.mp hx).resolve_left (Ne.symm hne)

/-- A loop that is exhausted meets nobody. -/
theorem TurnSpec.not_meets (h : TurnSpec s (.done (s', .exhausted))) :
    ¬ Meets s price m rest := by
  cases h with
  | exhausted hex => exact fun hm => hm.not_exhausted hex

/-- Before an order it meets, the loop does not end for want of orders. -/
theorem Meets.goes_on (hm : Meets s price m rest) (hb : s.book.NoEmptyLevel) :
    matchTurn s ≠ some (.done (s', .exhausted)) := by
  intro hend
  have hspec := turnSpec_of_eq hb hend
  exact hspec.not_meets hm

/-- What a turn that meets the order `m` takes off the book. -/
theorem Meets.takesOff_iff (hm : Meets s price m rest) (hs : LoopSound taker s) :
    TakesOff s x ↔
      (s.taker.userId ≠ m.userId ∧ m.remaining = (fillOf s.taker m price).quantity ∧
        (m.id = x ∨ s.book.ocoLinks.find? m.id = some x)) ∨
      (s.taker.userId = m.userId ∧ m.id = x ∧ (s.taker.stpMode = .cancelMaker ∨
        (s.taker.stpMode = .decrement ∧ m.remaining ≤ s.taker.remaining))) := by
  constructor
  · -- every way off the book names the order that is met, which is `m`
    intro htakes
    cases htakes with
    | filled hm' hother hwhole hx =>
      rcases hm.unique hm' with ⟨rfl, rfl, rfl⟩
      exact .inl ⟨hother, hwhole, .inl hx⟩
    | sibling hm' hother hwhole hlink =>
      rcases hm.unique hm' with ⟨rfl, rfl, rfl⟩
      exact .inl ⟨hother, hwhole, .inr hlink⟩
    | skipped hm' hown hmode hx =>
      rcases hm.unique hm' with ⟨rfl, rfl, rfl⟩
      exact .inr ⟨hown, hx, .inl hmode⟩
    | decremented hm' hown hmode hle hx =>
      rcases hm.unique hm' with ⟨rfl, rfl, rfl⟩
      exact .inr ⟨hown, hx, .inr ⟨hmode, hle⟩⟩
    | taker hend => exact absurd hend (hm.goes_on hs.book.noEmpty)
  · rintro (⟨hother, hwhole, hx | hlink⟩ | ⟨hown, hx, hmode | ⟨hmode, hle⟩⟩)
    · exact .filled hm hother hwhole hx
    · exact .sibling hm hother hwhole hlink
    · exact .skipped hm hown hmode hx
    · exact .decremented hm hown hmode hle hx

/-- A turn that meets an order keeps a live order exactly when it does not take it off. -/
theorem TurnSpec.keeps_iff {t : Turn MatchState (MatchState × MatchExit)} (h : TurnSpec s t)
    (hgoes : t ≠ .done (s, .exhausted)) (hs : LoopSound taker s) (hx : x ∈ s.book.toPool.ids) :
    x ∈ (stateAfter t).book.toPool.ids ↔ ¬ TakesOff s x := by
  cases h with
  | exhausted => exact absurd rfl hgoes
  | cancelTaker hm hown hmode =>
    rw [hm.takesOff_iff hs]
    simp [stateAfter, hx, hown, hmode]
  | cancelMaker hm hown hmode =>
    rw [hm.takesOff_iff hs]
    simp [stateAfter, hm.mem_dropFront hs hx, hown, hmode]
  | @decrementTaker price m rest hm hown hmode hlt =>
    have hids := hm.ids_shrinkFront
      (List.Perm.refl (m.withRemaining (m.remaining - s.taker.remaining) :: rest))
    rw [hm.takesOff_iff hs]
    simp [stateAfter, hids, hx, hown, hmode, hlt]
  | decrementMaker hm hown hmode hgt =>
    rw [hm.takesOff_iff hs]
    simp [stateAfter, hm.mem_dropFront hs hx, hown, hmode, hgt.le]
  | decrementBoth hm hown hmode heq =>
    rw [hm.takesOff_iff hs]
    simp [stateAfter, hm.mem_dropFront hs hx, hown, hmode, heq]
  | @fillPart price m rest hm hother hpart =>
    have hids := hm.ids_shrinkFront (levelAfterFill_perm m rest (fillOf s.taker m price).quantity)
    rw [hm.takesOff_iff hs]
    simp [stateAfter, hids, hx, hother, hpart]
  | @fillWhole price m rest hm hother hwhole =>
    have hdrop := hm.mem_dropFront hs hx
    have hdropped := hs.book.dropFront hm.level
    have hoco := hdropped.ocoCancel m.id
    rw [hm.takesOff_iff hs]
    change x ∈ ((s.book.dropFront s.taker.side.opposite price m rest).maybeCancelOco m.id).1.toPool.ids
      ↔ _
    by_cases hxm : m.id = x
    · -- the order itself was used up, and the cancel of its sibling does not bring it back
      have hgone : x ∉ ((s.book.dropFront s.taker.side.opposite price m rest).maybeCancelOco
          m.id).1.toPool.ids := fun hmem => hdrop.mp (Multiset.mem_of_le hoco.ids_le hmem) hxm
      exact ⟨fun hmem => absurd hmem hgone,
        fun hnot => absurd (.inl ⟨hother, hwhole, .inl hxm⟩) hnot⟩
    · have hkeeps := hoco.keeps_iff hdropped.unique (hdrop.mpr hxm)
      have hlinks : (s.book.dropFront s.taker.side.opposite price m rest).toPool.links =
          s.book.ocoLinks := ocoLinks_dropFront s.book s.taker.side.opposite price m rest
      rw [hlinks] at hkeeps
      refine hkeeps.trans ⟨?_, ?_⟩
      · rintro hne (⟨_, _, hx' | hlink⟩ | ⟨hown, _⟩)
        · exact hxm hx'
        · exact hne hlink
        · exact hother hown
      · intro hnot hlink
        exact hnot (.inl ⟨hother, hwhole, .inr hlink⟩)

/-! ## One pass -/

/-- Whoever is on the book stays there when an order is put on it. -/
theorem mem_ids_insertMaker (hx : x ∈ b.toPool.ids) : x ∈ (b.insertMaker taker).toPool.ids := by
  cases hprice : taker.price with
  | none =>
    simp only [insertMaker, hprice]
    exact hx
  | some price =>
    rw [Pool.ids_eq_add, Multiset.mem_add] at hx ⊢
    simp only [toPool, restingPool_insertMaker hprice, stopPool_insertMaker, Multiset.map_cons]
    exact hx.imp_left Multiset.mem_cons_of_mem

/-- When the stops are checked, an order is there exactly when it is not the OCO sibling of a taker
that is done. -/
theorem settle_keeps_iff (hs : LoopSound taker s)
    (hend : matchTurn s = some (.done (s, .exhausted))) (hx : x ∈ s.book.toPool.ids) :
    x ∈ (settle s .exhausted).1.toPool.ids ↔ ¬ TakesOff s x := by
  have htakes : TakesOff s x ↔
      takerTerminal s.taker (s.book.finalizeTaker s.taker s.hadFills).2 = true ∧
        s.book.ocoLinks.find? s.taker.id = some x := by
    constructor
    · intro htakes
      cases htakes with
      | filled hm | skipped hm | decremented hm | sibling hm =>
        exact absurd hend (hm.goes_on hs.book.noEmpty)
      | taker _ hterm hlink => exact ⟨hterm, hlink⟩
    · rintro ⟨hterm, hlink⟩
      exact .taker hend hterm hlink
  rw [htakes]
  simp only [settle]
  have hspec := s.book.finalizeTaker_spec s.taker s.hadFills
  generalize s.book.finalizeTaker s.taker s.hadFills = final at hspec ⊢
  -- a taker that is done is not in the book, and only its link matters
  have hdone : ∀ {events}, takerTerminal s.taker events = true →
      (x ∈ (if takerTerminal s.taker events then s.book.maybeCancelOco s.taker.id
        else (s.book, [])).1.toPool.ids ↔
          ¬ (takerTerminal s.taker events = true ∧ s.book.ocoLinks.find? s.taker.id = some x)) := by
    intro events hterm
    have hoco := hs.book.ocoCancel s.taker.id
    rw [if_pos hterm, hoco.keeps_iff (Multiset.nodup_cons.mp hs.pass.unique).2 hx]
    simp [hterm, toPool]
  cases hspec with
  | filled hzero => exact hdone (by simp [takerTerminal, hzero])
  | cancelled hne reason => exact hdone (takerTerminal_cancelled _ _ _)
  | rested hne =>
    have hterm : takerTerminal s.taker [.rested s.taker.id s.taker.remaining] = false := by
      simp [takerTerminal, hne]
    simp only [hterm, Bool.false_eq_true, if_false, false_and, not_false_eq_true, iff_true]
    exact mem_ids_insertMaker hx

/-- The loop brings no order to the book. -/
theorem loop_pool_le (hs : LoopSound taker s) (hloop : loop matchTurn fuel s = some (s', exit)) :
    s'.book.toPool.ids ≤ s.book.toPool.ids ∧ s'.book.stopPool ≤ s.book.stopPool := by
  refine loop_backward (fun u => s'.book.toPool.ids ≤ u.book.toPool.ids ∧
    s'.book.stopPool ≤ u.book.stopPool) hs hloop ?_ ?_
  · intro u hu hspec
    have hturn := hspec.refines hu.book
    exact ⟨hturn.ids_le, hturn.stops_le⟩
  · intro n u v hu hspec _ _ hrest
    have hturn := hspec.refines hu.book
    exact ⟨hrest.1.trans hturn.ids_le, hrest.2.trans hturn.stops_le⟩

/-- An order that is not in the book does not come back in another order's pass. -/
theorem loop_gone (hs : LoopSound taker s) (hready : taker.Ready)
    (hloop : loop matchTurn fuel s = some (s', exit)) (hne : x ≠ taker.id)
    (hgone : x ∉ s.book.toPool.ids) : x ∉ (settle s' exit).1.toPool.ids := by
  have hs' : LoopSound taker s' :=
    loop_backward (fun _ => LoopSound taker s') hs hloop
      (fun _ hu hspec => hspec.sound_done hu) (fun _ _ _ _ _ _ _ hrest => hrest)
  have hids := settle_ids_le hs' hready exit
  intro hmem
  rcases Multiset.mem_cons.mp (Multiset.mem_of_le hids hmem) with heq | hmem
  · exact hne (heq.trans hs'.pass.id_eq)
  · exact hgone (Multiset.mem_of_le (loop_pool_le hs hloop).1 hmem)

/-- The loop from `s` keeps a live order up to the check of the stops exactly when no turn takes it
off. -/
theorem loop_keeps_iff (hs : LoopSound taker s) (hready : taker.Ready)
    (hx : x ∈ s.book.toPool.ids) (hloop : loop matchTurn fuel s = some (s', exit)) :
    x ∈ (settle s' exit).1.toPool.ids ↔
      ∀ u, Visits matchTurn s u → x ∈ u.book.live.map (·.id) → ¬ TakesOff u x := by
  have hne : x ≠ taker.id := by
    rintro rfl
    exact hs.pass.taker_notMem hx
  have hlive : x ∈ s.book.live.map (·.id) := by
    rw [ids_toPool] at hx
    exact hx
  induction fuel generalizing s with
  | zero => cases hloop
  | succ fuel ih =>
    rcases matchTurn_spec hs.book.noEmpty with ⟨t, ht, hspec⟩
    cases t with
    | next u =>
      rw [loop_succ_next ht] at hloop
      have hu := hspec.sound_next hs
      have hkeeps : x ∈ u.book.toPool.ids ↔ ¬ TakesOff s x :=
        hspec.keeps_iff (by simp) hs hx
      by_cases htakes : TakesOff s x
      · have hgone := loop_gone hu hready hloop hne (fun hmem => hkeeps.mp hmem htakes)
        exact ⟨fun hmem => absurd hmem hgone,
          fun hnever => absurd htakes (hnever s Relation.ReflTransGen.refl hlive)⟩
      · have hxu := hkeeps.mpr htakes
        have hliveu : x ∈ u.book.live.map (·.id) := by
          rw [ids_toPool] at hxu
          exact hxu
        refine (ih hu hxu hloop hliveu).trans ⟨?_, ?_⟩
        · intro hnever v hv
          rcases Relation.ReflTransGen.cases_head hv with rfl | ⟨w, hw, hv⟩
          · exact fun _ => htakes
          · rw [ht] at hw
            cases hw
            exact hnever v hv
        · intro hnever v hv
          exact hnever v (Relation.ReflTransGen.head ht hv)
    | done r =>
      rw [loop_succ_done ht] at hloop
      cases hloop
      -- the loop stands at `s` only
      have hvisits : (∀ u, Visits matchTurn s u → x ∈ u.book.live.map (·.id) → ¬ TakesOff u x) ↔
          ¬ TakesOff s x := by
        constructor
        · intro hnever
          exact hnever s Relation.ReflTransGen.refl hlive
        · intro hnot u hu
          rcases Relation.ReflTransGen.cases_head hu with rfl | ⟨w, hw, _⟩
          · exact fun _ => hnot
          · rw [ht] at hw
            cases hw
      rw [hvisits]
      cases exit with
      | takerConsumed => exact hspec.keeps_iff (by simp) hs hx
      | exhausted =>
        have hsame : s' = s := by
          cases hspec with
          | exhausted => rfl
        subst hsame
        exact settle_keeps_iff hs ht hx

/-- A live order is there when the stops of a pass are checked exactly when no turn of the pass
takes it off. -/
theorem Enters.settle_keeps_iff (h : Enters b taker) (hx : x ∈ b.toPool.ids)
    (hloop : loop matchTurn fuel (b.enterLoop taker) = some (s, exit)) :
    x ∈ (settle s exit).1.toPool.ids ↔ ¬ PassTakesOff b taker x := by
  refine (loop_keeps_iff h.loopSound h.ready hx hloop).trans ⟨?_, ?_⟩
  · rintro hnever ⟨u, hu, hlive, htakes⟩
    exact hnever u hu hlive htakes
  · intro hnot u hu hlive htakes
    exact hnot ⟨u, hu, hlive, htakes⟩

/-- Draining the stops leaves a resting order where it is. -/
theorem mem_ids_drainAfter (b : OrderBook) (last : Option Decimal)
    (hstop : x ∉ b.stopPool.map (·.id)) :
    x ∈ (b.drainAfter last).1.toPool.ids ↔ x ∈ b.toPool.ids := by
  have hle : (b.drainAfter last).1.stopPool ≤ b.stopPool := by
    rw [b.stopPool_drainAfter last]
    exact Multiset.le_add_left _ _
  rw [toPool_drainAfter, Pool.ids_eq_add, Pool.ids_eq_add, Multiset.mem_add, Multiset.mem_add]
  constructor
  · rintro (hmem | hmem)
    · exact .inl hmem
    · exact .inr (Multiset.mem_of_le (Multiset.map_le_map hle) hmem)
  · rintro (hmem | hmem)
    · exact .inl hmem
    · exact absurd hmem hstop

theorem pass_keeps_iff (h : Enters b taker) (hx : x ∈ b.toPool.ids)
    (hstop : x ∉ b.stopPool.map (·.id))
    (hrun : b.runMatchingLoop fuel taker = some (b', events, triggered)) :
    x ∈ b'.toPool.ids ↔ ¬ PassTakesOff b taker x := by
  rcases runMatchingLoop_eq_some hrun with ⟨s, exit, hloop, hend⟩
  have hb' : ((settle s exit).1.drainAfter s.lastTradePrice).1 = b' := by
    rw [afterLoop_eq] at hend
    exact (congrArg Prod.fst hend).symm
  have hle := (settle_spec (h.loop_sound hloop) h.ready exit).2.1.trans
    (loop_pool_le h.loopSound hloop).2
  have hstops : x ∉ (settle s exit).1.stopPool.map (·.id) := fun hmem =>
    hstop (Multiset.mem_of_le (Multiset.map_le_map hle) hmem)
  rw [← hb', mem_ids_drainAfter _ _ hstops]
  exact h.settle_keeps_iff hx hloop

/-! ## What it trades meanwhile -/

theorem remIn_nonneg {M : Multiset Order} (hpos : ∀ o ∈ M, 0 < o.remaining) : 0 ≤ remIn M x := by
  induction M using Multiset.induction with
  | empty => exact le_refl _
  | cons o M ih =>
    rw [remIn_cons]
    have hrest := ih fun o ho => hpos o (Multiset.mem_cons_of_mem ho)
    have ho := hpos o (Multiset.mem_cons_self _ _)
    split_ifs <;> lia

/-- Fewer orders have less left. -/
theorem remIn_le {M N : Multiset Order} (hle : M ≤ N) (hpos : ∀ o ∈ N, 0 < o.remaining) :
    remIn M x ≤ remIn N x := by
  rcases Multiset.le_iff_exists_add.mp hle with ⟨K, rfl⟩
  rw [remIn_add]
  have hrest := remIn_nonneg (x := x) fun o ho => hpos o (Multiset.mem_add.mpr (.inr ho))
  lia

theorem OrderBook.Consistent.nodup_resting (hb : b.Consistent) :
    (b.restingPool.map (·.id)).Nodup :=
  Multiset.nodup_of_le (Multiset.map_le_map (Multiset.le_add_right _ _)) hb.unique

/-- A resting order has something left. -/
theorem OrderBook.Consistent.remIn_pos (hb : b.Consistent) (hx : x ∈ b.toPool.ids)
    (hstop : x ∉ b.stopPool.map (·.id)) : 0 < remIn b.restingPool x := by
  rw [Pool.ids_eq_add] at hx
  have hresting : x ∈ b.restingPool.map (·.id) := (Multiset.mem_add.mp hx).resolve_right hstop
  rcases Multiset.mem_map.mp hresting with ⟨o, ho, rfl⟩
  rw [remIn_of_mem hb.nodup_resting ho]
  exact hb.positive o ho

/-- What a resting order trades in another order's pass is covered by what it loses. -/
theorem Pass.Turn.makerFills_le {a : Pass} {t : Loop.Turn Pass (Pass × MatchExit)} (ht : a.Turn t)
    (hs : a.Sound taker) :
    fillSum (·.makerOrderId = x) (after t).events + remIn (after t).pool.resting x ≤
      fillSum (·.makerOrderId = x) a.events + remIn a.pool.resting x := by
  cases ht with
  | exhausted => exact le_refl _
  | cancelTaker => simp [after]
  | cancelMaker hm | decrementMaker hm | decrementBoth hm =>
    simpa [after] using remIn_le hm.others_le hs.positive
  -- a decrement takes from the maker without a fill
  | @decrementTaker price m others hm =>
    have hpos := hm.takerPos
    simp only [after, fillSum_append, fillSum_cancelled, fillSum_nil, add_zero, hm.pool, remIn_cons,
      Order.id_withRemaining, Order.remaining_withRemaining]
    by_cases hmx : m.id = x
    · simp only [hmx, if_true]
      lia
    · simp only [hmx, if_false]
      lia
  -- a fill takes from the maker what it adds to its fills
  | @fillPart price m others hm =>
    have hmaker : (fillOf a.taker m price).makerOrderId = m.id := rfl
    simp only [after, fillSum_append, fillSum_fill, hm.pool, remIn_cons, hmaker,
      Order.id_withRemaining, Order.remaining_withRemaining, decide_eq_true_eq]
    by_cases hmx : m.id = x
    · simp only [hmx, if_true]
      lia
    · simp only [hmx, if_false]
      lia
  -- the sibling leaves with the maker
  | @fillWhole price m others hm _ hwhole r hoco =>
    have hmaker : (fillOf a.taker m price).makerOrderId = m.id := rfl
    have hothers : ∀ o ∈ others, 0 < o.remaining := fun o ho =>
      hs.positive o (Multiset.mem_of_le hm.others_le ho)
    have hle : remIn r.1.resting x ≤ remIn others x := remIn_le hoco.resting_le hothers
    simp only [after, fillSum_append, fillSum_fill, hm.pool, remIn_cons, hmaker, ← hwhole,
      decide_eq_true_eq, fillSum_eq_zero hoco.no_fill]
    by_cases hmx : m.id = x
    · simp only [hmx, if_true]
      lia
    · simp only [hmx, if_false]
      lia

theorem Pass.Finish.makerFills_le {a : Pass} {r : Pool × List EngineEvent × List Order}
    (h : a.Finish exit r) (hs : a.Sound taker) (hne : x ≠ taker.id) :
    fillSum (·.makerOrderId = x) r.2.1 + remIn r.1.resting x ≤
      fillSum (·.makerOrderId = x) a.events + remIn a.pool.resting x := by
  -- what is cancelled with its sibling has nothing left to trade
  have hoco : ∀ {id : Uuid} {r : Pool × List EngineEvent}, Pool.OcoCancel a.pool id r →
      remIn r.1.resting x ≤ remIn a.pool.resting x := by
    intro id r hoco
    exact remIn_le hoco.resting_le hs.positive
  cases h with
  | consumed => exact le_refl _
  | finalized hfinal =>
    cases hfinal with
    | filled _ h =>
      simp only [fillSum_append, fillSum_eq_zero h.no_fill, add_zero]
      exact Int.add_le_add_left (hoco h) _
    | cancelled _ _ _ _ h =>
      simp only [fillSum_append, fillSum_cancelled, fillSum_eq_zero h.no_fill, add_zero]
      exact Int.add_le_add_left (hoco h) _
    | rested =>
      have htaker : a.taker.id ≠ x := fun heq => hne (heq.symm.trans hs.id_eq)
      simp only [fillSum_append, fillSum_rested, add_zero, remIn_cons, if_neg htaker, zero_add]
      exact le_refl _

/-- In a pass the fills of a maker are at most what it had left. -/
theorem pass_makerFills_le (h : Enters b taker) (hne : x ≠ taker.id)
    (hrun : b.runMatchingLoop fuel taker = some (b', events, triggered)) :
    fillSum (·.makerOrderId = x) events + remIn b'.restingPool x ≤ remIn b.restingPool x := by
  refine runMatchingLoop_induct h
    (fun _ s => fillSum (·.makerOrderId = x) s.events + remIn s.book.restingPool x ≤
      remIn b.restingPool x)
    (fun _ r => fillSum (·.makerOrderId = x) r.2.1 + remIn r.1.resting x ≤ remIn b.restingPool x)
    ?_ ?_ ?_ hrun
  · simp [enterLoop]
  · intro _ t t' _ ht hinv hspec
    exact ((hspec.refines ht.book).makerFills_le ht.pass).trans hinv
  · intro _ t t' exit r _ ht hinv hspec ht' hfinish
    have hturn := (hspec.refines ht.book).makerFills_le (x := x) ht.pass
    exact (hfinish.makerFills_le ht'.pass hne).trans (hturn.trans hinv)

/-- The fills of a pass have its order as taker. -/
theorem pass_takerFills (h : Enters b taker) (hne : x ≠ taker.id)
    (hrun : b.runMatchingLoop fuel taker = some (b', events, triggered)) :
    ∀ f, EngineEvent.fill f ∈ events → f.takerOrderId ≠ x := by
  intro f hf heq
  rcases conserves_of_enters h hrun with ⟨_, _, _, hconserves⟩
  exact hne (heq.symm.trans (hconserves.users f hf).1)

/-! ## The cascade -/

/-- What the later passes of a call tell of an order that rested before them: it is the
taker of none, and its fills are covered by what it lost. -/
structure Later (x : Uuid) (c₁ c : CascadeState) : Prop where
  queue : x ∉ c.workQueue.map (·.id)
  stops : x ∉ c.book.stopPool.map (·.id)
  events : ∃ later, c.events = c₁.events ++ later ∧
    (∀ f, EngineEvent.fill f ∈ later → f.takerOrderId ≠ x) ∧
    (∀ left, EngineEvent.rested x left ∉ later) ∧
    fillSum (·.makerOrderId = x) later + remIn c.book.restingPool x ≤ remIn c₁.book.restingPool x

theorem later_refl {c : CascadeState} (hqueue : x ∉ c.workQueue.map (·.id))
    (hstops : x ∉ c.book.stopPool.map (·.id)) : Later x c c :=
  ⟨hqueue, hstops, [], by simp⟩

/-- The stops a pass triggers were registered before it. -/
theorem PassSound.notMem_triggered {r : OrderBook × List EngineEvent × List Order}
    (hr : PassSound b taker r) (hstops : x ∉ b.stopPool.map (·.id)) : x ∉ r.2.2.map (·.id) := by
  rcases hr.hit with ⟨hit, htriggered, hle⟩
  rw [htriggered, map_id_convertStop]
  intro hmem
  refine hstops (Multiset.mem_of_le (Multiset.map_le_map hle) ?_)
  rw [Multiset.map_add]
  exact Multiset.mem_add.mpr (.inl hmem)

/-- A pass for another order names no new order of the later part. -/
theorem CascadeStep.later {c₁ c c' : CascadeState} (h : CascadeStep fuel c c')
    (hc : CascadeSound c) (hl : Later x c₁ c) : Later x c₁ c' := by
  have hstops : x ∉ c'.book.stopPool.map (·.id) := fun hmem =>
    hl.stops (Multiset.mem_of_le (Multiset.map_le_map (h.stops_le hc)) hmem)
  rcases hl.events with ⟨later, hevents, htakers, hunrested, hsum⟩
  -- one pass, of an order that is not `x`
  have hpass : ∀ {order rest book new hit}, c.workQueue = order :: rest →
      c.book.runMatchingLoop fuel order = some (book, new, hit) →
      (x ∉ (rest.map (·.id)) ∧ x ∉ hit.map (·.id)) ∧
        (∀ f, EngineEvent.fill f ∈ later ++ new → f.takerOrderId ≠ x) ∧
        (∀ left, EngineEvent.rested x left ∉ later ++ new) ∧
        fillSum (·.makerOrderId = x) (later ++ new) + remIn book.restingPool x ≤
          remIn c₁.book.restingPool x := by
    intro order rest book new hit hqueue hrun
    have henters := hc.enters hqueue
    have hqueued := hl.queue
    rw [hqueue, List.map_cons, List.mem_cons, not_or] at hqueued
    rcases hqueued with ⟨hne, hrest⟩
    have hmakers := pass_makerFills_le henters hne hrun
    refine ⟨⟨hrest, (runMatchingLoop_sound henters hrun).notMem_triggered hl.stops⟩, ?_, ?_, ?_⟩
    · intro f hf
      rcases List.mem_append.mp hf with hf | hf
      · exact htakers f hf
      · exact pass_takerFills henters hne hrun f hf
    · intro left hmem
      rcases List.mem_append.mp hmem with hmem | hmem
      · exact hunrested left hmem
      · exact hne (runMatchingLoop_rested henters hrun x left hmem)
    · rw [fillSum_append]
      lia
  cases h with
  | @push order rest book new hit hqueue hrun _ =>
    rcases hpass hqueue hrun with ⟨⟨hrest, hhit⟩, htakers, hunrested, hsum⟩
    refine ⟨?_, hstops, later ++ new ++ hit.map (fun t => .stopTriggered t.id), ?_, ?_, ?_, ?_⟩
    · rw [List.map_append, List.map_reverse, List.mem_append, List.mem_reverse, not_or]
      exact ⟨hhit, hrest⟩
    · simp only [hevents, List.append_assoc]
    · intro f hf
      rcases List.mem_append.mp hf with hf | hf
      · exact htakers f hf
      · simp at hf
    · intro left hmem
      rcases List.mem_append.mp hmem with hmem | hmem
      · exact hunrested left hmem
      · simp at hmem
    · have hnone : ∀ f, EngineEvent.fill f ∉ hit.map (fun t => EngineEvent.stopTriggered t.id) := by
        simp
      rw [fillSum_append, fillSum_eq_zero hnone, add_zero]
      exact hsum
  | @cut order rest book new hit hqueue hrun _ =>
    rcases hpass hqueue hrun with ⟨⟨hrest, _⟩, htakers, hunrested, hsum⟩
    exact ⟨hrest, hstops, later ++ new, by simp only [hevents, List.append_assoc], htakers,
      hunrested, hsum⟩

/-- The rest of a cascade, told of an order that rests when it begins. -/
theorem cascade_later {c₁ : CascadeState} (hc₁ : CascadeSound c₁)
    (hqueue : x ∉ c₁.workQueue.map (·.id)) (hstops : x ∉ c₁.book.stopPool.map (·.id)) {n : ℕ}
    {r : OrderBook × List EngineEvent} (hloop : loop (cascadeTurn fuel) n c₁ = some r) :
    x ∉ r.1.stopPool.map (·.id) ∧ ∃ later, r.2 = c₁.events ++ later ∧
      (∀ f, EngineEvent.fill f ∈ later → f.takerOrderId ≠ x) ∧
      (∀ left, EngineEvent.rested x left ∉ later) ∧
      fillSum (·.makerOrderId = x) later + remIn r.1.restingPool x ≤
        remIn c₁.book.restingPool x := by
  rcases cascade_induct hc₁ (Later x c₁) (later_refl hqueue hstops)
    (fun _ _ _ hc hl hstep => hstep.later hc hl) hloop with ⟨c, _, _, rfl, _, hl⟩
  exact ⟨hl.stops, hl.events⟩

/-- A turn of the cascade is a pass of the order on top of the work queue. -/
theorem CascadeStep.pass {c c' : CascadeState} (h : CascadeStep fuel c c') :
    ∃ order rest new hit, c.workQueue = order :: rest ∧
      c.book.runMatchingLoop fuel order = some (c'.book, new, hit) := by
  cases h with
  | push hqueue hrun => exact ⟨_, _, _, _, hqueue, hrun⟩
  | cut hqueue hrun => exact ⟨_, _, _, _, hqueue, hrun⟩

/-- An order that rests when the cascade begins is there when it returns exactly when no
pass takes it off the book. -/
theorem cascade_keeps_iff {c : CascadeState} (hc : CascadeSound c) (hx : x ∈ c.book.toPool.ids)
    (hstops : x ∉ c.book.stopPool.map (·.id)) {n : ℕ} {r : OrderBook × List EngineEvent}
    (hloop : loop (cascadeTurn fuel) n c = some r) :
    x ∈ r.1.toPool.ids ↔ ∀ c' order rest, Visits (cascadeTurn fuel) c c' →
      c'.workQueue = order :: rest → ¬ PassTakesOff c'.book order x := by
  induction n generalizing c with
  | zero => cases hloop
  | succ n ih =>
    rcases loop_eq_some hloop with ⟨k, hk, hdone | ⟨c', hnext, hafter⟩⟩
    · rcases cascadeTurn_done hdone with ⟨hempty, rfl⟩
      refine ⟨fun _ c' order rest hv hqueue => ?_, fun _ => hx⟩
      -- nothing waits, so that no pass follows
      rcases Relation.ReflTransGen.cases_head hv with rfl | ⟨w, hw, _⟩
      · rw [hempty] at hqueue
        cases hqueue
      · rw [hdone] at hw
        cases hw
    · have hkn : k = n := (Nat.succ.inj hk).symm
      subst hkn
      have hstep := cascadeTurn_next hnext
      have hc' := hstep.sound hc
      rcases hstep.pass with ⟨order, rest, new, hit, hqueue, hrun⟩
      have hkeeps := pass_keeps_iff (hc.enters hqueue) hx hstops hrun
      have hdisjoint := (Multiset.nodup_add.mp hc.unique).2.2
      have hunqueued : x ∉ c.workQueue.map (·.id) := fun hmem =>
        Multiset.disjoint_left.mp hdisjoint hmem hx
      have hlater := hstep.later hc (later_refl hunqueued hstops)
      by_cases htakes : PassTakesOff c.book order x
      · have hgone := (cascade_unnamed hc' hlater.queue (fun hmem => hkeeps.mp hmem htakes) hafter).1
        exact ⟨fun hmem => absurd hmem hgone,
          fun hnever => absurd htakes (hnever c order rest Relation.ReflTransGen.refl hqueue)⟩
      · refine (ih hc' (hkeeps.mpr htakes) hlater.stops hafter).trans ⟨?_, ?_⟩
        · intro hnever c'' order' rest' hv hqueue'
          rcases Relation.ReflTransGen.cases_head hv with rfl | ⟨w, hw, hv⟩
          · rw [hqueue] at hqueue'
            cases hqueue'
            exact htakes
          · rw [hnext] at hw
            cases hw
            exact hnever c'' order' rest' hv hqueue'
        · intro hnever c'' order' rest' hv hqueue'
          exact hnever c'' order' rest' (Relation.ReflTransGen.head hnext hv) hqueue'

theorem cascadeTurn_of_step {c c' : CascadeState} (h : CascadeStep fuel c c') :
    cascadeTurn fuel c = some (.next c') := by
  cases h with
  | push hqueue hrun hdepth => simp only [cascadeTurn, hqueue, hrun, if_pos hdepth]
  | cut hqueue hrun hdepth => simp only [cascadeTurn, hqueue, hrun, if_neg (not_lt.mpr hdepth)]

/-- A pass takes nothing off that is not in the book when it begins. -/
theorem not_passTakesOff (h : Enters b taker) (hx : x ∉ b.toPool.ids) :
    ¬ PassTakesOff b taker x := by
  rintro ⟨s, hv, hlive, _⟩
  have hids : s.book.toPool.ids ≤ b.toPool.ids := by
    refine h.visits_induct (fun s => s.book.toPool.ids ≤ b.toPool.ids) (le_refl _) ?_ hv
    intro t t' ht hspec hle
    exact (hspec.refines ht.book).ids_le.trans hle
  rw [← Multiset.mem_coe, ← ids_toPool] at hlive
  exact hx (Multiset.mem_of_le hids hlive)

/-- No pass of the call takes an order off that is nowhere after the first pass, nor does
the first pass take off its own taker. -/
theorem cascade_spares {c₁ : CascadeState} (hc : CascadeSound (b.enterCascade taker))
    (hfresh : x ∉ b.toPool.ids) (hstep : CascadeStep fuel (b.enterCascade taker) c₁)
    (hlater : ∀ c order rest, Visits (cascadeTurn fuel) c₁ c → c.workQueue = order :: rest →
      ¬ PassTakesOff c.book order x) :
    ∀ c order rest, Visits (cascadeTurn fuel) (b.enterCascade taker) c →
      c.workQueue = order :: rest → ¬ PassTakesOff c.book order x := by
  intro c order rest hv hqueue
  rcases Relation.ReflTransGen.cases_head hv with rfl | ⟨w, hw, hv⟩
  · exact not_passTakesOff (hc.enters hqueue) hfresh
  · rw [cascadeTurn_of_step hstep] at hw
    cases hw
    exact hlater c order rest hv hqueue

/-- An order that is gone is met in no later pass. -/
theorem cascade_spares_gone {c₁ : CascadeState} (hc₁ : CascadeSound c₁)
    (hqueue : x ∉ c₁.workQueue.map (·.id)) (hpool : x ∉ c₁.book.toPool.ids) :
    ∀ c order rest, Visits (cascadeTurn fuel) c₁ c → c.workQueue = order :: rest →
      ¬ PassTakesOff c.book order x := by
  intro c order rest hv hwaits
  have hinv : CascadeSound c ∧ x ∉ c.workQueue.map (·.id) ∧ x ∉ c.book.toPool.ids := by
    refine visits_invariant (fun c => CascadeSound c ∧ x ∉ c.workQueue.map (·.id) ∧
      x ∉ c.book.toPool.ids) ⟨hc₁, hqueue, hpool⟩ ?_ hv
    rintro t t' ⟨ht, hq, hp⟩ hnext
    have hstep := cascadeTurn_next hnext
    rcases hstep.unnamed ht hq hp with ⟨hq', hp', _⟩
    exact ⟨hstep.sound ht, hq', hp'⟩
  exact not_passTakesOff (hinv.1.enters hwaits) hinv.2.2

end CryptoCex.Core
