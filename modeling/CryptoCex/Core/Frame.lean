import CryptoCex.Core.Fate

/-!
# What a pass leaves alone

A pass touches the orders on the opposite side that it faces. Every other order
of the pool it was entered with stays as it is, but for the OCO siblings of
orders that became terminal (`Struck`) and the stops its last trade hits. The
orders it trades with are orders of the pool it was entered with, of another
user.
-/

namespace CryptoCex.Core

open Loop OrderBook

namespace Pass

variable {P₀ : Pool} {a : Pass} {taker m o : Order} {others : Multiset Order} {price : Decimal}

/-- The order was cancelled as the OCO sibling of a terminal order. -/
def Struck (P₀ : Pool) (terminal : Uuid → Prop) (events : List EngineEvent) (o : Order) : Prop :=
  EngineEvent.cancelled o.id .oco ∈ events ∧ ∃ y, P₀.links.find? y = some o.id ∧ terminal y

/-- A cancelled sibling stays one when more is logged. -/
theorem Struck.mono {terminal terminal' : Uuid → Prop} {events events' : List EngineEvent}
    (h : Struck P₀ terminal events o) (hsub : ∀ e ∈ events, e ∈ events')
    (hterm : ∀ y, terminal y → terminal' y) : Struck P₀ terminal' events' o := by
  rcases h with ⟨hevent, y, hlink, hy⟩
  exact ⟨hsub _ hevent, y, hlink, hterm y hy⟩

/-- The id was in `P₀` and is not in `P`. -/
def Left (P₀ P : Pool) (y : Uuid) : Prop := y ∈ P₀.ids ∧ y ∉ P.ids

theorem Left.mono {P P' : Pool} (hids : P'.ids ≤ P.ids) (y : Uuid) (h : Left P₀ P y) :
    Left P₀ P' y :=
  ⟨h.1, fun hy => h.2 (Multiset.mem_of_le hids hy)⟩

/-- The frame of a pass entered with pool `P₀`. -/
structure Framed (P₀ : Pool) (taker : Order) (a : Pass) : Prop where
  links : ∀ y l, a.pool.links.find? y = some l → P₀.links.find? y = some l
  ids : a.pool.ids ≤ P₀.ids
  origin : ∀ o ∈ a.pool.resting, ∃ m ∈ P₀.resting, o = m.withRemaining o.remaining
  own : ∀ o ∈ P₀.resting, o.side = taker.side →
    o ∈ a.pool.resting ∨ Struck P₀ (Left P₀ a.pool) a.events o
  stops : ∀ o ∈ P₀.stops, o ∈ a.pool.stops ∨ Struck P₀ (Left P₀ a.pool) a.events o
  fills : ∀ f, EngineEvent.fill f ∈ a.events → f.takerOrderId = taker.id ∧
    ∃ m ∈ P₀.resting, m.id = f.makerOrderId ∧ m.side = taker.side.opposite ∧
      m.price = some f.price ∧ m.userId ≠ taker.userId

/-- An OCO cancel strikes the sibling of `y` and leaves the other orders. -/
theorem ocoCancel_frame {P : Pool} {y : Uuid} {r : Pool × List EngineEvent}
    (h : Pool.OcoCancel P y r)
    (hlinks : ∀ y l, P.links.find? y = some l → P₀.links.find? y = some l) :
    (∀ y l, r.1.links.find? y = some l → P₀.links.find? y = some l) ∧
      (∀ o ∈ P.resting, o ∈ r.1.resting ∨ Struck P₀ (· = y) r.2 o) ∧
      (∀ o ∈ P.stops, o ∈ r.1.stops ∨ Struck P₀ (· = y) r.2 o) ∧
      ∀ f, EngineEvent.fill f ∉ r.2 := by
  cases h with
  | unlinked => exact ⟨hlinks, fun o ho => Or.inl ho, fun o ho => Or.inl ho, by simp⟩
  | linked sibling hlink hcancel =>
    -- the sibling is named, and linked to an order that is done
    have hstruck : ∀ o : Order, o.id = sibling → r.2 = [.cancelled sibling .oco] →
        Struck P₀ (· = y) r.2 o := by
      intro o ho hevents
      refine ⟨?_, y, ?_, rfl⟩
      · rw [hevents, ho]
        exact List.mem_singleton_self _
      · rw [ho]
        exact hlinks y sibling hlink
    refine ⟨?_, ?_, ?_, ?_⟩
    · intro z l hz
      rw [hcancel.links_eq, OrdMap.find?_erase, OrdMap.find?_erase] at hz
      split_ifs at hz
      exact hlinks z l hz
    · intro o ho
      cases hcancel with
      | absent => exact Or.inl ho
      | resting o' others hid hpool =>
        have ho' : o ∈ o' ::ₘ others := by
          rw [← hpool]
          exact ho
        rcases Multiset.mem_cons.mp ho' with rfl | ho'
        · exact Or.inr (hstruck o hid rfl)
        · exact Or.inl ho'
      | stop => exact Or.inl ho
    · intro o ho
      cases hcancel with
      | absent => exact Or.inl ho
      | resting => exact Or.inl ho
      | stop o' others hid hpool =>
        have ho' : o ∈ o' ::ₘ others := by
          rw [← hpool]
          exact ho
        rcases Multiset.mem_cons.mp ho' with rfl | ho'
        · exact Or.inr (hstruck o hid rfl)
        · exact Or.inl ho'
    · intro f
      cases hcancel <;> simp

/-- The order a pass faces was in the pool it was entered with. -/
theorem Framed.faces (h : Framed P₀ taker a) (hs : Sound taker a)
    (hm : a.Faces price m others) :
    ∃ m₀ ∈ P₀.resting, m₀.id = m.id ∧ m₀.side = taker.side.opposite ∧ m₀.price = some price ∧
      m₀.userId = m.userId := by
  rcases h.origin m hm.mem with ⟨m₀, hm₀, heq⟩
  have hside : m.side = taker.side.opposite := by
    rw [hm.side, hs.same, Order.side_withRemaining]
  refine ⟨m₀, hm₀, ?_, ?_, ?_, ?_⟩
  · rw [heq, Order.id_withRemaining]
  · rw [← hside, heq, Order.side_withRemaining]
  · rw [← hm.priced, heq, Order.price_withRemaining]
  · rw [heq, Order.userId_withRemaining]

/-- A turn that replaces the faced order by itself or by nothing. -/
theorem Framed.change (h : Framed P₀ taker a) (hs : Sound taker a)
    (hm : a.Faces price m others) {a' : Pass} {new : List EngineEvent} {resting : Multiset Order}
    (hpool : a'.pool = { a.pool with resting := resting })
    (hevents : a'.events = a.events ++ new) (hids : a'.pool.ids ≤ a.pool.ids)
    (hresting : ∀ o ∈ resting, o ∈ others ∨ ∃ r, o = m.withRemaining r)
    (hothers : ∀ o ∈ others, o ∈ resting)
    (hfills : ∀ f, EngineEvent.fill f ∈ new → f = fillOf a.taker m price ∧
      a.taker.userId ≠ m.userId) : Framed P₀ taker a' where
  links := by
    rw [hpool]
    exact h.links
  ids := hids.trans h.ids
  origin := by
    intro o ho
    rw [hpool] at ho
    rcases hresting o ho with ho | ⟨r, rfl⟩
    · exact h.origin o (Multiset.mem_of_le hm.others_le ho)
    · rcases h.origin m hm.mem with ⟨m₀, hm₀, heq⟩
      refine ⟨m₀, hm₀, ?_⟩
      rw [heq]
      rfl
  own := by
    intro o ho hside
    -- an order on the side of the taker is not the one it faces
    rcases h.own o ho hside with ho | hstruck
    · refine Or.inl ?_
      rw [hpool]
      rw [hm.pool] at ho
      rcases Multiset.mem_cons.mp ho with rfl | ho
      · have hopp := hm.side
        rw [hside, hs.same, Order.side_withRemaining] at hopp
        exact absurd hopp.symm (Side.opposite_ne taker.side)
      · exact hothers o ho
    · rw [hevents]
      exact Or.inr (hstruck.mono (fun _ h => List.mem_append_left _ h) (Left.mono hids))
  stops := by
    intro o ho
    rcases h.stops o ho with ho | hstruck
    · refine Or.inl ?_
      rw [hpool]
      exact ho
    · rw [hevents]
      exact Or.inr (hstruck.mono (fun _ h => List.mem_append_left _ h) (Left.mono hids))
  fills := by
    intro f hf
    rw [hevents] at hf
    rcases List.mem_append.mp hf with hf | hf
    · exact h.fills f hf
    · -- the only new fill is with the faced order, which is another user's
      rcases hfills f hf with ⟨rfl, hother⟩
      rcases h.faces hs hm with ⟨m₀, hm₀, hid, hside, hprice, huser⟩
      refine ⟨hs.id_eq, m₀, hm₀, hid, hside, hprice, ?_⟩
      rw [huser]
      rw [hs.same, Order.userId_withRemaining] at hother
      exact hother.symm

theorem mem_withRemaining_cons {r : Decimal} :
    ∀ o ∈ m.withRemaining r ::ₘ others, o ∈ others ∨ ∃ r, o = m.withRemaining r := by
  intro o ho
  rcases Multiset.mem_cons.mp ho with rfl | ho
  · exact Or.inr ⟨r, rfl⟩
  · exact Or.inl ho

/-- Every turn keeps the frame. -/
theorem Turn.framed {t : Loop.Turn Pass (Pass × MatchExit)} (ht : a.Turn t) (hs : Sound taker a)
    (h : Framed P₀ taker a) : Framed P₀ taker (after t) := by
  have hids := ht.ids_le
  cases ht with
  | exhausted => exact h
  | cancelTaker hm =>
    refine h.change hs hm (rfl : _ = { a.pool with resting := a.pool.resting }) rfl hids
      ?_ ?_ (by simp)
    · intro o ho
      rw [hm.pool] at ho
      rcases Multiset.mem_cons.mp ho with rfl | ho
      · exact Or.inr ⟨o.remaining, rfl⟩
      · exact Or.inl ho
    · intro o ho
      exact Multiset.mem_of_le hm.others_le ho
  | cancelMaker hm =>
    exact h.change hs hm rfl rfl hids (fun o ho => Or.inl ho) (fun o ho => ho) (by simp)
  | decrementTaker hm =>
    exact h.change hs hm rfl rfl hids mem_withRemaining_cons
      (fun o ho => Multiset.mem_cons_of_mem ho) (by simp)
  | decrementMaker hm =>
    exact h.change hs hm rfl rfl hids (fun o ho => Or.inl ho) (fun o ho => ho) (by simp)
  | decrementBoth hm =>
    exact h.change hs hm rfl rfl hids (fun o ho => Or.inl ho) (fun o ho => ho) (by simp)
  | fillPart hm hother =>
    refine h.change hs hm rfl rfl hids mem_withRemaining_cons
      (fun o ho => Multiset.mem_cons_of_mem ho) ?_
    intro f hf
    exact ⟨by simpa using hf, hother⟩
  | @fillWhole price m others hm hother _ r hoco =>
    -- first the fill, then the OCO cancel of the filled order
    have hfill : Framed P₀ taker { a with
        pool := { a.pool with resting := others }
        events := a.events ++ [.fill (fillOf a.taker m price)] } := by
      refine h.change hs hm rfl rfl (Pool.ids_le_of_le hm.others_le (le_refl _))
        (fun o ho => Or.inl ho) (fun o ho => ho) ?_
      intro f hf
      exact ⟨by simpa using hf, hother⟩
    have hleft : Left P₀ r.1 m.id := by
      have hunique := (Multiset.nodup_cons.mp hs.unique).2
      rw [hm.ids_eq, Multiset.nodup_cons] at hunique
      exact ⟨Multiset.mem_of_le h.ids hm.mem_ids,
        fun hmem => hunique.1 (Multiset.mem_of_le hoco.ids_le hmem)⟩
    rcases ocoCancel_frame hoco hfill.links with ⟨hlinks, hresting, hstops, hnofill⟩
    have hnew : ∀ o, Struck P₀ (· = m.id) r.2 o → Struck P₀ (Left P₀ r.1)
        (a.events ++ [.fill (fillOf a.taker m price)] ++ r.2) o := by
      intro o ho
      refine ho.mono (fun _ h => List.mem_append_right _ h) ?_
      rintro y rfl
      exact hleft
    refine ⟨hlinks, hids.trans h.ids, ?_, ?_, ?_, ?_⟩
    · intro o ho
      exact hfill.origin o (Multiset.mem_of_le hoco.resting_le ho)
    · intro o ho hside
      rcases hfill.own o ho hside with ho | hstruck
      · rcases hresting o ho with ho | hstruck
        · exact Or.inl ho
        · exact Or.inr (hnew o hstruck)
      · exact Or.inr (hstruck.mono (fun _ h => List.mem_append_left _ h) (Left.mono hoco.ids_le))
    · intro o ho
      rcases hfill.stops o ho with ho | hstruck
      · rcases hstops o ho with ho | hstruck
        · exact Or.inl ho
        · exact Or.inr (hnew o hstruck)
      · exact Or.inr (hstruck.mono (fun _ h => List.mem_append_left _ h) (Left.mono hoco.ids_le))
    · intro f hf
      rcases List.mem_append.mp hf with hf | hf
      · exact hfill.fills f hf
      · exact absurd hf (hnofill f)

/-- What finalising the taker leaves alone. -/
theorem Finalize.framed {r : Pool × List EngineEvent} (hfinal : a.Finalize r)
    (h : Framed P₀ taker a) :
    (∀ o ∈ a.pool.resting, o ∈ r.1.resting ∨ Struck P₀ (· = a.taker.id) r.2 o) ∧
      (∀ o ∈ a.pool.stops, o ∈ r.1.stops ∨ Struck P₀ (· = a.taker.id) r.2 o) ∧
      ∀ f, EngineEvent.fill f ∉ r.2 := by
  cases hfinal with
  | filled _ hoco => exact (ocoCancel_frame hoco h.links).2
  -- the taker's own cancel strikes nothing, that of its sibling does
  | cancelled _ reason _ _ hoco =>
    rcases ocoCancel_frame hoco h.links with ⟨_, hresting, hstops, hfills⟩
    refine ⟨?_, ?_, ?_⟩
    · intro o ho
      rcases hresting o ho with ho | ho
      · exact Or.inl ho
      · exact Or.inr (ho.mono (fun _ h => List.mem_cons_of_mem _ h) (fun _ h => h))
    · intro o ho
      rcases hstops o ho with ho | ho
      · exact Or.inl ho
      · exact Or.inr (ho.mono (fun _ h => List.mem_cons_of_mem _ h) (fun _ h => h))
    · intro f hf
      rcases List.mem_cons.mp hf with hf | hf
      · cases hf
      · exact hfills f hf
  | rested =>
    exact ⟨fun o ho => Or.inl (Multiset.mem_cons_of_mem ho), fun o ho => Or.inl ho, by simp⟩

/-- A taker whose OCO sibling was cancelled did not rest. -/
theorem Finalize.struck_gone {r : Pool × List EngineEvent} (hfinal : a.Finalize r)
    (hs : Sound taker a) (hstruck : Struck P₀ (· = a.taker.id) r.2 o) : a.taker.id ∉ r.1.ids := by
  have hfresh : a.taker.id ∉ a.pool.ids := by
    rw [hs.id_eq]
    exact hs.taker_notMem
  cases hfinal with
  | filled _ hoco => exact fun h => hfresh (Multiset.mem_of_le hoco.ids_le h)
  | cancelled _ _ _ _ hoco => exact fun h => hfresh (Multiset.mem_of_le hoco.ids_le h)
  | rested =>
    have hevent := hstruck.1
    simp at hevent

end Pass

/-- The frame holds when a pass is entered. -/
theorem framed_enterLoop (b : OrderBook) (taker : Order) :
    (b.enterLoop taker).toPass.Framed b.toPool taker where
  links := fun _ _ h => h
  ids := le_refl _
  origin := fun o ho => ⟨o, ho, rfl⟩
  own := fun o ho _ => Or.inl ho
  stops := fun o ho => Or.inl ho
  fills := by
    intro f hf
    cases hf

/-- The frame of a whole pass whose last trade was at `last`. A terminal order
is the taker or an order of `P₀` that is not live after the pass. -/
structure PassFramed (P₀ : Pool) (taker : Order) (last : Option Decimal)
    (r : Pool × List EngineEvent × List Order) : Prop where
  own : ∀ o ∈ P₀.resting, o.side = taker.side → o ∈ r.1.resting ∨
    Pass.Struck P₀ (fun y => (y = taker.id ∨ y ∈ P₀.ids) ∧ y ∉ r.1.ids) r.2.1 o
  stops : ∀ o ∈ P₀.stops, o ∈ r.1.stops ∨
    Pass.Struck P₀ (fun y => (y = taker.id ∨ y ∈ P₀.ids) ∧ y ∉ r.1.ids) r.2.1 o ∨
    (convertStop o ∈ r.2.2 ∧ ∃ p, last = some p ∧ o.TriggeredBy p)
  fills : ∀ f, EngineEvent.fill f ∈ r.2.1 → f.takerOrderId = taker.id ∧
    ∃ m ∈ P₀.resting, m.id = f.makerOrderId ∧ m.side = taker.side.opposite ∧
      m.price = some f.price ∧ m.userId ≠ taker.userId

theorem Pass.Drains.mem_stops {P : Pool} {last : Option Decimal} {hit : List Order}
    {others : Multiset Order} (h : Pass.Drains P last hit others) {o : Order} (ho : o ∈ P.stops) :
    o ∈ others ∨ (convertStop o ∈ hit.map convertStop ∧ ∃ p, last = some p ∧ o.TriggeredBy p) := by
  rw [h.split] at ho
  rcases Multiset.mem_add.mp ho with ho | ho
  · exact Or.inr ⟨List.mem_map_of_mem ho, h.hits o ho⟩
  · exact Or.inl ho

theorem Pass.Drains.ids_le {P : Pool} {last : Option Decimal} {hit : List Order}
    {others : Multiset Order} (h : Pass.Drains P last hit others) :
    Pool.ids { P with stops := others } ≤ P.ids := by
  rw [h.ids_eq]
  exact Multiset.le_add_left _ _

/-- The end of a pass keeps the frame. -/
theorem Pass.Finish.framed {P₀ : Pool} {taker : Order} {a : Pass} {exit : MatchExit}
    {r : Pool × List EngineEvent × List Order} (hfinish : a.Finish exit r)
    (hs : a.Sound taker) (hfresh : taker.id ∉ P₀.ids) (h : a.Framed P₀ taker) :
    PassFramed P₀ taker a.lastTradePrice r := by
  cases hfinish with
  | @consumed hit others hdrain =>
    have hterm : ∀ y, Pass.Left P₀ a.pool y →
        (y = taker.id ∨ y ∈ P₀.ids) ∧ y ∉ Pool.ids { a.pool with stops := others } :=
      fun y hy => ⟨Or.inr hy.1, (Pass.Left.mono hdrain.ids_le y hy).2⟩
    refine ⟨?_, ?_, h.fills⟩
    · intro o ho hside
      rcases h.own o ho hside with ho | ho
      · exact Or.inl ho
      · exact Or.inr (ho.mono (fun _ h => h) hterm)
    · intro o ho
      rcases h.stops o ho with ho | ho
      · rcases hdrain.mem_stops ho with ho | ho
        · exact Or.inl ho
        · exact Or.inr (Or.inr ho)
      · exact Or.inr (Or.inl (ho.mono (fun _ h => h) hterm))
  | @finalized P events hfinal hit others hdrain =>
    rcases hfinal.framed h with ⟨hresting, hstops, hnofill⟩
    -- an order that left during the loop is not the taker, so it stays away
    have hold : ∀ y, Pass.Left P₀ a.pool y →
        (y = taker.id ∨ y ∈ P₀.ids) ∧ y ∉ Pool.ids { P with stops := others } := by
      intro y hy
      refine ⟨Or.inr hy.1, ?_⟩
      intro hmem
      have hmem' := Multiset.mem_of_le (hdrain.ids_le.trans hfinal.ids_le) hmem
      rw [hs.id_eq] at hmem'
      rcases Multiset.mem_cons.mp hmem' with rfl | hmem'
      · exact hfresh hy.1
      · exact hy.2 hmem'
    have hnew : ∀ o, Pass.Struck P₀ (· = a.taker.id) events o →
        Pass.Struck P₀ (fun y => (y = taker.id ∨ y ∈ P₀.ids) ∧
          y ∉ Pool.ids { P with stops := others }) (a.events ++ events) o := by
      intro o ho
      refine ho.mono (fun _ h => List.mem_append_right _ h) ?_
      rintro y rfl
      exact ⟨Or.inl hs.id_eq,
        fun hmem => hfinal.struck_gone hs ho (Multiset.mem_of_le hdrain.ids_le hmem)⟩
    refine ⟨?_, ?_, ?_⟩
    · intro o ho hside
      rcases h.own o ho hside with ho | ho
      · rcases hresting o ho with ho | ho
        · exact Or.inl ho
        · exact Or.inr (hnew o ho)
      · exact Or.inr (ho.mono (fun _ h => List.mem_append_left _ h) hold)
    · intro o ho
      rcases h.stops o ho with ho | ho
      · rcases hstops o ho with ho | ho
        · rcases hdrain.mem_stops ho with ho | ho
          · exact Or.inl ho
          · exact Or.inr (Or.inr ho)
        · exact Or.inr (Or.inl (hnew o ho))
      · exact Or.inr (Or.inl (ho.mono (fun _ h => List.mem_append_left _ h) hold))
    · intro f hf
      rcases List.mem_append.mp hf with hf | hf
      · exact h.fills f hf
      · exact absurd hf (hnofill f)

/-! ## What no call changes -/

/-- A property of orders that neither trading nor the activation of a stop
changes. -/
structure Trait (K : Order → Prop) : Prop where
  withRemaining : ∀ o r, K o → K (o.withRemaining r)
  convertStop : ∀ o, K o → K (convertStop o)

namespace Pass

variable {K : Order → Prop}

/-- A turn keeps a trait of all orders. -/
theorem Turn.trait {a : Pass} {t : Loop.Turn Pass (Pass × MatchExit)} (ht : a.Turn t)
    (hK : Trait K) (h : ∀ o ∈ a.pool.live, K o) : ∀ o ∈ (after t).pool.live, K o := by
  have hle : ∀ {P : Pool}, P.resting ≤ a.pool.resting → P.stops ≤ a.pool.stops →
      ∀ o ∈ P.live, K o := by
    intro P hresting hstops o ho
    exact h o (Multiset.mem_of_le (add_le_add hresting hstops) ho)
  -- a maker keeps the trait when it gets smaller
  have hshrink : ∀ {price m others}, a.Faces price m others → ∀ r,
      ∀ o ∈ Pool.live { a.pool with resting := m.withRemaining r ::ₘ others }, K o := by
    intro price m others hm r o ho
    rcases Multiset.mem_add.mp ho with ho | ho
    · rcases Multiset.mem_cons.mp ho with rfl | ho
      · exact hK.withRemaining m r (h m (Multiset.mem_add.mpr (Or.inl hm.mem)))
      · exact h o (Multiset.mem_add.mpr (Or.inl (Multiset.mem_of_le hm.others_le ho)))
    · exact h o (Multiset.mem_add.mpr (Or.inr ho))
  cases ht with
  | exhausted => exact h
  | cancelTaker => exact h
  | cancelMaker hm => exact hle hm.others_le (le_refl _)
  | decrementTaker hm => exact hshrink hm _
  | decrementMaker hm => exact hle hm.others_le (le_refl _)
  | decrementBoth hm => exact hle hm.others_le (le_refl _)
  | fillPart hm => exact hshrink hm _
  | fillWhole hm _ _ hoco => exact hle (hoco.resting_le.trans hm.others_le) hoco.stops_le

/-- So does the end of a run, for the triggered stops too. -/
theorem Finish.trait {a : Pass} {exit : MatchExit} {r : Pool × List EngineEvent × List Order}
    (hfinish : a.Finish exit r) (hK : Trait K) (h : ∀ o ∈ a.pool.live, K o) (ht : K a.taker) :
    (∀ o ∈ r.1.live, K o) ∧ ∀ o ∈ r.2.2, K o := by
  have hdrains : ∀ {P : Pool} {last : Option Decimal} {hit : List Order}
      {others : Multiset Order}, Drains P last hit others → (∀ o ∈ P.live, K o) →
      (∀ o ∈ Pool.live { P with stops := others }, K o) ∧ ∀ o ∈ hit.map convertStop, K o := by
    intro P last hit others hdrain hP
    have hstops : ∀ o ∈ ↑hit + others, K o := by
      intro o ho
      rw [← hdrain.split] at ho
      exact hP o (Multiset.mem_add.mpr (Or.inr ho))
    refine ⟨?_, ?_⟩
    · intro o ho
      rcases Multiset.mem_add.mp ho with ho | ho
      · exact hP o (Multiset.mem_add.mpr (Or.inl ho))
      · exact hstops o (Multiset.mem_add.mpr (Or.inr ho))
    · intro o ho
      rcases List.mem_map.mp ho with ⟨stop, hstop, rfl⟩
      exact hK.convertStop stop (hstops stop (Multiset.mem_add.mpr (Or.inl hstop)))
  cases hfinish with
  | consumed hdrain => exact hdrains hdrain h
  | @finalized P events hfinal hit others hdrain =>
    refine hdrains hdrain ?_
    -- the taker itself has the trait if it rests; its sibling only leaves
    have hoco : ∀ {Q : Pool × List EngineEvent}, Pool.OcoCancel a.pool a.taker.id Q →
        ∀ o ∈ Q.1.live, K o := by
      intro Q hoco o ho
      exact h o (Multiset.mem_of_le (add_le_add hoco.resting_le hoco.stops_le) ho)
    generalize hr : (P, events) = r at hfinal
    cases hfinal with
    | filled _ hcancel =>
      cases hr
      exact hoco hcancel
    | cancelled _ _ _ _ hcancel =>
      cases hr
      exact hoco hcancel
    | rested =>
      cases hr
      intro o ho
      rcases Multiset.mem_add.mp ho with ho | ho
      · rcases Multiset.mem_cons.mp ho with rfl | ho
        · exact ht
        · exact h o (Multiset.mem_add.mpr (Or.inl ho))
      · exact h o (Multiset.mem_add.mpr (Or.inr ho))

end Pass

section Traits

variable {K : Order → Prop} {b b' : OrderBook} {taker : Order} {fuel : ℕ}
  {events : List EngineEvent} {triggered : List Order}

/-- A run keeps a trait of all orders. -/
theorem runMatchingLoop_trait (h : Enters b taker) (hK : Trait K) (hb : ∀ o ∈ b.pool, K o)
    (ht : K taker) (hrun : b.runMatchingLoop fuel taker = some (b', events, triggered)) :
    (∀ o ∈ b'.pool, K o) ∧ ∀ o ∈ triggered, K o := by
  refine runMatchingLoop_induct h (fun _ s => ∀ o ∈ s.book.pool, K o)
    (fun _ r => (∀ o ∈ r.1.live, K o) ∧ ∀ o ∈ r.2.2, K o) hb ?_ ?_ hrun
  · intro past s s' _ hs hinv hspec
    exact (hspec.refines hs.book).trait hK hinv
  · intro past s s' exit r _ hs hinv hspec hs' hfinish
    refine hfinish.trait hK ((hspec.refines hs.book).trait hK hinv) ?_
    rw [hs'.pass.same]
    exact hK.withRemaining taker _ ht

/-- A call keeps the traits of the orders of the book. -/
theorem matchOrder_trait (hb : b.Sound) (htaker : taker.Admissible)
    (hfresh : ∀ o ∈ b.pool, o.id ≠ taker.id) (hK : Trait K) (hall : ∀ o ∈ b.pool, K o)
    (ht : K taker) (hcall : b.matchOrder fuel taker = some (b', events)) :
    ∀ o ∈ b'.pool, K o := by
  have hspec := matchOrder_spec htaker hcall
  generalize hr : (b', events) = r at hspec
  cases hspec with
  | rejected =>
    cases hr
    exact hall
  -- a new stop has the trait
  | registered stops _ _ hins =>
    cases hr
    intro o ho
    rcases mem_pool.mp ho with ho | ho
    · exact hall o (mem_pool.mpr (Or.inl ho))
    · rcases List.mem_cons.mp ((StopRegistry.insert_orders hins).subset ho) with rfl | ho
      · exact ht
      · exact hall o (mem_pool.mpr (Or.inr ho))
  | matched _ hactive hloop =>
    have hc₀ := cascadeSound_enter hb ⟨htaker.positive, hactive, htaker.priced⟩ hfresh
    -- a pass hands it on to the orders it triggers
    have hstep : ∀ c c', CascadeSound c → ((∀ o ∈ c.book.pool, K o) ∧ ∀ o ∈ c.workQueue, K o) →
        CascadeStep fuel c c' → (∀ o ∈ c'.book.pool, K o) ∧ ∀ o ∈ c'.workQueue, K o := by
      rintro c c' hc ⟨hbook, hqueue⟩ hstep
      cases hstep with
      | push hq hrun =>
        rcases runMatchingLoop_trait (hc.enters hq) hK hbook
          (hqueue _ (mem_workQueue_head hq)) hrun with ⟨hbook', htriggered⟩
        refine ⟨hbook', ?_⟩
        intro o ho
        rcases List.mem_append.mp ho with ho | ho
        · exact htriggered o (List.mem_reverse.mp ho)
        · exact hqueue o (mem_workQueue_tail hq ho)
      | cut hq hrun =>
        rcases runMatchingLoop_trait (hc.enters hq) hK hbook
          (hqueue _ (mem_workQueue_head hq)) hrun with ⟨hbook', _⟩
        exact ⟨hbook', fun o ho => hqueue o (mem_workQueue_tail hq ho)⟩
    rcases cascade_induct hc₀ (fun c => (∀ o ∈ c.book.pool, K o) ∧ ∀ o ∈ c.workQueue, K o)
      ⟨hall, fun o ho => List.mem_singleton.mp ho ▸ ht⟩
      (fun c c' _ hc hinv h => hstep c c' hc hinv h) hloop with ⟨c, _, _, heq, _, hinv⟩
    cases hr.trans heq
    exact hinv.1

end Traits

end CryptoCex.Core
