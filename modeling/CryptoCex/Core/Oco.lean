import CryptoCex.Core.Walk

/-!
# OCO pairs through a call

Two orders that name each other are a pair: when one of them is gone the other
has to go too. The book keeps a link from each leg to the other and follows it
where an order is filled or cancelled by its own type. `Bound` is the invariant of
this mechanism over all the places an order can be in during a call: the book, the
taker of the pass and the work queue of the cascade. A leg that is somewhere has
its link, and where both legs were there, one does not go without the other.

Three ways out of the book do not follow the link, and the link finds a leg only
in the book. `PassKeeps` and `CallKeeps` exclude what goes wrong: self-trade
prevention or the depth guard takes one leg alone, or a leg goes while its sibling
is the taker or waits in the queue. `matchOrder_bound` is the result for a call.
-/

namespace CryptoCex.Core

open Loop OrderBook

/-- Two orders that name each other. -/
structure OcoPair where
  legA : Uuid
  legB : Uuid
  ne : legA ≠ legB

namespace OcoPair

/-- `x` is a leg and `y` is the other. -/
def Sibling (L : OcoPair) (x y : Uuid) : Prop :=
  (x = L.legA ∧ y = L.legB) ∨ (x = L.legB ∧ y = L.legA)

variable {L : OcoPair} {x y z : Uuid}

/-- Siblings are siblings of each other. -/
theorem Sibling.symm (h : L.Sibling x y) : L.Sibling y x := by
  rcases h with ⟨hx, hy⟩ | ⟨hx, hy⟩
  · exact Or.inr ⟨hy, hx⟩
  · exact Or.inl ⟨hy, hx⟩

theorem Sibling.ne (h : L.Sibling x y) : x ≠ y := by
  rcases h with ⟨rfl, rfl⟩ | ⟨rfl, rfl⟩
  · exact L.ne
  · exact L.ne.symm

/-- An order has one sibling. -/
theorem Sibling.unique (h : L.Sibling x y) (h' : L.Sibling x z) : z = y := by
  rcases h with ⟨rfl, rfl⟩ | ⟨rfl, rfl⟩
  · rcases h' with ⟨_, rfl⟩ | ⟨h, _⟩
    · rfl
    · exact absurd h L.ne
  · rcases h' with ⟨h, _⟩ | ⟨_, rfl⟩
    · exact absurd h.symm L.ne
    · rfl

/-- The legs of a pair and their links, over the places orders can be in. `both`
says that both legs were there. -/
structure Bound (L : OcoPair) (both : Prop) (links : OrdMap Uuid Uuid)
    (places : Multiset Uuid) : Prop where
  unique : places.Nodup
  /-- No other order is linked to a leg. -/
  closed : ∀ x l, links.find? x = some l → ∀ p q, L.Sibling p q → (x = p ↔ l = q)
  /-- A leg has its link. -/
  held : ∀ p q, L.Sibling p q → p ∈ places → links.find? p = some q
  /-- One leg does not go without the other. -/
  together : both → ∀ p q, L.Sibling p q → p ∈ places → q ∈ places

variable {both : Prop} {links : OrdMap Uuid Uuid} {places places' : Multiset Uuid}

/-- Orders leave, but not one leg alone. -/
theorem Bound.shrink (h : L.Bound both links places) (hle : places' ≤ places)
    (hkeep : ∀ p q, L.Sibling p q → p ∈ places' → q ∈ places → q ∈ places') :
    L.Bound both links places' where
  unique := Multiset.nodup_of_le hle h.unique
  closed := h.closed
  held := fun p q hpq hp => h.held p q hpq (Multiset.mem_of_le hle hp)
  together := fun hboth p q hpq hp =>
    hkeep p q hpq hp (h.together hboth p q hpq (Multiset.mem_of_le hle hp))

/-- An order that is not a leg leaves. -/
theorem Bound.leave (h : L.Bound both links (x ::ₘ places)) (hx : ∀ q, ¬ L.Sibling x q) :
    L.Bound both links places := by
  refine h.shrink (Multiset.le_cons_self _ _) ?_
  intro p q hpq _ hq
  rcases Multiset.mem_cons.mp hq with rfl | hq
  · exact absurd hpq.symm (hx p)
  · exact hq

/-- The links of an order and of the order it names are dropped. The first is gone,
and if it is a leg, so is the other. -/
theorem Bound.unlink (h : L.Bound both links places) {l : Uuid} (hlink : links.find? x = some l)
    (hle : places' ≤ places) (hx : x ∉ places') (hl : ∀ q, L.Sibling x q → l ∉ places')
    (hkeep : ∀ y ∈ places, y ≠ x → y ≠ l → y ∈ places') :
    L.Bound both ((links.erase x).erase l) places' := by
  -- a leg that is still there is neither of the two
  have hne : ∀ p q, L.Sibling p q → p ∈ places' → p ≠ x ∧ p ≠ l := by
    intro p q hpq hp
    refine ⟨fun hpx => hx (hpx ▸ hp), ?_⟩
    rintro rfl
    have hxq : x = q := (h.closed x p hlink q p hpq.symm).mpr rfl
    exact hl p (hxq ▸ hpq.symm) hp
  refine ⟨Multiset.nodup_of_le hle h.unique, ?_, ?_, ?_⟩
  · intro y l' hfind
    rw [OrdMap.find?_erase, OrdMap.find?_erase] at hfind
    split_ifs at hfind
    exact h.closed y l' hfind
  · intro p q hpq hp
    rcases hne p q hpq hp with ⟨hpx, hpl⟩
    rw [OrdMap.find?_erase, OrdMap.find?_erase, if_neg hpl, if_neg hpx]
    exact h.held p q hpq (Multiset.mem_of_le hle hp)
  · -- its sibling is not either, so both are still there
    intro hboth p q hpq hp
    have hq := h.together hboth p q hpq (Multiset.mem_of_le hle hp)
    refine hkeep q hq ?_ ?_
    · rintro rfl
      have hlp : l = p := (h.closed q l hlink q p hpq.symm).mp rfl
      exact (hne p q hpq hp).2 hlp.symm
    · rintro rfl
      have hxp : x = p := (h.closed x q hlink p q hpq).mpr rfl
      exact (hne p q hpq hp).1 hxp.symm

/-- A link is registered that belongs to the pair or has nothing to do with it. -/
theorem Bound.link (h : L.Bound both links places) {l : Uuid}
    (hpair : ∀ p q, L.Sibling p q → (x = p ↔ l = q)) :
    L.Bound both ((links.insert x l).insert l x) places := by
  refine ⟨h.unique, ?_, ?_, h.together⟩
  · intro y l' hfind p q hpq
    rw [OrdMap.find?_insert, OrdMap.find?_insert] at hfind
    split_ifs at hfind with hyl hyx
    · cases hfind
      rw [hyl]
      exact (hpair q p hpq.symm).symm
    · cases hfind
      rw [hyx]
      exact hpair p q hpq
    · exact h.closed y l' hfind p q hpq
  · intro p q hpq hp
    rw [OrdMap.find?_insert, OrdMap.find?_insert]
    split_ifs with hpl hpx
    · rw [(hpair q p hpq.symm).mpr hpl.symm]
    · rw [(hpair p q hpq).mp hpx.symm]
    · exact h.held p q hpq hp

/-- An order comes in. If it is a leg it has its link, and its sibling is there if both
legs are to be. -/
theorem Bound.enter (h : L.Bound both links places) {both' : Prop} (hfresh : x ∉ places)
    (hlink : ∀ q, L.Sibling x q → links.find? x = some q)
    (hsibling : both' → ∀ q, L.Sibling x q → q ∈ places)
    (hboth : both' → (∀ q, ¬ L.Sibling x q) → both) : L.Bound both' links (x ::ₘ places) := by
  refine ⟨Multiset.nodup_cons.mpr ⟨hfresh, h.unique⟩, h.closed, ?_, ?_⟩
  · intro p q hpq hp
    rcases Multiset.mem_cons.mp hp with rfl | hp
    · exact hlink q hpq
    · exact h.held p q hpq hp
  · intro hall p q hpq hp
    rcases Multiset.mem_cons.mp hp with rfl | hp
    · exact Multiset.mem_cons_of_mem (hsibling hall q hpq)
    · -- a leg that was there waits for the new order, if that is its sibling
      by_cases hqx : q = x
      · exact Multiset.mem_cons.mpr (Or.inl hqx)
      · have hx : ∀ r, ¬ L.Sibling x r := by
          intro r hr
          have hcases : x = p ∨ x = q := by
            rcases hpq with ⟨rfl, rfl⟩ | ⟨rfl, rfl⟩ <;> rcases hr with ⟨rfl, _⟩ | ⟨rfl, _⟩ <;> simp
          rcases hcases with rfl | rfl
          · exact hfresh hp
          · exact hqx rfl
        exact Multiset.mem_cons_of_mem (h.together (hboth hall hx) p q hpq hp)

end OcoPair

open OcoPair

variable {L : OcoPair} {both : Prop} {W : Multiset Uuid} {x : Uuid}

/-- A cancelled order is not in the pool any more. -/
theorem Pool.Cancel.gone {P : Pool} {id : Uuid} {reason : CancelReason}
    {r : Pool × List EngineEvent} (h : Pool.Cancel P id reason r) (hunique : P.ids.Nodup) :
    id ∉ r.1.ids := by
  cases h with
  | absent hid =>
    intro hmem
    rcases Multiset.mem_map.mp hmem with ⟨o, ho, hoid⟩
    exact hid o ho hoid
  | resting o others hid hpool =>
    have hcons : P.ids = id ::ₘ Pool.ids { P with resting := others } := by
      simp only [Pool.ids, Pool.live]
      rw [hpool, Multiset.cons_add, Multiset.map_cons, hid]
    rw [hcons] at hunique
    exact (Multiset.nodup_cons.mp hunique).1
  | stop o others hid hpool =>
    have hcons : P.ids = id ::ₘ Pool.ids { P with stops := others } := by
      simp only [Pool.ids, Pool.live]
      rw [hpool, Multiset.add_cons, Multiset.map_cons, hid]
    rw [hcons] at hunique
    exact (Multiset.nodup_cons.mp hunique).1

/-- The other orders stay. -/
theorem Pool.Cancel.stays {P : Pool} {id y : Uuid} {reason : CancelReason}
    {r : Pool × List EngineEvent} (h : Pool.Cancel P id reason r) (hy : y ∈ P.ids)
    (hne : y ≠ id) : y ∈ r.1.ids := by
  rcases h.kept hy with hkept | hnamed
  · exact hkept
  · cases h with
    | absent => cases hnamed
    | resting => exact absurd (List.mem_singleton.mp hnamed) hne
    | stop => exact absurd (List.mem_singleton.mp hnamed) hne

/-- An order leaves, and its link is followed in the book. -/
theorem Pool.OcoCancel.bound {P : Pool} {r : Pool × List EngineEvent}
    (hoco : Pool.OcoCancel P x r) (h : L.Bound both P.links (x ::ₘ (P.ids + W)))
    (hW : ∀ q, L.Sibling x q → q ∉ W) : L.Bound both r.1.links (r.1.ids + W) := by
  have hout : x ∉ P.ids + W := (Multiset.nodup_cons.mp h.unique).1
  have hunique : (P.ids + W).Nodup := (Multiset.nodup_cons.mp h.unique).2
  cases hoco with
  -- without a link the order had no sibling
  | unlinked hlink =>
    refine h.leave ?_
    intro q hq
    rw [h.held x q hq (Multiset.mem_cons_self _ _)] at hlink
    cases hlink
  -- with one the sibling leaves too, and the link with both
  | @linked l hlink r hcancel =>
    have hids : r.1.ids + W ≤ P.ids + W :=
      add_le_add_left (Pool.ids_le_of_le hcancel.resting_le hcancel.stops_le) W
    have hbound := h.unlink hlink (hids.trans (Multiset.le_cons_self _ _))
      (fun hmem => hout (Multiset.mem_of_le hids hmem)) ?_ ?_
    · rw [hcancel.links_eq]
      exact hbound
    · intro q hq hmem
      have hlq : l = q :=
        Option.some.inj (hlink.symm.trans (h.held x q hq (Multiset.mem_cons_self _ _)))
      rcases Multiset.mem_add.mp hmem with hmem | hmem
      · exact hcancel.gone (Multiset.nodup_add.mp hunique).1 hmem
      · exact hW q hq (hlq ▸ hmem)
    · intro y hy hyx hyl
      rcases Multiset.mem_add.mp ((Multiset.mem_cons.mp hy).resolve_left hyx) with hy | hy
      · exact Multiset.mem_add.mpr (Or.inl (hcancel.stays hy hyl))
      · exact Multiset.mem_add.mpr (Or.inr hy)

/-- A cancel of a book follows the link of the order, whether it is there or not. -/
theorem cancelOrder_bound {b : OrderBook} (hb : b.Consistent)
    (h : L.Bound both b.ocoLinks b.toPool.ids) (id : Uuid) :
    L.Bound both (b.cancelOrder id).1.ocoLinks (b.cancelOrder id).1.toPool.ids := by
  unfold OrderBook.cancelOrder
  cases hlink : b.ocoLinks.find? id with
  -- an order without a link is not one of a pair that is held
  | none =>
    have hcancel := (hb.cancels id .adminCancel).toPool
    have hids := Pool.ids_le_of_le hcancel.resting_le hcancel.stops_le
    have hbound := h.shrink hids ?_
    · rw [show b.ocoLinks = _ from hcancel.links_eq.symm] at hbound
      exact hbound
    · intro p q hpq _ hq
      refine hcancel.stays hq ?_
      rintro rfl
      rw [h.held q p hpq.symm hq] at hlink
      cases hlink
  -- both legs are cancelled and neither is linked any more
  | some l =>
    have hb₀ : (b.unlink id l).Consistent := consistent_unlink.mpr hb
    have hfirst := (hb₀.cancels id .adminCancel).toPool
    have hb₁ := (hb₀.cancels id .adminCancel).consistent hb₀
    have hsecond := (hb₁.cancels l .oco).toPool
    have hids₁ := Pool.ids_le_of_le hfirst.resting_le hfirst.stops_le
    have hids₂ := Pool.ids_le_of_le hsecond.resting_le hsecond.stops_le
    have hunique : (b.unlink id l).toPool.ids.Nodup := h.unique
    have hunique₁ := Multiset.nodup_of_le hids₁ hunique
    have hbound := h.unlink hlink (hids₂.trans hids₁)
      (fun hmem => hfirst.gone hunique (Multiset.mem_of_le hids₂ hmem))
      (fun _ _ => hsecond.gone hunique₁) ?_
    · rw [show (b.ocoLinks.erase id).erase l = _ from
        (hsecond.links_eq.trans hfirst.links_eq).symm] at hbound
      exact hbound
    · intro y hy hyid hyl
      exact hsecond.stays (hfirst.stays hy hyid) hyl

/-! ## One turn -/

variable {b b' : OrderBook} {taker m : Order} {fuel : ℕ} {s s' : MatchState} {price : Decimal}
  {rest : List Order} {exit : MatchExit} {events : List EngineEvent} {triggered : List Order}

/-- Where an order can be during a pass: it is the taker, it is in the book, or it
waits. -/
def MatchState.places (s : MatchState) (W : Multiset Uuid) : Multiset Uuid :=
  s.taker.id ::ₘ (s.book.toPool.ids + W)

/-- Self-trade prevention takes the order away at this turn. -/
def StpRemoves (s : MatchState) (x : Uuid) : Prop :=
  ∃ price m rest, Meets s price m rest ∧ s.taker.userId = m.userId ∧
    ((x = m.id ∧ (s.taker.stpMode = .cancelMaker ∨
        (s.taker.stpMode = .decrement ∧ m.remaining ≤ s.taker.remaining))) ∨
      (x = s.taker.id ∧ (s.taker.stpMode = .cancelTaker ∨
        (s.taker.stpMode = .decrement ∧ s.taker.remaining ≤ m.remaining))))

/-- The turn trades the whole of the resting order. -/
def UsesUp (s : MatchState) (x : Uuid) : Prop :=
  ∃ price m rest, Meets s price m rest ∧ s.taker.userId ≠ m.userId ∧
    m.remaining = (fillOf s.taker m price).quantity ∧ x = m.id

/-- The turn does not tear the pair apart: self-trade prevention does not take one
leg alone, and a leg is not used up while the other is out of reach of its link. -/
structure TurnKeeps (L : OcoPair) (W : Multiset Uuid) (s : MatchState) : Prop where
  stp : ∀ x y, L.Sibling x y → StpRemoves s x → y ∈ s.places W → StpRemoves s y
  used : ∀ x y, L.Sibling x y → UsesUp s x → y ≠ s.taker.id ∧ y ∉ W

/-- Which of the two orders self-trade prevention takes off, by mode and remainders. -/
theorem Meets.stpRemoves_iff (hm : Meets s price m rest) (hown : s.taker.userId = m.userId) :
    StpRemoves s x ↔
      (x = m.id ∧ (s.taker.stpMode = .cancelMaker ∨
        (s.taker.stpMode = .decrement ∧ m.remaining ≤ s.taker.remaining))) ∨
      (x = s.taker.id ∧ (s.taker.stpMode = .cancelTaker ∨
        (s.taker.stpMode = .decrement ∧ s.taker.remaining ≤ m.remaining))) := by
  constructor
  · rintro ⟨_, _, _, hm', _, h⟩
    rcases hm.unique hm' with ⟨rfl, rfl, rfl⟩
    exact h
  · intro h
    exact ⟨price, m, rest, hm, hown, h⟩

/-- What self-trade prevention takes, it takes from both legs. -/
theorem OcoPair.Bound.stp {links : OrdMap Uuid Uuid} (h : L.Bound both links (s.places W))
    (hkeeps : TurnKeeps L W s) {places' : Multiset Uuid} (hle : places' ≤ s.places W)
    (hgone : ∀ y ∈ s.places W, y ∉ places' → StpRemoves s y)
    (hout : ∀ y, StpRemoves s y → y ∉ places') : L.Bound both links places' := by
  refine h.shrink hle ?_
  intro p q hpq hp hq
  by_contra hq'
  have hp' := hkeeps.stp q p hpq.symm (hgone q hq hq') (Multiset.mem_of_le hle hp)
  exact hout p hp' hp

/-- Self-trade prevention takes the resting order. -/
theorem OcoPair.Bound.stp_maker {links : OrdMap Uuid Uuid} (h : L.Bound both links (s.places W))
    (hkeeps : TurnKeeps L W s) (hm : Meets s price m rest) (hown : s.taker.userId = m.userId)
    (htaken : s.taker.stpMode = .cancelMaker ∨
      (s.taker.stpMode = .decrement ∧ m.remaining < s.taker.remaining)) :
    L.Bound both links (s.taker.id ::ₘ
      ((s.book.dropFront s.taker.side.opposite price m rest).toPool.ids + W)) := by
  have hplaces : s.places W = m.id ::ₘ (s.taker.id ::ₘ
      ((s.book.dropFront s.taker.side.opposite price m rest).toPool.ids + W)) := by
    rw [MatchState.places, hm.ids_dropFront, Multiset.cons_add, Multiset.cons_swap]
  have hunique := h.unique
  rw [hplaces] at hunique
  refine h.stp hkeeps (hplaces ▸ Multiset.le_cons_self _ _) ?_ ?_
  · intro y hy hy'
    rw [hplaces] at hy
    rw [hm.stpRemoves_iff hown]
    refine Or.inl ⟨(Multiset.mem_cons.mp hy).resolve_right hy', ?_⟩
    exact htaken.imp_right fun h => ⟨h.1, h.2.le⟩
  · -- the order that was taken is gone, and the taker is not: it cancels or decrements the maker
    -- only
    intro y hy
    rcases (hm.stpRemoves_iff hown).mp hy with ⟨rfl, _⟩ | ⟨_, hmode⟩
    · exact (Multiset.nodup_cons.mp hunique).1
    · rcases htaken with htaken | ⟨htaken, hlt⟩ <;> rcases hmode with hmode | ⟨hmode, hle⟩
      · simp [htaken] at hmode
      · simp [htaken] at hmode
      · simp [htaken] at hmode
      · exact absurd hlt (not_lt.mpr hle)

/-- The pair through a turn after which the loop goes on. -/
theorem TurnSpec.bound_next (ht : TurnSpec s (.next s')) (hs : LoopSound taker s)
    (hkeeps : TurnKeeps L W s) (h : L.Bound both s.book.ocoLinks (s.places W)) :
    L.Bound both s'.book.ocoLinks (s'.places W) := by
  cases ht with
  -- self-trade prevention takes a maker without asking for its link
  | cancelMaker hm hown hmode =>
    rw [MatchState.places, ocoLinks_dropFront]
    exact h.stp_maker hkeeps hm hown (Or.inl hmode)
  | decrementMaker hm hown hmode hgt =>
    rw [MatchState.places, ocoLinks_dropFront]
    exact h.stp_maker hkeeps hm hown (Or.inr ⟨hmode, hgt⟩)
  | @fillPart price m rest hm hother hpart =>
    have hids := hm.ids_shrinkFront
      (levelAfterFill_perm m rest (fillOf s.taker m price).quantity)
    rw [MatchState.places, hids, ocoLinks_withQueue]
    exact h
  -- a filled maker leaves with its sibling
  | @fillWhole price m rest hm hother hwhole =>
    have hplaces : s.places W = m.id ::ₘ
        ((s.book.dropFront s.taker.side.opposite price m rest).toPool.ids +
          (s.taker.id ::ₘ W)) := by
      rw [MatchState.places, hm.ids_dropFront, Multiset.cons_add, Multiset.cons_swap,
        Multiset.add_cons]
    rw [hplaces] at h
    have hoco := (hs.book.dropFront hm.level).ocoCancel m.id
    have hlinks : (s.book.dropFront s.taker.side.opposite price m rest).toPool.links =
        s.book.ocoLinks := ocoLinks_dropFront _ _ _ m _
    rw [← hlinks] at h
    have hbound := hoco.bound h ?_
    · rw [MatchState.places, ← Multiset.add_cons]
      exact hbound
    · intro q hq hmem
      rcases hkeeps.used m.id q hq ⟨price, m, rest, hm, hother, hwhole, rfl⟩ with ⟨hne, hout⟩
      rcases Multiset.mem_cons.mp hmem with heq | hmem
      · exact hne heq
      · exact hout hmem

/-- The pair through a turn in which self-trade prevention consumes the taker. -/
theorem TurnSpec.bound_consumed (ht : TurnSpec s (.done (s', .takerConsumed)))
    (hkeeps : TurnKeeps L W s) (h : L.Bound both s.book.ocoLinks (s.places W)) :
    L.Bound both s'.book.ocoLinks (s'.book.toPool.ids + W) := by
  have htaker : s.taker.id ∉ s.book.toPool.ids + W := (Multiset.nodup_cons.mp h.unique).1
  cases ht with
  | cancelTaker hm hown hmode =>
    refine h.stp hkeeps (Multiset.le_cons_self _ _) ?_ ?_
    · intro y hy hy'
      rw [hm.stpRemoves_iff hown]
      exact Or.inr ⟨(Multiset.mem_cons.mp hy).resolve_right hy', Or.inl hmode⟩
    · intro y hy
      rcases (hm.stpRemoves_iff hown).mp hy with ⟨_, h' | ⟨h', _⟩⟩ | ⟨rfl, _⟩
      · simp [hmode] at h'
      · simp [hmode] at h'
      · exact htaker
  -- the maker keeps something, so that only the taker goes
  | decrementTaker hm hown hmode hlt =>
    rw [hm.ids_shrinkFront (List.Perm.refl _), ocoLinks_withQueue]
    refine h.stp hkeeps (Multiset.le_cons_self _ _) ?_ ?_
    · intro y hy hy'
      rw [hm.stpRemoves_iff hown]
      exact Or.inr ⟨(Multiset.mem_cons.mp hy).resolve_right hy', Or.inr ⟨hmode, hlt.le⟩⟩
    · intro y hy
      rcases (hm.stpRemoves_iff hown).mp hy with ⟨_, h' | ⟨_, hle⟩⟩ | ⟨rfl, _⟩
      · simp [hmode] at h'
      · exact absurd hlt (not_lt.mpr hle)
      · exact htaker
  -- both go, and neither is linked to the other unless both are gone
  | @decrementBoth price m rest hm hown hmode heq =>
    have hplaces : s.places W = s.taker.id ::ₘ m.id ::ₘ
        ((s.book.dropFront s.taker.side.opposite price m rest).toPool.ids + W) := by
      rw [MatchState.places, hm.ids_dropFront, Multiset.cons_add]
    have hunique := h.unique
    rw [hplaces] at hunique
    rw [ocoLinks_dropFront]
    refine h.stp hkeeps ?_ ?_ ?_
    · rw [hplaces]
      exact (Multiset.le_cons_self _ _).trans (Multiset.le_cons_self _ _)
    · intro y hy hy'
      rw [hplaces] at hy
      rw [hm.stpRemoves_iff hown]
      rcases Multiset.mem_cons.mp hy with hy | hy
      · exact Or.inr ⟨hy, Or.inr ⟨hmode, heq.le⟩⟩
      · exact Or.inl ⟨(Multiset.mem_cons.mp hy).resolve_right hy', Or.inr ⟨hmode, heq.ge⟩⟩
    · intro y hy
      rcases Multiset.nodup_cons.mp hunique with ⟨hout, hunique'⟩
      rcases (hm.stpRemoves_iff hown).mp hy with ⟨rfl, _⟩ | ⟨rfl, _⟩
      · exact (Multiset.nodup_cons.mp hunique').1
      · exact fun hmem => hout (Multiset.mem_cons_of_mem hmem)

/-! ## Passes -/

/-- The pass does not tear the pair apart: no turn does, and a taker whose link is
followed after the loop has no sibling that waits. -/
structure PassKeeps (L : OcoPair) (fuel : ℕ) (W : Multiset Uuid) (b : OrderBook)
    (taker : Order) : Prop where
  turn : ∀ s, Visits matchTurn (b.enterLoop taker) s → TurnKeeps L W s
  final : ∀ s, loop matchTurn fuel (b.enterLoop taker) = some (s, .exhausted) →
    takerTerminal s.taker (s.book.finalizeTaker s.taker s.hadFills).2 = true →
    ∀ y, L.Sibling taker.id y → y ∉ W

/-- A taker that is done has its link followed, any other joins the book. -/
theorem Pass.Finalize.bound {a : Pass} {r : Pool × List EngineEvent} (hfinal : a.Finalize r)
    (h : L.Bound both a.pool.links (a.taker.id ::ₘ (a.pool.ids + W)))
    (hW : takerTerminal a.taker r.2 = true → ∀ y, L.Sibling a.taker.id y → y ∉ W) :
    L.Bound both r.1.links (r.1.ids + W) := by
  cases hfinal with
  | filled hzero hoco =>
    exact hoco.bound h (hW (by simp [takerTerminal, hzero]))
  | cancelled hne reason hfok hpost hoco =>
    exact hoco.bound h (hW (by simp [takerTerminal]))
  | rested hne hrest =>
    have hids : Pool.ids { a.pool with resting := a.taker ::ₘ a.pool.resting } =
        a.taker.id ::ₘ a.pool.ids := by
      simp only [Pool.ids, Pool.live]
      rw [Multiset.cons_add, Multiset.map_cons]
    dsimp only
    rw [hids, Multiset.cons_add]
    exact h

/-- The triggered stops move from the book to the queue. -/
theorem Pass.Drains.bound {P : Pool} {last : Option Decimal} {hit : List Order}
    {others : Multiset Order} (hdrain : Pass.Drains P last hit others)
    (h : L.Bound both P.links (P.ids + W)) :
    L.Bound both P.links (Pool.ids { P with stops := others } +
      (↑((hit.map convertStop).map (·.id)) + W)) := by
  rw [hdrain.ids_eq, ← map_id_convertStop, add_comm (Multiset.ofList _), add_assoc] at h
  exact h

/-- Where an order can be after the loop: a taker that self-trade prevention
consumed is gone. -/
def MatchState.placesAfter (s : MatchState) (W : Multiset Uuid) : MatchExit → Multiset Uuid
  | .exhausted => s.places W
  | .takerConsumed => s.book.toPool.ids + W

/-- The loop keeps every linked pair bound to live or at once. -/
theorem matchLoop_bound (henters : Enters b taker) (hkeeps : PassKeeps L fuel W b taker)
    (h : L.Bound both b.ocoLinks (taker.id ::ₘ (b.toPool.ids + W)))
    (hloop : loop matchTurn fuel (b.enterLoop taker) = some (s, exit)) :
    L.Bound both s.book.ocoLinks (s.placesAfter W exit) := by
  refine matchLoop_induct henters (fun _ s => L.Bound both s.book.ocoLinks (s.places W))
    (fun _ s exit => L.Bound both s.book.ocoLinks (s.placesAfter W exit)) h ?_ ?_ hloop
  · intro _ s s' hv hs hinv hturn
    exact hturn.bound_next hs (hkeeps.turn s hv) hinv
  · intro _ s s' exit hv hs hinv hturn _
    cases exit with
    | exhausted =>
      cases hturn with
      | exhausted => exact hinv
    | takerConsumed => exact hturn.bound_consumed (hkeeps.turn s hv) hinv

/-- What follows the loop keeps the pair together. -/
theorem afterLoop_bound (hs : LoopSound taker s) (hready : taker.Ready)
    (h : L.Bound both s.book.ocoLinks (s.placesAfter W exit))
    (hfinal : exit = .exhausted →
      takerTerminal s.taker (s.book.finalizeTaker s.taker s.hadFills).2 = true →
      ∀ y, L.Sibling s.taker.id y → y ∉ W) :
    L.Bound both (afterLoop s exit).1.ocoLinks ((afterLoop s exit).1.toPool.ids +
      (↑((afterLoop s exit).2.2.map (·.id)) + W)) := by
  have hdrain : ∀ b : OrderBook, b.Consistent → L.Bound both b.ocoLinks (b.toPool.ids + W) →
      L.Bound both (b.drainAfter s.lastTradePrice).1.ocoLinks
        ((b.drainAfter s.lastTradePrice).1.toPool.ids +
          (↑((b.drainAfter s.lastTradePrice).2.map (·.id)) + W)) := by
    intro b hb hbound
    have hmoved := (drains_toPool hb s.lastTradePrice).bound hbound
    rw [← drainAfter_snd, ← toPool_drainAfter] at hmoved
    have hlinks : (b.drainAfter s.lastTradePrice).1.toPool.links = b.toPool.links := by
      rw [toPool_drainAfter]
    rw [← hlinks] at hmoved
    exact hmoved
  cases exit with
  | takerConsumed => exact hdrain s.book hs.book h
  | exhausted =>
    rcases finalize_refines hs hready with ⟨hcons, hfinalize⟩
    refine hdrain _ hcons (hfinalize.bound h ?_)
    intro hterm
    refine hfinal rfl ?_
    -- the events that follow the link come only after a terminal event
    by_contra hnot
    simp only [hnot, if_false, List.append_nil] at hterm
    exact hnot hterm

/-- So does the run. -/
theorem runMatchingLoop_bound (henters : Enters b taker) (hkeeps : PassKeeps L fuel W b taker)
    (h : L.Bound both b.ocoLinks (taker.id ::ₘ (b.toPool.ids + W)))
    (hrun : b.runMatchingLoop fuel taker = some (b', events, triggered)) :
    L.Bound both b'.ocoLinks (b'.toPool.ids + (↑(triggered.map (·.id)) + W)) := by
  rcases runMatchingLoop_eq_some hrun with ⟨s, exit, hloop, hafter⟩
  have hs := henters.loop_sound hloop
  have hid : s.taker.id = taker.id := hs.pass.id_eq
  have hbound := afterLoop_bound hs henters.ready (matchLoop_bound henters hkeeps h hloop) (by
    rintro rfl hterm y hy
    exact hkeeps.final s hloop hterm y (hid ▸ hy))
  rw [← hafter] at hbound
  exact hbound

/-! ## Calls -/

/-- A call that is not rejected and does not register a stop comes to this state of
the cascade. -/
structure CascadeVisits (fuel : ℕ) (b : OrderBook) (taker : Order) (c : CascadeState) :
    Prop where
  passed : b.preCheck taker = none
  active : taker.orderType.isStop = false
  visits : Visits (cascadeTurn fuel) (b.enterCascade taker) c

/-- The call does not tear the pair apart: the pre-check does not reject a leg whose
sibling is in the book, no pass of the cascade does, and the depth guard does not
drop one leg alone. -/
structure CallKeeps (L : OcoPair) (fuel : ℕ) (b : OrderBook) (taker : Order) : Prop where
  rejected : ∀ y, L.Sibling taker.id y → b.preCheck taker ≠ none → y ∉ b.toPool.ids
  pass : ∀ c order rest, CascadeVisits fuel b taker c → c.workQueue = order :: rest →
    PassKeeps L fuel ↑(rest.map (·.id)) c.book order
  guard : ∀ c order rest r, CascadeVisits fuel b taker c → c.workQueue = order :: rest →
    maxStopChainDepth ≤ c.stopDepth → c.book.runMatchingLoop fuel order = some r →
    ∀ o ∈ r.2.2, ∀ y, L.Sibling o.id y → y ∉ r.1.toPool.ids ∧ y ∉ rest.map (·.id)

/-- Where an order can be during the cascade. -/
def CascadeState.places (c : CascadeState) : Multiset Uuid :=
  c.book.toPool.ids + ↑(c.workQueue.map (·.id))

/-- So does a pass of the cascade. -/
theorem CascadeStep.bound {c c' : CascadeState} (hstep : CascadeStep fuel c c')
    (hc : CascadeSound c)
    (hpass : ∀ order rest, c.workQueue = order :: rest →
      PassKeeps L fuel ↑(rest.map (·.id)) c.book order)
    (hguard : ∀ order rest r, c.workQueue = order :: rest → maxStopChainDepth ≤ c.stopDepth →
      c.book.runMatchingLoop fuel order = some r → ∀ o ∈ r.2.2, ∀ y, L.Sibling o.id y →
      y ∉ r.1.toPool.ids ∧ y ∉ rest.map (·.id))
    (h : L.Bound both c.book.ocoLinks c.places) : L.Bound both c'.book.ocoLinks c'.places := by
  have hmatched : ∀ order rest book events triggered, c.workQueue = order :: rest →
      c.book.runMatchingLoop fuel order = some (book, events, triggered) →
      L.Bound both book.ocoLinks (book.toPool.ids +
        (↑(triggered.map (·.id)) + ↑(rest.map (·.id)))) := by
    intro order rest book events triggered hqueue hrun
    refine runMatchingLoop_bound (hc.enters hqueue) (hpass order rest hqueue) ?_ hrun
    rw [CascadeState.places, hqueue, List.map_cons, ← Multiset.cons_coe, Multiset.add_cons] at h
    exact h
  cases hstep with
  | @push order rest book events triggered hqueue hrun hdepth =>
    have hbound := hmatched _ _ _ _ _ hqueue hrun
    have hplaces : (↑((triggered.reverse ++ rest).map (·.id)) : Multiset Uuid) =
        ↑(triggered.map (·.id)) + ↑(rest.map (·.id)) := by
      rw [List.map_append, List.map_reverse, ← Multiset.coe_add, Multiset.coe_reverse]
    rw [CascadeState.places, hplaces]
    exact hbound
  | @cut order rest book events triggered hqueue hrun hdepth =>
    have hbound := hmatched _ _ _ _ _ hqueue hrun
    refine hbound.shrink (add_le_add_right (Multiset.le_add_left _ _) _) ?_
    intro p q hpq hp hq
    rcases Multiset.mem_add.mp hq with hq | hq
    · exact Multiset.mem_add.mpr (Or.inl hq)
    · rcases Multiset.mem_add.mp hq with hq | hq
      · -- the guard drops the sibling, so this leg is not there
        rcases List.mem_map.mp (Multiset.mem_coe.mp hq) with ⟨o, ho, rfl⟩
        have hout := hguard order rest _ hqueue hdepth hrun o ho p hpq.symm
        rcases Multiset.mem_add.mp hp with hp | hp
        · exact absurd hp hout.1
        · exact absurd (Multiset.mem_coe.mp hp) hout.2
      · exact Multiset.mem_add.mpr (Or.inr hq)

/-- A call that does not tear the pair apart keeps it bound. -/
theorem matchOrder_bound (hb : b.Sound) (htaker : taker.Admissible)
    (hkeeps : CallKeeps L fuel b taker)
    (h : L.Bound both b.ocoLinks (taker.id ::ₘ b.toPool.ids))
    (hcall : b.matchOrder fuel taker = some (b', events)) :
    L.Bound both b'.ocoLinks b'.toPool.ids := by
  have hfresh : ∀ o ∈ b.pool, o.id ≠ taker.id := by
    intro o ho hid
    exact (Multiset.nodup_cons.mp h.unique).1 (Multiset.mem_map.mpr ⟨o, ho, hid⟩)
  have hspec := matchOrder_spec htaker hcall
  generalize hr : (b', events) = r at hspec
  cases hspec with
  -- an order that is rejected leaves a sibling that nothing cancels
  | rejected reject hpre =>
    cases hr
    refine h.shrink (Multiset.le_cons_self _ _) ?_
    intro p q hpq hp hq
    rcases Multiset.mem_cons.mp hq with rfl | hq
    · exact absurd hp (hkeeps.rejected p hpq.symm (by simp [hpre]))
    · exact hq
  | registered stops _ hstop hins =>
    cases hr
    rw [ids_registered hins]
    exact h
  -- the pair is followed through the cascade, pass by pass
  | matched hpre hactive hloop =>
    have hready : taker.Ready := ⟨htaker.positive, hactive, htaker.priced⟩
    have hplaces : (b.enterCascade taker).places = taker.id ::ₘ b.toPool.ids := by
      rw [CascadeState.places, add_comm]
      rfl
    rw [← hplaces] at h
    rcases cascade_induct (cascadeSound_enter hb hready hfresh)
      (fun c => L.Bound both c.book.ocoLinks c.places) h
      (fun c c' hv hc hinv hstep => hstep.bound hc
        (fun order rest => hkeeps.pass c order rest ⟨hpre, hactive, hv⟩)
        (fun order rest r => hkeeps.guard c order rest r ⟨hpre, hactive, hv⟩) hinv) hloop with
      ⟨c, _, hqueue, heq, _, hbound⟩
    cases hr.trans heq
    rw [CascadeState.places, hqueue] at hbound
    simpa using hbound

/-! ## Calls without stops and self-trades -/

/-- Every state of the loop is sound and framed by the book before. -/
theorem Enters.visits_framed (h : Enters b taker)
    (hv : Visits matchTurn (b.enterLoop taker) s) :
    LoopSound taker s ∧ s.toPass.Framed b.toPool taker := by
  refine ⟨h.visits_sound hv, h.visits_induct (fun s => s.toPass.Framed b.toPool taker)
    (framed_enterLoop b taker) ?_ hv⟩
  intro t t' ht hspec hframed
  exact (hspec.refines ht.book).framed ht.pass hframed

/-- The order a turn meets was in the book when the pass began. -/
theorem Enters.visits_meets (h : Enters b taker)
    (hv : Visits matchTurn (b.enterLoop taker) s) (hm : Meets s price m rest) :
    ∃ m₀ ∈ b.restingPool, m₀.id = m.id ∧ m₀.side = taker.side.opposite ∧
      m₀.userId = m.userId := by
  rcases h.visits_framed hv with ⟨hs, hframed⟩
  have hfaces := hm.faces hs.book (restingPool_dropFront hm.level)
  rcases hframed.faces hs.pass hfaces with ⟨m₀, hm₀, hid, hside, _, huser⟩
  exact ⟨m₀, hm₀, hid, hside, huser⟩

/-- Without stops nothing is triggered. -/
theorem PassSound.triggered_nil {r : OrderBook × List EngineEvent × List Order}
    (h : PassSound b taker r) (hstops : b.stopPool = 0) : r.2.2 = [] := by
  rcases h.hit with ⟨hit, hhit, hle⟩
  rw [hstops] at hle
  have hnil := (Multiset.le_add_right _ _).trans hle
  rw [Multiset.le_zero, Multiset.coe_eq_zero] at hnil
  rw [hhit, hnil]
  rfl

/-- A call keeps the pair when the book has no stops, the orders on the other side are
of other users and none of them is the taker's sibling. -/
theorem callKeeps_of_others (hb : b.Sound) (hfresh : ∀ o ∈ b.pool, o.id ≠ taker.id)
    (htaker : taker.Admissible) (hstops : b.stopPool = 0)
    (hothers : ∀ o ∈ b.restingPool, o.side = taker.side.opposite →
      o.userId ≠ taker.userId ∧ ¬ L.Sibling taker.id o.id)
    (hrejected : ∀ y, L.Sibling taker.id y → b.preCheck taker ≠ none → y ∉ b.toPool.ids) :
    CallKeeps L fuel b taker := by
  have hfirst : ∀ c order rest, CascadeVisits fuel b taker c → c.workQueue = order :: rest →
      c.book = b ∧ order = taker ∧ rest = [] ∧ Enters b taker := by
    intro c order rest hc hqueue
    have henters : Enters b taker := ⟨hb.book, ⟨htaker.positive, hc.active, htaker.priced⟩, hfresh⟩
    have hinv : c = b.enterCascade taker ∨ c.workQueue = [] := by
      refine visits_invariant (fun c => c = b.enterCascade taker ∨ c.workQueue = []) (Or.inl rfl)
        ?_ hc.visits
      rintro c c' hinv hnext
      rcases hinv with rfl | hinv
      · -- the only pass triggers nothing
        cases cascadeTurn_next hnext with
        | @push _ _ _ _ triggered hqueue hrun =>
          cases hqueue
          have hnil : triggered = [] := (runMatchingLoop_sound henters hrun).triggered_nil hstops
          rw [hnil]
          exact Or.inr rfl
        | cut hqueue =>
          cases hqueue
          exact Or.inr rfl
      · simp [cascadeTurn, hinv] at hnext
    rcases hinv with rfl | hinv
    · cases hqueue
      exact ⟨rfl, rfl, rfl, henters⟩
    · rw [hinv] at hqueue
      cases hqueue
  refine ⟨hrejected, ?_, ?_⟩
  · intro c order rest hc hqueue
    rcases hfirst c order rest hc hqueue with ⟨hbook, rfl, rfl, henters⟩
    rw [hbook]
    refine ⟨?_, fun _ _ _ _ _ => Multiset.notMem_zero _⟩
    intro s hv
    have hid : s.taker.id = order.id := (henters.visits_sound hv).pass.id_eq
    refine ⟨?_, ?_⟩
    · rintro x y _ ⟨price, m, rest, hm, hown, _⟩
      rcases henters.visits_meets hv hm with ⟨m₀, hm₀, _, hside, huser⟩
      have htaker' : s.taker.userId = order.userId := by
        rw [show s.taker = order.withRemaining _ from (henters.visits_sound hv).pass.same]
        rfl
      exact absurd (huser.trans (hown.symm.trans htaker')) (hothers m₀ hm₀ hside).1
    · rintro x y hxy ⟨price, m, rest, hm, _, _, rfl⟩
      rcases henters.visits_meets hv hm with ⟨m₀, hm₀, hmid, hside, _⟩
      refine ⟨?_, Multiset.notMem_zero _⟩
      rintro rfl
      rw [← hmid, hid] at hxy
      exact (hothers m₀ hm₀ hside).2 hxy.symm
  · intro c order rest r hc hqueue _ hrun
    rcases hfirst c order rest hc hqueue with ⟨hbook, rfl, rfl, henters⟩
    rw [hbook] at hrun
    have hnil := (runMatchingLoop_sound henters hrun).triggered_nil hstops
    intro o ho
    rw [hnil] at ho
    cases ho

end CryptoCex.Core
