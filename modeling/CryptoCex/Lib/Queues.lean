import Mathlib.Data.List.Dedup
import Mathlib.Tactic.Common

/-!
# Queues some of whose elements go back

Elements are put at the end of a queue, leave it anywhere, and the first one may be changed in
its place. Those that do not keep their turn may also go from the front to the end. The elements
that do keep their turn never fall behind an element that was behind them (`ComesFrom`), and they
stand in the order in which they came (`stayers_step`, `sublist_dedup_concat`).

A queue from which an element leaves by giving its place to the last one stays in that order only
near its end (`inTurn_lastFirst_iff`).
-/

namespace Queues

open scoped List

/-- What is looked at of the elements: a name, and whether an element keeps its turn. -/
structure View (α ι : Type*) where
  id : α → ι
  stays : α → Prop
  [decidable : DecidablePred stays]

attribute [instance] View.decidable

variable {α ι : Type*} (v : View α ι)

/-- What may happen to a queue to whose end nothing new comes. -/
inductive Step : List α → List α → Prop where
  | leave {q q' : List α} (h : q' <+ q) : Step q q'
  | front {a a' : α} (rest : List α) (hid : v.id a' = v.id a) (hstays : v.stays a' ↔ v.stays a) :
      Step (a :: rest) (a' :: rest)
  | back {a a' : α} (rest : List α) (hid : v.id a' = v.id a) (hstays : v.stays a' ↔ v.stays a)
      (hback : ¬ v.stays a) : Step (a :: rest) (rest ++ [a'])

/-- The names of the elements that keep their turn. -/
def stayers (q : List α) : List ι := (q.filter fun a => v.stays a).map v.id

/-- The queue `q` has come from `q₀`: it has no new elements, and what stands before an element
that keeps its turn stood before it in `q₀`. -/
structure ComesFrom (q₀ q : List α) : Prop where
  known : ∀ a ∈ q, ∃ a₀ ∈ q₀, v.id a₀ = v.id a ∧ (v.stays a₀ ↔ v.stays a)
  turns : q.Pairwise fun a a' => v.stays a' → [v.id a, v.id a'] <+ q₀.map v.id

variable {v} {q₀ q q' : List α}

theorem comesFrom_refl (q : List α) : ComesFrom v q q where
  known := fun a ha => ⟨a, ha, rfl, Iff.rfl⟩
  turns := by
    rw [List.pairwise_iff_forall_sublist]
    intro a a' h _
    exact h.map v.id

/-- Where each one comes from is known after a step too. -/
theorem ComesFrom.step (h : ComesFrom v q₀ q) (hstep : Step v q q') : ComesFrom v q₀ q' := by
  cases hstep with
  | leave hsub => exact ⟨fun a ha => h.known a (hsub.subset ha), h.turns.sublist hsub⟩
  | @front a a' rest hid hstays =>
    rcases List.pairwise_cons.mp h.turns with ⟨hfront, hrest⟩
    -- the front is changed and keeps its turn
    refine ⟨?_, List.pairwise_cons.mpr ⟨?_, hrest⟩⟩
    · intro x hx
      rcases List.mem_cons.mp hx with rfl | hx
      · rw [hid, hstays]
        exact h.known a List.mem_cons_self
      · exact h.known x (List.mem_cons_of_mem a hx)
    · intro x hx
      rw [hid]
      exact hfront x hx
  | @back a a' rest hid hstays hback =>
    rcases List.pairwise_cons.mp h.turns with ⟨_, hrest⟩
    -- it goes to the back, where it has no turn to keep
    refine ⟨?_, List.pairwise_append.mpr ⟨hrest, List.pairwise_singleton _ _, ?_⟩⟩
    · intro x hx
      rcases List.mem_append.mp hx with hx | hx
      · exact h.known x (List.mem_cons_of_mem a hx)
      · rw [List.mem_singleton.mp hx, hid, hstays]
        exact h.known a List.mem_cons_self
    · intro x _ y hy hstay
      rw [List.mem_singleton.mp hy, hstays] at hstay
      exact absurd hstay hback

/-- No queue that was empty gets an element. -/
theorem Step.ne_nil (hstep : Step v q q') (hne : q' ≠ []) : q ≠ [] := by
  cases hstep with
  | leave hsub =>
    rintro rfl
    exact hne (List.sublist_nil.mp hsub)
  | front => exact List.cons_ne_nil _ _
  | back => exact List.cons_ne_nil _ _

/-- Of two names only one stands before the other. -/
theorem not_both_orders {names : List ι} {i j : ι} (hnodup : names.Nodup) (h : [i, j] <+ names) :
    ¬ [j, i] <+ names := by
  intro h'
  induction names with
  | nil => cases h
  | cons k names ih =>
    rcases List.nodup_cons.mp hnodup with ⟨hk, hnodup⟩
    cases h with
    | cons _ h =>
      cases h' with
      | cons _ h' => exact ih hnodup h h'
      | cons_cons _ h' => exact hk (h.subset (List.mem_cons_of_mem i List.mem_cons_self))
    | cons_cons _ h =>
      have hj : j ∈ names := h.subset List.mem_cons_self
      cases h' with
      | cons _ h' => exact hk (h'.subset (List.mem_cons_of_mem j List.mem_cons_self))
      | cons_cons _ h' => exact hk hj

/-- What stood before the first element and keeps its turn is gone. -/
theorem ComesFrom.front_first {a o : α} {rest : List α} (h : ComesFrom v q₀ (a :: rest))
    (hnodup : (q₀.map v.id).Nodup) (ho : o ∈ q₀) (hstays : v.stays o)
    (hahead : [v.id o, v.id a] <+ q₀.map v.id) : ∀ x ∈ a :: rest, v.id x ≠ v.id o := by
  intro x hx hid
  rcases h.known x hx with ⟨x₀, hx₀, hid₀, hiff⟩
  have hsame : x₀ = o := List.inj_on_of_nodup_map hnodup hx₀ ho (hid₀.trans hid)
  subst hsame
  rcases List.mem_cons.mp hx with rfl | hx
  · rw [← hid₀] at hahead
    exact not_both_orders hnodup hahead hahead
  · have hbehind := (List.pairwise_cons.mp h.turns).1 x hx (hiff.mp hstays)
    rw [hid] at hbehind
    exact not_both_orders hnodup hahead hbehind

/-- A step loses elements that keep their turn, and does not change their order. -/
theorem stayers_step (hstep : Step v q q') : stayers v q' <+ stayers v q := by
  cases hstep with
  | leave hsub => exact (hsub.filter _).map v.id
  | @front a a' rest hid hstays =>
    have hiff : decide (v.stays a') = decide (v.stays a) := decide_eq_decide.mpr hstays
    simp only [stayers, List.filter_cons, hiff]
    split_ifs
    · rw [List.map_cons, List.map_cons, hid]
    · exact List.Sublist.refl _
  | @back a a' rest hid hstays hback =>
    have hback' : ¬ v.stays a' := by rwa [hstays]
    simp [stayers, hback, hback']

theorem stayers_concat (q : List α) (a : α) :
    stayers v (q ++ [a]) = stayers v q ++ if v.stays a then [v.id a] else [] := by
  simp only [stayers, List.filter_append, List.map_append, List.filter_singleton]
  by_cases h : v.stays a <;> simp [h]

/-! ## Elements in the order in which they came -/

section Turns

variable {id : α → ι} {arrivals arrivals' : List ι} {before behind : List α} {o : α}

/-- The elements stand in the order in which their names came. -/
def InTurn (id : α → ι) (arrivals : List ι) (q : List α) : Prop :=
  q.Pairwise fun a a' => [id a, id a'] <+ arrivals

theorem InTurn.sublist (h : InTurn id arrivals q) (hsub : q' <+ q) : InTurn id arrivals q' :=
  List.Pairwise.sublist hsub h

theorem InTurn.mono (h : InTurn id arrivals q) (hsub : arrivals <+ arrivals') :
    InTurn id arrivals' q :=
  List.Pairwise.imp (fun hpair => hpair.trans hsub) h

/-- What comes now stands behind all that came before. -/
theorem InTurn.concat (h : InTurn id arrivals q) (hknown : ∀ a ∈ q, id a ∈ arrivals) (a : α) :
    InTurn id (arrivals ++ [id a]) (q ++ [a]) := by
  apply List.pairwise_append.mpr
  refine ⟨h.mono (List.sublist_append_left _ _), List.pairwise_singleton _ _, ?_⟩
  intro x hx y hy
  rw [List.mem_singleton.mp hy]
  exact (List.singleton_sublist.mpr (hknown x hx)).append (List.Sublist.refl [id a])

/-- Nobody is queued twice. -/
theorem InTurn.nodup (h : InTurn id arrivals q) (hnodup : arrivals.Nodup) : q.Nodup := by
  apply List.Pairwise.imp _ h
  intro a a' hpair heq
  have hboth := hnodup.sublist hpair
  rw [heq] at hboth
  simp at hboth

/-- The last element goes to the front. -/
def lastFirst (q : List α) : List α :=
  match q.getLast? with
  | none => []
  | some last => last :: q.dropLast

theorem lastFirst_concat (q : List α) (last : α) : lastFirst (q ++ [last]) = last :: q := by
  simp [lastFirst]

theorem mem_of_mem_lastFirst {a : α} (h : a ∈ lastFirst q) : a ∈ q := by
  rcases List.eq_nil_or_concat q with rfl | ⟨q, last, rfl⟩
  · cases h
  · rw [List.concat_eq_append] at h ⊢
    rw [lastFirst_concat] at h
    rw [List.mem_append, List.mem_singleton]
    exact (List.mem_cons.mp h).symm

/-- When an element leaves and the last one takes its place, the others keep their turns only if
there was no more than one of them behind the one that left. -/
theorem inTurn_lastFirst_iff (hnodup : arrivals.Nodup)
    (h : InTurn id arrivals (before ++ o :: behind)) :
    InTurn id arrivals (before ++ lastFirst behind) ↔ behind.length ≤ 1 := by
  rcases List.eq_nil_or_concat behind with rfl | ⟨mid, last, rfl⟩
  · have hsub : before ++ lastFirst [] <+ before ++ [o] := (List.nil_sublist [o]).append_left before
    exact ⟨fun _ => Nat.zero_le 1, fun _ => h.sublist hsub⟩
  rw [List.concat_eq_append] at h ⊢
  rw [lastFirst_concat, List.length_append, List.length_singleton]
  have hbehind : InTurn id arrivals (mid ++ [last]) := by
    apply h.sublist
    exact (List.sublist_cons_self o _).trans (List.sublist_append_right before _)
  constructor
  · intro hturn
    have hjumped : InTurn id arrivals (last :: mid) :=
      hturn.sublist (List.sublist_append_right before _)
    -- an element between the two would stand both before and behind the last one
    cases mid with
    | nil => exact Nat.le_refl 1
    | cons x mid =>
      have hafter := (List.pairwise_cons.mp hjumped).1 x List.mem_cons_self
      have hbefore := (List.pairwise_cons.mp hbehind).1 last (by simp)
      exact absurd hafter (not_both_orders hnodup hbefore)
  · intro hlen
    have hmid : mid = [] := List.length_eq_zero_iff.mp (by omega)
    subst hmid
    exact h.sublist ((List.sublist_cons_self o [last]).append_left before)

end Turns

/-! ## Where an element stands -/

/-- An element of a list to which another one was appended. -/
theorem split_concat {l before after : List α} {a last : α}
    (h : l ++ [last] = before ++ a :: after) :
    (before = l ∧ a = last) ∨ ∃ after', l = before ++ a :: after' := by
  rcases List.eq_nil_or_concat after with rfl | ⟨after', x, rfl⟩
  · rcases List.append_inj' h rfl with ⟨hl, hlast⟩
    cases hlast
    exact .inl ⟨hl.symm, rfl⟩
  · rw [List.concat_eq_append, ← List.cons_append, ← List.append_assoc] at h
    exact .inr ⟨after', (List.append_inj' h rfl).1⟩

/-! ## The last time each name comes -/

section Dedup

variable [DecidableEq ι] {names arrivals : List ι} {i : ι}

/-- The last arrival counts once more, and last. -/
theorem dedup_concat (arrivals : List ι) (i : ι) :
    (arrivals ++ [i]).dedup = arrivals.dedup.filter (fun j => j ≠ i) ++ [i] := by
  induction arrivals with
  | nil => simp
  | cons j arrivals ih =>
    rw [List.cons_append]
    by_cases hi : j = i
    · subst hi
      rw [List.dedup_cons_of_mem (by simp), ih]
      by_cases hj : j ∈ arrivals
      · rw [List.dedup_cons_of_mem hj]
      · rw [List.dedup_cons_of_notMem hj, List.filter_cons_of_neg (by simp)]
    · by_cases hj : j ∈ arrivals
      · rw [List.dedup_cons_of_mem (by simp [hj]), List.dedup_cons_of_mem hj, ih]
      · rw [List.dedup_cons_of_notMem (by simp [hj, hi]), List.dedup_cons_of_notMem hj, ih,
          List.filter_cons_of_pos (by simpa using hi), List.cons_append]

/-- A name that comes again stands behind all others. -/
theorem sublist_dedup_concat (h : names <+ arrivals.dedup) (hi : i ∉ names) :
    names ++ [i] <+ (arrivals ++ [i]).dedup := by
  rw [dedup_concat]
  refine List.Sublist.append ?_ (List.Sublist.refl _)
  have hfilter : names.filter (fun j => j ≠ i) = names := by
    refine List.filter_eq_self.mpr ?_
    intro j hj
    rw [decide_eq_true_eq]
    rintro rfl
    exact hi hj
  rw [← hfilter]
  exact h.filter _

end Dedup

end Queues
