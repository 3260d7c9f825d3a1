import Mathlib.Logic.Relation
import Mathlib.Tactic.Common

/-!
# Loops under a fuel bound

A `while` loop whose termination is not known in advance is a turn function
`body` together with a number of turns it may take. A turn goes round again
with a new state (`Turn.next`) or leaves with a result (`Turn.done`); a turn
that cannot be completed itself (an inner loop that ran out of fuel) is `none`.

* `loop_mono`: more fuel never changes a result.
* `loop_congr`: turns that agree where the loop goes give the same loop.
* `loop_invariant`: what every turn preserves holds of the result.
* `loop_terminates`: a measure that every turn lowers bounds the fuel needed.

`Visits body s t` says that the loop started in `s` comes to stand at `t`; it
is what "every state the loop reaches" means in the rules below.
-/

namespace Loop

/-- The outcome of one turn: go round again, or leave. -/
inductive Turn (σ ρ : Type*) where
  | next (s : σ)
  | done (r : ρ)

variable {σ ρ : Type*}

/-- The state with which the loop goes on. -/
def Turn.next? : Turn σ ρ → Option σ
  | .next s => some s
  | .done _ => none

/-- Runs `body` from a state for at most `fuel` turns. -/
def loop (body : σ → Option (Turn σ ρ)) : ℕ → σ → Option ρ
  | 0, _ => none
  | fuel + 1, s =>
    match body s with
    | none => none
    | some (.next s') => loop body fuel s'
    | some (.done r) => some r

/-- The loop started in `s` comes to stand at `t`. -/
def Visits (body : σ → Option (Turn σ ρ)) : σ → σ → Prop :=
  Relation.ReflTransGen fun s t => body s = some (.next t)

/-- The states the loop stands at, the first one included, in order. -/
def trace (body : σ → Option (Turn σ ρ)) : ℕ → σ → List σ
  | 0, _ => []
  | fuel + 1, s =>
    match body s with
    | some (.next s') => s :: trace body fuel s'
    | _ => [s]

variable {body body' : σ → Option (Turn σ ρ)} {fuel fuel' : ℕ} {s : σ} {r : ρ}

/-- A turn that goes on uses one unit of fuel. -/
theorem loop_succ_next {s' : σ} (h : body s = some (.next s')) :
    loop body (fuel + 1) s = loop body fuel s' := by
  simp only [loop, h]

/-- A turn that ends the loop returns its result. -/
theorem loop_succ_done (h : body s = some (.done r)) :
    loop body (fuel + 1) s = some r := by
  simp only [loop, h]

/-- A loop that returned made a first turn. -/
theorem loop_eq_some (h : loop body fuel s = some r) :
    ∃ n, fuel = n + 1 ∧
      (body s = some (.done r) ∨ ∃ s', body s = some (.next s') ∧ loop body n s' = some r) := by
  cases fuel with
  | zero => simp [loop] at h
  | succ n =>
    refine ⟨n, rfl, ?_⟩
    simp only [loop] at h
    split at h
    · cases h
    · next s' hb => exact Or.inr ⟨s', hb, h⟩
    · next r' hb =>
      cases h
      exact Or.inl hb

/-- More fuel, for the loop and for its turns, never changes a result. -/
theorem loop_mono (hbody : ∀ s t, body s = some t → body' s = some t)
    (hle : fuel ≤ fuel') (h : loop body fuel s = some r) : loop body' fuel' s = some r := by
  induction fuel generalizing s fuel' with
  | zero => simp [loop] at h
  | succ n ih =>
    obtain ⟨m, rfl⟩ : ∃ m, fuel' = m + 1 := ⟨fuel' - 1, by omega⟩
    obtain ⟨k, hk, hdone | ⟨s', hnext, hrest⟩⟩ := loop_eq_some h
    · exact loop_succ_done (hbody _ _ hdone)
    · have hkn : k = n := by omega
      subst hkn
      rw [loop_succ_next (hbody _ _ hnext)]
      exact ih (by omega) hrest

/-- Two loops whose turns are the same from an invariant state return the same. -/
theorem loop_congr (Inv : σ → Prop) (h0 : Inv s) (heq : ∀ t, Inv t → body' t = body t)
    (hnext : ∀ t t', Inv t → body t = some (.next t') → Inv t') :
    loop body' fuel s = loop body fuel s := by
  induction fuel generalizing s with
  | zero => rfl
  | succ n ih =>
    unfold loop
    rw [heq s h0]
    cases hbody : body s with
    | none => rfl
    | some turn =>
      cases turn with
      | next s' => exact ih (hnext s s' h0 hbody)
      | done r => rfl

/-- The invariant rule with history: the invariant may speak of the states
passed so far, and the postcondition of the whole trace. -/
theorem loop_invariant_trace (Inv : List σ → σ → Prop) (Post : List σ → ρ → Prop)
    (h0 : Inv [] s)
    (hnext : ∀ past t t', Visits body s t → Inv past t → body t = some (.next t') →
      Inv (past ++ [t]) t')
    (hdone : ∀ past t r, Visits body s t → Inv past t → body t = some (.done r) →
      Post (past ++ [t]) r)
    (h : loop body fuel s = some r) : Post (trace body fuel s) r := by
  suffices hgen : ∀ fuel past t, Visits body s t → Inv past t → loop body fuel t = some r →
      Post (past ++ trace body fuel t) r from
    hgen fuel [] s Relation.ReflTransGen.refl h0 h
  intro fuel
  induction fuel with
  | zero => intro past t _ _ hl; simp [loop] at hl
  | succ n ih =>
    intro past t hv ht hl
    obtain ⟨k, hk, hd | ⟨t', hn, hrest⟩⟩ := loop_eq_some hl
    · simp only [trace, hd]
      exact hdone past t r hv ht hd
    · have hkn : k = n := by omega
      subst hkn
      have hpast := ih (past ++ [t]) t' (hv.tail hn) (hnext past t t' hv ht hn) hrest
      simp only [trace, hn]
      rwa [List.append_assoc] at hpast

/-- The invariant rule, with the states restricted to those the loop visits:
what holds at the start and is kept by every turn holds where the loop leaves. -/
theorem loop_invariant_visits (Inv : σ → Prop) (Post : ρ → Prop) (h0 : Inv s)
    (hnext : ∀ t t', Visits body s t → Inv t → body t = some (.next t') → Inv t')
    (hdone : ∀ t r, Visits body s t → Inv t → body t = some (.done r) → Post r)
    (h : loop body fuel s = some r) : Post r :=
  loop_invariant_trace (fun _ => Inv) (fun _ => Post) h0 (fun _ => hnext) (fun _ => hdone) h

/-- The invariant rule. -/
theorem loop_invariant (Inv : σ → Prop) (Post : ρ → Prop) (h0 : Inv s)
    (hnext : ∀ t t', Inv t → body t = some (.next t') → Inv t')
    (hdone : ∀ t r, Inv t → body t = some (.done r) → Post r)
    (h : loop body fuel s = some r) : Post r :=
  loop_invariant_visits Inv Post h0 (fun t t' _ => hnext t t') (fun t r _ => hdone t r) h

/-- An invariant holds at every state the loop visits. -/
theorem visits_invariant {t : σ} (Inv : σ → Prop) (h0 : Inv s)
    (hnext : ∀ t t', Inv t → body t = some (.next t') → Inv t')
    (h : Visits body s t) : Inv t := by
  induction h with
  | refl => exact h0
  | tail _ hstep ih => exact hnext _ _ ih hstep

theorem rightUnique_next : Relator.RightUnique fun s t => body s = some (.next t) := by
  intro s t t' h h'
  have heq : some (Turn.next t) = some (Turn.next t') := h.symm.trans h'
  cases heq
  rfl

/-- A loop that returns comes, from every state it visits and goes round from,
to the state it leaves at. -/
theorem visits_of_next {t t' u : σ} (ht : Visits body s t) (hnext : body t = some (.next t'))
    (hu : Visits body s u) (hdone : body u = some (.done r)) : Visits body t' u := by
  rcases Relation.ReflTransGen.total_of_right_unique rightUnique_next (ht.tail hnext) hu with h | h
  · exact h
  · rcases Relation.ReflTransGen.cases_head h with rfl | ⟨v, hv, _⟩
    · exact Relation.ReflTransGen.refl
    · rw [hdone] at hv
      cases hv

/-- A loop that returned and has a next turn made it. -/
theorem trace_of_next {s' : σ} (hnext : body s = some (.next s'))
    (h : loop body fuel s = some r) :
    ∃ n, trace body fuel s = s :: trace body n s' ∧ loop body n s' = some r := by
  obtain ⟨n, rfl, hdone | ⟨t, ht, hrest⟩⟩ := loop_eq_some h
  · rw [hnext] at hdone
    cases hdone
  · rw [hnext] at ht
    cases ht
    refine ⟨n, ?_, hrest⟩
    simp only [trace, hnext]

/-- A loop that returns goes on, from every state it visits, as if it had been started there. -/
theorem trace_of_visits {t : σ} (hv : Visits body s t) (h : loop body fuel s = some r) :
    ∃ past n, trace body fuel s = past ++ trace body n t ∧ loop body n t = some r := by
  induction hv with
  | refl => exact ⟨[], fuel, rfl, h⟩
  | @tail t t' _ hnext ih =>
    obtain ⟨past, n, htrace, hloop⟩ := ih
    obtain ⟨m, hm, hrest⟩ := trace_of_next hnext hloop
    refine ⟨past ++ [t], m, ?_, hrest⟩
    rw [htrace, hm, List.append_assoc, List.singleton_append]

/-- A loop that returns also returns from every state it visits. -/
theorem loop_of_visits {t : σ} (hv : Visits body s t) (h : loop body fuel s = some r) :
    ∃ n, loop body n t = some r := by
  obtain ⟨_, n, _, hloop⟩ := trace_of_visits hv h
  exact ⟨n, hloop⟩

/-- The variant rule: when every turn from an invariant state is complete and
a turn that goes round lowers the measure, the loop returns as soon as its fuel
exceeds the measure. -/
theorem loop_terminates (Inv : σ → Prop) (measure : σ → ℕ) (h0 : Inv s)
    (htotal : ∀ t, Inv t → ∃ u, body t = some u)
    (hnext : ∀ t t', Inv t → body t = some (.next t') → Inv t' ∧ measure t' < measure t)
    (hfuel : measure s < fuel) : ∃ r, loop body fuel s = some r := by
  induction fuel generalizing s with
  | zero => omega
  | succ n ih =>
    obtain ⟨u, hu⟩ := htotal s h0
    cases u with
    | done r => exact ⟨r, loop_succ_done hu⟩
    | next s' =>
      rw [loop_succ_next hu]
      obtain ⟨hinv, hlt⟩ := hnext s s' h0 hu
      exact ih hinv (by omega)

/-- A loop that never leaves an invariant and always has a next turn does not
return. -/
theorem loop_diverges (Inv : σ → Prop) (h0 : Inv s)
    (hnext : ∀ t, Inv t → ∃ t', body t = some (.next t') ∧ Inv t') (fuel : ℕ) :
    loop body fuel s = none := by
  induction fuel generalizing s with
  | zero => rfl
  | succ fuel ih =>
    rcases hnext s h0 with ⟨s', hbody, hinv⟩
    rw [loop_succ_next hbody]
    exact ih hinv

end Loop
