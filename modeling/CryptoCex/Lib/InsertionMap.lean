import Mathlib.Data.List.Nodup
import Mathlib.Tactic.Common

/-!
# Maps in the order of insertion

A map whose entries are listed in the order in which their keys came in, as the list of these
entries. A new value of a known key takes the place of the old one.

* `mem_set`, `mem_delete`: the entries after a change.
* `Keyed`: no key is listed twice. Both changes keep this, and entries that are `Keyed` are the
  map that is made from them (`ofEntries_eq`).
-/

namespace InsertionMap

variable {K V : Type*} {m : List (K × V)} {k : K} {v : V}

def Keyed (m : List (K × V)) : Prop := (m.map Prod.fst).Nodup

/-- One key, one value. -/
theorem Keyed.eq_of_mem {w : V} (h : Keyed m) (hv : (k, v) ∈ m) (hw : (k, w) ∈ m) : v = w :=
  congrArg Prod.snd (List.inj_on_of_nodup_map h hv hw rfl)

theorem Keyed.nodup (h : Keyed m) : m.Nodup := List.Nodup.of_map _ h

variable [DecidableEq K]

theorem lookup_eq_none : m.lookup k = none ↔ k ∉ m.map Prod.fst := by
  induction m with
  | nil => simp
  | cons e m ih =>
    rw [List.lookup_cons, List.map_cons, List.mem_cons, not_or, ← ih]
    by_cases hk : k = e.1
    · simp [hk]
    · simp [hk, beq_eq_false_iff_ne.mpr hk]

theorem mem_of_lookup (h : m.lookup k = some v) : (k, v) ∈ m := by
  rcases List.lookup_eq_some_iff.mp h with ⟨l, r, rfl, _⟩
  exact List.mem_append_right _ List.mem_cons_self

def set (m : List (K × V)) (k : K) (v : V) : List (K × V) :=
  if k ∈ m.map Prod.fst then m.map fun e => if e.1 = k then (k, v) else e
  else m ++ [(k, v)]

def delete (m : List (K × V)) (k : K) : List (K × V) := m.filter fun e => e.1 ≠ k

/-- The map with these entries; of two with one key the later one counts. -/
def ofEntries (entries : List (K × V)) : List (K × V) :=
  entries.foldl (fun m e => set m e.1 e.2) []

/-- `set` changes the entry of the key, in place or at the end, and no other. -/
theorem mem_set {e : K × V} : e ∈ set m k v ↔ e = (k, v) ∨ e.1 ≠ k ∧ e ∈ m := by
  unfold set
  split_ifs with hk
  · -- the key is known: its entry is replaced in place
    constructor
    · intro he
      rcases List.mem_map.mp he with ⟨e', he', rfl⟩
      split_ifs with heq
      · exact .inl rfl
      · exact .inr ⟨heq, he'⟩
    · rintro (rfl | ⟨hne, he⟩)
      · rcases List.mem_map.mp hk with ⟨e', he', heq⟩
        exact List.mem_map.mpr ⟨e', he', if_pos heq⟩
      · exact List.mem_map.mpr ⟨e, he, if_neg hne⟩
  · -- a new key goes to the end
    rw [List.mem_append, List.mem_singleton, or_comm]
    refine or_congr_right ?_
    constructor
    · intro he
      refine ⟨?_, he⟩
      rintro rfl
      exact hk (List.mem_map_of_mem he)
    · exact And.right

/-- A known key keeps its place; a new one comes last. -/
theorem keys_set : (set m k v).map Prod.fst =
    if k ∈ m.map Prod.fst then m.map Prod.fst else m.map Prod.fst ++ [k] := by
  unfold set
  split_ifs with hk
  · rw [List.map_map]
    refine List.map_congr_left ?_
    intro e _
    by_cases he : e.1 = k
    · simp [he]
    · simp [he]
  · rw [List.map_append, List.map_singleton]

theorem Keyed.set (h : Keyed m) : Keyed (set m k v) := by
  unfold Keyed
  rw [keys_set]
  split_ifs with hk
  · exact h
  · exact List.nodup_append.mpr ⟨h, List.nodup_singleton k, by
      rintro a ha b hb rfl
      exact hk (List.mem_singleton.mp hb ▸ ha)⟩

theorem Keyed.delete (h : Keyed m) : Keyed (delete m k) :=
  h.sublist (List.filter_sublist.map _)

/-- Building a map from entries whose keys differ keeps them as they are. -/
theorem ofEntries_eq (h : Keyed m) : ofEntries m = m := by
  have hfold : ∀ entries pre : List (K × V), Keyed (pre ++ entries) →
      entries.foldl (fun m e => InsertionMap.set m e.1 e.2) pre = pre ++ entries := by
    intro entries
    induction entries with
    | nil => exact fun pre _ => (List.append_nil pre).symm
    | cons e entries ih =>
      intro pre hkeyed
      have hnew : e.1 ∉ pre.map Prod.fst := by
        intro hold
        unfold Keyed at hkeyed
        rw [List.map_append, List.map_cons] at hkeyed
        exact (List.nodup_append.mp hkeyed).2.2 e.1 hold e.1 List.mem_cons_self rfl
      have hset : InsertionMap.set pre e.1 e.2 = pre ++ [e] := if_neg hnew
      have hsplit : pre ++ e :: entries = (pre ++ [e]) ++ entries := by simp
      rw [List.foldl_cons, hset, hsplit]
      exact ih (pre ++ [e]) (hsplit ▸ hkeyed)
  exact hfold m [] h

end InsertionMap
