import Mathlib.Algebra.BigOperators.Group.List.Basic
import Mathlib.Algebra.Order.BigOperators.Group.List
import Mathlib.Data.List.Induction
import Mathlib.Data.List.Sort
import Mathlib.Data.Multiset.MapFold
import Mathlib.Order.Defs.LinearOrder
import Mathlib.Tactic.Abel
import Mathlib.Tactic.Common

/-!
# Finite maps as key-sorted entry lists

`OrdMap K V` is a list of entries with strictly increasing keys. The order of
the entries is the iteration order of an ordered map; since the list is
canonical, two maps with the same lookups are equal (`ext_find?`), so the same
type also serves where the iteration order is irrelevant.

The lemmas below describe every operation by its lookups (`find?_insert`,
`find?_erase`, `find?_filter`). For a map of queues, `flat` is the list of all
queued elements and `putQueue` writes one queue, dropping the key when the
queue is empty; `flat_putQueue` says what that does to the elements. `total` adds up
a function over the values.
-/

/-- A finite map: entries with strictly increasing keys. -/
structure OrdMap (K V : Type*) [LinearOrder K] where
  entries : List (K × V)
  sorted : entries.Pairwise fun a b => a.1 < b.1

namespace OrdMap

variable {K V α : Type*} [LinearOrder K]

@[ext] theorem ext {m m' : OrdMap K V} (h : m.entries = m'.entries) : m = m' := by
  cases m
  cases m'
  cases h
  rfl

instance [DecidableEq V] : DecidableEq (OrdMap K V) := fun _ _ =>
  decidable_of_iff _ OrdMap.ext_iff.symm

/-- The map without entries. -/
def empty : OrdMap K V := ⟨[], List.Pairwise.nil⟩

instance : Inhabited (OrdMap K V) := ⟨empty⟩

/-! ## Lookup -/

/-- The value filed under `k`. -/
def find? (m : OrdMap K V) (k : K) : Option V :=
  (m.entries.find? fun e => e.1 = k).map Prod.snd

@[simp] theorem find?_empty (k : K) : (empty : OrdMap K V).find? k = none := rfl

/-- Looking up a key is finding its entry. -/
theorem find?_eq_some {m : OrdMap K V} {k : K} {v : V} :
    m.find? k = some v ↔ (k, v) ∈ m.entries := by
  obtain ⟨l, hl⟩ := m
  simp only [find?, Option.map_eq_some_iff]
  constructor
  · rintro ⟨⟨k', v'⟩, hfind, rfl⟩
    have hk := List.find?_some hfind
    simp only [decide_eq_true_eq] at hk
    subst hk
    exact List.mem_of_find?_eq_some hfind
  · -- the entries in front of it have other keys, as keys are distinct
    intro hmem
    refine ⟨(k, v), ?_, rfl⟩
    induction l with
    | nil => cases hmem
    | cons e l ih =>
      rw [List.pairwise_cons] at hl
      rcases List.mem_cons.mp hmem with rfl | hmem
      · simp
      · have hne : e.1 ≠ k := (hl.1 _ hmem).ne
        rw [List.find?_cons_of_neg (by simpa using hne)]
        exact ih hl.2 hmem

/-- Maps with the same lookups are equal. -/
theorem ext_find? {m m' : OrdMap K V} (h : ∀ k, m.find? k = m'.find? k) : m = m' := by
  apply OrdMap.ext
  refine List.Perm.eq_of_pairwise (fun a b _ _ hab hba => absurd hab hba.not_gt) m.sorted m'.sorted ?_
  have hnodup : ∀ n : OrdMap K V, n.entries.Nodup := fun n =>
    n.sorted.imp fun hab heq => by
      subst heq
      exact lt_irrefl _ hab
  rw [List.perm_ext_iff_of_nodup (hnodup m) (hnodup m')]
  rintro ⟨k, v⟩
  rw [← find?_eq_some, ← find?_eq_some, h]

/-! ## Insertion and removal -/

/-- Sorted insertion, replacing the entry of an equal key. -/
def insertEntry (k : K) (v : V) : List (K × V) → List (K × V)
  | [] => [(k, v)]
  | e :: l =>
    if k < e.1 then (k, v) :: e :: l
    else if e.1 = k then (k, v) :: l
    else e :: insertEntry k v l

/-- Inserting changes the entry of the key and no other. -/
theorem mem_insertEntry {k : K} {v : V} {l : List (K × V)}
    (hl : l.Pairwise fun a b => a.1 < b.1) {e : K × V} :
    e ∈ insertEntry k v l ↔ e = (k, v) ∨ (e ∈ l ∧ e.1 ≠ k) := by
  induction l with
  | nil => simp [insertEntry]
  | cons a l ih =>
    rw [List.pairwise_cons] at hl
    rw [insertEntry]
    split_ifs with hlt heq
    · -- `k` comes before every key of the list
      have hall : ∀ x ∈ a :: l, x.1 ≠ k := by
        intro x hx
        rcases List.mem_cons.mp hx with rfl | hx
        · exact hlt.ne'
        · exact (hlt.trans (hl.1 x hx)).ne'
      grind
    · have hall : ∀ x ∈ l, x.1 ≠ k := fun x hx => (heq ▸ hl.1 x hx).ne'
      grind
    · have := ih hl.2
      grind

/-- Inserting keeps the keys in order. -/
theorem insertEntry_sorted {k : K} {v : V} {l : List (K × V)}
    (hl : l.Pairwise fun a b => a.1 < b.1) :
    (insertEntry k v l).Pairwise fun a b => a.1 < b.1 := by
  induction l with
  | nil => simp [insertEntry]
  | cons a l ih =>
    have hcons := hl
    rw [List.pairwise_cons] at hl
    rw [insertEntry]
    split_ifs with hlt heq
    · refine hcons.cons fun x hx => ?_
      rcases List.mem_cons.mp hx with rfl | hx
      · exact hlt
      · exact hlt.trans (hl.1 x hx)
    · exact hl.2.cons fun x hx => heq ▸ hl.1 x hx
    · refine (ih hl.2).cons fun x hx => ?_
      rcases (mem_insertEntry hl.2).mp hx with rfl | ⟨hx, _⟩
      · exact lt_of_le_of_ne (not_lt.mp hlt) heq
      · exact hl.1 x hx

/-- Files `v` under `k`. -/
def insert (m : OrdMap K V) (k : K) (v : V) : OrdMap K V :=
  ⟨insertEntry k v m.entries, insertEntry_sorted m.sorted⟩

/-- Removes the key `k`. -/
def erase (m : OrdMap K V) (k : K) : OrdMap K V :=
  ⟨m.entries.filter fun e => e.1 ≠ k, m.sorted.filter _⟩

/-- Keeps the entries whose key satisfies `p`. -/
def filterKeys (m : OrdMap K V) (p : K → Bool) : OrdMap K V :=
  ⟨m.entries.filter fun e => p e.1, m.sorted.filter _⟩

/-- A key that is inserted is found, and the others as before. -/
theorem find?_insert (m : OrdMap K V) (k k' : K) (v : V) :
    (m.insert k v).find? k' = if k' = k then some v else m.find? k' := by
  ext w
  rw [find?_eq_some, insert, mem_insertEntry m.sorted]
  split_ifs with h
  · subst h
    simp [eq_comm]
  · simp [h, find?_eq_some]

/-- Filtering by keys hides the keys that fail the test. -/
theorem find?_filterKeys (m : OrdMap K V) (p : K → Bool) (k : K) :
    (m.filterKeys p).find? k = if p k then m.find? k else none := by
  ext v
  rw [find?_eq_some, filterKeys, List.mem_filter]
  split_ifs with h <;> simp [h, find?_eq_some]

theorem erase_eq_filterKeys (m : OrdMap K V) (k : K) :
    m.erase k = m.filterKeys fun k' => k' ≠ k := rfl

/-- A key that is erased is gone, and the others are as before. -/
theorem find?_erase (m : OrdMap K V) (k k' : K) :
    (m.erase k).find? k' = if k' = k then none else m.find? k' := by
  rw [erase_eq_filterKeys, find?_filterKeys]
  by_cases h : k' = k <;> simp [h]

@[simp] theorem find?_insert_self (m : OrdMap K V) (k : K) (v : V) :
    (m.insert k v).find? k = some v := by
  rw [find?_insert, if_pos rfl]

@[simp] theorem find?_erase_self (m : OrdMap K V) (k : K) : (m.erase k).find? k = none := by
  rw [find?_erase, if_pos rfl]

/-- Erasing undoes an insertion of the same key. -/
@[simp] theorem erase_insert (m : OrdMap K V) (k : K) (v : V) :
    (m.insert k v).erase k = m.erase k := by
  apply ext_find?
  intro k'
  simp only [find?_erase, find?_insert]
  split_ifs <;> rfl

/-- Removing a key that is not there changes nothing. -/
theorem erase_of_find?_eq_none {m : OrdMap K V} {k : K} (h : m.find? k = none) :
    m.erase k = m := by
  apply ext_find?
  intro k'
  rw [find?_erase]
  split_ifs with hk
  · rw [hk, h]
  · rfl

/-- Filtering sees an insertion if it keeps the key. -/
theorem filterKeys_insert (m : OrdMap K V) (p : K → Bool) (k : K) (v : V) :
    (m.insert k v).filterKeys p = if p k then (m.filterKeys p).insert k v else m.filterKeys p := by
  apply ext_find?
  intro k'
  by_cases hk : k' = k
  · subst hk
    cases hp : p k' <;> simp [find?_filterKeys, hp]
  · cases hp : p k <;> simp [find?_filterKeys, find?_insert, hk]

/-- Filing a value where it already stands changes nothing. -/
theorem insert_of_find?_eq_some {m : OrdMap K V} {k : K} {v : V} (h : m.find? k = some v) :
    m.insert k v = m := by
  apply ext_find?
  intro k'
  rw [find?_insert]
  split_ifs with hk
  · rw [hk, h]
  · rfl

/-! ## Values under a function -/

/-- Every value replaced by its image under `f`. -/
def mapValues {W : Type*} (m : OrdMap K V) (f : V → W) : OrdMap K W :=
  ⟨m.entries.map fun e => (e.1, f e.2), List.pairwise_map.mpr m.sorted⟩

@[simp] theorem find?_mapValues {W : Type*} (m : OrdMap K V) (f : V → W) (k : K) :
    (m.mapValues f).find? k = (m.find? k).map f := by
  rw [find?, find?, mapValues, List.find?_map, Option.map_map, Option.map_map]
  rfl

/-- Two maps have the same values under `f` if they do at each key. -/
theorem mapValues_eq_iff {W : Type*} {m m' : OrdMap K V} {f : V → W} :
    m.mapValues f = m'.mapValues f ↔ ∀ k, (m.find? k).map f = (m'.find? k).map f := by
  constructor
  · intro h k
    rw [← find?_mapValues, ← find?_mapValues, h]
  · intro h
    apply ext_find?
    intro k
    rw [find?_mapValues, find?_mapValues, h k]

/-! ## Insertions one after the other -/

/-- Files the entries of a list. -/
def insertAll (m : OrdMap K V) (es : List (K × V)) : OrdMap K V :=
  es.foldl (fun m e => m.insert e.1 e.2) m

/-- Entries with distinct keys are all filed. -/
theorem find?_insertAll {m : OrdMap K V} {es : List (K × V)} (hes : (es.map Prod.fst).Nodup)
    {k : K} {v : V} : (m.insertAll es).find? k = some v ↔
      (k, v) ∈ es ∨ k ∉ es.map Prod.fst ∧ m.find? k = some v := by
  induction es generalizing m with
  | nil => simp [insertAll]
  | cons e es ih =>
    rw [List.map_cons, List.nodup_cons] at hes
    have hstep : m.insertAll (e :: es) = (m.insert e.1 e.2).insertAll es := rfl
    rw [hstep, ih hes.2, find?_insert]
    by_cases hk : k = e.1
    · subst hk
      have hnot : (e.1, v) ∉ es := fun hmem => hes.1 (List.mem_map.mpr ⟨_, hmem, rfl⟩)
      simp [hnot, hes.1, Prod.ext_iff, eq_comm]
    · simp [hk, Prod.ext_iff]

/-- Of the entries of one key the last stays. -/
theorem find?_insertAll_last (m : OrdMap K V) (es : List (K × V)) (k : K) :
    (m.insertAll es).find? k =
      ((es.filter fun e => e.1 = k).getLast?.map Prod.snd).or (m.find? k) := by
  induction es using List.reverseRecOn with
  | nil => rfl
  | append_singleton es e ih =>
    have hstep : m.insertAll (es ++ [e]) = (m.insertAll es).insert e.1 e.2 := by
      simp [insertAll]
    rw [hstep, find?_insert, List.filter_append]
    split_ifs with hk
    · simp [hk]
    · simp [Ne.symm hk, ih]

/-- What is found was filed by one of the insertions or before them. -/
theorem mem_of_find?_insertAll {m : OrdMap K V} {es : List (K × V)} {k : K} {v : V}
    (h : (m.insertAll es).find? k = some v) : (k, v) ∈ es ∨ m.find? k = some v := by
  induction es generalizing m with
  | nil => exact Or.inr h
  | cons e es ih =>
    have hstep : m.insertAll (e :: es) = (m.insert e.1 e.2).insertAll es := rfl
    rw [hstep] at h
    rcases ih h with hmem | hfind
    · exact Or.inl (List.mem_cons_of_mem _ hmem)
    · rw [find?_insert] at hfind
      split_ifs at hfind with hk
      · have hv : e.2 = v := Option.some.inj hfind
        exact Or.inl (List.mem_cons.mpr (Or.inl (Prod.ext hk hv.symm)))
      · exact Or.inr hfind

/-- The keys inserted are found. -/
theorem find?_insertAll_isSome {m : OrdMap K V} {es : List (K × V)} {k : K} :
    ((m.insertAll es).find? k).isSome ↔ k ∈ es.map Prod.fst ∨ (m.find? k).isSome := by
  induction es generalizing m with
  | nil => simp [insertAll]
  | cons e es ih =>
    have hstep : m.insertAll (e :: es) = (m.insert e.1 e.2).insertAll es := rfl
    rw [hstep, ih, find?_insert]
    split_ifs with hk
    · simp [hk]
    · simp [hk]

/-! ## Updating the first value that allows it -/

/-- Replaces the value of the first entry on which `f` is defined. -/
def updateFirstEntry (f : V → Option V) : List (K × V) → Option (List (K × V))
  | [] => none
  | e :: l =>
    match f e.2 with
    | some v => some ((e.1, v) :: l)
    | none => (updateFirstEntry f l).map (e :: ·)

omit [LinearOrder K] in
/-- An update changes a value, no key. -/
theorem updateFirstEntry_keys {f : V → Option V} {l l' : List (K × V)}
    (h : updateFirstEntry f l = some l') : l'.map Prod.fst = l.map Prod.fst := by
  induction l generalizing l' with
  | nil => cases h
  | cons e l ih =>
    rw [updateFirstEntry] at h
    split at h
    · cases h
      rfl
    · obtain ⟨l'', hl'', rfl⟩ := Option.map_eq_some_iff.mp h
      simp [ih hl'']

/-- Replaces the first value, in key order, on which `f` is defined. -/
def updateFirst? (m : OrdMap K V) (f : V → Option V) : Option (OrdMap K V) :=
  match h : updateFirstEntry f m.entries with
  | none => none
  | some l => some ⟨l, by
      have hs := List.pairwise_map.mpr m.sorted
      rw [← updateFirstEntry_keys h] at hs
      exact List.pairwise_map.mp hs⟩

omit [LinearOrder K] in
theorem updateFirstEntry_eq_none {f : V → Option V} {l : List (K × V)} :
    updateFirstEntry f l = none ↔ ∀ e ∈ l, f e.2 = none := by
  induction l with
  | nil => simp [updateFirstEntry]
  | cons e l ih =>
    rw [updateFirstEntry]
    split
    · next v hv => simp [hv]
    · next hv => simp [hv, ih]

omit [LinearOrder K] in
/-- An update is made at one key, where it is defined, and the other entries stay. -/
theorem updateFirstEntry_eq_some {f : V → Option V} {l l' : List (K × V)}
    (h : updateFirstEntry f l = some l') :
    ∃ k v v', (k, v) ∈ l ∧ f v = some v' ∧ (k, v') ∈ l' ∧
      ∀ e, e.1 ≠ k → (e ∈ l' ↔ e ∈ l) := by
  induction l generalizing l' with
  | nil => cases h
  | cons a l ih =>
    rw [updateFirstEntry] at h
    split at h
    · next v' hv =>
      cases h
      exact ⟨a.1, a.2, v', List.mem_cons_self, hv, List.mem_cons_self, fun e he => by grind⟩
    · obtain ⟨l'', hl'', rfl⟩ := Option.map_eq_some_iff.mp h
      obtain ⟨k, v, v', hmem, hf, hself, hrest⟩ := ih hl''
      exact ⟨k, v, v', List.mem_cons_of_mem _ hmem, hf, List.mem_cons_of_mem _ hself,
        fun e he => by grind⟩

/-- No entry is updated only if the update is defined at none. -/
theorem updateFirst?_eq_none {m : OrdMap K V} {f : V → Option V} :
    m.updateFirst? f = none ↔ ∀ k v, m.find? k = some v → f v = none := by
  have hunfold : m.updateFirst? f = none ↔ updateFirstEntry f m.entries = none := by
    unfold updateFirst?
    split <;> simp_all
  rw [hunfold, updateFirstEntry_eq_none]
  simp only [find?_eq_some]
  exact ⟨fun h k v hmem => h (k, v) hmem, fun h e hmem => h e.1 e.2 hmem⟩

/-- An update of the first value is an insertion under that value's key. -/
theorem updateFirst?_eq_some {m m' : OrdMap K V} {f : V → Option V}
    (h : m.updateFirst? f = some m') :
    ∃ k v v', m.find? k = some v ∧ f v = some v' ∧ m' = m.insert k v' := by
  have hl : updateFirstEntry f m.entries = some m'.entries := by
    unfold updateFirst? at h
    split at h
    · cases h
    · next l hl =>
      cases h
      exact hl
  obtain ⟨k, v, v', hmem, hf, hself, hrest⟩ := updateFirstEntry_eq_some hl
  refine ⟨k, v, v', find?_eq_some.mpr hmem, hf, ext_find? fun k' => ?_⟩
  rw [find?_insert]
  split_ifs with hk
  · rw [hk]
    exact find?_eq_some.mpr hself
  · ext w
    rw [find?_eq_some, find?_eq_some]
    exact hrest (k', w) hk

/-- The entry with the smallest key among those that pass a test. -/
def first? (m : OrdMap K V) (p : K → V → Bool) : Option (K × V) :=
  m.entries.find? fun e => p e.1 e.2

/-- What is found first has the smallest key that passes the test. -/
theorem first?_eq_some {m : OrdMap K V} {p : K → V → Bool} {k : K} {v : V}
    (h : m.first? p = some (k, v)) :
    m.find? k = some v ∧ p k v = true ∧
      ∀ k' v', m.find? k' = some v' → k' < k → p k' v' = false := by
  rcases List.find?_eq_some_iff_append.mp h with ⟨hp, l, l', hentries, hbefore⟩
  have hsorted := m.sorted
  rw [hentries] at hsorted
  refine ⟨find?_eq_some.mpr (by simp [hentries]), hp, ?_⟩
  intro k' v' hfind hlt
  have hmem := find?_eq_some.mp hfind
  rw [hentries] at hmem
  rcases List.mem_append.mp hmem with hmem | hmem
  · simpa using hbefore (k', v') hmem
  · -- what stands behind the entry has a larger key
    rcases List.mem_cons.mp hmem with heq | hmem
    · rw [← (Prod.mk.inj heq).1] at hlt
      exact absurd hlt (lt_irrefl _)
    · have hafter := List.rel_of_pairwise_cons (List.pairwise_append.mp hsorted).2.1 hmem
      exact absurd hlt (lt_asymm hafter)

/-! ## First and last key -/

/-- The keys in increasing order. -/
def keys (m : OrdMap K V) : List K := m.entries.map Prod.fst

/-- The values in the order of their keys. -/
def values (m : OrdMap K V) : List V := m.entries.map Prod.snd

/-- The smallest key. -/
def minKey? (m : OrdMap K V) : Option K := m.keys.head?

/-- The largest key. -/
def maxKey? (m : OrdMap K V) : Option K := m.keys.getLast?

theorem mem_keys {m : OrdMap K V} {k : K} : k ∈ m.keys ↔ ∃ v, m.find? k = some v := by
  simp [keys, find?_eq_some]

/-- The entry of a key, if there is one, is the only one. -/
theorem filter_entries_key (m : OrdMap K V) (k : K) :
    (m.entries.filter fun e => e.1 = k) = ((m.find? k).map fun v => (k, v)).toList := by
  obtain ⟨l, hl⟩ := m
  simp only [find?]
  induction l with
  | nil => rfl
  | cons e l ih =>
    rw [List.pairwise_cons] at hl
    by_cases hk : e.1 = k
    · have hrest : (l.filter fun e => e.1 = k) = [] := by
        rw [List.filter_eq_nil_iff]
        intro e' he' hk'
        exact (hl.1 e' he').ne (hk.trans (of_decide_eq_true hk').symm)
      subst hk
      simp [hrest]
    · simp only [hk, decide_false, Bool.false_eq_true, not_false_eq_true, List.filter_cons_of_neg,
        List.find?_cons_of_neg]
      exact ih hl.2

theorem keys_sorted (m : OrdMap K V) : m.keys.Pairwise (· < ·) :=
  List.pairwise_map.mpr m.sorted

/-- The smallest key is no larger than any other. -/
theorem minKey?_le {m : OrdMap K V} {k k' : K} (h : m.minKey? = some k) (hk' : k' ∈ m.keys) :
    k ≤ k' := by
  have hs := m.keys_sorted
  rw [minKey?, List.head?_eq_some_iff] at h
  obtain ⟨l, hl⟩ := h
  rw [hl] at hs hk'
  rcases List.mem_cons.mp hk' with rfl | hk'
  · exact le_rfl
  · exact (List.rel_of_pairwise_cons hs hk').le

/-- The largest key is no smaller than any other. -/
theorem le_maxKey? {m : OrdMap K V} {k k' : K} (h : m.maxKey? = some k) (hk' : k' ∈ m.keys) :
    k' ≤ k := by
  have hs := m.keys_sorted
  rw [maxKey?, List.getLast?_eq_some_iff] at h
  obtain ⟨l, hl⟩ := h
  rw [hl] at hs hk'
  rw [List.pairwise_append] at hs
  rcases List.mem_append.mp hk' with hk' | hk'
  · exact (hs.2.2 k' hk' k (List.mem_singleton_self k)).le
  · rw [List.mem_singleton.mp hk']

theorem mem_keys_of_minKey? {m : OrdMap K V} {k : K} (h : m.minKey? = some k) : k ∈ m.keys :=
  List.mem_of_head? h

theorem mem_keys_of_maxKey? {m : OrdMap K V} {k : K} (h : m.maxKey? = some k) : k ∈ m.keys :=
  List.mem_of_getLast? h

theorem minKey?_eq_none {m : OrdMap K V} : m.minKey? = none ↔ m.keys = [] :=
  List.head?_eq_none_iff

theorem maxKey?_eq_none {m : OrdMap K V} : m.maxKey? = none ↔ m.keys = [] :=
  List.getLast?_eq_none_iff

/-! ## Values and their sums -/

/-- The values after an insertion: the new one, and those of the other keys. -/
theorem values_insertEntry {k : K} {v : V} {l : List (K × V)}
    (hl : l.Pairwise fun a b => a.1 < b.1) :
    ((insertEntry k v l).map Prod.snd).Perm
      (v :: (l.filter fun e => e.1 ≠ k).map Prod.snd) := by
  induction l with
  | nil => simp [insertEntry]
  | cons a l ih =>
    rw [List.pairwise_cons] at hl
    have hkeep : (∀ x ∈ l, x.1 ≠ k) → (l.filter fun e => e.1 ≠ k) = l := by
      intro h
      rw [List.filter_eq_self]
      simpa using h
    rw [insertEntry]
    -- before the first larger key, over an equal one, or further on
    split_ifs with hlt heq
    · have h1 : ∀ x ∈ l, x.1 ≠ k := fun x hx => (hlt.trans (hl.1 x hx)).ne'
      rw [List.filter_cons_of_pos (by simpa using hlt.ne'), hkeep h1]
      simp
    · have h1 : ∀ x ∈ l, x.1 ≠ k := fun x hx => (heq ▸ hl.1 x hx).ne'
      rw [List.filter_cons_of_neg (by simpa using heq), hkeep h1]
      simp
    · rw [List.filter_cons_of_pos (by simpa using heq)]
      simp only [List.map_cons]
      exact ((ih hl.2).cons a.2).trans (List.Perm.swap v a.2 _)

/-- The values after an insertion are the new one and those of the other keys. -/
theorem values_insert (m : OrdMap K V) (k : K) (v : V) :
    (m.insert k v).values.Perm (v :: (m.erase k).values) :=
  values_insertEntry m.sorted

/-- The sum of `f` over the values. -/
def total {M : Type*} [AddCommMonoid M] (f : V → M) (m : OrdMap K V) : M := (m.values.map f).sum

section Sums

variable {M : Type*} [AddCommMonoid M]

@[simp] theorem total_empty (f : V → M) : (empty : OrdMap K V).total f = 0 := rfl

/-- An insertion replaces the share of its key in the total. -/
theorem total_insert (f : V → M) (m : OrdMap K V) (k : K) (v : V) :
    (m.insert k v).total f = f v + (m.erase k).total f := by
  unfold total
  rw [((m.values_insert k v).map f).sum_eq, List.map_cons, List.sum_cons]

/-- The sum is the value of a key and the sum of the others. -/
theorem total_erase {f : V → M} {m : OrdMap K V} {k : K} {w : V} (h : m.find? k = some w) :
    m.total f = f w + (m.erase k).total f := by
  rw [← total_insert, insert_of_find?_eq_some h]

/-- A new key adds its value to the sum. -/
theorem total_insert_new {f : V → M} {m : OrdMap K V} {k : K} (h : m.find? k = none) (v : V) :
    (m.insert k v).total f = m.total f + f v := by
  rw [total_insert, erase_of_find?_eq_none h, add_comm]

/-- A known key exchanges its value in the sum. -/
theorem total_insert_known {f : V → M} {m : OrdMap K V} {k : K} {w : V}
    (h : m.find? k = some w) (v : V) :
    (m.insert k v).total f + f w = m.total f + f v := by
  rw [total_insert, total_erase h]
  abel

/-- A total of shares that are not negative is not negative. -/
theorem total_nonneg {f : V → M} [PartialOrder M] [IsOrderedAddMonoid M] {m : OrdMap K V}
    (h : ∀ k v, m.find? k = some v → 0 ≤ f v) : 0 ≤ m.total f := by
  refine List.sum_nonneg ?_
  intro x hx
  rcases List.mem_map.mp hx with ⟨v, hv, rfl⟩
  rcases List.mem_map.mp hv with ⟨e, he, rfl⟩
  exact h e.1 e.2 (find?_eq_some.mpr he)

end Sums

/-! ## Maps of queues -/

/-- All queued elements, in the order of the keys. -/
def flat (m : OrdMap K (List α)) : List α := m.values.flatten

/-- The queue under `k`; a missing key is an empty queue. -/
def queueAt (m : OrdMap K (List α)) (k : K) : List α := (m.find? k).getD []

/-- Writes the queue under `k`; a key whose queue becomes empty is dropped. -/
def putQueue (m : OrdMap K (List α)) (k : K) (q : List α) : OrdMap K (List α) :=
  if q = [] then m.erase k else m.insert k q

/-- What is in the map is in one of its queues. -/
theorem mem_flat {m : OrdMap K (List α)} {a : α} :
    a ∈ m.flat ↔ ∃ k, a ∈ m.queueAt k := by
  simp only [flat, values, List.mem_flatten, List.mem_map, queueAt]
  constructor
  · rintro ⟨q, ⟨⟨k, q'⟩, hmem, rfl⟩, ha⟩
    exact ⟨k, by rw [find?_eq_some.mpr hmem]; exact ha⟩
  · rintro ⟨k, ha⟩
    cases hq : m.find? k with
    | none => simp [hq] at ha
    | some q =>
      rw [hq] at ha
      exact ⟨q, ⟨(k, q), find?_eq_some.mp hq, rfl⟩, ha⟩

/-- A queue is stored under its key, and an empty one is dropped. -/
theorem find?_putQueue (m : OrdMap K (List α)) (k k' : K) (q : List α) :
    (m.putQueue k q).find? k' =
      if k' = k then (if q = [] then none else some q) else m.find? k' := by
  unfold putQueue
  split_ifs with hq hk hk
  · rw [find?_erase, if_pos hk]
  · rw [find?_erase, if_neg hk]
  · rw [find?_insert, if_pos hk]
  · rw [find?_insert, if_neg hk]

/-- Putting a queue changes the queue of its key and no other. -/
theorem queueAt_putQueue (m : OrdMap K (List α)) (k k' : K) (q : List α) :
    (m.putQueue k q).queueAt k' = if k' = k then q else m.queueAt k' := by
  rw [queueAt, find?_putQueue]
  split_ifs with hk hq
  · rw [hq]; rfl
  · rfl
  · rfl

theorem flat_insert (m : OrdMap K (List α)) (k : K) (q : List α) :
    (m.insert k q).flat.Perm (q ++ (m.erase k).flat) :=
  (m.values_insert k q).flatten

/-- The elements of a map are those of one queue and those of the others. -/
theorem flat_eq_queueAt (m : OrdMap K (List α)) (k : K) :
    m.flat.Perm (m.queueAt k ++ (m.erase k).flat) := by
  unfold queueAt
  cases hq : m.find? k with
  | none => rw [erase_of_find?_eq_none hq]; rfl
  | some q =>
    have h := flat_insert m k q
    rwa [insert_of_find?_eq_some hq] at h

/-- All that is in the queues, after one of them was put. -/
theorem flat_putQueue (m : OrdMap K (List α)) (k : K) (q : List α) :
    (m.putQueue k q).flat.Perm (q ++ (m.erase k).flat) := by
  unfold putQueue
  split_ifs with hq
  · rw [hq]; rfl
  · exact flat_insert m k q

/-! ## Maps described by their entries -/

/-- The map holds the entries `E`, which have distinct keys; at every other key
it is as `outside` says. -/
structure Holds (m : OrdMap K V) (E : Multiset (K × V)) (outside : K → Option V) : Prop where
  entry : ∀ e ∈ E, m.find? e.1 = some e.2
  other : ∀ k, k ∉ E.map Prod.fst → m.find? k = outside k

namespace Holds

variable {m : OrdMap K V} {E : Multiset (K × V)} {outside : K → Option V} {k : K} {v : V}

theorem find?_cons (h : m.Holds ((k, v) ::ₘ E) outside) : m.find? k = some v :=
  h.entry (k, v) (Multiset.mem_cons_self _ _)

theorem find?_absent (h : m.Holds E outside) (hk : k ∉ E.map Prod.fst) (hnone : outside k = none) :
    m.find? k = none := by
  rw [h.other k hk, hnone]

/-- Erasing the key of an entry leaves the others. -/
theorem erase (h : m.Holds ((k, v) ::ₘ E) outside) (hk : k ∉ E.map Prod.fst)
    (hnone : outside k = none) : (m.erase k).Holds E outside where
  entry := by
    intro e he
    have hne : e.1 ≠ k := by
      intro heq
      exact hk (Multiset.mem_map.mpr ⟨e, he, heq⟩)
    rw [find?_erase, if_neg hne]
    exact h.entry e (Multiset.mem_cons_of_mem he)
  other := by
    intro k' hk'
    rw [find?_erase]
    split_ifs with heq
    · rw [heq, hnone]
    · refine h.other k' ?_
      rw [Multiset.map_cons, Multiset.mem_cons]
      exact not_or.mpr ⟨heq, hk'⟩

theorem erase_absent (h : m.Holds E outside) (hk : k ∉ E.map Prod.fst)
    (hnone : outside k = none) : (m.erase k).Holds E outside := by
  rw [erase_of_find?_eq_none (h.find?_absent hk hnone)]
  exact h

/-- Writing an entry whose key is new. -/
theorem insert (h : m.Holds E outside) (hk : k ∉ E.map Prod.fst) :
    (m.insert k v).Holds ((k, v) ::ₘ E) outside where
  entry := by
    intro e he
    rcases Multiset.mem_cons.mp he with rfl | he
    · exact find?_insert_self m _ _
    · have hne : e.1 ≠ k := by
        intro heq
        exact hk (Multiset.mem_map.mpr ⟨e, he, heq⟩)
      rw [find?_insert, if_neg hne]
      exact h.entry e he
  other := by
    intro k' hk'
    rw [Multiset.map_cons, Multiset.mem_cons, not_or] at hk'
    rw [find?_insert, if_neg hk'.1]
    exact h.other k' hk'.2

/-- Rewriting the entry of a key. -/
theorem update (h : m.Holds ((k, v) ::ₘ E) outside) (hk : k ∉ E.map Prod.fst) (v' : V) :
    (m.insert k v').Holds ((k, v') ::ₘ E) outside where
  entry := by
    intro e he
    rcases Multiset.mem_cons.mp he with rfl | he
    · exact find?_insert_self m _ _
    · have hne : e.1 ≠ k := by
        intro heq
        exact hk (Multiset.mem_map.mpr ⟨e, he, heq⟩)
      rw [find?_insert, if_neg hne]
      exact h.entry e (Multiset.mem_cons_of_mem he)
  other := by
    intro k' hk'
    rw [Multiset.map_cons, Multiset.mem_cons, not_or] at hk'
    rw [find?_insert, if_neg hk'.1]
    refine h.other k' ?_
    rw [Multiset.map_cons, Multiset.mem_cons]
    exact not_or.mpr hk'

end Holds

end OrdMap
