import Mathlib.Algebra.BigOperators.Group.Multiset.Basic
import Mathlib.Data.Multiset.AddSub
import Mathlib.Tactic.Common

/-!
# Hash trees over unordered pairs

A list of digests is reduced level by level: neighbours are hashed together, and the last
digest of a level of odd length is promoted as it is. What comes out is the root of a binary
tree whose leaves are the digests (`exists_tree`).

If the hash of a pair forgets the order of the pair and nothing else, and no leaf is the hash of
a pair, the root determines the leaves with their multiplicities (`leaves_eq_of_root_eq`). Both
are asked only of what is hashed for the two roots (`pairs`).

A path leads from a digest to the root through the siblings on its way (`climb`). The path that
is read off the levels arrives (`climb_proofFor`), and a path of arbitrary siblings that arrives
starts at a leaf (`mem_leaves_of_climb`).
-/

namespace HashTree

variable {δ : Type*}

/-! ## Levels -/

/-- The next level. -/
def nextLevel (hash : δ → δ → δ) : List δ → List δ
  | [] => []
  | [single] => [single]
  | left :: right :: rest => hash left right :: nextLevel hash rest

/-- The pairs that are hashed for the next level. -/
def levelPairs : List δ → List (δ × δ)
  | left :: right :: rest => (left, right) :: levelPairs rest
  | _ => []

/-- A level is shorter than the one below it, so that the tree has a root. -/
theorem length_nextLevel_le (hash : δ → δ → δ) (level : List δ) :
    (nextLevel hash level).length ≤ level.length ∧
      (2 ≤ level.length → (nextLevel hash level).length < level.length) := by
  induction level using nextLevel.induct with
  | case1 => simp [nextLevel]
  | case2 => simp [nextLevel]
  | case3 left right rest ih =>
    simp only [nextLevel, List.length_cons]
    omega

/-- The root of a level: `none` if it is empty. -/
def rootOf (hash : δ → δ → δ) (level : List δ) : Option δ :=
  match level with
  | [] => none
  | [root] => some root
  | left :: right :: rest => rootOf hash (nextLevel hash (left :: right :: rest))
termination_by level.length
decreasing_by exact (length_nextLevel_le hash _).2 (by simp)

/-- The pairs that are hashed on the way to the root. -/
def pairs (hash : δ → δ → δ) (level : List δ) : List (δ × δ) :=
  match level with
  | [] => []
  | [_] => []
  | left :: right :: rest =>
    levelPairs (left :: right :: rest) ++ pairs hash (nextLevel hash (left :: right :: rest))
termination_by level.length
decreasing_by exact (length_nextLevel_le hash _).2 (by simp)

/-! ## Trees -/

inductive Tree (δ : Type*) where
  | leaf (digest : δ)
  | node (left right : Tree δ)

namespace Tree

def root (hash : δ → δ → δ) : Tree δ → δ
  | leaf digest => digest
  | node left right => hash (left.root hash) (right.root hash)

def leaves : Tree δ → Multiset δ
  | leaf digest => {digest}
  | node left right => left.leaves + right.leaves

/-- The pairs that are hashed in the tree. -/
def pairs (hash : δ → δ → δ) : Tree δ → List (δ × δ)
  | leaf _ => []
  | node left right =>
    (left.root hash, right.root hash) :: (left.pairs hash ++ right.pairs hash)

variable {hash : δ → δ → δ} {t t' : Tree δ}

/-- What holds of the leaves and of all hashes holds of the root. -/
theorem root_of_leaves {P : δ → Prop} (hhash : ∀ a b, P (hash a b)) (h : ∀ a ∈ t.leaves, P a) :
    P (t.root hash) := by
  cases t with
  | leaf digest => exact h digest (Multiset.mem_singleton_self _)
  | node left right => exact hhash _ _

/-- What holds of the leaves and of all hashes holds of what is hashed. -/
theorem pairs_of_leaves {P : δ → Prop} (hhash : ∀ a b, P (hash a b)) (h : ∀ a ∈ t.leaves, P a) :
    ∀ p ∈ t.pairs hash, P p.1 ∧ P p.2 := by
  induction t with
  | leaf digest => simp [pairs]
  | node left right ihl ihr =>
    have hleft : ∀ a ∈ left.leaves, P a := fun a ha => h a (Multiset.mem_add.mpr (.inl ha))
    have hright : ∀ a ∈ right.leaves, P a := fun a ha => h a (Multiset.mem_add.mpr (.inr ha))
    intro p hp
    rcases List.mem_cons.mp hp with rfl | hp
    · exact ⟨root_of_leaves hhash hleft, root_of_leaves hhash hright⟩
    rcases List.mem_append.mp hp with hp | hp
    · exact ihl hleft p hp
    · exact ihr hright p hp

/-- The hash of the pairs forgets their order and nothing else. -/
def Unordered (hash : δ → δ → δ) (ps : List (δ × δ)) : Prop :=
  ∀ p ∈ ps, ∀ q ∈ ps, hash p.1 p.2 = hash q.1 q.2 → p = q ∨ p = q.swap

/-- None of the digests is the hash of one of the pairs. -/
def Apart (hash : δ → δ → δ) (digests : Multiset δ) (ps : List (δ × δ)) : Prop :=
  ∀ a ∈ digests, ∀ p ∈ ps, a ≠ hash p.1 p.2

/-- The root determines the leaves. -/
theorem leaves_eq_of_root_eq {ps : List (δ × δ)} {digests : Multiset δ}
    (hunordered : Unordered hash ps) (hapart : Apart hash digests ps)
    (hps : t.pairs hash ⊆ ps) (hps' : t'.pairs hash ⊆ ps)
    (hleaves : ∀ a ∈ t.leaves, a ∈ digests) (hleaves' : ∀ a ∈ t'.leaves, a ∈ digests)
    (h : t.root hash = t'.root hash) : t.leaves = t'.leaves := by
  induction t generalizing t' with
  | leaf digest =>
    cases t' with
    | leaf digest' => rw [leaves, leaves, show digest = digest' from h]
    | node left' right' =>
      -- a leaf is no node
      have hmem : digest ∈ digests := hleaves digest (Multiset.mem_singleton_self _)
      exact absurd h (hapart digest hmem _ (hps' List.mem_cons_self))
  | node left right ihl ihr =>
    cases t' with
    | leaf digest' =>
      have hmem : digest' ∈ digests := hleaves' digest' (Multiset.mem_singleton_self _)
      exact absurd h.symm (hapart digest' hmem _ (hps List.mem_cons_self))
    | node left' right' =>
      rcases List.cons_subset.mp hps with ⟨hpair, hrest⟩
      rcases List.cons_subset.mp hps' with ⟨hpair', hrest'⟩
      rcases List.append_subset.mp hrest with ⟨hl, hr⟩
      rcases List.append_subset.mp hrest' with ⟨hl', hr'⟩
      have hin : ∀ a ∈ left.leaves, a ∈ digests :=
        fun a ha => hleaves a (Multiset.mem_add.mpr (.inl ha))
      have hin₂ : ∀ a ∈ right.leaves, a ∈ digests :=
        fun a ha => hleaves a (Multiset.mem_add.mpr (.inr ha))
      have hin' : ∀ a ∈ left'.leaves, a ∈ digests :=
        fun a ha => hleaves' a (Multiset.mem_add.mpr (.inl ha))
      have hin₂' : ∀ a ∈ right'.leaves, a ∈ digests :=
        fun a ha => hleaves' a (Multiset.mem_add.mpr (.inr ha))
      rcases hunordered _ hpair _ hpair' h with heq | hswap
      · rcases Prod.mk.inj heq with ⟨hleft, hright⟩
        rw [leaves, leaves, ihl hl hl' hin hin' hleft, ihr hr hr' hin₂ hin₂' hright]
      · rcases Prod.mk.inj hswap with ⟨hleft, hright⟩
        rw [leaves, leaves, ihl hl hr' hin hin₂' hleft, ihr hr hl' hin₂ hin' hright, add_comm]

end Tree

/-! ## The tree of a level -/

/-- The trees of the next level. -/
def nextTrees : List (Tree δ) → List (Tree δ)
  | [] => []
  | [single] => [single]
  | left :: right :: rest => .node left right :: nextTrees rest

variable (hash : δ → δ → δ)

/-- Joining trees in pairs hashes their roots as a level does. -/
theorem map_root_nextTrees (ts : List (Tree δ)) :
    (nextTrees ts).map (Tree.root hash) = nextLevel hash (ts.map (Tree.root hash)) := by
  induction ts using nextTrees.induct with
  | case1 => rfl
  | case2 => rfl
  | case3 left right rest ih =>
    simp only [nextTrees, List.map_cons, nextLevel, ih]
    rfl

/-- No leaf is lost in the joining. -/
theorem sum_leaves_nextTrees (ts : List (Tree δ)) :
    ((nextTrees ts).map Tree.leaves).sum = (ts.map Tree.leaves).sum := by
  induction ts using nextTrees.induct with
  | case1 => rfl
  | case2 => rfl
  | case3 left right rest ih =>
    simp only [nextTrees, List.map_cons, List.sum_cons, ih, Tree.leaves, add_assoc]

/-- The joined trees hash only what was hashed before and the pairs of the level. -/
theorem flatMap_pairs_nextTrees (ts : List (Tree δ)) :
    (nextTrees ts).flatMap (Tree.pairs hash) ⊆
      ts.flatMap (Tree.pairs hash) ++ levelPairs (ts.map (Tree.root hash)) := by
  induction ts using nextTrees.induct with
  | case1 => simp [nextTrees]
  | case2 => simp [nextTrees]
  | case3 left right rest ih =>
    intro p hp
    simp only [nextTrees, List.flatMap_cons, Tree.pairs, List.mem_append, List.mem_cons,
      List.map_cons, levelPairs] at hp ⊢
    rcases hp with (rfl | hp | hp) | hp
    · exact .inr (.inl rfl)
    · exact .inl (.inl hp)
    · exact .inl (.inr (.inl hp))
    · rcases List.mem_append.mp (ih hp) with hold | hnew
      · exact .inl (.inr (.inr hold))
      · exact .inr (.inr hnew)

/-- The root of a level of trees is the root of one tree with all their leaves. -/
theorem exists_tree_of_trees (ts : List (Tree δ)) (hne : ts ≠ []) :
    ∃ t : Tree δ, rootOf hash (ts.map (Tree.root hash)) = some (t.root hash) ∧
      t.leaves = (ts.map Tree.leaves).sum ∧
      t.pairs hash ⊆ ts.flatMap (Tree.pairs hash) ++ pairs hash (ts.map (Tree.root hash)) := by
  induction hn : ts.length using Nat.strong_induction_on generalizing ts with
  | _ n ih =>
    rcases ts with _ | ⟨left, _ | ⟨right, rest⟩⟩
    · exact absurd rfl hne
    · exact ⟨left, by simp [rootOf], by simp, by simp⟩
    · -- two trees or more: the trees of the next level are fewer
      have hshort : (nextTrees (left :: right :: rest)).length < n := by
        have hlen := congrArg List.length (map_root_nextTrees hash (left :: right :: rest))
        rw [List.length_map] at hlen
        rw [hlen, ← hn]
        have hless := (length_nextLevel_le hash ((left :: right :: rest).map (Tree.root hash))).2
        simpa using hless
      rcases ih _ hshort (nextTrees (left :: right :: rest)) (by simp [nextTrees]) rfl with
        ⟨t, hroot, hleaves, hpairs⟩
      -- the tree of the next level is the tree of this one
      rw [map_root_nextTrees] at hroot hpairs
      refine ⟨t, ?_, ?_, ?_⟩
      · rw [← hroot]
        simp only [List.map_cons, rootOf]
      · rw [hleaves, sum_leaves_nextTrees]
      · intro p hp
        simp only [List.map_cons, pairs] at hpairs ⊢
        rcases List.mem_append.mp (hpairs hp) with hnew | hlater
        · rcases List.mem_append.mp (flatMap_pairs_nextTrees hash _ hnew) with hold | hlevel
          · exact List.mem_append.mpr (.inl hold)
          · exact List.mem_append.mpr (.inr (List.mem_append.mpr (.inl hlevel)))
        · exact List.mem_append.mpr (.inr (List.mem_append.mpr (.inr hlater)))

/-- The root of a level is the root of a tree over its digests. -/
theorem exists_tree {level : List δ} (hne : level ≠ []) :
    ∃ t : Tree δ, rootOf hash level = some (t.root hash) ∧ t.leaves = ↑level ∧
      t.pairs hash ⊆ pairs hash level := by
  have hmap : (level.map Tree.leaf).map (Tree.root hash) = level := by
    rw [List.map_map]
    exact List.map_id level
  have hsum : ((level.map Tree.leaf).map Tree.leaves).sum = (level : Multiset δ) := by
    rw [List.map_map]
    exact Multiset.sum_map_singleton (level : Multiset δ)
  have hnone : (level.map Tree.leaf).flatMap (Tree.pairs hash) = [] := by
    simp [List.flatMap_map, Tree.pairs]
  rcases exists_tree_of_trees hash (level.map Tree.leaf) (by simpa using hne) with
    ⟨t, hroot, hleaves, hpairs⟩
  rw [hmap] at hroot hpairs
  rw [hnone, List.nil_append] at hpairs
  exact ⟨t, hroot, hleaves.trans hsum, hpairs⟩

/-! ## Paths -/

/-- The hash at the end of a path from a digest. -/
def climb (start : δ) (siblings : List δ) : δ := siblings.foldl hash start

/-- The pairs that are hashed on a path. -/
def climbPairs : δ → List δ → List (δ × δ)
  | _, [] => []
  | start, sibling :: siblings => (start, sibling) :: climbPairs (hash start sibling) siblings

/-- The position of the digest that is hashed with the one at a position. -/
def siblingIndex (index : ℕ) : ℕ := if index % 2 = 0 then index + 1 else index - 1

/-- The siblings on the way from a position of a level to the root. A digest that is promoted
has none. -/
def proofFor (level : List δ) (index : ℕ) : List δ :=
  match level with
  | [] => []
  | [_] => []
  | left :: right :: rest =>
    (left :: right :: rest)[siblingIndex index]?.toList ++
      proofFor (nextLevel hash (left :: right :: rest)) (index / 2)
termination_by level.length
decreasing_by exact (length_nextLevel_le hash _).2 (by simp)

variable {hash}

/-- A path is climbed piece by piece. -/
theorem climb_append (start : δ) (siblings siblings' : List δ) :
    climb hash start (siblings ++ siblings') =
      climb hash (climb hash start siblings) siblings' :=
  List.foldl_append

/-- The last step hashes what was climbed so far with the last sibling. -/
theorem climbPairs_concat (start sibling : δ) (siblings : List δ) :
    climbPairs hash start (siblings ++ [sibling]) =
      climbPairs hash start siblings ++ [(climb hash start siblings, sibling)] := by
  induction siblings generalizing start with
  | nil => rfl
  | cons s siblings ih =>
    rw [List.cons_append, climbPairs, ih, climbPairs, List.cons_append]
    rfl

/-- A digest and its sibling are hashed into the digest at half their position. -/
theorem getElem?_nextLevel (hcomm : ∀ a b, hash a b = hash b a) {level : List δ} {index : ℕ}
    {a : δ} (h : level[index]? = some a) :
    (nextLevel hash level)[index / 2]? =
      some (climb hash a level[siblingIndex index]?.toList) := by
  induction level using nextLevel.induct generalizing index with
  | case1 => cases h
  | case2 single =>
    cases index with
    | zero => exact h
    | succ index => cases h
  -- the pair at the front is hashed; an index behind it is one of the rest
  | case3 left right rest ih =>
    rcases index with _ | _ | index
    · cases h
      rfl
    · have hright : right = a := Option.some.inj h
      rw [← hright]
      exact congrArg some (hcomm left right)
    · have hlater : rest[index]? = some a := h
      have hrest := ih hlater
      have hhalf : (index + 2) / 2 = index / 2 + 1 := by omega
      have hsibling : siblingIndex (index + 2) = siblingIndex index + 2 := by
        unfold siblingIndex
        split_ifs
        all_goals omega
      rw [hhalf, hsibling, nextLevel, List.getElem?_cons_succ, hrest]
      rfl

/-- The path that is read off the levels leads to the root. -/
theorem climb_proofFor (hcomm : ∀ a b, hash a b = hash b a) {level : List δ} {index : ℕ} {a : δ}
    (h : level[index]? = some a) :
    rootOf hash level = some (climb hash a (proofFor hash level index)) := by
  fun_induction proofFor hash level index generalizing a with
  | case1 index => cases h
  | case2 index single =>
    cases index with
    | zero =>
      cases h
      rw [rootOf]
      rfl
    | succ index => cases h
  | case3 index left right rest ih =>
    rw [rootOf, climb_append]
    exact ih (getElem?_nextLevel hcomm h)

/-- A hash of a pair of the first list tells of which digests of the second list its first
component can be. -/
def Reveals (hash : δ → δ → δ) (ps qs : List (δ × δ)) : Prop :=
  ∀ p ∈ ps, ∀ q ∈ qs, hash p.1 p.2 = hash q.1 q.2 → p.1 = q.1 ∨ p.1 = q.2

/-- A path that arrives at the root of a tree starts at a leaf. -/
theorem mem_leaves_of_climb {t : Tree δ} {start : δ} {siblings : List δ}
    (hreveals : Reveals hash (climbPairs hash start siblings) (t.pairs hash))
    (hleaves : Tree.Apart hash t.leaves (climbPairs hash start siblings))
    (hstart : Tree.Apart hash {start} (t.pairs hash))
    (h : climb hash start siblings = t.root hash) : start ∈ t.leaves := by
  -- from the root downwards: each step of the path ends at the root of a smaller tree
  induction siblings using List.reverseRecOn generalizing t with
  | nil =>
    cases t with
    | leaf digest => exact Multiset.mem_singleton.mpr h
    | node left right =>
      exact absurd h (hstart start (Multiset.mem_singleton_self _) _ List.mem_cons_self)
  | append_singleton siblings sibling ih =>
    rw [climbPairs_concat] at hreveals hleaves
    have hlast : (climb hash start siblings, sibling) ∈
        climbPairs hash start siblings ++ [(climb hash start siblings, sibling)] :=
      List.mem_append_right _ List.mem_cons_self
    rw [climb_append] at h
    cases t with
    | leaf digest =>
      exact absurd h.symm (hleaves digest (Multiset.mem_singleton_self _) _ hlast)
    | node left right =>
      have hdown : ∀ {t' : Tree δ}, t'.leaves ≤ left.leaves + right.leaves →
          t'.pairs hash ⊆ (Tree.node left right).pairs hash →
          climb hash start siblings = t'.root hash → start ∈ left.leaves + right.leaves := by
        intro t' hle hsub hroot
        refine Multiset.mem_of_le hle (ih ?_ ?_ ?_ hroot)
        · intro p hp q hq
          exact hreveals p (List.mem_append_left _ hp) q (hsub hq)
        · intro a ha p hp
          exact hleaves a (Multiset.mem_of_le hle ha) p (List.mem_append_left _ hp)
        · intro a ha p hp
          exact hstart a ha p (hsub hp)
      rcases hreveals _ hlast _ List.mem_cons_self h with hleft | hright
      · refine hdown (Multiset.le_add_right _ _) ?_ hleft
        exact List.subset_cons_of_subset _ (List.subset_append_left _ _)
      · refine hdown (Multiset.le_add_left _ _) ?_ hright
        exact List.subset_cons_of_subset _ (List.subset_append_right _ _)

end HashTree
