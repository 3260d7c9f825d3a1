import CryptoCex.Lib.HashTree
import Mathlib.Data.Fintype.Basic
import Mathlib.Data.List.Sort
import Mathlib.Data.Set.Function
import Mathlib.Data.String.Basic
import Mathlib.Tactic.NormNum

/-!
# Proof of reserves

The liabilities of a snapshot are sorted and hashed into the leaves of a tree; the root of the
tree is published, and every user can check that his own liabilities are under it.

The three kinds of payload start differently, and neither a digest in hex nor a user id has a
colon in it, so a payload determines what it was made from (`leafPayload_injective`,
`nodePayload_injective`). As long as no two of the payloads collide, the root therefore
determines the liabilities up to their order, and nothing else does.
-/

namespace CryptoCex.Api.ProofOfReserves

/-! ## Texts -/

/-- An entry of the table `HEX`. -/
def hexDigit (n : ℕ) : Char :=
  "0123456789abcdef".toList.getD n '0'

/-- The last `width` hexadecimal digits of `n`. -/
def hexDigits : ℕ → ℕ → List Char
  | 0, _ => []
  | width + 1, n => hexDigits width (n / 16) ++ [hexDigit (n % 16)]

/-- A 128-bit identifier, compared as a number. -/
abbrev UserId := Fin (2 ^ 128)

/-- The hyphenated form: groups of 8, 4, 4, 4 and 12 digits. -/
def hyphenated (digits : List Char) : List Char :=
  digits.take 8 ++ '-' :: ((digits.drop 8).take 4 ++ '-' :: ((digits.drop 12).take 4 ++
    '-' :: ((digits.drop 16).take 4 ++ '-' :: digits.drop 20)))

def uuidText (userId : UserId) : String :=
  String.ofList (hyphenated (hexDigits 32 userId))

def hexLower (bytes : List UInt8) : String :=
  String.ofList (bytes.flatMap fun byte : UInt8 =>
    [hexDigit (byte >>> 4).toNat, hexDigit (byte &&& 0x0f).toNat])

theorem hexDigit_mem (n : ℕ) : hexDigit n ∈ "0123456789abcdef".toList := by
  rcases Nat.lt_or_ge n 16 with hlt | hge
  · have hall : ∀ n : Fin 16, hexDigit n ∈ "0123456789abcdef".toList := by decide
    exact hall ⟨n, hlt⟩
  · have hdefault : hexDigit n = '0' := by
      rw [hexDigit, List.getD_eq_getElem?_getD, List.getElem?_eq_none hge]
      rfl
    rw [hdefault]
    decide

theorem eq_of_hexDigit_eq {m n : ℕ} (hm : m < 16) (hn : n < 16) (h : hexDigit m = hexDigit n) :
    m = n := by
  have hall : ∀ m n : Fin 16, hexDigit m = hexDigit n → m = n := by decide
  exact congrArg Fin.val (hall ⟨m, hm⟩ ⟨n, hn⟩ h)

theorem mem_hexDigits {width n : ℕ} {c : Char} (h : c ∈ hexDigits width n) :
    c ∈ "0123456789abcdef".toList := by
  induction width generalizing n with
  | zero => exact absurd h List.not_mem_nil
  | succ width ih =>
    rcases List.mem_append.mp h with hhigh | hlow
    · exact ih hhigh
    · rw [List.mem_singleton.mp hlow]
      exact hexDigit_mem _

theorem notMem_of_mem_hex {cs : List Char} {c : Char} (h : ∀ d ∈ cs, d ∈ "0123456789abcdef".toList)
    (hc : c ∉ "0123456789abcdef".toList) : c ∉ cs :=
  fun hmem => hc (h c hmem)

/-- A number is determined by its digits, up to the width. -/
theorem hexDigits_injective {width m n : ℕ} (hm : m < 16 ^ width) (hn : n < 16 ^ width)
    (h : hexDigits width m = hexDigits width n) : m = n := by
  induction width generalizing m n with
  | zero => omega
  | succ width ih =>
    rcases List.append_inj' h rfl with ⟨hhigh, hlow⟩
    rw [pow_succ] at hm hn
    have hdiv : m / 16 = n / 16 := ih (by omega) (by omega) hhigh
    have hmod : m % 16 = n % 16 :=
      eq_of_hexDigit_eq (by omega) (by omega) (List.singleton_inj.mp hlow)
    omega

/-- The hyphens can be taken out again. -/
theorem filter_hyphenated {digits : List Char} (h : '-' ∉ digits) :
    (hyphenated digits).filter (· ≠ '-') = digits := by
  have hkeep : ∀ ds : List Char, ds ⊆ digits → ds.filter (· ≠ '-') = ds := by
    intro ds hds
    refine List.filter_eq_self.mpr fun c hc => ?_
    simp only [ne_eq, decide_not, Bool.not_eq_true', decide_eq_false_iff_not]
    rintro rfl
    exact h (hds hc)
  have htake : ∀ k l, ((digits.drop k).take l).filter (· ≠ '-') = (digits.drop k).take l :=
    fun k l => hkeep _ fun c hc => List.mem_of_mem_drop (List.mem_of_mem_take hc)
  -- the five groups follow one another
  have hjoin : ∀ k l, (digits.drop k).take l ++ digits.drop (k + l) = digits.drop k := by
    intro k l
    rw [← List.drop_drop, List.take_append_drop]
  have hhyphen : ∀ ds : List Char, ('-' :: ds).filter (· ≠ '-') = ds.filter (· ≠ '-') :=
    fun ds => List.filter_cons_of_neg (by decide)
  calc (hyphenated digits).filter (· ≠ '-')
      = digits.take 8 ++ ((digits.drop 8).take 4 ++ ((digits.drop 12).take 4 ++
          ((digits.drop 16).take 4 ++ digits.drop 20))) := by
        simp only [hyphenated, List.filter_append, hhyphen, htake]
        rw [hkeep _ (List.take_subset 8 digits), hkeep _ (List.drop_subset 20 digits)]
    _ = digits := by
        rw [hjoin 16 4, hjoin 12 4, hjoin 8 4, List.take_append_drop]

theorem mem_hyphenated {digits : List Char} {c : Char} (h : c ∈ hyphenated digits) :
    c = '-' ∨ c ∈ digits := by
  simp only [hyphenated, List.mem_append, List.mem_cons] at h
  rcases h with h | h | h | h | h | h | h | h | h
  · exact .inr (List.mem_of_mem_take h)
  · exact .inl h
  · exact .inr (List.mem_of_mem_drop (List.mem_of_mem_take h))
  · exact .inl h
  · exact .inr (List.mem_of_mem_drop (List.mem_of_mem_take h))
  · exact .inl h
  · exact .inr (List.mem_of_mem_drop (List.mem_of_mem_take h))
  · exact .inl h
  · exact .inr (List.mem_of_mem_drop h)

/-- A user id is determined by its text. -/
theorem uuidText_injective {u v : UserId} (h : uuidText u = uuidText v) : u = v := by
  have hlist : hyphenated (hexDigits 32 u) = hyphenated (hexDigits 32 v) := String.ofList_inj.mp h
  have hhyphen : ∀ n, '-' ∉ hexDigits 32 n :=
    fun n => notMem_of_mem_hex (fun _ => mem_hexDigits) (by decide)
  have hdigits := congrArg (List.filter (· ≠ '-')) hlist
  rw [filter_hyphenated (hhyphen _), filter_hyphenated (hhyphen _)] at hdigits
  have hlt : ∀ w : UserId, (w : ℕ) < 16 ^ 32 := fun w => lt_of_lt_of_eq w.isLt (by norm_num)
  exact Fin.ext (hexDigits_injective (hlt u) (hlt v) hdigits)

theorem colon_notMem_uuidText (u : UserId) : ':' ∉ (uuidText u).toList := by
  rw [uuidText, String.toList_ofList]
  intro hmem
  rcases mem_hyphenated hmem with hhyphen | hdigit
  · exact absurd hhyphen (by decide)
  · exact absurd (mem_hexDigits hdigit) (by decide)

/-- No digest contains a colon. -/
theorem colon_notMem_hexLower (bytes : List UInt8) : ':' ∉ (hexLower bytes).toList := by
  rw [hexLower, String.toList_ofList]
  refine notMem_of_mem_hex (fun c hc => ?_) (by decide)
  rcases List.mem_flatMap.mp hc with ⟨byte, -, hdigit⟩
  simp only [List.mem_cons, List.not_mem_nil, or_false] at hdigit
  rcases hdigit with rfl | rfl
  · exact hexDigit_mem _
  · exact hexDigit_mem _

/-! ## The tree -/

structure ProofLiability where
  userId : UserId
  asset : String
  total : String
deriving DecidableEq

structure MerkleLeaf where
  liability : ProofLiability
  payload : String
  hash : String

structure MerkleTree where
  leaves : List MerkleLeaf
  root : String

def emptyRootPayload : String := "aether:por:v1:empty"

def internalPrefix : String := "aether:por:v1:node"

def leafPrefix : String := "aether:por:v1:leaf"

def leafPayload (liability : ProofLiability) : String :=
  leafPrefix ++ ":" ++ uuidText liability.userId ++ ":" ++ liability.asset ++ ":" ++ liability.total

/-- What `hash_pair` hashes. -/
def nodePayload (left right : String) : String :=
  if left ≤ right then internalPrefix ++ ":" ++ left ++ ":" ++ right
  else internalPrefix ++ ":" ++ right ++ ":" ++ left

/-- The order of `sort_by`: asset, then user, then total. -/
def Precedes (a b : ProofLiability) : Prop :=
  a.asset < b.asset ∨ a.asset = b.asset ∧
    (a.userId < b.userId ∨ a.userId = b.userId ∧ a.total ≤ b.total)

instance : DecidableRel Precedes :=
  fun _ _ => inferInstanceAs (Decidable (_ ∨ _ ∧ (_ ∨ _ ∧ _)))

section Hash

-- `Sha256::digest` comes with the crate `sha2`.
variable (digest : ByteArray → Vector UInt8 32)

def hashHex (payload : String) : String :=
  hexLower (digest payload.toUTF8).toList

def hashPair (left right : String) : String :=
  hashHex digest (nodePayload left right)

/-- The loop of `merkle_root` with `next_level` in it is `HashTree.rootOf`. -/
def merkleRoot (level : List String) : String :=
  (HashTree.rootOf (hashPair digest) level).getD (hashHex digest emptyRootPayload)

def MerkleLeaf.new (liability : ProofLiability) : MerkleLeaf where
  liability := liability
  payload := leafPayload liability
  hash := hashHex digest (leafPayload liability)

def MerkleTree.new (liabilities : List ProofLiability) : MerkleTree :=
  let leaves := (liabilities.insertionSort Precedes).map (MerkleLeaf.new digest)
  { leaves, root := merkleRoot digest (leaves.map MerkleLeaf.hash) }

/-- The hashes of the leaves, in the order of the tree. -/
def leafHashes (liabilities : List ProofLiability) : List String :=
  (liabilities.insertionSort Precedes).map fun l => hashHex digest (leafPayload l)

/-- Everything that is hashed while the tree is built. -/
def hashedPayloads (liabilities : List ProofLiability) : List String :=
  if liabilities = [] then [emptyRootPayload]
  else liabilities.map leafPayload ++
    (HashTree.pairs (hashPair digest) (leafHashes digest liabilities)).map
      fun pair => nodePayload pair.1 pair.2

theorem root_new (liabilities : List ProofLiability) :
    (MerkleTree.new digest liabilities).root =
      merkleRoot digest (leafHashes digest liabilities) := by
  simp only [MerkleTree.new, leafHashes, List.map_map]
  rfl

end Hash

/-! ## Payloads -/

theorem takeWhile_colon {xs : List Char} (hxs : ':' ∉ xs) (ys : List Char) :
    (xs ++ ':' :: ys).takeWhile (· ≠ ':') = xs := by
  have hall : ∀ c ∈ xs, decide (c ≠ ':') = true :=
    fun c hc => decide_eq_true fun heq => hxs (heq ▸ hc)
  rw [List.takeWhile_append_of_pos hall, List.takeWhile_cons_of_neg (by decide), List.append_nil]

/-- The first colon of a text tells its parts. -/
theorem split_at_colon {xs xs' ys ys' : List Char} (hxs : ':' ∉ xs) (hxs' : ':' ∉ xs')
    (h : xs ++ ':' :: ys = xs' ++ ':' :: ys') : xs = xs' ∧ ys = ys' := by
  have hfirst : xs = xs' := by rw [← takeWhile_colon hxs ys, h, takeWhile_colon hxs' ys']
  subst hfirst
  exact ⟨rfl, (List.cons_inj_right _).mp (List.append_cancel_left h)⟩

/-- Neither asset nor total has a colon in it. -/
def Plain (liability : ProofLiability) : Prop :=
  ':' ∉ liability.asset.toList ∧ ':' ∉ liability.total.toList

instance (liability : ProofLiability) : Decidable (Plain liability) :=
  inferInstanceAs (Decidable (_ ∧ _))

theorem toList_leafPayload (a : ProofLiability) :
    (leafPayload a).toList = leafPrefix.toList ++ ':' :: ((uuidText a.userId).toList ++
      ':' :: (a.asset.toList ++ ':' :: a.total.toList)) := by
  simp [leafPayload, String.toList_append]

/-- A leaf payload determines its liability. -/
theorem leafPayload_injective {a b : ProofLiability} (ha : Plain a) (hb : Plain b)
    (h : leafPayload a = leafPayload b) : a = b := by
  have hlist := congrArg String.toList h
  rw [toList_leafPayload, toList_leafPayload] at hlist
  have hrest := (List.cons_inj_right _).mp (List.append_cancel_left hlist)
  rcases split_at_colon (colon_notMem_uuidText _) (colon_notMem_uuidText _) hrest with
    ⟨huser, hrest⟩
  rcases split_at_colon ha.1 hb.1 hrest with ⟨hasset, htotal⟩
  rcases a with ⟨userId, asset, total⟩
  rcases b with ⟨userId', asset', total'⟩
  rw [ProofLiability.mk.injEq]
  exact ⟨uuidText_injective (String.toList_inj.mp huser), String.toList_inj.mp hasset,
    String.toList_inj.mp htotal⟩

/-- The pair as it is hashed. -/
theorem nodePayload_eq (left right : String) :
    nodePayload left right = internalPrefix ++ ":" ++ min left right ++ ":" ++ max left right := by
  unfold nodePayload
  split_ifs with hle
  · rw [min_eq_left hle, max_eq_right hle]
  · rw [min_eq_right (le_of_not_ge hle), max_eq_left (le_of_not_ge hle)]

theorem toList_nodePayload (left right : String) :
    (nodePayload left right).toList = internalPrefix.toList ++ ':' :: ((min left right).toList ++
      ':' :: (max left right).toList) := by
  simp [nodePayload_eq, String.toList_append]

/-- The payload of a node determines its two children, up to their order. -/
theorem nodePayload_injective {p q : String × String} (hp : ':' ∉ p.1.toList ∧ ':' ∉ p.2.toList)
    (hq : ':' ∉ q.1.toList ∧ ':' ∉ q.2.toList) (h : nodePayload p.1 p.2 = nodePayload q.1 q.2) :
    p = q ∨ p = q.swap := by
  have hmin : ∀ {p : String × String}, ':' ∉ p.1.toList ∧ ':' ∉ p.2.toList →
      ':' ∉ (min p.1 p.2).toList := by
    intro p hp
    rcases min_choice p.1 p.2 with heq | heq
    · rw [heq]
      exact hp.1
    · rw [heq]
      exact hp.2
  have hlist := congrArg String.toList h
  rw [toList_nodePayload, toList_nodePayload] at hlist
  have hrest := (List.cons_inj_right _).mp (List.append_cancel_left hlist)
  rcases split_at_colon (hmin hp) (hmin hq) hrest with ⟨hfirst, hsecond⟩
  have hfirst := String.toList_inj.mp hfirst
  have hsecond := String.toList_inj.mp hsecond
  rcases p with ⟨a, b⟩
  rcases q with ⟨c, d⟩
  simp only [Prod.mk.injEq, Prod.swap_prod_mk]
  -- the smaller child comes first, so the four orders give the two answers
  rcases le_total a b with hab | hab <;> rcases le_total c d with hcd | hcd <;>
    simp only [min_eq_left, min_eq_right, max_eq_left, max_eq_right, hab, hcd] at hfirst hsecond
  · exact .inl ⟨hfirst, hsecond⟩
  · exact .inr ⟨hfirst, hsecond⟩
  · exact .inr ⟨hsecond, hfirst⟩
  · exact .inl ⟨hsecond, hfirst⟩

/-- The tag of a payload is its 15th character: `l`, `n` or `e`. -/
theorem leafPayload_ne_nodePayload (a : ProofLiability) (left right : String) :
    leafPayload a ≠ nodePayload left right := by
  intro h
  have htag := congrArg (fun s : String => s.toList[14]?) h
  simp only [toList_leafPayload, toList_nodePayload] at htag
  rw [List.getElem?_append_left (by decide), List.getElem?_append_left (by decide)] at htag
  exact absurd htag (by decide)

/-- The three kinds of payload are never equal. -/
theorem leafPayload_ne_empty (a : ProofLiability) : leafPayload a ≠ emptyRootPayload := by
  intro h
  have htag := congrArg (fun s : String => s.toList[14]?) h
  simp only [toList_leafPayload] at htag
  rw [List.getElem?_append_left (by decide)] at htag
  exact absurd htag (by decide)

theorem nodePayload_ne_empty (left right : String) :
    nodePayload left right ≠ emptyRootPayload := by
  intro h
  have htag := congrArg (fun s : String => s.toList[14]?) h
  simp only [toList_nodePayload] at htag
  rw [List.getElem?_append_left (by decide)] at htag
  exact absurd htag (by decide)

/-! ## The order of the liabilities -/

instance : Std.Total Precedes where
  total a b := by
    rcases lt_trichotomy a.asset b.asset with hlt | heq | hgt
    · exact .inl (.inl hlt)
    · rcases lt_trichotomy a.userId b.userId with hlt | heq' | hgt
      · exact .inl (.inr ⟨heq, .inl hlt⟩)
      · rcases le_total a.total b.total with hle | hle
        · exact .inl (.inr ⟨heq, .inr ⟨heq', hle⟩⟩)
        · exact .inr (.inr ⟨heq.symm, .inr ⟨heq'.symm, hle⟩⟩)
      · exact .inr (.inr ⟨heq.symm, .inl hgt⟩)
    · exact .inr (.inl hgt)

instance : IsTrans ProofLiability Precedes where
  trans a b c hab hbc := by
    rcases hab with hab | ⟨hab, hab'⟩
    · rcases hbc with hbc | ⟨hbc, -⟩
      · exact .inl (hab.trans hbc)
      · exact .inl (hbc ▸ hab)
    · rcases hbc with hbc | ⟨hbc, hbc'⟩
      · exact .inl (hab ▸ hbc)
      · refine .inr ⟨hab.trans hbc, ?_⟩
        rcases hab' with hab' | ⟨hab', hle⟩
        · rcases hbc' with hbc' | ⟨hbc', -⟩
          · exact .inl (hab'.trans hbc')
          · exact .inl (hbc' ▸ hab')
        · rcases hbc' with hbc' | ⟨hbc', hle'⟩
          · exact .inl (hab' ▸ hbc')
          · exact .inr ⟨hab'.trans hbc', hle.trans hle'⟩

/-- The three fields are all there is. -/
instance : Std.Antisymm Precedes where
  antisymm a b hab hba := by
    rcases a with ⟨userId, asset, total⟩
    rcases b with ⟨userId', asset', total'⟩
    simp only [Precedes] at hab hba
    rcases hab with hab | ⟨rfl, hab⟩
    · rcases hba with hba | ⟨rfl, -⟩
      · exact absurd hab hba.asymm
      · exact absurd hab (lt_irrefl _)
    · rcases hba with hba | ⟨-, hba⟩
      · exact absurd hba (lt_irrefl _)
      · rcases hab with hab | ⟨rfl, hle⟩
        · rcases hba with hba | ⟨rfl, -⟩
          · exact absurd hab hba.asymm
          · exact absurd hab (lt_irrefl _)
        · rcases hba with hba | ⟨-, hle'⟩
          · exact absurd hba (lt_irrefl _)
          · rw [le_antisymm hle hle']

/-- The tree does not see the order in which the liabilities came. -/
theorem insertionSort_eq_of_perm {L₁ L₂ : List ProofLiability} (h : L₁.Perm L₂) :
    L₁.insertionSort Precedes = L₂.insertionSort Precedes := by
  have hsorted : (L₁.insertionSort Precedes).Perm (L₂.insertionSort Precedes) :=
    (List.perm_insertionSort _ L₁).trans (h.trans (List.perm_insertionSort _ L₂).symm)
  exact hsorted.eq_of_pairwise' (List.pairwise_insertionSort _ L₁)
    (List.pairwise_insertionSort _ L₂)

/-! ## The root binds the liabilities -/

section Root

variable {digest : ByteArray → Vector UInt8 32} {L L₁ L₂ : List ProofLiability}

variable (digest) in
/-- No two of the payloads have one hash. -/
def CollisionFree (payloads : List String) : Prop :=
  ∀ p ∈ payloads, ∀ q ∈ payloads, hashHex digest p = hashHex digest q → p = q

instance (payloads : List String) : Decidable (CollisionFree digest payloads) :=
  inferInstanceAs (Decidable (∀ p ∈ payloads, ∀ q ∈ payloads, _ → _))

theorem mem_leafHashes {hash : String} :
    hash ∈ leafHashes digest L ↔ ∃ l ∈ L, hashHex digest (leafPayload l) = hash := by
  simp only [leafHashes, List.mem_map, List.mem_insertionSort]

theorem leafPayload_mem_hashed {l : ProofLiability} (h : l ∈ L) :
    leafPayload l ∈ hashedPayloads digest L := by
  rw [hashedPayloads, if_neg (List.ne_nil_of_mem h)]
  exact List.mem_append.mpr (.inl (List.mem_map_of_mem h))

/-- The leaves of both trees are hashed. -/
theorem leafPayload_mem_append {l : ProofLiability} (h : l ∈ L₁ ++ L₂) :
    leafPayload l ∈ hashedPayloads digest L₁ ++ hashedPayloads digest L₂ := by
  rcases List.mem_append.mp h with h | h
  · exact List.mem_append.mpr (.inl (leafPayload_mem_hashed h))
  · exact List.mem_append.mpr (.inr (leafPayload_mem_hashed h))

theorem nodePayload_mem_hashed {p : String × String} (hne : L ≠ [])
    (h : p ∈ HashTree.pairs (hashPair digest) (leafHashes digest L)) :
    nodePayload p.1 p.2 ∈ hashedPayloads digest L := by
  rw [hashedPayloads, if_neg hne]
  exact List.mem_append.mpr (.inr (List.mem_map.mpr ⟨p, h, rfl⟩))

/-- The tree of a snapshot with liabilities. -/
theorem exists_tree_of_new (hne : L ≠ []) : ∃ t : HashTree.Tree String,
    (MerkleTree.new digest L).root = t.root (hashPair digest) ∧
      t.leaves = ↑(leafHashes digest L) ∧
      t.pairs (hashPair digest) ⊆ HashTree.pairs (hashPair digest) (leafHashes digest L) := by
  have hleaves : leafHashes digest L ≠ [] := by
    intro hnil
    have hlen := congrArg List.length hnil
    simp only [leafHashes, List.length_map, List.length_insertionSort, List.length_nil] at hlen
    exact hne (List.eq_nil_of_length_eq_zero hlen)
  rcases HashTree.exists_tree (hashPair digest) hleaves with ⟨t, hroot, hleaf, hpairs⟩
  refine ⟨t, ?_, hleaf, hpairs⟩
  rw [root_new, merkleRoot, hroot]
  rfl

/-- Without liabilities the root is a hash of its own. -/
theorem root_new_ne_empty (hne : L ≠ [])
    (hfree : CollisionFree digest (emptyRootPayload :: hashedPayloads digest L)) :
    (MerkleTree.new digest L).root ≠ hashHex digest emptyRootPayload := by
  intro hroot
  rcases exists_tree_of_new hne with ⟨t, ht, hleaves, hpairs⟩
  rw [ht] at hroot
  cases t with
  | leaf hash =>
    have hmem : hash ∈ leafHashes digest L := by
      rw [← Multiset.mem_coe, ← hleaves]
      exact Multiset.mem_singleton_self _
    rcases mem_leafHashes.mp hmem with ⟨l, hl, rfl⟩
    exact leafPayload_ne_empty l (hfree _ (List.mem_cons_of_mem _ (leafPayload_mem_hashed hl)) _
      List.mem_cons_self hroot)
  | node left right =>
    have hnode := nodePayload_mem_hashed hne (hpairs List.mem_cons_self)
    exact nodePayload_ne_empty _ _ (hfree _ (List.mem_cons_of_mem _ hnode) _
      List.mem_cons_self hroot)

/-- A function that is injective on both lists reflects permutations. -/
theorem perm_of_map_perm {α β : Type*} [Nonempty α] {f : α → β} {l₁ l₂ : List α}
    (hinj : ∀ a ∈ l₁ ++ l₂, ∀ b ∈ l₁ ++ l₂, f a = f b → a = b)
    (h : (l₁.map f).Perm (l₂.map f)) : l₁.Perm l₂ := by
  have hinjOn : Set.InjOn f {a | a ∈ l₁ ++ l₂} := fun a ha b hb => hinj a ha b hb
  have hback := hinjOn.leftInvOn_invFunOn
  have hmap := h.map (Function.invFunOn f {a | a ∈ l₁ ++ l₂})
  rw [List.map_map, List.map_map] at hmap
  have hid : ∀ l ⊆ l₁ ++ l₂, l.map (Function.invFunOn f {a | a ∈ l₁ ++ l₂} ∘ f) = l := by
    intro l hl
    calc l.map (Function.invFunOn f {a | a ∈ l₁ ++ l₂} ∘ f)
        = l.map id := List.map_congr_left fun a ha => hback (hl ha)
      _ = l := List.map_id l
  rwa [hid l₁ (List.subset_append_left _ _), hid l₂ (List.subset_append_right _ _)] at hmap

/-- The leaves of two snapshots with one root. -/
theorem leafHashes_perm (hne₁ : L₁ ≠ []) (hne₂ : L₂ ≠ [])
    (hfree : CollisionFree digest (hashedPayloads digest L₁ ++ hashedPayloads digest L₂))
    (hroot : (MerkleTree.new digest L₁).root = (MerkleTree.new digest L₂).root) :
    (leafHashes digest L₁).Perm (leafHashes digest L₂) := by
  rcases exists_tree_of_new hne₁ with ⟨t₁, ht₁, hleaves₁, hpairs₁⟩
  rcases exists_tree_of_new hne₂ with ⟨t₂, ht₂, hleaves₂, hpairs₂⟩
  rw [ht₁, ht₂] at hroot
  -- a digest in hex has no colon
  have hplain : ∀ {L : List ProofLiability} {t : HashTree.Tree String},
      t.leaves = ↑(leafHashes digest L) →
      ∀ p ∈ t.pairs (hashPair digest), ':' ∉ p.1.toList ∧ ':' ∉ p.2.toList := by
    intro L t hleaves
    refine HashTree.Tree.pairs_of_leaves (P := fun hash : String => ':' ∉ hash.toList)
      (fun a b => colon_notMem_hexLower _) ?_
    intro hash hmem
    rw [hleaves, Multiset.mem_coe] at hmem
    rcases mem_leafHashes.mp hmem with ⟨l, -, rfl⟩
    exact colon_notMem_hexLower _
  have hnode : ∀ p ∈ t₁.pairs (hashPair digest) ++ t₂.pairs (hashPair digest),
      nodePayload p.1 p.2 ∈ hashedPayloads digest L₁ ++ hashedPayloads digest L₂ ∧
        ':' ∉ p.1.toList ∧ ':' ∉ p.2.toList := by
    intro p hp
    rcases List.mem_append.mp hp with hp | hp
    · exact ⟨List.mem_append.mpr (.inl (nodePayload_mem_hashed hne₁ (hpairs₁ hp))),
        hplain hleaves₁ p hp⟩
    · exact ⟨List.mem_append.mpr (.inr (nodePayload_mem_hashed hne₂ (hpairs₂ hp))),
        hplain hleaves₂ p hp⟩
  have hunordered : HashTree.Tree.Unordered (hashPair digest)
      (t₁.pairs (hashPair digest) ++ t₂.pairs (hashPair digest)) := by
    intro p hp q hq heq
    have hpayload := hfree _ (hnode p hp).1 _ (hnode q hq).1 heq
    exact nodePayload_injective (hnode p hp).2 (hnode q hq).2 hpayload
  have hapart : HashTree.Tree.Apart (hashPair digest)
      (t₁.leaves + t₂.leaves)
      (t₁.pairs (hashPair digest) ++ t₂.pairs (hashPair digest)) := by
    intro hash hmem p hp heq
    have hleaf : ∃ l ∈ L₁ ++ L₂, hashHex digest (leafPayload l) = hash := by
      rw [hleaves₁, hleaves₂, Multiset.mem_add, Multiset.mem_coe, Multiset.mem_coe] at hmem
      rcases hmem with hmem | hmem
      · rcases mem_leafHashes.mp hmem with ⟨l, hl, hhash⟩
        exact ⟨l, List.mem_append.mpr (.inl hl), hhash⟩
      · rcases mem_leafHashes.mp hmem with ⟨l, hl, hhash⟩
        exact ⟨l, List.mem_append.mpr (.inr hl), hhash⟩
    rcases hleaf with ⟨l, hl, rfl⟩
    exact leafPayload_ne_nodePayload l p.1 p.2
      (hfree _ (leafPayload_mem_append hl) _ (hnode p hp).1 heq)
  have hleaves := HashTree.Tree.leaves_eq_of_root_eq hunordered hapart
    (List.subset_append_left _ _) (List.subset_append_right _ _)
    (fun a ha => Multiset.mem_add.mpr (.inl ha)) (fun a ha => Multiset.mem_add.mpr (.inr ha)) hroot
  rw [hleaves₁, hleaves₂] at hleaves
  exact Multiset.coe_eq_coe.mp hleaves

/-- One root, one set of liabilities. -/
theorem root_eq_iff_perm (hplain : ∀ l ∈ L₁ ++ L₂, Plain l)
    (hfree : CollisionFree digest (hashedPayloads digest L₁ ++ hashedPayloads digest L₂)) :
    (MerkleTree.new digest L₁).root = (MerkleTree.new digest L₂).root ↔ L₂.Perm L₁ := by
  constructor
  · intro hroot
    have hempty : ∀ {L : List ProofLiability}, L = [] →
        (MerkleTree.new digest L).root = hashHex digest emptyRootPayload := by
      rintro L rfl
      rw [root_new, merkleRoot, leafHashes, List.insertionSort_nil, List.map_nil, HashTree.rootOf]
      rfl
    -- the root of no liabilities is that of no others
    by_cases hnil₁ : L₁ = []
    · by_cases hnil₂ : L₂ = []
      · rw [hnil₁, hnil₂]
      · refine absurd (hroot.symm.trans (hempty hnil₁)) (root_new_ne_empty hnil₂ ?_)
        rwa [hnil₁] at hfree
    · by_cases hnil₂ : L₂ = []
      · refine absurd (hroot.trans (hempty hnil₂)) (root_new_ne_empty hnil₁ ?_)
        have hmem : ∀ p ∈ emptyRootPayload :: hashedPayloads digest L₁,
            p ∈ hashedPayloads digest L₁ ++ hashedPayloads digest L₂ := by
          intro p hp
          rw [hnil₂]
          rcases List.mem_cons.mp hp with rfl | hp
          · exact List.mem_append.mpr (.inr List.mem_cons_self)
          · exact List.mem_append.mpr (.inl hp)
        exact fun p hp q hq => hfree p (hmem p hp) q (hmem q hq)
      · -- otherwise equal roots have the same leaf hashes, and these the same payloads
        rcases List.exists_mem_of_ne_nil L₁ hnil₁ with ⟨l, hl⟩
        have : Nonempty ProofLiability := ⟨l⟩
        have hsort : ∀ L : List ProofLiability,
            (leafHashes digest L).Perm (L.map fun l => hashHex digest (leafPayload l)) :=
          fun L => (List.perm_insertionSort _ L).map _
        have hperm : (L₁.map fun l => hashHex digest (leafPayload l)).Perm
            (L₂.map fun l => hashHex digest (leafPayload l)) :=
          (hsort L₁).symm.trans ((leafHashes_perm hnil₁ hnil₂ hfree hroot).trans (hsort L₂))
        refine (perm_of_map_perm (fun a ha b hb heq => ?_) hperm).symm
        exact leafPayload_injective (hplain a ha) (hplain b hb)
          (hfree _ (leafPayload_mem_append ha) _ (leafPayload_mem_append hb) heq)
  · -- the liabilities are sorted before they are hashed
    intro hperm
    rw [root_new, root_new, leafHashes, leafHashes, insertionSort_eq_of_perm hperm]

end Root

/-! Two liabilities, and the SHA-256 digests of what is hashed for them. -/

def btcLiability : ProofLiability := ⟨1, "BTC", "0.100000000000000000"⟩

def ethLiability : ProofLiability := ⟨2, "ETH", "2.500000000000000000"⟩

def sampleDigest (payload : ByteArray) : Vector UInt8 32 :=
  let value : ℕ :=
    if payload.data = (leafPayload btcLiability).toUTF8.data then
      0xad6203badc0443c6a78be23cc1cce2777f962cc5ace42e0ffa1c1c5a67181883
    else if payload.data = (leafPayload ethLiability).toUTF8.data then
      0x43490c56444da0eb44693b53d6cb0814c2e57fb2c2203e543b1aed6772a3c62c
    else 0x4c712b5e2c766c3b233410ed4198e0eb899b045bbc51b3097ffb97d3d06d2131
  Vector.ofFn fun i => UInt8.ofNat (value >>> (8 * (31 - i.val)))

/-- The order of the rows does not matter, a missing row does. -/
theorem sample_roots :
    (MerkleTree.new sampleDigest [ethLiability, btcLiability]).root =
        (MerkleTree.new sampleDigest [btcLiability, ethLiability]).root ∧
      (MerkleTree.new sampleDigest [btcLiability]).root ≠
        (MerkleTree.new sampleDigest [btcLiability, ethLiability]).root := by
  constructor
  · exact (root_eq_iff_perm (by decide) (by decide +kernel)).mpr (by decide)
  · intro h
    exact absurd ((root_eq_iff_perm (by decide) (by decide +kernel)).mp h) (by decide)

end CryptoCex.Api.ProofOfReserves
