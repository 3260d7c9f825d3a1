import CryptoCex.Api.ProofOfReserves

/-!
# The proofs that users check

A user gets one entry for each of his liabilities: the payload of the leaf and the siblings on
its way to the root. The entries of a snapshot are accepted against the root of the same
liabilities in any order, whatever the hash is (`userProofEntries_complete`).

A verifier accepts siblings of any number and any text. Every digest it computes is 64
characters of hex, so in the payload of a pair it stands before the first colon or is the end
of the text, and what is accepted is a liability of the snapshot, or two of the payloads have
one hash (`verifyProof_sound`).
-/

namespace CryptoCex.Api.ProofOfReserves

open HashTree

/-! ## The entries of a user -/

/-- Latest committed proof-of-reserves snapshot. -/
structure ProofSnapshot where
  merkleRoot : String
  liabilities : List ProofLiability

/-- User-specific Merkle proof entry. -/
structure UserProofEntry where
  asset : String
  total : String
  leafPayload : String
  leafHash : String
  /-- Sibling hashes from leaf to root. -/
  siblingHashes : List String
deriving DecidableEq

section Hash

variable (digest : ByteArray → Vector UInt8 32)

/-- The loop of `proof_for_index` is `HashTree.proofFor`. -/
def MerkleTree.entriesForUser (tree : MerkleTree) (userId : UserId) : List UserProofEntry :=
  let hashes := tree.leaves.map MerkleLeaf.hash
  (tree.leaves.zipIdx.filter fun leaf => leaf.1.liability.userId = userId).map fun leaf => {
    asset := leaf.1.liability.asset
    total := leaf.1.liability.total
    leafPayload := leaf.1.payload
    leafHash := leaf.1.hash
    siblingHashes := proofFor (hashPair digest) hashes leaf.2 }

/-- All proof entries for one user. -/
def userProofEntries (snapshot : ProofSnapshot) (userId : UserId) : List UserProofEntry :=
  (MerkleTree.new digest snapshot.liabilities).entriesForUser digest userId

/-- Verifies a proof against a root. -/
def verifyProof (leafPayload : String) (siblingHashes : List String) (root : String) : Bool :=
  climb (hashPair digest) (hashHex digest leafPayload) siblingHashes == root

/-- Everything that is hashed while a proof is verified. -/
def verifiedPayloads (leafPayload : String) (siblingHashes : List String) : List String :=
  leafPayload :: (climbPairs (hashPair digest) (hashHex digest leafPayload) siblingHashes).map
    fun pair => nodePayload pair.1 pair.2

end Hash

variable {digest : ByteArray → Vector UInt8 32}

/-! ## Completeness -/

/-- The children of a node are hashed in order, so their order does not matter. -/
theorem hashPair_comm (a b : String) : hashPair digest a b = hashPair digest b a := by
  rw [hashPair, hashPair, nodePayload_eq, nodePayload_eq, min_comm, max_comm]

theorem verifyProof_proofFor {hashes : List String} {payload : String} {index : ℕ}
    (h : hashes[index]? = some (hashHex digest payload)) :
    verifyProof digest payload (proofFor (hashPair digest) hashes index)
      (merkleRoot digest hashes) = true := by
  have hcomm : ∀ a b, hashPair digest a b = hashPair digest b a := hashPair_comm
  have hroot := climb_proofFor hcomm h
  rw [verifyProof, merkleRoot, hroot]
  exact beq_self_eq_true _

/-- An entry is made of a leaf and its position. -/
theorem mem_userProofEntries {snapshot : ProofSnapshot} {userId : UserId}
    {entry : UserProofEntry} (h : entry ∈ userProofEntries digest snapshot userId) :
    ∃ index, (leafHashes digest snapshot.liabilities)[index]? =
        some (hashHex digest entry.leafPayload) ∧
      entry.siblingHashes =
        proofFor (hashPair digest) (leafHashes digest snapshot.liabilities) index := by
  simp only [userProofEntries, MerkleTree.entriesForUser, List.mem_map, List.mem_filter] at h
  rcases h with ⟨⟨leaf, index⟩, ⟨hleaf, _⟩, rfl⟩
  have hget := List.mem_zipIdx_iff_getElem?.mp hleaf
  simp only [MerkleTree.new, List.getElem?_map, Option.map_eq_some_iff] at hget
  rcases hget with ⟨l, hl, rfl⟩
  refine ⟨index, ?_, ?_⟩
  · rw [leafHashes, List.getElem?_map, hl]
    rfl
  · simp only [MerkleTree.new, leafHashes, List.map_map]
    rfl

/-- Filtering the numbered leaves is filtering the liabilities. -/
theorem map_userProofEntries (snapshot : ProofSnapshot) (userId : UserId) :
    (userProofEntries digest snapshot userId).map
        (fun entry => (entry.asset, entry.total, entry.leafPayload)) =
      ((snapshot.liabilities.insertionSort Precedes).filter (·.userId = userId)).map
        fun l => (l.asset, l.total, leafPayload l) := by
  have hleaves : ∀ leaves : List MerkleLeaf,
      ((leaves.zipIdx.filter fun leaf => leaf.1.liability.userId = userId).map
          fun leaf => (leaf.1.liability.asset, leaf.1.liability.total, leaf.1.payload)) =
        (leaves.filter fun leaf => leaf.liability.userId = userId).map
          fun leaf => (leaf.liability.asset, leaf.liability.total, leaf.payload) := by
    intro leaves
    nth_rewrite 2 [← List.zipIdx_map_fst 0 leaves]
    rw [List.filter_map, List.map_map]
    rfl
  simp only [userProofEntries, MerkleTree.entriesForUser, List.map_map]
  refine (hleaves _).trans ?_
  rw [MerkleTree.new, List.filter_map, List.map_map]
  rfl

/-- A user gets an entry for each of his liabilities, and each is accepted against the root of
the same liabilities in any order. -/
theorem userProofEntries_complete (digest : ByteArray → Vector UInt8 32)
    (snapshot : ProofSnapshot) (userId : UserId) :
    ((userProofEntries digest snapshot userId).map
        fun entry => (entry.asset, entry.total, entry.leafPayload)).Perm
      ((snapshot.liabilities.filter (·.userId = userId)).map
        fun l => (l.asset, l.total, leafPayload l)) ∧
    ∀ L : List ProofLiability, L.Perm snapshot.liabilities →
      ∀ entry ∈ userProofEntries digest snapshot userId,
        verifyProof digest entry.leafPayload entry.siblingHashes (MerkleTree.new digest L).root =
          true := by
  constructor
  · rw [map_userProofEntries]
    exact ((List.perm_insertionSort _ _).filter _).map _
  · intro L hperm entry hentry
    rcases mem_userProofEntries hentry with ⟨index, hhash, hsiblings⟩
    rw [root_new, leafHashes, insertionSort_eq_of_perm hperm, hsiblings]
    exact verifyProof_proofFor hhash

/-- The first user's entry for a snapshot of two rows. -/
theorem btc_entry_accepted :
    (userProofEntries sampleDigest ⟨"", [ethLiability, btcLiability]⟩ 1).map
        (fun entry => (entry.asset, entry.total, entry.siblingHashes)) =
      [("BTC", "0.100000000000000000", [hashHex sampleDigest (leafPayload ethLiability)])] ∧
    ∀ entry ∈ userProofEntries sampleDigest ⟨"", [ethLiability, btcLiability]⟩ 1,
      verifyProof sampleDigest entry.leafPayload entry.siblingHashes
        (MerkleTree.new sampleDigest [btcLiability, ethLiability]).root = true :=
  ⟨by decide +kernel,
    (userProofEntries_complete sampleDigest ⟨"", [ethLiability, btcLiability]⟩ 1).2 _ (by decide)⟩

/-! ## Soundness -/

/-- A text as the hash returns it. -/
def IsDigest (hash : String) : Prop := ':' ∉ hash.toList ∧ hash.toList.length = 64

/-- Digests are written with 64 hexadecimal digits. -/
theorem isDigest_hashHex (payload : String) : IsDigest (hashHex digest payload) := by
  refine ⟨colon_notMem_hexLower _, ?_⟩
  have hlen : ∀ bytes : List UInt8, (hexLower bytes).toList.length = 2 * bytes.length := by
    intro bytes
    rw [hexLower, String.toList_ofList]
    induction bytes with
    | nil => rfl
    | cons byte bytes ih =>
      rw [List.flatMap_cons, List.length_append, ih]
      simp only [List.length_cons, List.length_nil]
      omega
  rw [hashHex, hlen, Vector.length_toList]

/-- Whatever a digest is paired with, the payload tells it. -/
theorem eq_or_eq_of_nodePayload_eq {a sibling b c : String} (ha : IsDigest a) (hb : IsDigest b)
    (hc : IsDigest c) (h : nodePayload a sibling = nodePayload b c) : a = b ∨ a = c := by
  have hmin : IsDigest (min b c) := by
    rcases min_choice b c with heq | heq
    · rwa [heq]
    · rwa [heq]
  have hmax : IsDigest (max b c) := by
    rcases max_choice b c with heq | heq
    · rwa [heq]
    · rwa [heq]
  have hlist := congrArg String.toList h
  rw [toList_nodePayload, toList_nodePayload] at hlist
  have hrest := (List.cons_inj_right _).mp (List.append_cancel_left hlist)
  rcases le_total a sibling with hle | hle
  · -- the digest comes first and ends at the first colon
    rw [min_eq_left hle] at hrest
    have hfirst := String.toList_inj.mp (split_at_colon ha.1 hmin.1 hrest).1
    rw [hfirst]
    exact min_choice b c
  · -- the digest is the end of the text
    rw [max_eq_left hle] at hrest
    have hlen : (':' :: a.toList).length = (':' :: (max b c).toList).length := by
      rw [List.length_cons, List.length_cons, ha.2, hmax.2]
    have hlast := String.toList_inj.mp
      ((List.cons_inj_right _).mp (List.append_inj' hrest hlen).2)
    rw [hlast]
    exact max_choice b c

/-- The hashes on a path from a digest. -/
theorem isDigest_of_mem_climbPairs {start : String} {siblings : List String}
    (hstart : IsDigest start) {p : String × String}
    (hp : p ∈ climbPairs (hashPair digest) start siblings) : IsDigest p.1 := by
  induction siblings generalizing start with
  | nil => cases hp
  | cons sibling siblings ih =>
    rcases List.mem_cons.mp hp with rfl | hp
    · exact hstart
    · exact ih (isDigest_hashHex _) hp

theorem nodePayload_mem_verified {payload : String} {siblings : List String}
    {p : String × String}
    (hp : p ∈ climbPairs (hashPair digest) (hashHex digest payload) siblings) :
    nodePayload p.1 p.2 ∈ verifiedPayloads digest payload siblings :=
  List.mem_cons_of_mem _ (List.mem_map.mpr ⟨p, hp, rfl⟩)

/-- The end of a path is the hash of the leaf or of a pair. -/
theorem climb_eq_hashHex (digest : ByteArray → Vector UInt8 32) (payload : String)
    (siblings : List String) : ∃ p ∈ verifiedPayloads digest payload siblings,
      climb (hashPair digest) (hashHex digest payload) siblings = hashHex digest p ∧
        (p = payload ∨ ∃ a b, p = nodePayload a b) := by
  rcases List.eq_nil_or_concat siblings with rfl | ⟨siblings, sibling, rfl⟩
  · exact ⟨payload, List.mem_cons_self, rfl, .inl rfl⟩
  · rw [List.concat_eq_append]
    refine ⟨_, nodePayload_mem_verified (p := (_, sibling)) ?_, climb_append .., .inr ⟨_, _, rfl⟩⟩
    rw [climbPairs_concat]
    exact List.mem_append_right _ List.mem_cons_self

/-- Nothing is accepted against the root of no liabilities. -/
theorem not_verifyProof_empty {l : ProofLiability} {siblings : List String}
    (hfree : CollisionFree digest
      (verifiedPayloads digest (leafPayload l) siblings ++ hashedPayloads digest [])) :
    verifyProof digest (leafPayload l) siblings (MerkleTree.new digest []).root = false := by
  have hroot : (MerkleTree.new digest []).root = hashHex digest emptyRootPayload := by
    rw [root_new, merkleRoot, leafHashes, List.insertionSort_nil, List.map_nil, rootOf]
    rfl
  rcases climb_eq_hashHex digest (leafPayload l) siblings with ⟨p, hp, hclimb, hkind⟩
  rw [verifyProof, hroot, hclimb, beq_eq_false_iff_ne]
  intro heq
  have hpayload := hfree p (List.mem_append_left _ hp) emptyRootPayload
    (List.mem_append_right _ List.mem_cons_self) heq
  rcases hkind with rfl | ⟨a, b, rfl⟩
  · exact leafPayload_ne_empty l hpayload
  · exact nodePayload_ne_empty a b hpayload

/-- What is accepted is a liability of the snapshot, unless two payloads collide. -/
theorem mem_of_verifyProof {L : List ProofLiability} {l : ProofLiability}
    {siblings : List String} (hplain : ∀ x ∈ l :: L, Plain x)
    (hfree : CollisionFree digest
      (verifiedPayloads digest (leafPayload l) siblings ++ hashedPayloads digest L))
    (h : verifyProof digest (leafPayload l) siblings (MerkleTree.new digest L).root = true) :
    l ∈ L := by
  by_cases hne : L = []
  · subst hne
    rw [not_verifyProof_empty hfree] at h
    cases h
  rcases @exists_tree_of_new digest L hne with ⟨t, hroot, hleaves, hpairs⟩
  rw [verifyProof, hroot, beq_iff_eq] at h
  have hleaf : ∀ {a}, a ∈ t.leaves → ∃ x ∈ L, hashHex digest (leafPayload x) = a := by
    intro a ha
    rw [hleaves, Multiset.mem_coe] at ha
    exact mem_leafHashes.mp ha
  have hverified : ∀ p ∈ climbPairs (hashPair digest) (hashHex digest (leafPayload l)) siblings,
      nodePayload p.1 p.2 ∈ verifiedPayloads digest (leafPayload l) siblings ++
        hashedPayloads digest L :=
    fun p hp => List.mem_append_left _ (nodePayload_mem_verified hp)
  have hhashed : ∀ q ∈ t.pairs (hashPair digest), nodePayload q.1 q.2 ∈
      verifiedPayloads digest (leafPayload l) siblings ++ hashedPayloads digest L :=
    fun q hq => List.mem_append_right _ (nodePayload_mem_hashed hne (hpairs hq))
  -- the climb ends at the root, so without a collision it started at a leaf
  have hstart : hashHex digest (leafPayload l) ∈ t.leaves := by
    refine mem_leaves_of_climb ?_ ?_ ?_ h
    · -- two nodes of one digest have the same children
      intro p hp q hq heq
      have hdigest : ∀ a ∈ t.leaves, IsDigest a := by
        intro a ha
        rcases hleaf ha with ⟨x, _, rfl⟩
        exact isDigest_hashHex _
      have hpair := Tree.pairs_of_leaves (P := IsDigest) (fun a b => isDigest_hashHex _)
        hdigest q hq
      exact eq_or_eq_of_nodePayload_eq (isDigest_of_mem_climbPairs (isDigest_hashHex _) hp)
        hpair.1 hpair.2 (hfree _ (hverified p hp) _ (hhashed q hq) heq)
    · -- no leaf has the digest of a node on the way up
      intro a ha p hp heq
      rcases hleaf ha with ⟨x, hx, rfl⟩
      exact leafPayload_ne_nodePayload x p.1 p.2 (hfree _
        (List.mem_append_right _ (leafPayload_mem_hashed hx)) _ (hverified p hp) heq)
    · -- nor a node of the tree that of the leaf that is proved
      intro a ha q hq heq
      rw [Multiset.mem_singleton.mp ha] at heq
      exact leafPayload_ne_nodePayload l q.1 q.2 (hfree _
        (List.mem_append_left _ List.mem_cons_self) _ (hhashed q hq) heq)
  -- that leaf has the same payload, hence is the same liability
  rcases hleaf hstart with ⟨x, hx, heq⟩
  have hpayload := hfree _ (List.mem_append_right _ (leafPayload_mem_hashed hx)) _
    (List.mem_append_left _ List.mem_cons_self) heq
  have hsame := leafPayload_injective (hplain x (List.mem_cons_of_mem _ hx))
    (hplain l List.mem_cons_self) hpayload
  rwa [← hsame]

/-- An accepted proof is one of a liability of the snapshot, or shows a collision. -/
theorem verifyProof_sound (digest : ByteArray → Vector UInt8 32) {L : List ProofLiability}
    {l : ProofLiability} {siblings : List String} (hplain : ∀ x ∈ l :: L, Plain x)
    (h : verifyProof digest (leafPayload l) siblings (MerkleTree.new digest L).root = true) :
    l ∈ L ∨
      ∃ p ∈ verifiedPayloads digest (leafPayload l) siblings ++ hashedPayloads digest L,
        ∃ q ∈ verifiedPayloads digest (leafPayload l) siblings ++ hashedPayloads digest L,
          p ≠ q ∧ hashHex digest p = hashHex digest q := by
  by_cases hfree : CollisionFree digest
      (verifiedPayloads digest (leafPayload l) siblings ++ hashedPayloads digest L)
  · exact .inl (mem_of_verifyProof hplain hfree h)
  · simp only [CollisionFree, not_forall] at hfree
    rcases hfree with ⟨p, hp, q, hq, heq, hne⟩
    exact .inr ⟨p, hp, q, hq, hne, heq⟩

/-- The proof of the first liability is accepted, and it is in the snapshot. -/
theorem btc_proof_sound : btcLiability ∈ [ethLiability, btcLiability] ∨
    ∃ p ∈ verifiedPayloads sampleDigest (leafPayload btcLiability)
        [hashHex sampleDigest (leafPayload ethLiability)] ++
        hashedPayloads sampleDigest [ethLiability, btcLiability],
      ∃ q ∈ verifiedPayloads sampleDigest (leafPayload btcLiability)
          [hashHex sampleDigest (leafPayload ethLiability)] ++
          hashedPayloads sampleDigest [ethLiability, btcLiability],
        p ≠ q ∧ hashHex sampleDigest p = hashHex sampleDigest q :=
  verifyProof_sound sampleDigest (by decide) (by decide +kernel)

end CryptoCex.Api.ProofOfReserves
