import BhtBhte.Spv.Branches

/-!
# What a branch proves

The strings of a proof are decoded and hashed at any length, so a string that the tree hashes can be
cut in another place than the tree does.  A branch whose hashes all have their length, and that is
no longer than the tree is high, can only be one of the tree; what any other accepted branch starts
at is no node of it.  `verifyMerkleProof_sound_iff` says when an accepted proof is sound.
-/
namespace BhtBhte.Spv

open BhtBhte.Lib
open BhtBhte.Node (Bytes isHexDigit decodeHex)

/-! ## Roots in other spellings -/

theorem digitVal_toLower_ofNat : ∀ n < 128,
    digitVal (Char.ofNat n).toLower = digitVal (Char.ofNat n) := by decide

theorem isHexDigit_ascii {c : Char} (h : isHexDigit c = true) : c.toNat < 128 := by
  have h9 : '9'.val.toNat = 57 := rfl
  have hz : 'z'.val.toNat = 122 := rfl
  have hZ : 'Z'.val.toNat = 90 := rfl
  rw [isHexDigit, decide_eq_true_eq] at h
  unfold digitVal at h
  simp only [Char.le_def, UInt32.le_iff_toNat_le] at h
  unfold Char.toNat
  split_ifs at h <;> omega

theorem isHexDigit_toLower {c : Char} (h : isHexDigit c = true) :
    digitVal c.toLower = digitVal c := by
  have hlower := digitVal_toLower_ofNat c.toNat (isHexDigit_ascii h)
  rwa [Char.ofNat_toNat] at hlower

theorem decodeHex_map_toLower : ∀ {l : List Char}, (∀ c ∈ l, isHexDigit c = true) →
    decodeHex (l.map Char.toLower) = decodeHex l
  | [], _ => rfl
  | [_], _ => rfl
  | a :: b :: l, h => by
      have ha := isHexDigit_toLower (h a List.mem_cons_self)
      have hb := isHexDigit_toLower (h b (List.mem_cons_of_mem _ List.mem_cons_self))
      have hl := @decodeHex_map_toLower l fun c hc =>
        h c (List.mem_cons_of_mem _ (List.mem_cons_of_mem _ hc))
      rw [List.map_cons, List.map_cons, decodeHex, decodeHex, hl, isHexDigit, isHexDigit,
        isHexDigit, isHexDigit, ha, hb]

theorem decodeReversed_eq_ok {s : String} {b : Bytes} (h : decodeReversed s = .ok b) :
    (∀ c ∈ s.toList, isHexDigit c = true) ∧ b = (decodeHex s.toList).reverse := by
  unfold decodeReversed decodeString at h
  split_ifs at h with hall hodd
  · cases h
  · cases h
  · simp only [Bool.not_eq_true', Bool.not_eq_false, List.all_eq_true] at hall
    exact ⟨hall, (Except.ok.inj h).symm⟩

section
variable [HashPlatform]

/-- Texts that fold together decode to the same bytes. -/
theorem decodeReversed_of_equalFold {s t : String} {a b : Bytes} (hs : decodeReversed s = .ok a)
    (ht : decodeReversed t = .ok b) (hfold : equalFold s t = true) : a = b := by
  obtain ⟨hsdigits, rfl⟩ := decodeReversed_eq_ok hs
  obtain ⟨htdigits, rfl⟩ := decodeReversed_eq_ok ht
  have hlower : ∀ {l : List Char}, (∀ c ∈ l, isHexDigit c = true) →
      l.map CaseTable.fold = l.map Char.toLower := fun h =>
    List.map_congr_left fun c hc => CaseTable.fold_ascii c (isHexDigit_ascii (h c hc))
  rw [equalFold, decide_eq_true_eq, hlower hsdigits, hlower htdigits] at hfold
  rw [← decodeHex_map_toLower hsdigits, hfold, decodeHex_map_toLower htdigits]

/-! ## What is hashed -/

/-- The strings that `foldBranch` hashes. -/
def foldInputs : Bytes → List (String × Bool) → List Bytes
  | _, [] => []
  | cur, (sibHex, flag) :: branch =>
    match decodeReversed sibHex with
    | .error _ => []
    | .ok sib =>
      let input := if flag then cur ++ sib else sib ++ cur
      input :: foldInputs (sha256d input) branch

/-- The strings that the tree of a block hashes. -/
def treeInputs (ids : List Bytes) : List Bytes :=
  (List.range (treeHeight ids)).flatMap (levelInputs sha256d ids)

/-- Two hashes of the display order, and their bytes. -/
def Decoded (s : String × Bool) (t : Bytes × Bool) : Prop :=
  decodeReversed s.1 = .ok t.1 ∧ s.2 = t.2

/-- The fold climbs the decoded branch. -/
theorem foldBranch_eq_ok {branch : List (String × Bool)} :
    ∀ {i : ℕ} {cur root : Bytes}, foldBranch i cur branch = .ok root →
      ∃ siblings, List.Forall₂ Decoded branch siblings ∧
        climb (joinHash sha256d) cur siblings = root ∧
        foldInputs cur branch = climbInputs sha256d cur siblings := by
  induction branch with
  | nil =>
      intro i cur root h
      exact ⟨[], .nil, Except.ok.inj h, rfl⟩
  | cons s branch ih =>
      intro i cur root h
      obtain ⟨sibHex, flag⟩ := s
      rw [foldBranch] at h
      cases hsib : decodeReversed sibHex with
      | error e =>
          rw [hsib] at h
          cases h
      | ok sib =>
          rw [hsib] at h
          have hnext : (if flag then sha256d (cur ++ sib) else sha256d (sib ++ cur)) =
              sha256d (joinSide cur (sib, flag)) := by
            cases flag <;> rfl
          obtain ⟨siblings, hdecoded, hclimb, hinputs⟩ := ih h
          rw [hnext] at hclimb hinputs
          refine ⟨(sib, flag) :: siblings, .cons ⟨hsib, rfl⟩ hdecoded, ?_, ?_⟩
          · rw [climb_cons, hclimb]
          · simp only [foldInputs, hsib]
            exact congrArg _ hinputs

omit [HashPlatform] in
/-- Every sibling has the length of a hash exactly when every text decodes to that many bytes. -/
theorem forall_siblings_iff {proofHashes : List String} {proofFlags : List Bool}
    (hlength : proofHashes.length = proofFlags.length) {siblings : List (Bytes × Bool)}
    (hdecoded : List.Forall₂ Decoded (proofHashes.zip proofFlags) siblings) :
    (∀ s ∈ siblings, s.1.length = 32) ↔
      ∀ s ∈ proofHashes, ∃ b, decodeReversed s = .ok b ∧ b.length = 32 := by
  induction proofHashes generalizing proofFlags siblings with
  | nil =>
      rw [List.zip_nil_left] at hdecoded
      cases hdecoded
      simp
  | cons sibHex proofHashes ih =>
      cases proofFlags with
      | nil => cases hlength
      | cons flag proofFlags =>
          rw [List.zip_cons_cons] at hdecoded
          cases hdecoded with
          | @cons _ t _ siblings hfirst hrest =>
              rw [List.forall_mem_cons, List.forall_mem_cons, ih (Nat.succ.inj hlength) hrest,
                hfirst.1]
              simp

/-! ## Soundness -/

/-- The transaction decodes to a node of the tree, as deep as the branch is long. -/
def Sound (proof : MerkleProof) (ids : List Bytes) : Prop :=
  ∃ leaf, decodeReversed proof.transaction = .ok leaf ∧ leaf.length = 32 ∧
    NodeAt hashPair ids proof.proofHashes.length leaf

/-- No string that the fold hashes collides with one that the tree hashes. -/
def CollisionFree (proof : MerkleProof) (ids : List Bytes) : Prop :=
  ∀ leaf, decodeReversed proof.transaction = .ok leaf →
    ∀ x ∈ foldInputs leaf (proof.proofHashes.zip proof.proofFlags), ∀ y ∈ treeInputs ids,
      sha256d x = sha256d y → x = y

/-- **An accepted proof against the root of a block is sound exactly when all its hashes have the
length of a hash and there are no more of them than levels above the transactions.** -/
theorem verifyMerkleProof_sound_iff {rpc : Rpc} {proof : MerkleProof} {c : Client}
    {header : BHCHeader} {ids : List Bytes} {root : Bytes}
    (hsha : ∀ b, (HashPlatform.sha256 b).length = 32) (h32 : ∀ id ∈ ids, id.length = 32)
    (hroot : levelRoot hashPair ids = some root)
    (hheader : (getBlockHeader rpc proof.headerHeight c).1 = .ok header)
    (hmerkle : decodeReversed header.merkleRoot = .ok root)
    (haccepted : (verifyMerkleProof rpc proof c).1 = .ok true)
    (hfree : CollisionFree proof ids) :
    Sound proof ids ↔
      (∀ s ∈ proof.proofHashes, ∃ b, decodeReversed s = .ok b ∧ b.length = 32) ∧
        proof.proofHashes.length ≤ treeHeight ids := by
  obtain ⟨header', computed, hheader', -, hcompute, hequal⟩ := verifyMerkleProof_computes haccepted
  obtain ⟨hlengths, leaf, folded, hleaf, hfold, rfl⟩ := computeMerkleRoot_eq_ok hcompute
  obtain rfl : header = header' := Except.ok.inj (hheader.symm.trans hheader')
  obtain rfl : folded = root :=
    decodeReversed_of_equalFold (decodeReversed_encodeReversed folded) hmerkle hequal
  obtain ⟨siblings, hdecoded, hclimb, hinputs⟩ := foldBranch_eq_ok hfold
  rw [← forall_siblings_iff hlengths hdecoded]
  have hcount : siblings.length = proof.proofHashes.length := by
    rw [← hdecoded.length_eq, List.length_zip, ← hlengths, Nat.min_self]
  have hwidth : ∀ x, (sha256d x).length = 32 := fun x => hsha _
  have htop : levelAt (joinHash sha256d) ids (treeHeight ids) = [folded] :=
    levelAt_treeHeight hroot
  -- the branch ends at the root, which is the one value of the highest level
  have hbinds : proof.proofHashes.length ≤ treeHeight ids →
      (leaf.length = 32 ∨ ∀ s ∈ siblings, s.1.length = 32) →
        leaf ∈ levelAt (joinHash sha256d) ids (treeHeight ids - proof.proofHashes.length) ∧
          ∀ s ∈ siblings, s.1.length = 32 := by
    intro hle hlength
    have hlevel : treeHeight ids - proof.proofHashes.length + siblings.length =
        treeHeight ids := by omega
    have hend : climb (joinHash sha256d) leaf siblings ∈ levelAt (joinHash sha256d) ids
        (treeHeight ids - proof.proofHashes.length + siblings.length) := by
      rw [hlevel, hclimb, htop]
      exact List.mem_singleton_self _
    have hdistinct : ∀ x ∈ climbInputs sha256d leaf siblings,
        ∀ j < treeHeight ids - proof.proofHashes.length + siblings.length,
        ∀ y ∈ levelInputs sha256d ids j, sha256d x = sha256d y → x = y := by
      rw [hlevel, ← hinputs]
      intro x hx j hj y hy
      exact hfree leaf hleaf x hx y (List.mem_flatMap.mpr ⟨j, List.mem_range.mpr hj, hy⟩)
    exact climb_binds hwidth h32 hend hdistinct hlength
  constructor
  · rintro ⟨leaf', hleaf', hlength, hle, -⟩
    obtain rfl : leaf = leaf' := Except.ok.inj (hleaf.symm.trans hleaf')
    exact ⟨(hbinds hle (.inl hlength)).2, hle⟩
  · rintro ⟨hsiblings, hle⟩
    have hnode := (hbinds hle (.inr hsiblings)).1
    exact ⟨leaf, hleaf, length_of_mem_levelAt hwidth h32 hnode, hle, hnode⟩

end

/-! ## Two proofs against one tree -/

section
variable [HashPlatform] {txHash sibHex : String} {leaf sib : Bytes}

theorem computeMerkleRoot_one (hleaf : decodeReversed txHash = .ok leaf)
    (hsib : decodeReversed sibHex = .ok sib) :
    computeMerkleRoot txHash [sibHex] [true] = .ok (encodeReversed (sha256d (leaf ++ sib))) := by
  have hlengths : ¬ [sibHex].length ≠ [true].length := not_not.mpr rfl
  rw [computeMerkleRoot, if_neg hlengths, hleaf]
  simp only [List.zip_cons_cons, List.zip_nil_left, foldBranch, hsib, if_true, Except.map]

theorem foldInputs_one (hsib : decodeReversed sibHex = .ok sib) :
    foldInputs leaf ([sibHex].zip [true]) = [leaf ++ sib] := by
  simp only [List.zip_cons_cons, List.zip_nil_left, foldInputs, hsib, if_true]

end

def pairIds : List Bytes := [List.replicate 32 1, List.replicate 32 2]

/-- A node with the block of these two. -/
def pairRpc (merkleRoot : String) : Rpc where
  getBlockCount _ := .ok 9
  getBlockHash _ _ := .ok (hashText 0xaa)
  getBlockHeader _ _ :=
    { height := some 5, hash := some (hashText 0xaa), merkleRoot := some merkleRoot }
  getTxOutProof _ _ _ := {}

/-- The branch of the first transaction. -/
def pairProof : MerkleProof where
  blockHash := hashText 0xaa
  transaction := hashText 1
  proofHashes := [hashText 2]
  proofFlags := [true]
  headerHeight := 5

/-- The two transactions in the place of one, and nothing in the place of the sibling. -/
def resplitProof : MerkleProof where
  blockHash := hashText 0xaa
  transaction := encodeReversed (List.replicate 32 1 ++ List.replicate 32 2)
  proofHashes := [""]
  proofFlags := [true]
  headerHeight := 5

theorem treeHeight_pairIds : treeHeight pairIds = 1 :=
  Nat.clog_eq_one (Nat.le_refl 2) (Nat.le_refl 2)

def pairHeader (merkleRoot : String) : BHCHeader :=
  { height := 5, hash := hashText 0xaa, merkleRoot := merkleRoot }

/-- The header that the node answers with. -/
theorem getBlockHeader_pairRpc (merkleRoot : String) :
    (getBlockHeader (pairRpc merkleRoot) 5 newBHCSPVClient).1 = .ok (pairHeader merkleRoot) := by
  have hkey : (5 : UInt64).toNat = 5 := rfl
  have hnone : newBHCSPVClient.headerCache.get? 5 = none := rfl
  simp [getBlockHeader, hkey, hnone, requestHeader, getBlockHash, pairRpc, hashText_ne_empty,
    callHeaderByHash, callHeader, HeaderAnswer.fill, completeHeader, pairHeader]

section
variable [HashPlatform]

theorem levelRoot_pairIds :
    levelRoot hashPair pairIds = some (sha256d (List.replicate 32 1 ++ List.replicate 32 2)) := by
  rw [levelRoot, dif_neg (by decide), levelRoot, dif_pos (by rw [length_levelUp]; decide)]
  rfl

theorem treeInputs_pairIds :
    treeInputs pairIds = [List.replicate 32 1 ++ List.replicate 32 2] := by
  rw [treeInputs, treeHeight_pairIds]
  rfl

/-- A proof of one level that joins to the two transactions is accepted. -/
theorem verifyMerkleProof_pairRpc {proof : MerkleProof} {merkleRoot : String}
    (hblock : proof.blockHash = hashText 0xaa) (hheight : proof.headerHeight = 5)
    (hnamed : proof.transaction ≠ "") (hone : proof.proofHashes.length = 1)
    (hcompute : computeMerkleRoot proof.transaction proof.proofHashes proof.proofFlags =
      .ok merkleRoot) :
    (verifyMerkleProof (pairRpc merkleRoot) proof newBHCSPVClient).1 = .ok true := by
  have hheader := getBlockHeader_pairRpc merkleRoot
  have hsmall : ¬ 1 > maxMerkleProofHashes := by decide
  rw [verifyMerkleProof, if_neg fun hempty => hnamed hempty.2, hone, if_neg hsmall, hblock,
    if_neg (hashText_ne_empty _), hheight]
  generalize getBlockHeader (pairRpc merkleRoot) 5 newBHCSPVClient = got at hheader
  obtain ⟨result, c⟩ := got
  obtain rfl : result = .ok (pairHeader merkleRoot) := hheader
  have hhash : ¬ (pairHeader merkleRoot).hash ≠ hashText 0xaa := not_not.mpr rfl
  have hequal : equalFold merkleRoot (pairHeader merkleRoot).merkleRoot = true :=
    equalFold_refl merkleRoot
  dsimp only
  rw [if_neg hhash, if_neg hnamed, hcompute]
  simp only [hequal, Bool.not_true, Bool.false_eq_true, if_false]

/-- A proof that joins the two transactions hashes what the tree hashes. -/
theorem collisionFree_pairIds {proof : MerkleProof} {leaf sib : Bytes} {sibHex : String}
    (hleaf : decodeReversed proof.transaction = .ok leaf) (hsib : decodeReversed sibHex = .ok sib)
    (hhashes : proof.proofHashes = [sibHex]) (hflags : proof.proofFlags = [true])
    (hjoined : leaf ++ sib = List.replicate 32 1 ++ List.replicate 32 2) :
    CollisionFree proof pairIds := by
  intro leaf' hleaf' x hx y hy _
  obtain rfl : leaf = leaf' := Except.ok.inj (hleaf.symm.trans hleaf')
  rw [hhashes, hflags, foldInputs_one hsib, hjoined, List.mem_singleton] at hx
  rw [treeInputs_pairIds, List.mem_singleton] at hy
  rw [hx, hy]

end

/-- With the digest that is always zero. -/
theorem levelRoot_pairIds_plain : letI := HashPlatform.plain
    levelRoot hashPair pairIds = some (List.replicate 32 0) :=
  letI := HashPlatform.plain
  levelRoot_pairIds

theorem length_sha256_plain (b : Bytes) : letI := HashPlatform.plain
    (HashPlatform.sha256 b).length = 32 := List.length_replicate

/-- The branch of the first of two transactions is sound. -/
theorem verifyMerkleProof_sound_pair : letI := HashPlatform.plain
    (verifyMerkleProof (pairRpc (hashText 0)) pairProof newBHCSPVClient).1 = .ok true ∧
      Sound pairProof pairIds := by
  let _ := HashPlatform.plain
  have hleaf := decodeReversed_hashText 1
  have hsib := decodeReversed_hashText 2
  have hcompute : computeMerkleRoot (hashText 1) [hashText 2] [true] = .ok (hashText 0) := by
    rw [computeMerkleRoot_one hleaf hsib, ← encodeReversed_hashText]
    rfl
  have haccepted : (verifyMerkleProof (pairRpc (hashText 0)) pairProof newBHCSPVClient).1 =
      .ok true := verifyMerkleProof_pairRpc rfl rfl (hashText_ne_empty _) rfl hcompute
  have h32 : ∀ id ∈ pairIds, id.length = 32 := by
    intro id hid
    simp only [pairIds, List.mem_cons, List.not_mem_nil, or_false] at hid
    rcases hid with rfl | rfl <;> exact List.length_replicate
  have hheader := getBlockHeader_pairRpc (hashText 0)
  have hfree : CollisionFree pairProof pairIds := collisionFree_pairIds hleaf hsib rfl rfl rfl
  have hmerkle : decodeReversed (pairHeader (hashText 0)).merkleRoot =
      .ok (List.replicate 32 0) := decodeReversed_hashText 0
  have hiff := verifyMerkleProof_sound_iff length_sha256_plain h32 levelRoot_pairIds_plain hheader
    hmerkle haccepted hfree
  have hlengths : ∀ s ∈ pairProof.proofHashes, ∃ b, decodeReversed s = .ok b ∧ b.length = 32 := by
    intro s hs
    rw [List.mem_singleton.mp hs]
    exact ⟨_, hsib, List.length_replicate⟩
  have hheight : pairProof.proofHashes.length ≤ treeHeight pairIds := by
    rw [treeHeight_pairIds]
    exact Nat.le_refl 1
  exact ⟨haccepted, hiff.mpr ⟨hlengths, hheight⟩⟩

/-- Two transactions joined are accepted as one, with an empty text for a sibling. -/
theorem verifyMerkleProof_resplit : letI := HashPlatform.plain
    (verifyMerkleProof (pairRpc (hashText 0)) resplitProof newBHCSPVClient).1 = .ok true ∧
      levelRoot hashPair pairIds = some (List.replicate 32 0) ∧
      decodeReversed (hashText 0) = .ok (List.replicate 32 0) ∧
      CollisionFree resplitProof pairIds ∧ ¬ Sound resplitProof pairIds := by
  let _ := HashPlatform.plain
  have hleaf : decodeReversed resplitProof.transaction =
      .ok (List.replicate 32 1 ++ List.replicate 32 2) := decodeReversed_encodeReversed _
  have hsib : decodeReversed "" = .ok [] := decodeReversed_encodeReversed []
  have hnamed : resplitProof.transaction ≠ "" := encodeReversed_ne_empty (by decide)
  have hcompute : computeMerkleRoot resplitProof.transaction [""] [true] = .ok (hashText 0) := by
    rw [computeMerkleRoot_one hleaf hsib, ← encodeReversed_hashText]
    rfl
  have haccepted : (verifyMerkleProof (pairRpc (hashText 0)) resplitProof newBHCSPVClient).1 =
      .ok true := verifyMerkleProof_pairRpc rfl rfl hnamed rfl hcompute
  have hfree : CollisionFree resplitProof pairIds :=
    collisionFree_pairIds hleaf hsib rfl rfl (List.append_nil _)
  refine ⟨haccepted, levelRoot_pairIds_plain, decodeReversed_hashText 0, hfree, ?_⟩
  rintro ⟨leaf, hleaf', hlength, -⟩
  rw [hleaf] at hleaf'
  cases hleaf'
  revert hlength
  decide

end BhtBhte.Spv
