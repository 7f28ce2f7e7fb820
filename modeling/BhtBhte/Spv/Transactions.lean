import BhtBhte.Spv.Work

/-!
# Transaction proofs

`VerifyTransactionProof` asks the node for a Merkle branch and folds it up to the root of
the header it has for the height.  Block hash, branch, flags and also the leaf are taken
from the answer, and three of its members may each replace the transaction that was asked
about.  What an accepted answer proves about that transaction is therefore as much as the
answer keeps of the question.
-/
namespace BhtBhte.Spv

open BhtBhte.Lib
open BhtBhte.Node (Bytes)

/-! ## Folding a branch -/

/-- A hash in display order as bytes in internal order. -/
def decodeReversed (s : String) : Except String Bytes := (decodeString s).map List.reverse

/-- Bytes in display order. -/
def encodeReversed (b : Bytes) : String := String.ofList (hexEncode b.reverse)

section
variable [HashPlatform]

def sha256d (input : Bytes) : Bytes := HashPlatform.sha256 (HashPlatform.sha256 input)

/-- The loop of `computeMerkleRoot` from level `i`: a set flag says that the sibling is the
right one. -/
def foldBranch : ℕ → Bytes → List (String × Bool) → Except String Bytes
  | _, cur, [] => .ok cur
  | i, cur, (sibHex, flag) :: branch =>
    match decodeReversed sibHex with
    | .error e => .error ("invalid proof hash " ++ toString i ++ ": " ++ e)
    | .ok sib =>
      foldBranch (i + 1) (if flag then sha256d (cur ++ sib) else sha256d (sib ++ cur)) branch

/-- The root that a branch leads to. -/
def computeMerkleRoot (txHash : String) (proofHashes : List String) (proofFlags : List Bool) :
    Except String String :=
  if proofHashes.length ≠ proofFlags.length then .error "proof hashes/flags length mismatch"
  else
    match decodeReversed txHash with
    | .error e => .error ("invalid transaction id: " ++ e)
    | .ok cur => (foldBranch 0 cur (proofHashes.zip proofFlags)).map encodeReversed

end

/-! ## The calls -/

/-- One call of `gettxoutproof` into the result, with its error. -/
def callProof (rpc : Rpc) (txHash : String) (block : BlockRef) (result : ProofResult)
    (c : Client) : ProofResult × Option String × Client :=
  let a := rpc.getTxOutProof c.calls txHash block
  (a.fill result, a.err, c.called)

/-- The calls of `GetMerkleProof`: by the hash of the block and, if that fails, by its
height. -/
def requestProof (rpc : Rpc) (txHash : String) (blockHeight : UInt64) (c : Client) :
    Except String String × ProofResult × Option String × Client :=
  let (blockHash, c) := getBlockHash rpc blockHeight c
  let (result, err, c) :=
    match blockHash with
    | .ok hash => callProof rpc txHash (.hash hash) {} c
    | .error e => ({}, some e, c)
  match err with
  | none => (blockHash, result, none, c)
  | some _ => (blockHash, callProof rpc txHash (.height blockHeight) result c)

/-- The last non-empty of the members that may replace a value. -/
def override (value : String) (members : List String) : String :=
  members.foldl (fun acc m => if m ≠ "" then m else acc) value

/-- The proof made of an answer. -/
def ProofResult.merkleProof (result : ProofResult) (txHash blockHash : String)
    (blockHeight : UInt64) : MerkleProof where
  blockHash := override blockHash [result.blockHash, result.blockHashAlt]
  transaction := override txHash [result.transaction, result.transactionAlt, result.txID]
  proofHashes := if result.proof.length = 0 then result.merkleBranch else result.proof
  proofFlags := if result.proofFlags.length = 0 then result.proofFlagsAlt else result.proofFlags
  headerHeight := blockHeight

/-- Ask for the Merkle proof of a transaction. -/
def getMerkleProof (rpc : Rpc) (txHash : String) (blockHeight : UInt64) (c : Client) :
    Except String MerkleProof × Client :=
  let (blockHash, result, err, c) := requestProof rpc txHash blockHeight c
  match err with
  | some e => (.error ("failed to get merkle proof: " ++ e), c)
  | none => (.ok (result.merkleProof txHash (blockHash.toOption.getD "") blockHeight), c)

section
variable [HashPlatform]

/-- The branch of a proof leads to the Merkle root of its block. -/
def verifyMerkleProof (rpc : Rpc) (proof : MerkleProof) (c : Client) :
    Except String Bool × Client :=
  if proof.proofHashes.length = 0 ∧ proof.transaction = "" then (.error "empty merkle proof", c)
  else if proof.proofHashes.length > maxMerkleProofHashes then
    (.error ("merkle proof too large: " ++ toString proof.proofHashes.length ++ " hashes"), c)
  else if proof.blockHash = "" then (.error "missing block hash", c)
  else
    match getBlockHeader rpc proof.headerHeight c with
    | (.error e, c) => (.error e, c)
    | (.ok header, c) =>
      if header.hash ≠ proof.blockHash then (.error "block hash mismatch", c)
      else if proof.transaction = "" then (.error "missing transaction id", c)
      else
        match computeMerkleRoot proof.transaction proof.proofHashes proof.proofFlags with
        | .error e => (.error ("failed to compute merkle root: " ++ e), c)
        | .ok computedMerkle =>
          if !equalFold computedMerkle header.merkleRoot then
            (.error ("merkle root mismatch: computed " ++ computedMerkle ++ ", header " ++
              header.merkleRoot), c)
          else (.ok true, c)

/-- The number of confirmations asked for. -/
def requiredConfirmations (minConfirmations : UInt64) : UInt64 :=
  if minConfirmations = 0 then defaultMinConfirmations else minConfirmations

/-- Fetch and verify the proof of a transaction that has so many confirmations. -/
def verifyTransactionProof (rpc : Rpc) (txHash : String) (blockHeight minConfirmations : UInt64)
    (c : Client) : Except String Bool × Client :=
  if txHash = "" then (.error "missing transaction hash", c)
  else
    match getLatestHeight rpc c with
    | (.error e, c) => (.error e, c)
    | (.ok latestHeight, c) =>
      if latestHeight < blockHeight then
        (.error ("block height " ++ toString blockHeight.toNat ++ " is above latest height " ++
          toString latestHeight.toNat), c)
      else
        let confirmations := latestHeight - blockHeight + 1
        if confirmations < requiredConfirmations minConfirmations then
          (.error ("insufficient confirmations: have " ++ toString confirmations.toNat ++
            ", need " ++ toString (requiredConfirmations minConfirmations).toNat), c)
        else
          match getMerkleProof rpc txHash blockHeight c with
          | (.error e, c) => (.error e, c)
          | (.ok proof, c) => verifyMerkleProof rpc proof c

end

/-! ## What acceptance checks -/

theorem getBlockHash_sameCaches (rpc : Rpc) (height : UInt64) (c : Client) :
    SameCaches c (getBlockHash rpc height c).2 := by
  unfold getBlockHash
  split
  · exact ⟨rfl, rfl⟩
  · split <;> exact ⟨rfl, rfl⟩

theorem requestProof_sameCaches (rpc : Rpc) (txHash : String) (blockHeight : UInt64)
    (c : Client) : SameCaches c (requestProof rpc txHash blockHeight c).2.2.2 := by
  have hsame := getBlockHash_sameCaches rpc blockHeight c
  unfold requestProof
  generalize getBlockHash rpc blockHeight c = got at hsame
  obtain ⟨blockHash, c₁⟩ := got
  cases blockHash with
  | error e => exact hsame
  | ok hash =>
      simp only
      split <;> exact hsame

/-- A proof that `GetMerkleProof` returns is made of the members it received. -/
theorem getMerkleProof_eq_ok {rpc : Rpc} {txHash : String} {blockHeight : UInt64} {c : Client}
    {proof : MerkleProof} (h : (getMerkleProof rpc txHash blockHeight c).1 = .ok proof) :
    proof = (requestProof rpc txHash blockHeight c).2.1.merkleProof txHash
        ((requestProof rpc txHash blockHeight c).1.toOption.getD "") blockHeight ∧
      (getMerkleProof rpc txHash blockHeight c).2 =
        (requestProof rpc txHash blockHeight c).2.2.2 := by
  unfold getMerkleProof at h ⊢
  generalize requestProof rpc txHash blockHeight c = got at h
  obtain ⟨blockHash, result, err, c'⟩ := got
  cases err with
  | some e => cases h
  | none =>
      cases h
      exact ⟨rfl, rfl⟩

theorem completeHeader_height (blockHash : Except String String) (height : UInt64)
    (header : BHCHeader) : (completeHeader blockHash height header).height =
      if header.height = 0 then height else header.height := by
  unfold completeHeader
  cases blockHash with
  | error e =>
      simp only
      split <;> rfl
  | ok hash =>
      by_cases hempty : header.hash = "" ∧ hash ≠ ""
      · simp only [if_pos hempty]
        split <;> rfl
      · simp only [if_neg hempty]
        split <;> rfl

/-- The header that `GetBlockHeader` returns is the cached one, or the one received with
its hash and height filled in. -/
theorem getBlockHeader_height {rpc : Rpc} {height : UInt64} {c : Client} {header : BHCHeader}
    (h : (getBlockHeader rpc height c).1 = .ok header) :
    c.headerCache.get? height.toNat = some header ∨
      c.headerCache.get? height.toNat = none ∧
        header.height = if (requestHeader rpc height c).2.1.height = 0 then height
          else (requestHeader rpc height c).2.1.height := by
  unfold getBlockHeader at h
  split at h
  · next cached hcached =>
    cases h
    exact .inl hcached
  · next hnone =>
    refine .inr ⟨hnone, ?_⟩
    generalize requestHeader rpc height c = got at h ⊢
    obtain ⟨blockHash, received, err, c'⟩ := got
    cases err with
    | some e => cases h
    | none =>
        cases h
        exact completeHeader_height blockHash height received

section
variable [HashPlatform]

theorem computeMerkleRoot_eq_ok {txHash : String} {proofHashes : List String}
    {proofFlags : List Bool} {computed : String}
    (h : computeMerkleRoot txHash proofHashes proofFlags = .ok computed) :
    proofHashes.length = proofFlags.length ∧ ∃ leaf root, decodeReversed txHash = .ok leaf ∧
      foldBranch 0 leaf (proofHashes.zip proofFlags) = .ok root ∧
      encodeReversed root = computed := by
  unfold computeMerkleRoot at h
  split at h
  · cases h
  · next hlength =>
    refine ⟨not_not.mp hlength, ?_⟩
    split at h
    · cases h
    · next leaf hleaf =>
      cases hfold : foldBranch 0 leaf (proofHashes.zip proofFlags) with
      | error e =>
          rw [hfold] at h
          cases h
      | ok root =>
          rw [hfold] at h
          cases h
          exact ⟨leaf, root, hleaf, hfold, rfl⟩

/-- The checks of `VerifyMerkleProof` around its computation. -/
theorem verifyMerkleProof_computes {rpc : Rpc} {proof : MerkleProof} {c : Client}
    (h : (verifyMerkleProof rpc proof c).1 = .ok true) :
    ∃ header computed, (getBlockHeader rpc proof.headerHeight c).1 = .ok header ∧
      header.hash = proof.blockHash ∧
      computeMerkleRoot proof.transaction proof.proofHashes proof.proofFlags = .ok computed ∧
      equalFold computed header.merkleRoot = true := by
  unfold verifyMerkleProof at h
  by_cases hempty : proof.proofHashes.length = 0 ∧ proof.transaction = ""
  · rw [if_pos hempty] at h
    cases h
  rw [if_neg hempty] at h
  by_cases hlarge : proof.proofHashes.length > maxMerkleProofHashes
  · rw [if_pos hlarge] at h
    cases h
  rw [if_neg hlarge] at h
  by_cases hblock : proof.blockHash = ""
  · rw [if_pos hblock] at h
    cases h
  rw [if_neg hblock] at h
  generalize getBlockHeader rpc proof.headerHeight c = got at h ⊢
  obtain ⟨result, c'⟩ := got
  cases result with
  | error e => cases h
  | ok header =>
      simp only at h
      split_ifs at h with hhash hmissing
      cases hcompute : computeMerkleRoot proof.transaction proof.proofHashes proof.proofFlags with
      | error e =>
          rw [hcompute] at h
          cases h
      | ok computed =>
          rw [hcompute] at h
          simp only at h
          split_ifs at h with hfold
          exact ⟨header, computed, rfl, not_not.mp hhash, rfl, by simpa using hfold⟩

/-- The checks of `VerifyMerkleProof`. -/
theorem verifyMerkleProof_eq_true {rpc : Rpc} {proof : MerkleProof} {c : Client}
    (h : (verifyMerkleProof rpc proof c).1 = .ok true) :
    ∃ header leaf root, (getBlockHeader rpc proof.headerHeight c).1 = .ok header ∧
      header.hash = proof.blockHash ∧ decodeReversed proof.transaction = .ok leaf ∧
      foldBranch 0 leaf (proof.proofHashes.zip proof.proofFlags) = .ok root ∧
      equalFold (encodeReversed root) header.merkleRoot = true := by
  obtain ⟨header, computed, hheader, hhash, hcompute, hfold⟩ := verifyMerkleProof_computes h
  obtain ⟨-, leaf, root, hleaf, hroot, rfl⟩ := computeMerkleRoot_eq_ok hcompute
  exact ⟨header, leaf, root, hheader, hhash, hleaf, hroot, hfold⟩

/-- The checks of `VerifyTransactionProof` before it looks at the branch. -/
theorem verifyTransactionProof_eq_true {rpc : Rpc} {txHash : String}
    {blockHeight minConfirmations : UInt64} {c : Client}
    (h : (verifyTransactionProof rpc txHash blockHeight minConfirmations c).1 = .ok true) :
    ∃ tip proof, rpc.getBlockCount c.calls = .ok tip ∧ blockHeight ≤ tip ∧
      requiredConfirmations minConfirmations ≤ tip - blockHeight + 1 ∧
      (getMerkleProof rpc txHash blockHeight c.called).1 = .ok proof ∧
      (verifyMerkleProof rpc proof (getMerkleProof rpc txHash blockHeight c.called).2).1 =
        .ok true := by
  unfold verifyTransactionProof at h
  by_cases hempty : txHash = ""
  · rw [if_pos hempty] at h
    cases h
  rw [if_neg hempty, getLatestHeight] at h
  cases hcount : rpc.getBlockCount c.calls with
  | error e =>
      rw [hcount] at h
      cases h
  | ok tip =>
      rw [hcount] at h
      simp only at h
      split_ifs at h with habove hfew
      generalize getMerkleProof rpc txHash blockHeight c.called = got at h ⊢
      obtain ⟨result, c'⟩ := got
      cases result with
      | error e => cases h
      | ok proof =>
          exact ⟨tip, proof, rfl, UInt64.not_lt.mp habove, UInt64.not_lt.mp hfew, rfl, h⟩

end

/-- A sum that wraps is only smaller. -/
theorem confirmations_le {tip blockHeight required : UInt64} (hle : blockHeight ≤ tip)
    (henough : required ≤ tip - blockHeight + 1) :
    required.toNat ≤ tip.toNat - blockHeight.toNat + 1 := by
  have hsub : (tip - blockHeight).toNat = tip.toNat - blockHeight.toNat :=
    UInt64.toNat_sub_of_le _ _ hle
  have hsum : (tip - blockHeight + 1).toNat ≤ (tip - blockHeight).toNat + 1 := by
    rw [UInt64.toNat_add]
    exact Nat.mod_le _ _
  have henough' : required.toNat ≤ (tip - blockHeight + 1).toNat :=
    UInt64.le_iff_toNat_le.mp henough
  omega

/-! ## What acceptance proves -/

/-- The answer names no transaction, or the one that was asked about. -/
def NamesTransaction (rpc : Rpc) (txHash : String) (blockHeight : UInt64) (c : Client) : Prop :=
  let result := (requestProof rpc txHash blockHeight c.called).2.1
  ∃ leaf, leaf.length = 32 ∧ decodeReversed txHash = .ok leaf ∧
    decodeReversed (override txHash [result.transaction, result.transactionAlt, result.txID]) =
      .ok leaf

/-- The header kept for the height is of that height; if none is kept, the one received
says so or gives no height. -/
def GivesHeight (rpc : Rpc) (txHash : String) (blockHeight : UInt64) (c : Client) : Prop :=
  match c.headerCache.get? blockHeight.toNat with
  | some header => header.height = blockHeight
  | none =>
    let received :=
      (requestHeader rpc blockHeight (getMerkleProof rpc txHash blockHeight c.called).2).2.1
    received.height = 0 ∨ received.height = blockHeight

/-- The header that is read has the height of the one kept or received. -/
theorem getBlockHeader_givesHeight {rpc : Rpc} {txHash : String} {blockHeight : UInt64}
    {c : Client} {proof : MerkleProof} {header : BHCHeader}
    (hproof : (getMerkleProof rpc txHash blockHeight c.called).1 = .ok proof)
    (hheader : (getBlockHeader rpc blockHeight
      (getMerkleProof rpc txHash blockHeight c.called).2).1 = .ok header) :
    header.height = blockHeight ↔ GivesHeight rpc txHash blockHeight c := by
  have hcache : (getMerkleProof rpc txHash blockHeight c.called).2.headerCache = c.headerCache := by
    rw [(getMerkleProof_eq_ok hproof).2]
    exact (requestProof_sameCaches rpc txHash blockHeight c.called).1
  have hheight := getBlockHeader_height hheader
  rw [hcache] at hheight
  unfold GivesHeight
  rcases hheight with hcached | ⟨hnone, hreceived⟩
  · rw [hcached]
  · rw [hnone, hreceived]
    simp only
    split
    · next hzero => simp [hzero]
    · next hzero => simp [hzero]

section
variable [HashPlatform]

/-- The height has the confirmations asked for at the reported tip, and the branch folds
from the transaction itself to the root of the header, which is of that height. -/
def Proves (rpc : Rpc) (txHash : String) (blockHeight minConfirmations : UInt64) (c : Client) :
    Prop :=
  ∃ tip proof header leaf root,
    rpc.getBlockCount c.calls = .ok tip ∧ blockHeight ≤ tip ∧
    (requiredConfirmations minConfirmations).toNat ≤ tip.toNat - blockHeight.toNat + 1 ∧
    (getMerkleProof rpc txHash blockHeight c.called).1 = .ok proof ∧
    (getBlockHeader rpc blockHeight (getMerkleProof rpc txHash blockHeight c.called).2).1 =
      .ok header ∧
    header.height = blockHeight ∧
    leaf.length = 32 ∧ decodeReversed txHash = .ok leaf ∧
    decodeReversed proof.transaction = .ok leaf ∧
    foldBranch 0 leaf (proof.proofHashes.zip proof.proofFlags) = .ok root ∧
    equalFold (encodeReversed root) header.merkleRoot = true

section
variable {rpc : Rpc} {txHash : String} {blockHeight minConfirmations : UInt64} {c : Client}

theorem Proves.namesTransaction (h : Proves rpc txHash blockHeight minConfirmations c) :
    NamesTransaction rpc txHash blockHeight c := by
  obtain ⟨_, proof, _, leaf, _, -, -, -, hproof, -, -, hlength, hasked, hleaf, -, -⟩ := h
  obtain ⟨rfl, -⟩ := getMerkleProof_eq_ok hproof
  exact ⟨leaf, hlength, hasked, hleaf⟩

/-- **An accepted transaction proof** proves what it is taken for exactly when the answer
names no other transaction than the one asked about and the header gives its own height. -/
theorem verifyTransactionProof_proves
    (h : (verifyTransactionProof rpc txHash blockHeight minConfirmations c).1 = .ok true) :
    Proves rpc txHash blockHeight minConfirmations c ↔
      NamesTransaction rpc txHash blockHeight c ∧ GivesHeight rpc txHash blockHeight c := by
  constructor
  · intro hproves
    refine ⟨hproves.namesTransaction, ?_⟩
    obtain ⟨_, proof, header, _, _, -, -, -, hproof, hheader, hheight, -⟩ := hproves
    exact (getBlockHeader_givesHeight hproof hheader).mp hheight
  · rintro ⟨⟨asked, hlength, hasked, hnamed⟩, hgives⟩
    obtain ⟨tip, proof, htip, hle, henough, hproof, hverify⟩ := verifyTransactionProof_eq_true h
    obtain ⟨header, leaf, root, hheader, -, hleaf, hroot, hequal⟩ :=
      verifyMerkleProof_eq_true hverify
    obtain ⟨hmade, -⟩ := getMerkleProof_eq_ok hproof
    have hheaderHeight : proof.headerHeight = blockHeight := by rw [hmade]; rfl
    rw [hheaderHeight] at hheader
    have hsame : decodeReversed proof.transaction = .ok asked := by rw [hmade]; exact hnamed
    have hasked' : leaf = asked := Except.ok.inj (hleaf.symm.trans hsame)
    rw [hasked'] at hroot
    exact ⟨tip, proof, header, asked, root, htip, hle, confirmations_le hle henough, hproof,
      hheader, (getBlockHeader_givesHeight hproof hheader).mpr hgives, hlength, hasked, hsame,
      hroot, hequal⟩

end

end

/-! ## An answer that names another transaction -/

/-- ASCII case tables, and a digest that no branch below asks for. -/
@[reducible] def HashPlatform.plain : HashPlatform where
  toCaseTable := Node.Platform.checksums.toCaseTable
  sha256 _ := List.replicate 32 0

/-- A hash of equal bytes. -/
def hashText (b : UInt8) : String := String.ofList (hexEncode (List.replicate 32 b))

theorem decodeReversed_hashText (b : UInt8) :
    decodeReversed (hashText b) = .ok (List.replicate 32 b) := by
  simp [decodeReversed, hashText, decodeString_hexEncode, Except.map]

theorem encodeReversed_hashText (b : UInt8) :
    encodeReversed (List.replicate 32 b) = hashText b := by
  simp [encodeReversed, hashText]

/-- A block of one transaction has it for a root. -/
theorem computeMerkleRoot_hashText [HashPlatform] (b : UInt8) :
    computeMerkleRoot (hashText b) [] [] = .ok (hashText b) := by
  have hlengths : ¬ ([] : List String).length ≠ ([] : List Bool).length := by decide
  rw [computeMerkleRoot, if_neg hlengths, decodeReversed_hashText]
  simp only [List.zip_nil_left, foldBranch, Except.map, encodeReversed_hashText]

theorem hashText_ne_empty (b : UInt8) : hashText b ≠ "" := by
  intro h
  have hlength := congrArg (fun s => s.toList.length) h
  simp [hashText, length_hexEncode] at hlength

/-- A node with one transaction in its block at height `5`, which is all it talks about:
`named` is the transaction its proofs name, if they name one. -/
def oneTransactionRpc (named : Option String) : Rpc where
  getBlockCount _ := .ok 9
  getBlockHash _ _ := .ok (hashText 0xaa)
  getBlockHeader _ _ :=
    { height := some 5, hash := some (hashText 0xaa), merkleRoot := some (hashText 0x22) }
  getTxOutProof _ _ _ := { txID := named }

section
variable (named : Option String) (txHash : String)

theorem requestProof_oneTransaction (c : Client) :
    requestProof (oneTransactionRpc named) txHash 5 c =
      (.ok (hashText 0xaa), { txID := named.getD "" }, none, c.called.called) := by
  simp [requestProof, getBlockHash, oneTransactionRpc, hashText_ne_empty, callProof,
    ProofAnswer.fill, Client.called]

theorem getMerkleProof_oneTransaction (c : Client) :
    getMerkleProof (oneTransactionRpc named) txHash 5 c =
      (.ok ⟨hashText 0xaa, override txHash ["", "", named.getD ""], [], [], 5⟩,
        c.called.called) := by
  simp [getMerkleProof, requestProof_oneTransaction, ProofResult.merkleProof, override,
    Except.toOption]

theorem requestHeader_oneTransaction (c : Client) :
    requestHeader (oneTransactionRpc named) 5 c = (.ok (hashText 0xaa),
      { height := 5, hash := hashText 0xaa, merkleRoot := hashText 0x22 }, none,
      c.called.called) := by
  simp [requestHeader, getBlockHash, oneTransactionRpc, hashText_ne_empty, callHeaderByHash,
    callHeader, HeaderAnswer.fill]

theorem getBlockHeader_oneTransaction {c : Client} (hnone : c.headerCache.get? 5 = none) :
    (getBlockHeader (oneTransactionRpc named) 5 c).1 =
      .ok { height := 5, hash := hashText 0xaa, merkleRoot := hashText 0x22 } := by
  have hkey : (5 : UInt64).toNat = 5 := rfl
  simp [getBlockHeader, hkey, hnone, requestHeader_oneTransaction, completeHeader,
    hashText_ne_empty]

/-- Such a node has its transaction accepted, whatever was asked for. -/
theorem verifyTransactionProof_oneTransaction [HashPlatform] (htx : txHash ≠ "")
    (hnamed : override txHash ["", "", named.getD ""] = hashText 0x22) :
    (verifyTransactionProof (oneTransactionRpc named) txHash 5 0 newBHCSPVClient).1 =
      .ok true := by
  have hcount : getLatestHeight (oneTransactionRpc named) newBHCSPVClient =
      (.ok 9, newBHCSPVClient.called) := rfl
  have hbelow : ¬ (9 : UInt64) < 5 := by decide
  have henough : ¬ (9 : UInt64) - 5 + 1 < requiredConfirmations 0 := by decide
  have hheader := getBlockHeader_oneTransaction named
    (show newBHCSPVClient.called.called.called.headerCache.get? 5 = none from rfl)
  have hverify : (verifyMerkleProof (oneTransactionRpc named)
      ⟨hashText 0xaa, hashText 0x22, [], [], 5⟩
      newBHCSPVClient.called.called.called).1 = .ok true := by
    generalize hgot : getBlockHeader (oneTransactionRpc named) 5
      newBHCSPVClient.called.called.called = got at hheader
    obtain ⟨result, c'⟩ := got
    simp only at hheader
    simp [verifyMerkleProof, hgot, hheader, hashText_ne_empty, computeMerkleRoot_hashText]
  simp only [verifyTransactionProof, if_neg htx, hcount, if_neg hbelow, if_neg henough,
    getMerkleProof_oneTransaction, hnamed]
  exact hverify

end

/-- A proof that names no transaction is one of the transaction asked about. -/
theorem verifyTransactionProof_proves_unnamed :
    letI := HashPlatform.plain
    (verifyTransactionProof (oneTransactionRpc none) (hashText 0x22) 5 0 newBHCSPVClient).1 =
        .ok true ∧
      Proves (oneTransactionRpc none) (hashText 0x22) 5 0 newBHCSPVClient := by
  let _ := HashPlatform.plain
  have haccepted := verifyTransactionProof_oneTransaction none (hashText 0x22)
    (hashText_ne_empty _) (by simp [override])
  refine ⟨haccepted, (verifyTransactionProof_proves haccepted).mpr ⟨?_, ?_⟩⟩
  · refine ⟨List.replicate 32 0x22, rfl, decodeReversed_hashText _, ?_⟩
    rw [requestProof_oneTransaction]
    simp [override, decodeReversed_hashText]
  · rw [GivesHeight, getMerkleProof_oneTransaction, requestHeader_oneTransaction]
    exact .inr rfl

/-- A proof of another transaction than the one asked about is accepted. -/
theorem verifyTransactionProof_accepts_other :
    letI := HashPlatform.plain
    (verifyTransactionProof (oneTransactionRpc (some (hashText 0x22))) (hashText 0x11) 5 0
        newBHCSPVClient).1 = .ok true ∧
      ¬ Proves (oneTransactionRpc (some (hashText 0x22))) (hashText 0x11) 5 0
        newBHCSPVClient := by
  let _ := HashPlatform.plain
  refine ⟨verifyTransactionProof_oneTransaction _ _ (hashText_ne_empty _)
    (by simp [override, hashText_ne_empty]), ?_⟩
  intro hproves
  obtain ⟨leaf, -, hasked, hnamed⟩ := hproves.namesTransaction
  rw [requestProof_oneTransaction] at hnamed
  simp [override, hashText_ne_empty, decodeReversed_hashText] at hasked hnamed
  rw [← hasked] at hnamed
  exact absurd hnamed (by decide)

end BhtBhte.Spv
