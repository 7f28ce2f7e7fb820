import BhtBhte.Lib.MerkleLevels
import BhtBhte.Spv.Transactions

/-!
# Honest branches

A block commits to its transactions by the tree that hashes a level in pairs and the last value
of an odd level with itself.  The branch of any transaction, written in display order, leads
`computeMerkleRoot` to the root in display order, so `VerifyMerkleProof` accepts it.
-/
namespace BhtBhte.Spv

open BhtBhte.Lib
open BhtBhte.Node (Bytes)

theorem decodeReversed_encodeReversed (b : Bytes) : decodeReversed (encodeReversed b) = .ok b := by
  simp [decodeReversed, encodeReversed, decodeString_hexEncode, Except.map]

theorem encodeReversed_ne_empty {b : Bytes} (h : b ≠ []) : encodeReversed b ≠ "" := by
  intro hempty
  have hdecoded := decodeReversed_encodeReversed b
  rw [hempty, ← show encodeReversed [] = "" from rfl, decodeReversed_encodeReversed] at hdecoded
  exact h (Except.ok.inj hdecoded).symm

section
variable [HashPlatform]

/-- The hash of two children. -/
def hashPair (left right : Bytes) : Bytes := sha256d (left ++ right)

/-- The proof of the transaction at an index. -/
def honestProof (ids : List Bytes) (i : ℕ) (blockHash : String) (headerHeight : UInt64) :
    MerkleProof where
  blockHash := blockHash
  transaction := encodeReversed (ids.getD i [])
  proofHashes := (levelBranch hashPair ids i).map fun s => encodeReversed s.1
  proofFlags := (levelBranch hashPair ids i).map fun s => s.2
  headerHeight := headerHeight

/-- The loop of `computeMerkleRoot` climbs the branch. -/
theorem foldBranch_eq_climb (branch : List (Bytes × Bool)) (k : ℕ) (cur : Bytes) :
    foldBranch k cur (branch.map fun s => (encodeReversed s.1, s.2)) =
      .ok (climb hashPair cur branch) := by
  induction branch generalizing k cur with
  | nil => rfl
  | cons s branch ih =>
      rw [List.map_cons, foldBranch, decodeReversed_encodeReversed]
      exact ih _ _

theorem computeMerkleRoot_honest {ids : List Bytes} {i : ℕ} {root : Bytes} (hi : i < ids.length)
    (hroot : levelRoot hashPair ids = some root) (blockHash : String) (headerHeight : UInt64) :
    let proof := honestProof ids i blockHash headerHeight
    computeMerkleRoot proof.transaction proof.proofHashes proof.proofFlags =
      .ok (encodeReversed root) := by
  rw [levelRoot_eq_climb (List.getElem?_eq_getElem hi), Option.some.injEq] at hroot
  simp only [honestProof, computeMerkleRoot, List.length_map, decodeReversed_encodeReversed,
    List.zip_map', foldBranch_eq_climb, List.getD_eq_getElem _ _ hi, hroot]
  rw [if_neg (not_not.mpr rfl)]
  rfl

/-- **The honest proof of every transaction of every block is accepted.** -/
theorem verifyMerkleProof_honest {ids : List Bytes} {i : ℕ} (hi : i < ids.length)
    (h32 : ∀ id ∈ ids, id.length = 32) (hmax : ids.length ≤ 2 ^ maxMerkleProofHashes) :
    ∃ root, levelRoot hashPair ids = some root ∧
      (∀ blockHash headerHeight, let proof := honestProof ids i blockHash headerHeight
        computeMerkleRoot proof.transaction proof.proofHashes proof.proofFlags =
          .ok (encodeReversed root)) ∧
      ∀ rpc c blockHash headerHeight header, blockHash ≠ "" →
        (getBlockHeader rpc headerHeight c).1 = .ok header → header.hash = blockHash →
        header.merkleRoot = encodeReversed root →
        (verifyMerkleProof rpc (honestProof ids i blockHash headerHeight) c).1 = .ok true := by
  have hroot := levelRoot_eq_climb (h := hashPair) (List.getElem?_eq_getElem hi)
  refine ⟨_, hroot, computeMerkleRoot_honest hi hroot, ?_⟩
  intro rpc c blockHash headerHeight header hblock hheader hhash hmerkle
  have hcomputed := computeMerkleRoot_honest hi hroot blockHash headerHeight
  have hlength := length_levelBranch_le (h := hashPair) hmax i
  have hnamed : (honestProof ids i blockHash headerHeight).transaction ≠ "" := by
    refine encodeReversed_ne_empty fun hnil => ?_
    have hmem := h32 _ (List.getElem_mem hi)
    rw [← List.getD_eq_getElem ids [] hi, hnil] at hmem
    cases hmem
  have hsize : ¬ (honestProof ids i blockHash headerHeight).proofHashes.length >
      maxMerkleProofHashes := by
    rw [honestProof, List.length_map]
    exact not_lt.mpr hlength
  have hblockHash : (honestProof ids i blockHash headerHeight).blockHash = blockHash := rfl
  have hheight : (honestProof ids i blockHash headerHeight).headerHeight = headerHeight := rfl
  rw [verifyMerkleProof, if_neg fun hempty => hnamed hempty.2, if_neg hsize, hblockHash,
    if_neg hblock, hheight]
  generalize getBlockHeader rpc headerHeight c = got at hheader ⊢
  obtain ⟨result, c'⟩ := got
  cases hheader
  dsimp only at hcomputed ⊢
  rw [if_neg (not_not.mpr hhash), if_neg hnamed, hcomputed, hmerkle]
  simp only [equalFold_refl, Bool.not_true, Bool.false_eq_true, if_false]

end

/-- The identifiers of a block of three transactions. -/
def threeIds : List Bytes := [List.replicate 32 1, List.replicate 32 2, List.replicate 32 3]

/-- The last of three transactions. -/
theorem verifyMerkleProof_honest_three : letI := HashPlatform.plain
    ∃ root, levelRoot hashPair threeIds = some root ∧
      ∀ blockHash headerHeight, let proof := honestProof threeIds 2 blockHash headerHeight
        computeMerkleRoot proof.transaction proof.proofHashes proof.proofFlags =
          .ok (encodeReversed root) := by
  let _ := HashPlatform.plain
  have h32 : ∀ id ∈ threeIds, id.length = 32 := by
    intro id hid
    simp only [threeIds, List.mem_cons, List.not_mem_nil, or_false] at hid
    rcases hid with rfl | rfl | rfl <;> exact List.length_replicate
  have hmax : threeIds.length ≤ 2 ^ maxMerkleProofHashes :=
    (by decide : 3 ≤ 2 ^ 2).trans (Nat.pow_le_pow_right (by decide) (by decide))
  obtain ⟨root, hroot, hcomputed, -⟩ := verifyMerkleProof_honest
    (show 2 < threeIds.length by decide) h32 hmax
  exact ⟨root, hroot, hcomputed⟩

end BhtBhte.Spv
