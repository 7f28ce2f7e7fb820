import BhtBhte.Lib.Merkle
import BhtBhte.Settlement.Withdrawals

/-!
# What a withdrawal proof proves

`_verifyMerkleProof` hashes bare words, with no tag that tells a leaf from an inner
node, and takes the number of levels from the proof itself.  Against an anchor whose
root is that of a tree, a hash is accepted wherever it stands in the tree: it is a leaf
when the proof has one sibling for each level above the leaf its index selects, and not
otherwise.
-/
namespace BhtBhte.Settlement

open BhtBhte.Lib

/-- The hash of two words, as `_verifyMerkleProof` packs them. -/
def nodeHash (P : Primitives) (a b : Bytes32) : Bytes32 :=
  P.keccak256 (wordBytes a ++ wordBytes b)

theorem merkleFold_eq_walk (P : Primitives) (leaf : Bytes32) (proof : List Bytes32)
    (index : ℕ) : merkleFold P leaf proof index = walk (nodeHash P) leaf proof index := by
  induction proof generalizing leaf index with
  | nil => rfl
  | cons s proof ih =>
      rw [merkleFold, walk, ih, walkPair]
      split <;> rfl

/-- The pairs hashed to build the tree and to check one proof against it. -/
def hashedPairs (P : Primitives) (tree : MerkleTree Bytes32) (l2TxHash : Bytes32)
    (merkleProof : List Bytes32) (leafIndex : ℕ) : List (Bytes32 × Bytes32) :=
  tree.pairs (nodeHash P) ++ walkPairs (nodeHash P) l2TxHash merkleProof leafIndex

section
variable {P : Primitives} {msg : Msg} {l2TxHash : Bytes32} {recipient : Address}
  {amount anchorHeight : ℕ} {merkleProof : List Bytes32} {leafIndex : ℕ} {c : State}
  {res : State × List Event} {tree : MerkleTree Bytes32}

/-- **An accepted hash is a leaf when the proof is as long as its leaf is deep**; where
no leaf is itself the hash of two words, only then. -/
theorem initiateWithdrawal_leaf
    (hroot : (c.anchors anchorHeight).stateRoot = tree.root (nodeHash P))
    (hfree : CollisionFree (nodeHash P) (hashedPairs P tree l2TxHash merkleProof leafIndex))
    (hok : initiateWithdrawal P msg l2TxHash recipient amount anchorHeight merkleProof leafIndex c
      = .ok res) :
    (tree.SelectsLeaf merkleProof.length leafIndex → l2TxHash ∈ tree.leaves) ∧
      ((∀ leaf ∈ tree.leaves, ∀ p ∈ hashedPairs P tree l2TxHash merkleProof leafIndex,
          nodeHash P p.1 p.2 ≠ leaf) →
        l2TxHash ∈ tree.leaves → tree.SelectsLeaf merkleProof.length leafIndex) := by
  obtain ⟨⟨-, -, -, -, -, -, -, hfold, -⟩, -⟩ := initiateWithdrawal_eq_ok.mp hok
  rw [merkleFold_eq_walk, hroot] at hfold
  constructor
  · intro hsel
    exact MerkleTree.mem_leaves_of_selectsLeaf hfree hfold hsel
  · intro hapart hmem
    exact MerkleTree.selectsLeaf_of_mem_leaves hfree hfold hapart hmem

end

/-! ## A tree of two leaves -/

/-- Primitives that tell the one pair of the tree below from every other string. -/
def pairPrimitives : Primitives where
  keccak256 bytes := if bytes = wordBytes 1 ++ wordBytes 2 then 7 else 0
  ecrecover _ _ _ _ := 0

/-- The tree over the leaves `1` and `2`; its root is `7`. -/
def pairTree : MerkleTree Bytes32 := .node (.leaf 1) (.leaf 2)

theorem root_pairTree : pairTree.root (nodeHash pairPrimitives) = 7 := by decide +kernel

theorem withdraw_pairTree {l2TxHash : Bytes32} {proof : List Bytes32} {index : ℕ}
    (h : merkleFold pairPrimitives l2TxHash proof index = 7) :
    ∃ res, initiateWithdrawal pairPrimitives ⟨0xaa, 10⟩ l2TxHash 0xaa 20 1 proof index
      (anchored pairPrimitives) = .ok res :=
  ⟨_, initiateWithdrawal_eq_ok.mpr ⟨⟨rfl, rfl, by decide, by decide, by decide, rfl, rfl, h,
    by decide, by decide, by decide⟩, rfl⟩⟩

/-- The leaf `1` with its one sibling is proved to be a leaf. -/
theorem initiateWithdrawal_leaf_pairTree :
    pairTree.SelectsLeaf [(2 : Bytes32)].length 0 ∧ (1 : Bytes32) ∈ pairTree.leaves := by
  have hsel : pairTree.SelectsLeaf [(2 : Bytes32)].length 0 := ⟨1, rfl⟩
  have hfold : merkleFold pairPrimitives 1 [2] 0 = 7 := by decide +kernel
  obtain ⟨res, hok⟩ := withdraw_pairTree hfold
  have hfree : CollisionFree (nodeHash pairPrimitives)
      (hashedPairs pairPrimitives pairTree 1 [2] 0) := by
    have hpairs : hashedPairs pairPrimitives pairTree 1 [2] 0 = [(1, 2), (1, 2)] := rfl
    rw [hpairs]
    simp [CollisionFree]
  exact ⟨hsel, (initiateWithdrawal_leaf root_pairTree.symm hfree hok).1 hsel⟩

/-- After one approved anchor the root itself is withdrawn with an empty proof, and it is
no leaf; no two pairs collide and no leaf is the hash of a pair. -/
theorem initiateWithdrawal_accepts_root :
    ∃ w, Reachable pairPrimitives w ∧
      (w.contract.anchors 1).stateRoot = pairTree.root (nodeHash pairPrimitives) ∧
      CollisionFree (nodeHash pairPrimitives) (hashedPairs pairPrimitives pairTree 7 [] 0) ∧
      (∀ leaf ∈ pairTree.leaves, ∀ p ∈ hashedPairs pairPrimitives pairTree 7 [] 0,
        nodeHash pairPrimitives p.1 p.2 ≠ leaf) ∧
      (∃ res, initiateWithdrawal pairPrimitives ⟨0xaa, 10⟩ 7 0xaa 20 1 [] 0 w.contract
        = .ok res) ∧
      (7 : Bytes32) ∉ pairTree.leaves := by
  refine ⟨_, reachable_run_deployed pairPrimitives (reentrantRun.take 2), ?_⟩
  rw [contract_run_anchor]
  have hpairs : hashedPairs pairPrimitives pairTree 7 [] 0 = [(1, 2)] := rfl
  have hhash : nodeHash pairPrimitives 1 2 = 7 := root_pairTree
  refine ⟨root_pairTree.symm, ?_, ?_, withdraw_pairTree rfl, by decide⟩
  · rw [hpairs]
    simp [CollisionFree]
  · rw [hpairs]
    intro leaf hleaf p hp
    rw [List.mem_singleton.mp hp, hhash]
    rintro rfl
    exact absurd hleaf (by decide)

end BhtBhte.Settlement
