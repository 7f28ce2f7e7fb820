import BhtBhte.Bhc.Confirmations

/-!
# What an accepted proof is bound to

`verifyMerkleBranch` folds the coinbase along the branch and compares the result with nothing but
the proof's own bits, and the kept block hashes are looked up before anything else is read.  So as
soon as a chain has a confirmed block, a proof of anything is accepted for it.  `binding_iff` says
for which chains neither happens.
-/
namespace BhtBhte.AuxPow

open BhtBhte.Lib
open BhtBhte.Channel (Hash)

/-- The blocks from `0` to the tip, each with its hash and its Merkle root. -/
structure BHCChain where
  tip : UInt64
  blockHash : UInt64 → String
  merkleRoot : UInt64 → Hash

/-- A node that follows the chain. -/
def BHCChain.rpc (chain : BHCChain) : Rpc where
  getBlockCount := .ok chain.tip
  getBlockHash height :=
    if height ≤ chain.tip then .ok (chain.blockHash height) else .error "block height out of range"

variable {sha256 : List UInt8 → Hash} {chain : BHCChain} {v : AuxPoWVerifier} {auxData : AuxPoWData}

/-- The proof is accepted while the node follows the chain. -/
def Accepts (sha256 : List UInt8 → Hash) (chain : BHCChain) (v : AuxPoWVerifier)
    (auxData : AuxPoWData) : Prop :=
  (verifyAuxPoW sha256 chain.rpc auxData v).1 = .ok true

/-- What is accepted leads from its coinbase to the Merkle root of its block. -/
def Bound (sha256 : List UInt8 → Hash) (chain : BHCChain) (v : AuxPoWVerifier) : Prop :=
  ∀ auxData, Accepts sha256 chain v auxData →
    foldedHash sha256 auxData = chain.merkleRoot auxData.bhcHeight

/-- Once a proof is accepted, one with its block hash and another coinbase or branch is accepted
only where it was before. -/
def CacheSafe (sha256 : List UInt8 → Hash) (chain : BHCChain) (v : AuxPoWVerifier) : Prop :=
  ∀ x y, x.blockHash = y.blockHash → (x.coinbase ≠ y.coinbase ∨ x.merkleBranch ≠ y.merkleBranch) →
    Accepts sha256 chain v x → Accepts sha256 chain (verifyAuxPoW sha256 chain.rpc x v).2 y →
      Accepts sha256 chain v y

/-- The lowest tip under which a block has its confirmations. -/
def firstConfirmedTip : UInt64 := minBHCConfirmations + minBHCConfirmations

/-! ## What is accepted -/

/-- What passes is the proof of a block with six blocks below it and six above. -/
theorem Passes.tip_le {currentHeight : UInt64}
    (hpasses : Passes sha256 chain.rpc auxData currentHeight) : firstConfirmedTip ≤ chain.tip := by
  have hsix : minBHCConfirmations.toNat = 6 := rfl
  have htwelve : firstConfirmedTip.toNat = 12 := rfl
  have htip : chain.tip = currentHeight := Except.ok.inj hpasses.count
  obtain ⟨hash, hhash, -⟩ := hpasses.parent
  have hle : auxData.bhcHeight ≤ chain.tip := by
    by_contra hgt
    have hnone : chain.rpc.getBlockHash auxData.bhcHeight = .error _ := if_neg hgt
    rw [hnone] at hhash
    cases hhash
  have hconfirmed := le_sub_imp_iff.mpr (.inl hle) (htip ▸ hpasses.confirmed)
  have hheight := UInt64.le_iff_toNat_le.mp hpasses.height
  rw [UInt64.le_iff_toNat_le]
  omega

theorem accepts_of_validated (h : v.Validated auxData.blockHash) : Accepts sha256 chain v auxData :=
  congrArg Prod.fst (verifyAuxPoW_validated h)

/-- Below that tip only what was validated before is accepted. -/
theorem Accepts.validated (haccepted : Accepts sha256 chain v auxData)
    (htip : chain.tip < firstConfirmedTip) : v.Validated auxData.blockHash := by
  by_contra hnew
  obtain ⟨currentHeight, hpasses⟩ := verifyAuxPoW_eq_true hnew haccepted
  exact UInt64.not_le.mpr htip hpasses.tip_le

/-- From that tip on the sixth block has its confirmations. -/
theorem passes_sixth (htip : firstConfirmedTip ≤ chain.tip) (blockHash sibling : Hash) :
    Passes sha256 chain.rpc (plainProof blockHash minBHCConfirmations sibling) chain.tip := by
  have hsix : minBHCConfirmations.toNat = 6 := rfl
  have htwelve : firstConfirmedTip.toNat = 12 := rfl
  have hle := UInt64.le_iff_toNat_le.mp htip
  refine passes_plainProof blockHash sibling UInt64.le_rfl rfl (le_sub_iff.mpr (.inl (by omega)))
    (if_pos ?_)
  rw [UInt64.le_iff_toNat_le]
  omega

theorem accepts_sixth {blockHash : Hash}
    (h : firstConfirmedTip ≤ chain.tip ∨ v.Validated blockHash) (sibling : Hash) :
    Accepts sha256 chain v (plainProof blockHash minBHCConfirmations sibling) := by
  by_cases hvalidated : v.Validated blockHash
  · exact accepts_of_validated hvalidated
  · have htip := h.resolve_right hvalidated
    exact congrArg Prod.fst (verifyAuxPoW_passes hvalidated (passes_sixth htip blockHash sibling))

/-! ## The Merkle root -/

/-- Another sibling. -/
def oneHash : Hash := Bhc.hashOf "01"

/-- The string that is hashed last for a proof with one sibling. -/
def lastInput (sha256 : List UInt8 → Hash) (sibling : Hash) : List UInt8 :=
  (coinbaseHash sha256 (plainProof zeroHash minBHCConfirmations sibling)).1 ++ sibling.1

/-- The last strings of two proofs with one coinbase do not collide. -/
def CollisionFree (sha256 : List UInt8 → Hash) : Prop :=
  sha256 (lastInput sha256 zeroHash) = sha256 (lastInput sha256 oneHash) →
    lastInput sha256 zeroHash = lastInput sha256 oneHash

theorem foldedHash_ne (hfree : CollisionFree sha256) (blockHash : Hash) :
    foldedHash sha256 (plainProof blockHash minBHCConfirmations zeroHash) ≠
      foldedHash sha256 (plainProof blockHash minBHCConfirmations oneHash) := by
  intro hsame
  have hinputs := hfree hsame
  have hsiblings : zeroHash.1 = oneHash.1 := List.append_cancel_left hinputs
  exact absurd hsiblings (by decide)

/-- **Proofs are bound to the chain exactly while none can be accepted.** -/
theorem bound_iff (hfree : CollisionFree sha256) : Bound sha256 chain v ↔
    chain.tip < firstConfirmedTip ∧ ∀ blockHash, ¬ v.Validated blockHash := by
  constructor
  · intro hbound
    have hnone (blockHash : Hash) :
        ¬ (firstConfirmedTip ≤ chain.tip ∨ v.Validated blockHash) := by
      intro h
      have hzero := hbound _ (accepts_sixth h zeroHash)
      have hone := hbound _ (accepts_sixth h oneHash)
      exact foldedHash_ne hfree blockHash (hzero.trans hone.symm)
    exact ⟨UInt64.not_le.mp fun htip => hnone zeroHash (.inl htip),
      fun blockHash hvalidated => hnone blockHash (.inr hvalidated)⟩
  · rintro ⟨htip, hnone⟩ auxData haccepted
    exact absurd (haccepted.validated htip) (hnone _)

/-! ## The kept block hashes -/

/-- **An accepted block hash makes nothing else acceptable exactly while none can be new.** -/
theorem cacheSafe_iff : CacheSafe sha256 chain v ↔
    chain.tip < firstConfirmedTip ∨ ∀ blockHash, v.Validated blockHash := by
  constructor
  · intro hsafe
    by_contra hneither
    obtain ⟨htip, hnew⟩ := not_or.mp hneither
    obtain ⟨blockHash, hnew⟩ := not_forall.mp hnew
    have htip := UInt64.not_lt.mp htip
    have hpasses : Passes sha256 chain.rpc _ chain.tip := passes_sixth htip blockHash zeroHash
    let x := plainProof blockHash minBHCConfirmations zeroHash
    have hkept : (verifyAuxPoW sha256 chain.rpc x v).2 = v.keep x :=
      congrArg Prod.snd (verifyAuxPoW_passes hnew hpasses)
    have hempty : Accepts sha256 chain v { x with coinbase := [] } := by
      refine hsafe x _ rfl (.inl (List.cons_ne_nil _ _)) (accepts_sixth (.inl htip) zeroHash) ?_
      rw [hkept]
      exact accepts_of_validated (validated_keep v x)
    obtain ⟨currentHeight, hpasses⟩ := verifyAuxPoW_eq_true hnew hempty
    cases hpasses.coinbase
  · intro h x y hsame _ hx hy
    have hvalidated : v.Validated x.blockHash := by
      rcases h with htip | hall
      · exact hx.validated htip
      · exact hall _
    exact accepts_of_validated (hsame ▸ hvalidated)

/-! ## Both -/

/-- **Whatever the chain and the history, proofs are bound exactly while none can be accepted.** -/
theorem binding_iff (sha256 : List UInt8 → Hash) (chain : BHCChain) (v : AuxPoWVerifier)
    (hfree : CollisionFree sha256) :
    (Bound sha256 chain v ↔
        chain.tip < firstConfirmedTip ∧ ∀ blockHash, ¬ v.Validated blockHash) ∧
      (CacheSafe sha256 chain v ↔
        chain.tip < firstConfirmedTip ∨ ∀ blockHash, v.Validated blockHash) :=
  ⟨bound_iff hfree, cacheSafe_iff⟩

/-- A digest that keeps the last bytes. -/
def lastBytes (b : List UInt8) : Hash := ⟨Node.rightAlign 32 b, Node.length_rightAlign 32 b⟩

def twelveBlocks : BHCChain where
  tip := 12
  blockHash _ := ""
  merkleRoot _ := zeroHash

theorem collisionFree_lastBytes : CollisionFree lastBytes := by
  intro hsame
  exact absurd hsame (by decide)

theorem binding_iff_twelve :
    (Bound lastBytes twelveBlocks newAuxPoWVerifier ↔
        twelveBlocks.tip < firstConfirmedTip ∧
          ∀ blockHash, ¬ newAuxPoWVerifier.Validated blockHash) ∧
      (CacheSafe lastBytes twelveBlocks newAuxPoWVerifier ↔
        twelveBlocks.tip < firstConfirmedTip ∨ ∀ blockHash, newAuxPoWVerifier.Validated blockHash) :=
  binding_iff lastBytes twelveBlocks newAuxPoWVerifier collisionFree_lastBytes

/-- With twelve blocks above the first, a proof that leads to no root is accepted, and then one
without a coinbase. -/
theorem not_bound_twelve : ¬ Bound lastBytes twelveBlocks newAuxPoWVerifier ∧
    ¬ CacheSafe lastBytes twelveBlocks newAuxPoWVerifier := by
  rw [bound_iff collisionFree_lastBytes, cacheSafe_iff]
  refine ⟨fun h => absurd h.1 (by decide), ?_⟩
  rintro (htip | hall)
  · exact absurd htip (by decide)
  · exact absurd (hall zeroHash) (by decide)

end BhtBhte.AuxPow
