import BhtBhte.Bhc.AuxPow
import BhtBhte.Lib.Words

/-!
# Confirmations

Both verifiers count confirmations by a difference of words, which is huge when the height is above
the tip: a proof may name a height that the node has not counted yet, and an anchor stays when the
latest height goes down.  A block hash that was validated before is accepted without any count.
`confirmations_iff` says when both counts hold, after any history.
-/
namespace BhtBhte.AuxPow

open BhtBhte.Lib
open BhtBhte.Bhc (AnchorRecord AnchorVerifier minConfirmations newAnchorVerifier verifyAnchor)
open BhtBhte.Channel (Hash)

variable {sha256 : List UInt8 → Hash} {v : AuxPoWVerifier} {blockHash : Hash}
  {height currentHeight : UInt64}

/-- Whatever else is in the proof, and whatever else the node answers, a proof with this block hash
and height is accepted only when it has its confirmations. -/
def ProofsConfirmed (sha256 : List UInt8 → Hash) (v : AuxPoWVerifier) (blockHash : Hash)
    (height currentHeight : UInt64) : Prop :=
  ∀ (rpc : Rpc) (auxData : AuxPoWData), auxData.blockHash = blockHash →
    auxData.bhcHeight = height → rpc.getBlockCount = .ok currentHeight →
    (verifyAuxPoW sha256 rpc auxData v).1 = .ok true →
      height.toNat + minBHCConfirmations.toNat ≤ currentHeight.toNat

/-- The anchor is accepted, for whatever root, only when it has its confirmations. -/
def AnchorConfirmed (v : AnchorVerifier) (blockHeight : UInt64) (anchor : AnchorRecord) : Prop :=
  ∀ stateRoot, verifyAnchor stateRoot blockHeight v = .ok true →
    anchor.blockHeight.toNat + minConfirmations.toNat ≤ v.latestHeight.toNat

/-! ## Proofs -/

/-- A node that has counted `currentHeight` blocks, and has a block at every height by the time it
is asked for one. -/
def countedRpc (currentHeight : UInt64) : Rpc where
  getBlockCount := .ok currentHeight
  getBlockHash _ := .ok ""

/-- A proof with one sibling that names no parent and asks for no work. -/
def plainProof (blockHash : Hash) (height : UInt64) (sibling : Hash) : AuxPoWData where
  blockHash := blockHash
  parentHash := zeroHash
  coinbase := List.replicate 20 0
  merkleBranch := [sibling]
  chainIndex := 0
  proofBits := []
  bhcHeight := height

/-- Such a proof passes wherever the heights do. -/
theorem passes_plainProof {rpc : Rpc} {hash : String} (blockHash sibling : Hash)
    (hheight : minBHCConfirmations ≤ height) (hcount : rpc.getBlockCount = .ok currentHeight)
    (hconfirmed : minBHCConfirmations ≤ currentHeight - height)
    (hhash : rpc.getBlockHash height = .ok hash) :
    Passes sha256 rpc (plainProof blockHash height sibling) currentHeight where
  height := hheight
  count := hcount
  confirmed := hconfirmed
  parent := ⟨hash, hhash, .inr rfl⟩
  coinbase := rfl
  branch := rfl

/-- **Proofs have their confirmations exactly when the block hash is new and the height is not
above the tip, or they have them anyway.** -/
theorem proofsConfirmed_iff : ProofsConfirmed sha256 v blockHash height currentHeight ↔
    height.toNat + minBHCConfirmations.toNat ≤ currentHeight.toNat ∨
      ¬ v.Validated blockHash ∧ (height < minBHCConfirmations ∨ height ≤ currentHeight ∨
        currentHeight.toNat + 2 ^ 64 < height.toNat + minBHCConfirmations.toNat) := by
  constructor
  · intro h
    have hplain := h (countedRpc currentHeight) (plainProof blockHash height zeroHash) rfl rfl rfl
    by_cases hvalidated : v.Validated blockHash
    · exact .inl (hplain (congrArg Prod.fst (verifyAuxPoW_validated hvalidated)))
    · refine .inr ⟨hvalidated, ?_⟩
      by_cases hheight : height < minBHCConfirmations
      · exact .inl hheight
      · refine .inr (le_sub_imp_iff.mp fun hconfirmed => ?_)
        have hpasses : Passes sha256 (countedRpc currentHeight) _ currentHeight :=
          passes_plainProof blockHash zeroHash (UInt64.not_lt.mp hheight) rfl hconfirmed rfl
        exact hplain (congrArg Prod.fst (verifyAuxPoW_passes hvalidated hpasses))
  · rintro (h | ⟨hnew, h⟩) rpc auxData rfl rfl hcount haccepted
    · exact h
    · obtain ⟨counted, hpasses⟩ := verifyAuxPoW_eq_true hnew haccepted
      have hsame : counted = currentHeight :=
        Except.ok.inj (hpasses.count.symm.trans hcount)
      rw [hsame] at hpasses
      rcases h with hlow | h
      · exact absurd hlow (UInt64.not_lt.mpr hpasses.height)
      · exact le_sub_imp_iff.mpr h hpasses.confirmed

/-! ## Anchors -/

theorem verifyAnchor_eq_true {v : AnchorVerifier} {n : UInt64} {anchor : AnchorRecord}
    (hanchor : v.anchors.get? n.toNat = some anchor) (stateRoot : Hash) :
    verifyAnchor stateRoot n v = .ok true ↔ anchor.verified = true ∧
      minConfirmations ≤ v.latestHeight - anchor.blockHeight ∧ anchor.stateRoot = stateRoot := by
  rw [verifyAnchor, hanchor]
  dsimp only
  by_cases hverified : anchor.verified = true
  · by_cases hconfirmed : v.latestHeight - anchor.blockHeight < minConfirmations
    · simp [hverified, hconfirmed]
    · simp [hverified, hconfirmed, UInt64.not_lt.mp hconfirmed]
  · simp [hverified]

/-- **An anchor has its confirmations exactly when it is not verified or not above the latest
height.** -/
theorem anchorConfirmed_iff {v : AnchorVerifier} {n : UInt64} {anchor : AnchorRecord}
    (hanchor : v.anchors.get? n.toNat = some anchor) : AnchorConfirmed v n anchor ↔
      anchor.verified = false ∨ anchor.blockHeight ≤ v.latestHeight ∨
        v.latestHeight.toNat + 2 ^ 64 < anchor.blockHeight.toNat + minConfirmations.toNat := by
  constructor
  · intro h
    cases hverified : anchor.verified with
    | false => exact .inl rfl
    | true =>
        refine .inr (le_sub_imp_iff.mp fun hconfirmed => h anchor.stateRoot ?_)
        exact (verifyAnchor_eq_true hanchor _).mpr ⟨hverified, hconfirmed, rfl⟩
  · intro h stateRoot haccepted
    obtain ⟨hverified, hconfirmed, -⟩ := (verifyAnchor_eq_true hanchor _).mp haccepted
    rcases h with hnot | h
    · exact absurd hverified (by simp [hnot])
    · exact le_sub_imp_iff.mpr h hconfirmed

/-! ## Both -/

/-- **After any history, what is accepted has its confirmations exactly where the count does not
wrap and is not skipped.** -/
theorem confirmations_iff (sha256 : List UInt8 → Hash) (proofs : List Op) (anchors : List Bhc.Op) :
    (∀ blockHash height currentHeight,
      ProofsConfirmed sha256 (run sha256 proofs newAuxPoWVerifier) blockHash height currentHeight ↔
        height.toNat + minBHCConfirmations.toNat ≤ currentHeight.toNat ∨
          ¬ (run sha256 proofs newAuxPoWVerifier).Validated blockHash ∧
            (height < minBHCConfirmations ∨ height ≤ currentHeight ∨
              currentHeight.toNat + 2 ^ 64 < height.toNat + minBHCConfirmations.toNat)) ∧
    ∀ (n : UInt64) anchor, (Bhc.run anchors newAnchorVerifier).anchors.get? n.toNat = some anchor →
      (AnchorConfirmed (Bhc.run anchors newAnchorVerifier) n anchor ↔
        anchor.verified = false ∨
          anchor.blockHeight ≤ (Bhc.run anchors newAnchorVerifier).latestHeight ∨
          (Bhc.run anchors newAnchorVerifier).latestHeight.toNat + 2 ^ 64 <
            anchor.blockHeight.toNat + minConfirmations.toNat) :=
  ⟨fun _ _ _ => proofsConfirmed_iff, fun _ _ => anchorConfirmed_iff⟩

/-- A node whose headers name only their height. -/
def bareNode (latestHeight : UInt64) : Bhc.Rpc where
  getBlockCount := .ok latestHeight
  getBlockHeader height := .ok { height }

/-- Two passes over the anchors, the second after the chain has become shorter. -/
def shortened : AnchorVerifier :=
  Bhc.run [.fetchLatestAnchors (bareNode 9) 4, .fetchLatestAnchors (bareNode 5) 4]
    newAnchorVerifier

/-- A block arrives between the two queries, so a proof for it counts as confirmed; and an anchor
at height 9 is accepted although the latest height is 5. -/
theorem not_confirmed_above :
    ¬ ProofsConfirmed (fun _ => zeroHash) newAuxPoWVerifier zeroHash 101 100 ∧
      ∃ anchor, shortened.anchors.get? 9 = some anchor ∧ ¬ AnchorConfirmed shortened 9 anchor := by
  constructor
  · rw [proofsConfirmed_iff]
    decide
  · refine ⟨Bhc.extractAnchorFromHeader { height := 9 }, by decide, ?_⟩
    intro h
    exact absurd (h zeroHash (by decide)) (by decide)

end BhtBhte.AuxPow
