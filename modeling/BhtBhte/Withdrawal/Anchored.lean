import BhtBhte.Withdrawal.Runs

/-!
# What a submission proves

`submitWithdrawal` checks a signature under a key that the request brings along and that the state
root it names is anchored.  It never looks at the Merkle proof, so nothing ties the withdrawal to
that root.  So accepted withdrawals are proven only where none is accepted
(`proven_iff_unreachable`).
-/
namespace BhtBhte.Withdrawal

/-- The Merkle proof leads from the commitment to the withdrawal to the root of a confirmed
anchor with the block height of the request. -/
def Proven (P : Primitives) (v : CWithdrawalValidator) (request : WithdrawalRequest) : Prop :=
  request.merkleProof.leafHash = calculateWithdrawalId P request ∧
    ∃ anchored ∈ v.mAnchoredRoots, anchored.confirmed = true ∧
      anchored.blockHeight = request.stateRoot.blockHeight ∧
      verifyMerkleProof P request.merkleProof anchored.stateRoot = true

section Anchored
variable {P : Primitives} {v : CWithdrawalValidator} {request : WithdrawalRequest}

theorem accepts_iff : (v.submitWithdrawal P request).1 = true ↔
    v.verifyWithdrawalSignature P request = true ∧
      v.verifyStateRootAnchor request.stateRoot = true := by
  unfold CWithdrawalValidator.submitWithdrawal
  cases v.verifyWithdrawalSignature P request <;>
    cases v.verifyStateRootAnchor request.stateRoot <;> simp

theorem anchored_self {root : L2StateRoot} (hmem : root ∈ v.mAnchoredRoots)
    (hconfirmed : root.confirmed = true) : v.verifyStateRootAnchor root = true :=
  List.any_eq_true.mpr ⟨root, hmem, by simp [hconfirmed]⟩

/-- The signature covers neither the state root nor the Merkle proof. -/
theorem accepts_any_proof (h : v.verifyWithdrawalSignature P request = true) {root : L2StateRoot}
    (hmem : root ∈ v.mAnchoredRoots) (hconfirmed : root.confirmed = true) (proof : MerkleProof) :
    (v.submitWithdrawal P { request with stateRoot := root, merkleProof := proof }).1 = true :=
  accepts_iff.mpr ⟨h, anchored_self hmem hconfirmed⟩

theorem not_proven_of_empty (hempty : request.merkleProof.siblings = []) :
    ¬ Proven P v request := by
  rintro ⟨-, anchored, -, -, -, hproof⟩
  simp [verifyMerkleProof, hempty] at hproof

end Anchored

/-- **Accepted withdrawals are proven only where no withdrawal is accepted.** -/
theorem proven_iff_unreachable (P : Primitives) (v : CWithdrawalValidator) :
    (∀ request, (v.submitWithdrawal P request).1 = true → Proven P v request) ↔
      (∀ root ∈ v.mAnchoredRoots, root.confirmed = false) ∨
        ∀ request, v.verifyWithdrawalSignature P request = false := by
  constructor
  · intro hproven
    by_contra hcond
    simp only [not_or, not_forall, Bool.not_eq_false] at hcond
    obtain ⟨⟨root, hmem, hconfirmed⟩, request, hsignature⟩ := hcond
    have haccepted := accepts_any_proof hsignature hmem hconfirmed ⟨[], 0, []⟩
    exact not_proven_of_empty rfl (hproven _ haccepted)
  · rintro hcond request haccepted
    obtain ⟨hsignature, hanchor⟩ := accepts_iff.mp haccepted
    exfalso
    rcases hcond with hroots | hsignatures
    · obtain ⟨root, hmem, hroot⟩ := List.any_eq_true.mp hanchor
      simp [hroots root hmem] at hroot
    · rw [hsignatures request] at hsignature
      cases hsignature

/-- The epoch of `someRequest`. -/
def someEpoch : CWithdrawalValidator := { mAnchoredRoots := [(someRequest 0).stateRoot] }

/-- A request without any Merkle proof is accepted. -/
theorem accepts_not_proven : (someEpoch.submitWithdrawal trusting (someRequest 0)).1 = true ∧
    ¬ Proven trusting someEpoch (someRequest 0) :=
  ⟨by decide, not_proven_of_empty rfl⟩

end BhtBhte.Withdrawal
