import BhtBhte.Script.HybridSig

/-!
# The post-quantum witness versions

A post-quantum output asks for two signatures.  `evalCheckSigHybrid` hands everything above 3000
bytes to a check of a lone ML-DSA signature, and cuts an ML-DSA part off from 3397 bytes on only: so
the pairs never arrive where they are checked, and a lone signature is enough.  `accepts_pairs_iff`
says at which lengths exactly the pairs are accepted.
-/
namespace BhtBhte.Script

/-- An ECDSA signature with its 33-byte key, then an ML-DSA signature under `vchPubKey`, and
both verify. -/
def IsPair (P : SigPrimitives) (vchSig vchPubKey vchMessageHash : Bytes) : Prop :=
  ∃ ecdsaSig ecdsaPubkey mldsaSig, vchSig = ecdsaSig ++ ecdsaPubkey ++ mldsaSig ∧
    ecdsaPubkey.length = ecdsaPkLen ∧
    verifyECDSA P ecdsaSig ecdsaPubkey vchMessageHash = true ∧
    verifyMLDSA P {} mldsaSig vchPubKey vchMessageHash = true

section Witness
variable {P : SigPrimitives} {vchSig vchPubKey vchMessageHash : Bytes} {sigversion : SigVersion}

/-- Under a post-quantum version a lone ML-DSA signature decides. -/
theorem evalCheckSigHybrid_pq (hv : isPostQuantumWitness sigversion = true) :
    evalCheckSigHybrid P vchSig vchPubKey vchMessageHash sigversion =
      executePostQuantumVerify P vchSig vchPubKey vchMessageHash := by
  rcases Nat.lt_or_ge 3000 vchSig.length with hlong | hshort
  · simp [evalCheckSigHybrid, hv, hlong]
  · -- no ML-DSA part is cut off, and the lone check wants another length
    have hcut : ¬ vchSig.length ≥ combinedLen := by
      simp only [combinedLen, ecdsaSigLen, ecdsaPkLen, MldsaLevel.signatureSize]
      omega
    have hlen : vchSig.length ≠ MldsaLevel.level3.signatureSize := by
      simp only [MldsaLevel.signatureSize]
      omega
    have hnone : (splitSignature vchSig vchPubKey sigversion).mldsaSignature = [] := by
      simp only [splitSignature, if_neg hcut]
      split_ifs <;> rfl
    have hversion : (splitSignature vchSig vchPubKey sigversion).sigVersion = sigversion := by
      simp only [splitSignature, if_neg hcut]
      split_ifs <;> rfl
    have hrejected : ¬ evalCheckSigHybrid P vchSig vchPubKey vchMessageHash sigversion = true := by
      intro haccepted
      simp only [evalCheckSigHybrid, hv, not_lt.mpr hshort, decide_false,
        Bool.and_false, Bool.false_eq_true, if_false] at haccepted
      exact (verifyHybrid_eq_true haccepted).2.2 (by rw [hversion, hv]) hnone
    rw [Bool.not_eq_true] at hrejected
    rw [hrejected, executePostQuantumVerify, if_pos hlen]

theorem executePostQuantumVerify_iff :
    executePostQuantumVerify P vchSig vchPubKey vchMessageHash = true ↔
      vchSig.length = 3293 ∧ vchPubKey.length = 1952 ∧
        P.mldsaVerify .level3 vchMessageHash vchSig vchPubKey = true := by
  rw [executePostQuantumVerify, show MldsaLevel.level3.signatureSize = 3293 from rfl,
    show MldsaLevel.level3.publicKeySize = 1952 from rfl]
  split_ifs with h₁ h₂
  · simp [h₁]
  · simp [h₂]
  · simp [not_not.mp h₁, not_not.mp h₂]

/-- The lengths of a pair. -/
theorem IsPair.length (h : IsPair P vchSig vchPubKey vchMessageHash) :
    3334 ≤ vchSig.length ∧ vchSig.length ≤ 3398 ∧ vchPubKey.length = 1952 ∧
      vchMessageHash.length = 32 := by
  obtain ⟨s, k, m, rfl, hk, hecdsa, hmldsa⟩ := h
  simp only [verifyECDSA, verifyMLDSA, MldsaLevel.signatureSize, MldsaLevel.publicKeySize,
    Bool.or_eq_true, decide_eq_true_eq] at hecdsa hmldsa
  split_ifs at hecdsa hmldsa with h₁ h₂ h₃ h₄ h₅ h₆
  rw [ecdsaPkLen] at hk
  simp only [List.length_append]
  omega

/-- Primitives under which everything verifies. -/
def lenient : SigPrimitives where
  isValid _ := true
  ecdsaVerify _ _ _ := true
  mldsaVerify _ _ _ _ := true

/-- Every string of the right lengths is a pair for somebody. -/
theorem isPair_lenient (hmin : 3334 ≤ vchSig.length) (hmax : vchSig.length ≤ 3398)
    (hkey : vchPubKey.length = 1952) (hhash : vchMessageHash.length = 32) :
    IsPair lenient vchSig vchPubKey vchMessageHash := by
  refine ⟨vchSig.take (vchSig.length - 3326), (vchSig.drop (vchSig.length - 3326)).take 33,
    (vchSig.drop (vchSig.length - 3326)).drop 33, ?_, ?_, ?_, ?_⟩
  · rw [List.append_assoc, List.take_append_drop, List.take_append_drop]
  · rw [List.length_take, List.length_drop, ecdsaPkLen]
    omega
  · have hsig : (vchSig.take (vchSig.length - 3326)).length = vchSig.length - 3326 := by
      rw [List.length_take]
      omega
    have hpk : ((vchSig.drop (vchSig.length - 3326)).take 33).length = 33 := by
      rw [List.length_take, List.length_drop]
      omega
    have hrange : ¬ vchSig.length - 3326 < 8 ∧ ¬ vchSig.length - 3326 > 72 := by omega
    simp [verifyECDSA, hsig, hpk, hhash, hrange, lenient]
  · have hpart : ((vchSig.drop (vchSig.length - 3326)).drop 33).length = 3293 := by
      rw [List.length_drop, List.length_drop]
      omega
    generalize (vchSig.drop (vchSig.length - 3326)).drop 33 = mldsaSig at hpart ⊢
    simp [verifyMLDSA, hpart, hkey, hhash, lenient, MldsaLevel.signatureSize,
      MldsaLevel.publicKeySize]

end Witness

/-- **Exactly the pairs are accepted, whatever the primitives are, only at lengths where nothing
is accepted and nothing is a pair.** -/
theorem accepts_pairs_iff (vchSig vchPubKey vchMessageHash : Bytes) (sigversion : SigVersion)
    (hv : isPostQuantumWitness sigversion = true) :
    (∀ P : SigPrimitives, evalCheckSigHybrid P vchSig vchPubKey vchMessageHash sigversion = true ↔
        IsPair P vchSig vchPubKey vchMessageHash) ↔
      (vchPubKey.length ≠ 1952 ∨ (vchSig.length ≠ 3293 ∧
        (vchSig.length < 3334 ∨ 3398 < vchSig.length ∨ vchMessageHash.length ≠ 32))) := by
  simp only [evalCheckSigHybrid_pq hv, executePostQuantumVerify_iff]
  constructor
  · intro hexact
    by_contra hcond
    simp only [not_or, not_and, not_not, not_lt, ne_eq] at hcond
    obtain ⟨hkey, hcond⟩ := hcond
    by_cases hlone : vchSig.length = 3293
    · have hpair := (hexact lenient).mp ⟨hlone, hkey, rfl⟩
      have := hpair.length
      omega
    · obtain ⟨hmin, hmax, hhash⟩ := hcond hlone
      exact hlone ((hexact lenient).mpr (isPair_lenient hmin hmax hkey hhash)).1
  · intro hcond P
    constructor
    · rintro ⟨hlen, hkey, -⟩
      exfalso
      omega
    · intro hpair
      have := hpair.length
      exfalso
      omega

/-- With a key and a hash of the right sizes, a string that is too long for a pair is refused. -/
theorem accepts_pairs_long :
    (∀ P : SigPrimitives, evalCheckSigHybrid P (List.replicate 3500 0x30) (List.replicate 1952 1)
        (List.replicate 32 2) .witnessV1Pq = true ↔
      IsPair P (List.replicate 3500 0x30) (List.replicate 1952 1) (List.replicate 32 2)) ∧
    ¬ IsPair lenient (List.replicate 3500 0x30) (List.replicate 1952 1) (List.replicate 32 2) := by
  have hlong : 3398 < (List.replicate 3500 (0x30 : UInt8)).length := by
    rw [List.length_replicate]
    decide
  refine ⟨(accepts_pairs_iff _ _ _ .witnessV1Pq rfl).mpr (.inr ⟨?_, .inr (.inl hlong)⟩), fun h => ?_⟩
  · rw [List.length_replicate]
    decide
  · exact absurd h.length.2.1 (not_le.mpr hlong)

/-- A pair with a signature of 71 bytes, the length that the parser cuts at. -/
def bothSigs : Bytes := List.replicate 3397 0x30

/-- It is refused, while its last 3293 bytes alone are accepted. -/
theorem evalCheckSigHybrid_bothSigs :
    (IsPair lenient bothSigs (List.replicate 1952 0) (List.replicate 32 0) ∧
      evalCheckSigHybrid lenient bothSigs (List.replicate 1952 0) (List.replicate 32 0)
        .witnessV1Pq = false) ∧
    (¬ IsPair lenient (bothSigs.drop 104) (List.replicate 1952 0) (List.replicate 32 0) ∧
      evalCheckSigHybrid lenient (bothSigs.drop 104) (List.replicate 1952 0)
        (List.replicate 32 0) .witnessV1Pq = true) := by
  have hlen : bothSigs.length = 3397 := List.length_replicate
  have hrest : (bothSigs.drop 104).length = 3293 := by rw [List.length_drop, hlen]
  have hkey : (List.replicate 1952 (0 : UInt8)).length = 1952 := List.length_replicate
  have hhash : (List.replicate 32 (0 : UInt8)).length = 32 := List.length_replicate
  have hv : isPostQuantumWitness .witnessV1Pq = true := rfl
  rw [← Bool.not_eq_true]
  simp only [evalCheckSigHybrid_pq hv, executePostQuantumVerify_iff]
  refine ⟨⟨isPair_lenient (by omega) (by omega) hkey hhash, fun h => ?_⟩, fun h => ?_,
    hrest, hkey, rfl⟩
  · have := h.1
    omega
  · have := h.length
    omega

end BhtBhte.Script
