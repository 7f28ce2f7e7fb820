import Mathlib.Data.List.Infix
import Mathlib.Tactic.Common

/-!
# Hybrid ECDSA / ML-DSA signature checks of the L1 script interpreter

`evalCheckSigHybrid` cuts one byte string into up to two signatures and hands
them to a validator.  The byte string and the key come from the spender and from
the output being spent; which of the two supplies the key of a check decides what
the check is worth.  `CPubKey` and the ML-DSA verifier live outside this file and
are parameters.
-/
namespace BhtBhte.Script

/-- A `std::vector<uint8_t>`. -/
abbrev Bytes := List UInt8

/-- The witness versions of the interpreter. -/
inductive SigVersion where
  | base
  | witnessV0
  | witnessV1
  | witnessV1Bhc
  | witnessV1Pq
  deriving DecidableEq, Repr

/-- The three ML-DSA parameter sets. -/
inductive MldsaLevel where
  | level2
  | level3
  | level5
  deriving DecidableEq, Repr

/-- `MLDSA_Signature::SIZE_LEVEL*`. -/
def MldsaLevel.signatureSize : MldsaLevel → ℕ
  | .level2 => 2420
  | .level3 => 3293
  | .level5 => 4595

/-- `MLDSA_PublicKey::SIZE_LEVEL*`. -/
def MldsaLevel.publicKeySize : MldsaLevel → ℕ
  | .level2 => 1312
  | .level3 => 1952
  | .level5 => 2592

/-- The verification primitives the interpreter calls: validity and ECDSA
verification of a `CPubKey` built from raw bytes, and `MLDSA_Verify`. -/
structure SigPrimitives where
  /-- `CPubKey(pubkey).IsValid()`. -/
  isValid : Bytes → Bool
  /-- `CPubKey(pubkey).Verify(hash, signature)`, arguments in that order. -/
  ecdsaVerify : Bytes → Bytes → Bytes → Bool
  /-- `MLDSA_Verify(message, signature, pubkey)` at a level. -/
  mldsaVerify : MldsaLevel → Bytes → Bytes → Bytes → Bool

/-- What `evalCheckSigHybrid` passes to the validator. -/
structure HybridSignatureData where
  ecdsaSignature : Bytes := []
  mldsaSignature : Bytes := []
  ecdsaPubkey : Bytes := []
  mldsaPubkey : Bytes := []
  usePostQuantum : Bool := false
  sigVersion : SigVersion := .base
  deriving DecidableEq, Repr

/-- The configuration of a validator; the defaults are the constructor's. -/
structure HybridSignatureValidator where
  requireQuantumSafe : Bool := false
  mldsaLevel : MldsaLevel := .level3
  deriving DecidableEq, Repr

/-- The versions whose outputs ask for a post-quantum signature. -/
def isPostQuantumWitness (version : SigVersion) : Bool :=
  version = .witnessV1Bhc || version = .witnessV1Pq

/-- The witness version named by the first byte of a witness program. -/
def detectSignatureVersion : Bytes → SigVersion
  | [] => .base
  | version :: _ =>
    if version = 0x00 then .witnessV0
    else if version = 0x01 then .witnessV1
    else if version = 0x42 then .witnessV1Bhc
    else if version = 0x43 then .witnessV1Pq
    else .base

section Validator
variable (P : SigPrimitives)

/-- The ECDSA part: lengths, a valid key and the signature itself. -/
def verifyECDSA (signature pubkey messageHash : Bytes) : Bool :=
  if signature.length < 8 || signature.length > 72 then false
  else if pubkey.length ≠ 33 && pubkey.length ≠ 65 then false
  else if messageHash.length ≠ 32 then false
  else if !P.isValid pubkey then false
  else P.ecdsaVerify pubkey messageHash signature

/-- The ML-DSA part: lengths and the signature itself. -/
def verifyMLDSA (v : HybridSignatureValidator) (signature pubkey messageHash : Bytes) : Bool :=
  if signature.length ≠ v.mldsaLevel.signatureSize then false
  else if pubkey.length ≠ v.mldsaLevel.publicKeySize then false
  else if messageHash.length ≠ 32 then false
  else P.mldsaVerify v.mldsaLevel messageHash signature pubkey

/-- What is accepted of the two parts. -/
def verifyHybrid (v : HybridSignatureValidator) (sigData : HybridSignatureData)
    (messageHash : Bytes) : Bool :=
  let ecdsaValid := !sigData.ecdsaSignature.isEmpty && !sigData.ecdsaPubkey.isEmpty &&
    verifyECDSA P sigData.ecdsaSignature sigData.ecdsaPubkey messageHash
  let mldsaValid := !sigData.mldsaSignature.isEmpty && !sigData.mldsaPubkey.isEmpty &&
    verifyMLDSA P v sigData.mldsaSignature sigData.mldsaPubkey messageHash
  if v.requireQuantumSafe then mldsaValid
  else if isPostQuantumWitness sigData.sigVersion then ecdsaValid && mldsaValid
  else ecdsaValid

/-- The check of a lone ML-DSA signature. -/
def executePostQuantumVerify (vchSig vchPubKey vchMessageHash : Bytes) : Bool :=
  if vchSig.length ≠ MldsaLevel.level3.signatureSize then false
  else if vchPubKey.length ≠ MldsaLevel.level3.publicKeySize then false
  else P.mldsaVerify .level3 vchMessageHash vchSig vchPubKey

end Validator

/-- Lengths of the ECDSA prefix of a combined signature. -/
def ecdsaSigLen : ℕ := 71
def ecdsaPkLen : ℕ := 33

/-- The key that the combined layout carries inside the signature. -/
def embeddedKey (vchSig : Bytes) : Bytes :=
  (vchSig.drop ecdsaSigLen).take ecdsaPkLen

/-- The shortest byte string that is cut as a combined signature. -/
def combinedLen : ℕ := ecdsaSigLen + ecdsaPkLen + MldsaLevel.level3.signatureSize

/-- The cut of `vchSig` into signatures and keys. -/
def splitSignature (vchSig vchPubKey : Bytes) (sigversion : SigVersion) :
    HybridSignatureData :=
  if vchSig.length ≤ 72 then
    { sigVersion := sigversion, ecdsaSignature := vchSig, ecdsaPubkey := vchPubKey }
  else if vchSig.length ≥ combinedLen then
    { sigVersion := sigversion
      ecdsaSignature := vchSig.take ecdsaSigLen
      ecdsaPubkey := embeddedKey vchSig
      mldsaSignature := (vchSig.drop (ecdsaSigLen + ecdsaPkLen)).take
        MldsaLevel.level3.signatureSize
      mldsaPubkey := vchPubKey
      usePostQuantum := true }
  else { sigVersion := sigversion }

/-- The check of a script: a long signature under a post-quantum version is taken for a lone one,
any other is split. -/
def evalCheckSigHybrid (P : SigPrimitives) (vchSig vchPubKey vchMessageHash : Bytes)
    (sigversion : SigVersion) : Bool :=
  if isPostQuantumWitness sigversion && vchSig.length > 3000 then
    executePostQuantumVerify P vchSig vchPubKey vchMessageHash
  else
    verifyHybrid P {} (splitSignature vchSig vchPubKey sigversion) vchMessageHash

/-- Some signature inside `vchSig` verifies the hash under `vchPubKey` itself. -/
def VerifiesUnderKey (P : SigPrimitives) (vchSig vchPubKey vchMessageHash : Bytes) : Prop :=
  ∃ sig, sig <:+: vchSig ∧
    (P.ecdsaVerify vchPubKey vchMessageHash sig = true ∨
      ∃ level, P.mldsaVerify level vchMessageHash sig vchPubKey = true)

section Validator
variable {P : SigPrimitives}

/-- An accepting ECDSA check names the key and the hash length it was made with. -/
theorem verifyECDSA_eq_true {signature pubkey messageHash : Bytes}
    (h : verifyECDSA P signature pubkey messageHash = true) :
    messageHash.length = 32 ∧ P.ecdsaVerify pubkey messageHash signature = true := by
  unfold verifyECDSA at h
  split_ifs at h with h₁ h₂ h₃ h₄
  exact ⟨not_not.mp h₃, h⟩

theorem executePostQuantumVerify_eq_true {vchSig vchPubKey vchMessageHash : Bytes}
    (h : executePostQuantumVerify P vchSig vchPubKey vchMessageHash = true) :
    P.mldsaVerify .level3 vchMessageHash vchSig vchPubKey = true := by
  unfold executePostQuantumVerify at h
  split_ifs at h
  exact h

/-- A default validator accepts only with a good ECDSA signature, and under a
post-quantum version only with both parts present. -/
theorem verifyHybrid_eq_true {sigData : HybridSignatureData} {messageHash : Bytes}
    (h : verifyHybrid P {} sigData messageHash = true) :
    verifyECDSA P sigData.ecdsaSignature sigData.ecdsaPubkey messageHash = true ∧
      sigData.ecdsaSignature ≠ [] ∧
      (isPostQuantumWitness sigData.sigVersion = true → sigData.mldsaSignature ≠ []) := by
  simp only [verifyHybrid, Bool.false_eq_true, if_false] at h
  split_ifs at h with hpq
  · simp only [Bool.and_eq_true, Bool.not_eq_true', List.isEmpty_eq_false_iff] at h
    exact ⟨h.1.2, h.1.1.1, fun _ => h.2.1.1⟩
  · simp only [Bool.and_eq_true, Bool.not_eq_true', List.isEmpty_eq_false_iff] at h
    exact ⟨h.2, h.1.1, fun hpq' => absurd hpq' hpq⟩

end Validator

/-- The embedded key of a combined signature has the length of a compressed key. -/
theorem length_embeddedKey {vchSig : Bytes} (h : combinedLen ≤ vchSig.length) :
    (embeddedKey vchSig).length = 33 := by
  simp only [combinedLen, ecdsaSigLen, ecdsaPkLen, MldsaLevel.signatureSize] at h
  simp only [embeddedKey, ecdsaSigLen, ecdsaPkLen, List.length_take, List.length_drop]
  omega

/-- Under a legacy version a combined signature is decided by the ECDSA part
alone, checked against the key it carries. -/
theorem evalCheckSigHybrid_combined (P : SigPrimitives) {vchSig vchPubKey vchMessageHash : Bytes}
    {sigversion : SigVersion} (hv : isPostQuantumWitness sigversion = false)
    (hlen : combinedLen ≤ vchSig.length) :
    evalCheckSigHybrid P vchSig vchPubKey vchMessageHash sigversion =
      verifyECDSA P (vchSig.take ecdsaSigLen) (embeddedKey vchSig) vchMessageHash := by
  have hkey := length_embeddedKey hlen
  simp only [combinedLen, ecdsaSigLen, ecdsaPkLen, MldsaLevel.signatureSize] at hlen
  have hlong : ¬ vchSig.length ≤ 72 := by omega
  have hcut : vchSig.length ≥ combinedLen := by
    simp only [combinedLen, ecdsaSigLen, ecdsaPkLen, MldsaLevel.signatureSize]; omega
  have hsig : (vchSig.take ecdsaSigLen).isEmpty = false := by
    rw [List.isEmpty_eq_false_iff, ← List.length_pos_iff, List.length_take, ecdsaSigLen]; omega
  have hpk : (embeddedKey vchSig).isEmpty = false := by
    rw [List.isEmpty_eq_false_iff, ← List.length_pos_iff, hkey]; omega
  simp [evalCheckSigHybrid, splitSignature, verifyHybrid, hv, hlong, hcut, hsig, hpk]

/-- Primitives that accept exactly the signatures made under one key. -/
def onlyKey (key : Bytes) : SigPrimitives where
  isValid _ := true
  ecdsaVerify pubkey _ _ := pubkey == key
  mldsaVerify _ _ _ _ := false

/-- A spender who carries a key of their own passes a legacy check. -/
theorem evalCheckSigHybrid_onlyKey {vchSig vchPubKey vchMessageHash : Bytes}
    {sigversion : SigVersion} (hv : isPostQuantumWitness sigversion = false)
    (hlen : combinedLen ≤ vchSig.length) (hhash : vchMessageHash.length = 32) :
    evalCheckSigHybrid (onlyKey (embeddedKey vchSig)) vchSig vchPubKey vchMessageHash
      sigversion = true := by
  have hkey := length_embeddedKey hlen
  rw [evalCheckSigHybrid_combined _ hv hlen]
  have hsig : (vchSig.take ecdsaSigLen).length = 71 := by
    simp only [combinedLen, ecdsaSigLen, ecdsaPkLen, MldsaLevel.signatureSize] at hlen
    rw [List.length_take, ecdsaSigLen]; omega
  simp [verifyECDSA, onlyKey, hkey, hhash, hsig]

theorem not_verifiesUnderKey_onlyKey {key vchSig vchPubKey vchMessageHash : Bytes}
    (hne : vchPubKey ≠ key) :
    ¬ VerifiesUnderKey (onlyKey key) vchSig vchPubKey vchMessageHash := by
  rintro ⟨sig, -, h | ⟨level, h⟩⟩
  · simp only [onlyKey, beq_iff_eq] at h
    exact hne h
  · simp [onlyKey] at h

/-- Whatever the primitives are, an accepted `vchSig` holds a signature that
verifies under `vchPubKey`, exactly when the combined layout is not reached under a
legacy version with a foreign embedded key and a full-length hash. -/
theorem evalCheckSigHybrid_sound_iff (vchSig vchPubKey vchMessageHash : Bytes)
    (sigversion : SigVersion) :
    (∀ P : SigPrimitives, evalCheckSigHybrid P vchSig vchPubKey vchMessageHash sigversion = true →
        VerifiesUnderKey P vchSig vchPubKey vchMessageHash) ↔
      (isPostQuantumWitness sigversion = true ∨ vchSig.length < 3397 ∨
        vchMessageHash.length ≠ 32 ∨ (vchSig.drop 71).take 33 = vchPubKey) := by
  constructor
  · intro hsound
    by_contra hcond
    simp only [not_or, Bool.not_eq_true, not_lt, not_not] at hcond
    obtain ⟨hv, hlen, hhash, hkey⟩ := hcond
    exact not_verifiesUnderKey_onlyKey (Ne.symm hkey)
      (hsound _ (evalCheckSigHybrid_onlyKey hv hlen hhash))
  · intro hcond P hacc
    cases hpq : isPostQuantumWitness sigversion with
    | true =>
        simp only [evalCheckSigHybrid, hpq, Bool.true_and, decide_eq_true_eq] at hacc
        split_ifs at hacc with hlong
        · exact ⟨vchSig, List.infix_rfl, .inr ⟨_, executePostQuantumVerify_eq_true hacc⟩⟩
        · -- below 3001 bytes no ML-DSA part is cut off, so nothing is accepted
          exfalso
          have hshort : ¬ vchSig.length ≥ combinedLen := by
            simp only [combinedLen, ecdsaSigLen, ecdsaPkLen, MldsaLevel.signatureSize]; omega
          have hmldsa := (verifyHybrid_eq_true hacc).2.2
          simp only [splitSignature, if_neg hshort] at hmldsa
          split_ifs at hmldsa <;> exact hmldsa hpq rfl
    | false =>
        by_cases hlen : combinedLen ≤ vchSig.length
        · rw [evalCheckSigHybrid_combined P hpq hlen] at hacc
          obtain ⟨hhash, hver⟩ := verifyECDSA_eq_true hacc
          have hkey : embeddedKey vchSig = vchPubKey := by
            rcases hcond with h | h | h | h
            · rw [hpq] at h; exact absurd h (by decide)
            · simp only [combinedLen, ecdsaSigLen, ecdsaPkLen, MldsaLevel.signatureSize] at hlen
              omega
            · exact absurd hhash h
            · exact h
          rw [hkey] at hver
          exact ⟨_, (List.take_prefix _ _).isInfix, .inl hver⟩
        · simp only [evalCheckSigHybrid, hpq, Bool.false_and, Bool.false_eq_true, if_false]
            at hacc
          obtain ⟨hver, hne, -⟩ := verifyHybrid_eq_true hacc
          simp only [splitSignature, ge_iff_le, if_neg hlen] at hver hne
          split_ifs at hver hne with hshort
          · exact ⟨vchSig, List.infix_rfl, .inl (verifyECDSA_eq_true hver).2⟩
          · exact absurd rfl hne

/-- A combined signature with the spender's own key, at the smallest length. -/
def foreignKeySig : Bytes :=
  List.replicate ecdsaSigLen 0x30 ++ (List.replicate ecdsaPkLen 0x02 ++
    List.replicate MldsaLevel.level3.signatureSize 0)

theorem embeddedKey_foreignKeySig : embeddedKey foreignKeySig = List.replicate 33 0x02 := by
  rw [embeddedKey, foreignKeySig, List.drop_left' List.length_replicate,
    List.take_left' List.length_replicate]
  rfl

/-- The spender's key alone opens an output locked to another key. -/
theorem evalCheckSigHybrid_foreignKey_accepted :
    evalCheckSigHybrid (onlyKey (List.replicate 33 0x02)) foreignKeySig
        (List.replicate 33 0x03) (List.replicate 32 0) .base = true ∧
      ¬ VerifiesUnderKey (onlyKey (List.replicate 33 0x02)) foreignKeySig
        (List.replicate 33 0x03) (List.replicate 32 0) := by
  have hlen : combinedLen ≤ foreignKeySig.length := by
    simp only [foreignKeySig, List.length_append, List.length_replicate]
    decide
  rw [← embeddedKey_foreignKeySig]
  refine ⟨evalCheckSigHybrid_onlyKey rfl hlen List.length_replicate, ?_⟩
  apply not_verifiesUnderKey_onlyKey
  rw [embeddedKey_foreignKeySig]
  decide

end BhtBhte.Script
