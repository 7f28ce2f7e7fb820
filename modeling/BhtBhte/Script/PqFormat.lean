import BhtBhte.Mldsa.Signing
import BhtBhte.Script.HybridSig

/-!
# ML-DSA-65 signatures on the two layers

The settlement layer signs with the Go package, whose ML-DSA-65 signatures have 3309 bytes.  The
script interpreter takes the post-quantum path for every signature of more than 3000 bytes and asks
there for the 3293 bytes of its own header, before the verifier is called.  So none of the former
passes (`evalCheckSigHybrid_signature`).
-/
namespace BhtBhte.Script
open BhtBhte.Mldsa

/-- The parameter set of a level. -/
def MldsaLevel.parameterSet : MldsaLevel → ParameterSet
  | .level2 => .mldsa44
  | .level3 => .mldsa65
  | .level5 => .mldsa87

/-- A signature of 3309 bytes is refused for its length. -/
theorem evalCheckSigHybrid_of_length (P : SigPrimitives) {vchSig : Bytes}
    (h : vchSig.length = ParameterSet.mldsa65.signatureSize) (vchPubKey vchMessageHash : Bytes) :
    evalCheckSigHybrid P vchSig vchPubKey vchMessageHash .witnessV1Pq = false := by
  have hpath : (isPostQuantumWitness .witnessV1Pq && decide (vchSig.length > 3000)) = true := by
    rw [h]
    rfl
  have hne : vchSig.length ≠ MldsaLevel.level3.signatureSize := by
    rw [h]
    decide
  rw [evalCheckSigHybrid, if_pos hpath, executePostQuantumVerify, if_pos hne]

section Layers
variable [Xof]

/-- Primitives whose `MLDSA_Verify` is the verification of the standard. -/
def fips204Primitives : SigPrimitives where
  isValid _ := true
  ecdsaVerify _ _ _ := true
  mldsaVerify level message signature pubkey :=
    match publicKeyFromBytes level.parameterSet pubkey with
    | .ok pk => (verify level.parameterSet pk message signature).any (·.isOk)
    | .error _ => false

/-- **No signature of the Go package passes the script check**, whatever the verifiers accept: it
is refused for its length. -/
theorem evalCheckSigHybrid_signature (P : SigPrimitives) {sk : SecretKey} {hash rnd sig : Bytes}
    (hsign : sign .mldsa65 sk hash rnd = some (.ok sig)) (vchPubKey : Bytes) :
    evalCheckSigHybrid P sig vchPubKey hash .witnessV1Pq = false :=
  evalCheckSigHybrid_of_length P (length_sign hsign) vchPubKey hash

end Layers

theorem evalCheckSigHybrid_signature_constant : letI := Xof.constant
    ∃ pk sk sig, keyGenFromSeed .mldsa65 (List.replicate 32 0) = some (.ok (pk, sk)) ∧
      sign .mldsa65 sk (List.replicate 32 0) (List.replicate 32 0) = some (.ok sig) ∧
      evalCheckSigHybrid fips204Primitives sig (publicKeyToBytes pk) (List.replicate 32 0)
        .witnessV1Pq = false := by
  let _ := Xof.constant
  obtain ⟨pk, sk, hkey⟩ := keyGenFromSeed_constant constantStreams_constant (List.replicate 32 0)
  obtain ⟨sig, hsign⟩ := sign_constant constantStreams_constant hkey (List.replicate 32 0)
    (List.replicate 32 0)
  exact ⟨pk, sk, sig, hkey, hsign, evalCheckSigHybrid_signature fips204Primitives hsign _⟩

/-- The two layers disagree on the signatures of ML-DSA-65. -/
theorem evalCheckSigHybrid_refuses_signature : letI := Xof.constant
    ¬ ∀ (xi hash rnd sig : Bytes) (pk : PublicKey) (sk : SecretKey),
      keyGenFromSeed .mldsa65 xi = some (.ok (pk, sk)) → hash.length = 32 →
      sign .mldsa65 sk hash rnd = some (.ok sig) →
      evalCheckSigHybrid fips204Primitives sig (publicKeyToBytes pk) hash .witnessV1Pq = true := by
  let _ := Xof.constant
  intro haccepted
  obtain ⟨pk, sk, hkey⟩ := keyGenFromSeed_constant constantStreams_constant (List.replicate 32 0)
  obtain ⟨sig, hsign⟩ := sign_constant constantStreams_constant hkey (List.replicate 32 0)
    (List.replicate 32 0)
  have htrue := haccepted _ _ _ sig pk sk hkey List.length_replicate hsign
  rw [evalCheckSigHybrid_of_length _ (length_sign hsign)] at htrue
  cases htrue

end BhtBhte.Script
