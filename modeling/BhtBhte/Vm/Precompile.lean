import BhtBhte.Mldsa.Equivalence
import BhtBhte.Mldsa.Keys

/-!
# The ML-DSA precompile

`contracts_mldsa.go`: the contract at `0x100` cuts its input into message, public key and signature,
and returns the word one or fails.  Results in `Option` are `none` where the verification gives up a
sampler.  What the signer of the Go package makes is accepted (`run_sign`), and the answers are
those of the C++ verification (`run_eq_verifyCore`).
-/
namespace BhtBhte.Vm
open BhtBhte.Lib BhtBhte.Mldsa

def mldsaVerifyGas : UInt64 := 50000
def mldsaSignatureSize : ℕ := ParameterSet.signatureSize .mldsa65
def mldsaPublicKeySize : ℕ := ParameterSet.publicKeySize .mldsa65
def mldsaMessageSize : ℕ := 32

inductive MLDSAError
  | invalidSignatureLength
  | invalidPublicKeyLength
  | verificationFailed
  | invalidInput
deriving DecidableEq, Repr

def MLDSAError.text : MLDSAError → String
  | invalidSignatureLength => "invalid ML-DSA signature length"
  | invalidPublicKeyLength => "invalid ML-DSA public key length"
  | verificationFailed => "ML-DSA verification failed"
  | invalidInput => "invalid input data length"

section Run
variable [Xof]

/-- Whether a signature verifies under an encoded key. -/
def verifyMLDSA (message pubkey signature : Bytes) : Option Bool :=
  if message.length ≠ mldsaMessageSize then some false
  else if pubkey.length ≠ mldsaPublicKeySize then some false
  else if signature.length ≠ mldsaSignatureSize then some false
  else
    match publicKeyFromBytes .mldsa65 pubkey with
    | .error _ => some false
    | .ok pk => (verify .mldsa65 pk message signature).map fun err => err.isOk

namespace MLDSAPrecompile

/-- The gas is the same for every input. -/
def requiredGas (_input : Bytes) : UInt64 := mldsaVerifyGas

/-- The word one. -/
def result : Bytes := (List.replicate 32 0).set 31 1

def run (input : Bytes) : Option (Except MLDSAError Bytes) :=
  let expectedLen := mldsaMessageSize + mldsaPublicKeySize + mldsaSignatureSize
  if input.length < expectedLen then some (.error .invalidInput)
  else
    let message := slice input 0 mldsaMessageSize
    let pubkey := slice input mldsaMessageSize mldsaPublicKeySize
    let signature := slice input (mldsaMessageSize + mldsaPublicKeySize) mldsaSignatureSize
    if signature.length ≠ mldsaSignatureSize then some (.error .invalidSignatureLength)
    else if pubkey.length ≠ mldsaPublicKeySize then some (.error .invalidPublicKeyLength)
    else (verifyMLDSA message pubkey signature).map fun valid =>
      if !valid then .error .verificationFailed else .ok result

end MLDSAPrecompile

/-- `MLDSARun`: the same check with the three parts apart. -/
def mldsaRun (message pubkey signature : Bytes) : Option (Except MLDSAError Bool) :=
  if message.length ≠ mldsaMessageSize then some (.error .invalidInput)
  else if pubkey.length ≠ mldsaPublicKeySize then some (.error .invalidPublicKeyLength)
  else if signature.length ≠ mldsaSignatureSize then some (.error .invalidSignatureLength)
  else (verifyMLDSA message pubkey signature).map fun valid =>
    if !valid then .error .verificationFailed else .ok true

/-! ## What is accepted -/

/-- Three parts of the right lengths. -/
structure Sized (message pubkey signature : Bytes) : Prop where
  message : message.length = mldsaMessageSize
  pubkey : pubkey.length = mldsaPublicKeySize
  signature : signature.length = mldsaSignatureSize

variable {message pubkey signature : Bytes}

/-- On parts of the right lengths the check is the verification of the Go package. -/
theorem verifyMLDSA_eq (h : Sized message pubkey signature) {pk : PublicKey}
    (hpk : publicKeyFromBytes .mldsa65 pubkey = .ok pk) :
    verifyMLDSA message pubkey signature =
      (verify .mldsa65 pk message signature).map fun err => err.isOk := by
  rw [verifyMLDSA, if_neg (not_not.mpr h.message), if_neg (not_not.mpr h.pubkey),
    if_neg (not_not.mpr h.signature), hpk]

/-- It says yes exactly where the verification returns without an error. -/
theorem verifyMLDSA_eq_true (h : Sized message pubkey signature) {pk : PublicKey}
    (hpk : publicKeyFromBytes .mldsa65 pubkey = .ok pk) :
    verifyMLDSA message pubkey signature = some true ↔
      verify .mldsa65 pk message signature = some (.ok ()) := by
  rw [verifyMLDSA_eq h hpk, Option.map_eq_some_iff]
  constructor
  · rintro ⟨_ | ⟨⟩, hverify, hok⟩
    · cases hok
    · exact hverify
  · exact fun hverify => ⟨_, hverify, rfl⟩

/-- A triple and whatever follows it: the rest of the input is not looked at. -/
theorem run_append (h : Sized message pubkey signature) (rest : Bytes) :
    MLDSAPrecompile.run (message ++ pubkey ++ signature ++ rest) =
      (verifyMLDSA message pubkey signature).map fun valid =>
        if !valid then .error .verificationFailed else .ok MLDSAPrecompile.result := by
  have hlen : ¬ (message ++ pubkey ++ signature ++ rest).length <
      mldsaMessageSize + mldsaPublicKeySize + mldsaSignatureSize := by
    simp only [List.length_append, h.message, h.pubkey, h.signature]
    exact not_lt.mpr (Nat.le_add_right _ _)
  have hmessage : slice (message ++ pubkey ++ signature ++ rest) 0 mldsaMessageSize = message := by
    rw [List.append_assoc, List.append_assoc]
    exact slice_left h.message _
  have hpubkey : slice (message ++ pubkey ++ signature ++ rest) mldsaMessageSize
      mldsaPublicKeySize = pubkey := by
    rw [List.append_assoc]
    exact slice_middle h.message h.pubkey _
  have hsignature : slice (message ++ pubkey ++ signature ++ rest)
      (mldsaMessageSize + mldsaPublicKeySize) mldsaSignatureSize = signature :=
    slice_middle (by rw [List.length_append, h.message, h.pubkey]) h.signature _
  rw [MLDSAPrecompile.run]
  simp only [hmessage, hpubkey, hsignature]
  rw [if_neg hlen, if_neg (not_not.mpr h.signature), if_neg (not_not.mpr h.pubkey)]

omit [Xof] in
/-- An input that is long enough is a triple and a rest. -/
theorem exists_sized {input : Bytes}
    (h : mldsaMessageSize + mldsaPublicKeySize + mldsaSignatureSize ≤ input.length) :
    ∃ message pubkey signature rest, Sized message pubkey signature ∧
      input = message ++ pubkey ++ signature ++ rest := by
  refine ⟨slice input 0 mldsaMessageSize, slice input mldsaMessageSize mldsaPublicKeySize,
    slice input (mldsaMessageSize + mldsaPublicKeySize) mldsaSignatureSize,
    input.drop (mldsaMessageSize + mldsaPublicKeySize + mldsaSignatureSize),
    ⟨length_slice (by omega), length_slice (by omega), length_slice h⟩, ?_⟩
  have h₁ := slice_append_slice input 0 mldsaMessageSize mldsaPublicKeySize
  have h₂ := slice_append_slice input 0 (mldsaMessageSize + mldsaPublicKeySize) mldsaSignatureSize
  rw [Nat.zero_add] at h₁ h₂
  rw [h₁, h₂, slice, List.drop_zero, List.take_append_drop]

/-- The parts apart are accepted where the parts in one input are. -/
theorem mldsaRun_eq_ok (h : Sized message pubkey signature) :
    mldsaRun message pubkey signature = some (.ok true) ↔
      MLDSAPrecompile.run (message ++ pubkey ++ signature) =
        some (.ok MLDSAPrecompile.result) := by
  have hrun := run_append h []
  rw [List.append_nil] at hrun
  rw [hrun, mldsaRun, if_neg (not_not.mpr h.message), if_neg (not_not.mpr h.pubkey),
    if_neg (not_not.mpr h.signature)]
  rcases verifyMLDSA message pubkey signature with _ | _ | _
  · simp
  · simp
  · simp

omit [Xof] in
/-- What reads as a public key has its length. -/
theorem length_of_publicKeyFromBytes {m : ParameterSet} {data : Bytes} {pk : PublicKey}
    (h : publicKeyFromBytes m data = .ok pk) : data.length = m.publicKeySize := by
  by_contra hlen
  rw [publicKeyFromBytes, if_pos hlen] at h
  cases h

/-- A signature of a generated key is accepted. -/
theorem run_sign {xi hash rnd sig : Bytes} {pk : PublicKey} {sk : SecretKey}
    (hkey : keyGenFromSeed .mldsa65 xi = some (.ok (pk, sk)))
    (hsign : sign .mldsa65 sk hash rnd = some (.ok sig)) (hhash : hash.length = 32) :
    MLDSAPrecompile.run (hash ++ publicKeyToBytes pk ++ sig) =
      some (.ok MLDSAPrecompile.result) := by
  obtain ⟨a, kappa, ha, t, rfl⟩ := sign_eq_some hsign
  obtain ⟨hpk, -⟩ := wellFormed_keyGenFromSeed hkey
  have hread := publicKeyFromBytes_publicKeyToBytes hpk
  have hsized : Sized hash (publicKeyToBytes pk) t.bytes :=
    ⟨hhash, length_of_publicKeyFromBytes hread, t.length_bytes⟩
  have hrun := run_append hsized []
  rw [List.append_nil] at hrun
  rw [hrun, (verifyMLDSA_eq_true hsized hread).mpr (t.verifies hkey ha)]
  rfl

/-! ## The other implementation -/

/-- What the precompile returns for a verdict. -/
def MLDSAPrecompile.answer (valid : Bool) : Except MLDSAError Bytes :=
  if !valid then .error .verificationFailed else .ok MLDSAPrecompile.result

/-- On a key as the C++ code encodes it, the precompile is the C++ verification. -/
theorem run_encodePK {pk : Fips204.PublicKey}
    (h : Sized message (Fips204.encodePK ParameterSet.mldsa65.info pk) signature)
    (ht1 : pk.t1.length = ParameterSet.mldsa65.info.k)
    (hread : publicKeyFromBytes .mldsa65 (Fips204.encodePK ParameterSet.mldsa65.info pk) =
      .ok (pk.withParam .mldsa65)) (rest : Bytes) :
    MLDSAPrecompile.run
        (message ++ Fips204.encodePK ParameterSet.mldsa65.info pk ++ signature ++ rest) =
      (Fips204.verifyCore ParameterSet.mldsa65.info pk message [] signature).map
        MLDSAPrecompile.answer := by
  rw [run_append h, verifyMLDSA_eq h hread, Fips204.verifyCore_eq ht1 h.signature, Option.map_map,
    Option.map_map]
  congr 1
  ext err
  cases err <;> rfl

omit [Xof] in
/-- Every public key of the right length is one that the C++ code encodes. -/
theorem exists_encodePK (h : pubkey.length = mldsaPublicKeySize) : ∃ pk : Fips204.PublicKey,
    pk.t1.length = ParameterSet.mldsa65.info.k ∧
      Fips204.encodePK ParameterSet.mldsa65.info pk = pubkey ∧
      publicKeyFromBytes .mldsa65 pubkey = .ok (pk.withParam .mldsa65) := by
  obtain ⟨key, hread, hbytes⟩ := publicKeyToBytes_publicKeyFromBytes (m := .mldsa65) h
  obtain rfl := Except.ok.inj ((publicKeyFromBytes_eq h).symm.trans hread)
  have ht1 : (unpackVec pubkey 32 ParameterSet.mldsa65.info.k (32 * 10) fun buf =>
      simpleBitUnpack buf 10).length = ParameterSet.mldsa65.info.k := by
    rw [unpackVec, List.length_map, List.length_range]
  refine ⟨⟨_, _⟩, ht1, ?_, hread⟩
  rw [Fips204.encodePK_eq ht1 .mldsa65]
  exact hbytes

/-- What the C++ code generates and signs is accepted. -/
theorem run_signCore {xi rnd : Bytes} {pk : Fips204.PublicKey} {sk : Fips204.SecretKey}
    (hkey : Fips204.keyGenInternal ParameterSet.mldsa65.info xi = some (pk, sk))
    (hsign : Fips204.signCore ParameterSet.mldsa65.info sk message [] rnd = some signature)
    (hsigned : signature ≠ []) (hmessage : message.length = 32) :
    MLDSAPrecompile.run (message ++ Fips204.encodePK ParameterSet.mldsa65.info pk ++ signature) =
      some (.ok MLDSAPrecompile.result) := by
  have hgo := Fips204.keyGenFromSeed_eq .mldsa65 xi
  rw [hkey, Option.map_some] at hgo
  rw [Fips204.signCore_eq, Option.map_eq_some_iff] at hsign
  obtain ⟨_ | sig, hsig, rfl⟩ := hsign
  · exact absurd rfl hsigned
  · rw [Fips204.encodePK_eq (Fips204.length_t1 hkey) .mldsa65]
    exact run_sign hgo hsig hmessage

/-- **The precompile of the Go node is the verification of the C++ node.**  An input that is too
short fails.  Any other one is a message, the encoding of a C++ key, a signature and a rest, and is
answered as `verifyCore` decides for this key, whatever the rest.  So what the C++ node signs with
a generated key is accepted. -/
theorem run_eq_verifyCore (input : Bytes) :
    (input.length < mldsaMessageSize + mldsaPublicKeySize + mldsaSignatureSize →
      MLDSAPrecompile.run input = some (.error .invalidInput)) ∧
    (mldsaMessageSize + mldsaPublicKeySize + mldsaSignatureSize ≤ input.length →
      ∃ message pk signature rest,
        Sized message (Fips204.encodePK ParameterSet.mldsa65.info pk) signature ∧
        input = message ++ Fips204.encodePK ParameterSet.mldsa65.info pk ++ signature ++ rest ∧
        ∀ rest', MLDSAPrecompile.run
            (message ++ Fips204.encodePK ParameterSet.mldsa65.info pk ++ signature ++ rest') =
          (Fips204.verifyCore ParameterSet.mldsa65.info pk message [] signature).map
            MLDSAPrecompile.answer) ∧
    ∀ xi pk sk message rnd signature,
      Fips204.keyGenInternal ParameterSet.mldsa65.info xi = some (pk, sk) →
      Fips204.signCore ParameterSet.mldsa65.info sk message [] rnd = some signature →
      signature ≠ [] → message.length = 32 →
      MLDSAPrecompile.run
          (message ++ Fips204.encodePK ParameterSet.mldsa65.info pk ++ signature) =
        some (.ok MLDSAPrecompile.result) := by
  refine ⟨fun hshort => ?_, fun hlong => ?_, fun xi pk sk message rnd signature hkey hsign hsigned
    hmessage => run_signCore hkey hsign hsigned hmessage⟩
  · rw [MLDSAPrecompile.run, if_pos hshort]
  · obtain ⟨message, pubkey, signature, rest, hsized, rfl⟩ := exists_sized hlong
    obtain ⟨pk, ht1, rfl, hread⟩ := exists_encodePK hsized.pubkey
    exact ⟨message, pk, signature, rest, hsized, rfl, run_encodePK hsized ht1 hread⟩

/-- On constant streams the C++ code generates a key and signs with it. -/
theorem exists_signCore (h : ConstantStreams) (xi message rnd : Bytes) : ∃ pk sk signature,
    Fips204.keyGenInternal ParameterSet.mldsa65.info xi = some (pk, sk) ∧
      Fips204.signCore ParameterSet.mldsa65.info sk message [] rnd = some signature ∧
      signature ≠ [] := by
  obtain ⟨pk, sk, hgo⟩ := keyGenFromSeed_constant h xi
  obtain ⟨sig, hsig⟩ := sign_constant h hgo message rnd
  have hlength := length_sign hsig
  rw [Fips204.keyGenFromSeed_eq, Option.map_eq_some_iff] at hgo
  obtain ⟨⟨pk', sk'⟩, hkey, heq⟩ := hgo
  obtain ⟨-, rfl⟩ := Prod.mk.inj (Except.ok.inj heq)
  refine ⟨pk', sk', sig, hkey, ?_, List.ne_nil_of_length_pos ?_⟩
  · rw [Fips204.signCore_eq .mldsa65, hsig]
    rfl
  · rw [hlength]
    decide

end Run

/-- An empty input fails, and what the C++ node signs on constant streams is accepted. -/
theorem run_eq_verifyCore_constant : letI := Xof.constant
    MLDSAPrecompile.run [] = some (.error .invalidInput) ∧
    ∃ pk sk signature,
      Fips204.keyGenInternal ParameterSet.mldsa65.info (List.replicate 32 0) = some (pk, sk) ∧
      Fips204.signCore ParameterSet.mldsa65.info sk (List.replicate 32 7) []
        (List.replicate 32 0) = some signature ∧
      MLDSAPrecompile.run (List.replicate 32 7 ++
          Fips204.encodePK ParameterSet.mldsa65.info pk ++ signature) =
        some (.ok MLDSAPrecompile.result) := by
  let _ := Xof.constant
  obtain ⟨pk, sk, signature, hkey, hsign, hsigned⟩ :=
    exists_signCore constantStreams_constant (List.replicate 32 0) (List.replicate 32 7)
      (List.replicate 32 0)
  exact ⟨(run_eq_verifyCore []).1 (by decide), pk, sk, signature, hkey, hsign,
    (run_eq_verifyCore []).2.2 _ pk sk _ _ signature hkey hsign hsigned List.length_replicate⟩

end BhtBhte.Vm
