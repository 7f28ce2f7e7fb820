import BhtBhte.Lib.Lists
import BhtBhte.Script.HybridSig

/-!
# The signers of the wallet

`mldsa_signer.cpp`.  A hybrid signature is an ML-DSA signature followed by 64 bytes of ECDSA; its
verification looks at a part when the bytes for it are there, and accepts when no check fails.
Without liboqs the ML-DSA part is a hash followed by the public key, and only the key is compared.
OpenSSL and liboqs are parameters.  `soundAt_iff` says which accepted signatures are worth
something.
-/
namespace BhtBhte.Wallet

open BhtBhte.Lib
open BhtBhte.Script (MldsaLevel)

abbrev Bytes := List UInt8

/-- `OQS_SIG_sign` and `OQS_SIG_verify` of an algorithm. -/
structure OqsSig where
  /-- The message and the private key. -/
  sign : Bytes → Bytes → Option Bytes
  /-- The message, the signature and the public key. -/
  verify : Bytes → Bytes → Bytes → Bool

/-- `SHA256`, `ECDSA_do_sign` and `ECDSA_do_verify`. -/
structure OpenSsl where
  sha256 : Bytes → Bytes
  /-- The two numbers of a signature of a hash. -/
  ecdsaSign : Bytes → Option (Bytes × Bytes)
  /-- The hash, the two numbers and the public key. -/
  ecdsaVerify : Bytes → Bytes → Bytes → Bytes → Bool

/-- `GetPrivateKeySizeForLevel`; the other two sizes are those of the script interpreter. -/
def privateKeySize : MldsaLevel → ℕ
  | .level2 => 2560
  | .level3 => 4032
  | .level5 => 4896

/-- `std::vector::resize`. -/
def resize (n : ℕ) (v : Bytes) : Bytes := v.take n ++ List.replicate (n - v.length) 0

/-! ## One signer -/

/-- A `CMLDSASigner`; without liboqs there is no `mSig`. -/
structure CMLDSASigner where
  mLevel : MldsaLevel := .level3
  mHasKey : Bool := false
  mPublicKey : Bytes := []
  mPrivateKey : Bytes := []
  mSig : Option OqsSig := none

namespace CMLDSASigner
section
variable (S : OpenSsl)

/-- The fallback of `GenerateKeyPair`; `random` are the bytes from OpenSSL, if it gives any. -/
def generateKeyPair (m : CMLDSASigner) (random : Option Bytes) : Bool × CMLDSASigner :=
  let publicKey := resize m.mLevel.publicKeySize m.mPublicKey
  match random with
  | none =>
    (false, { m with mPublicKey := publicKey
                     mPrivateKey := resize (privateKeySize m.mLevel) m.mPrivateKey })
  | some privateKey =>
    (true, { m with mPublicKey := (S.sha256 privateKey).take 32 ++ publicKey.drop 32
                    mPrivateKey := privateKey
                    mHasKey := true })

/-- Set both keys, if their lengths are right. -/
def setKeyPair (m : CMLDSASigner) (privateKey publicKey : Bytes) : Bool × CMLDSASigner :=
  if privateKey.length ≠ privateKeySize m.mLevel ∨ publicKey.length ≠ m.mLevel.publicKeySize then
    (false, m)
  else (true, { m with mPrivateKey := privateKey, mPublicKey := publicKey, mHasKey := true })

/-- An empty signature stands for none. -/
def sign (m : CMLDSASigner) (message : Bytes) : Bytes :=
  if !m.mHasKey then []
  else
    match m.mSig with
    | some oqs => (oqs.sign message m.mPrivateKey).getD []
    | none =>
      let hash := S.sha256 message
      let finalHash := S.sha256 (hash ++ m.mPrivateKey)
      finalHash ++ m.mPublicKey

/-- The fallback computes the hash of the message and does not use it. -/
def verify (m : CMLDSASigner) (message signature : Bytes) : Bool :=
  if signature.isEmpty || m.mPublicKey.isEmpty then false
  else
    match m.mSig with
    | some oqs => oqs.verify message signature m.mPublicKey
    | none => if signature.length < 32 then false else signature.drop 32 == m.mPublicKey

end
end CMLDSASigner

/-! ## The hybrid signer -/

/-- The two signers of a hybrid signature. -/
structure CMLDSAHybridSigner where
  mMldsaSigner : CMLDSASigner := {}
  mHasEcdsaKey : Bool := false
  mHasMldsaKey : Bool := false
  mEcdsaPrivate : Bytes := []
  mEcdsaPublic : Bytes := []
  mMldsaPrivate : Bytes := []
  mMldsaPublic : Bytes := []

namespace CMLDSAHybridSigner
variable (S : OpenSsl)

def setKeyPair (h : CMLDSAHybridSigner)
    (ecdsaPrivate ecdsaPublic mldsaPrivate mldsaPublic : Bytes) : Bool × CMLDSAHybridSigner :=
  let r := h.mMldsaSigner.setKeyPair mldsaPrivate mldsaPublic
  let hasEcdsaKey := !ecdsaPrivate.isEmpty && !ecdsaPublic.isEmpty
  (hasEcdsaKey && r.1,
    { mMldsaSigner := r.2, mHasEcdsaKey := hasEcdsaKey, mHasMldsaKey := r.1
      mEcdsaPrivate := ecdsaPrivate, mEcdsaPublic := ecdsaPublic
      mMldsaPrivate := mldsaPrivate, mMldsaPublic := mldsaPublic })

def sign (h : CMLDSAHybridSigner) (message : Bytes) (hybrid : Bool) : Bytes :=
  let signature := if hybrid && h.mHasMldsaKey then h.mMldsaSigner.sign S message else []
  if h.mHasEcdsaKey then
    match S.ecdsaSign (S.sha256 message) with
    | none => signature
    | some (r, s) => signature ++ r ++ s
  else signature

/-- Where the ECDSA part starts when there is an ML-DSA part. -/
def mldsaSigSize (h : CMLDSAHybridSigner) : ℕ := h.mMldsaSigner.mLevel.signatureSize

/-- The ECDSA check at an offset. -/
def verifyEcdsaAt (h : CMLDSAHybridSigner) (message signature : Bytes) (off : ℕ) : Bool :=
  S.ecdsaVerify (S.sha256 message) (slice signature off 32) (slice signature (off + 32) 32)
    (h.mEcdsaPublic.take 33)

/-- A part that the signature is too short for is not checked. -/
def verify (h : CMLDSAHybridSigner) (message signature : Bytes) (hybrid : Bool) : Bool :=
  if hybrid && h.mHasMldsaKey && decide (h.mldsaSigSize ≤ signature.length) &&
      !h.mMldsaSigner.verify message (signature.take h.mldsaSigSize) then false
  else if h.mHasEcdsaKey then
    let ecdsaSigOffset := if hybrid && h.mHasMldsaKey then h.mldsaSigSize else 0
    if signature.length ≥ ecdsaSigOffset + 64 then
      h.verifyEcdsaAt S message signature ecdsaSigOffset
    else true
  else true

end CMLDSAHybridSigner

/-! ## What is accepted -/

/-- The two parts are there and verify. -/
def BothVerified (S : OpenSsl) (h : CMLDSAHybridSigner) (message signature : Bytes) : Prop :=
  h.mldsaSigSize + 64 ≤ signature.length ∧
    h.mMldsaSigner.verify message (signature.take h.mldsaSigSize) = true ∧
    h.verifyEcdsaAt S message signature h.mldsaSigSize = true

/-- What is accepted as a hybrid signature has both parts, and what the fallback accepts for a
message it accepts for no other. -/
def SoundAt (S : OpenSsl) (h : CMLDSAHybridSigner) (message signature : Bytes) : Prop :=
  (h.verify S message signature true = true → BothVerified S h message signature) ∧
    (h.mMldsaSigner.mSig = none → h.mMldsaSigner.verify message signature = true →
      ∀ message', message' ≠ message → h.mMldsaSigner.verify message' signature = false)

section Accepted
variable {S : OpenSsl} {h : CMLDSAHybridSigner} {m : CMLDSASigner} {message signature : Bytes}

/-- The fallback looks at the end of a signature only. -/
theorem verify_fallback (hsig : m.mSig = none) (message signature : Bytes) :
    m.verify message signature = true ↔
      m.mPublicKey ≠ [] ∧ 32 ≤ signature.length ∧ signature.drop 32 = m.mPublicKey := by
  unfold CMLDSASigner.verify
  rw [hsig]
  cases signature with
  | nil => simp
  | cons b signature =>
      cases hkey : m.mPublicKey with
      | nil => simp
      | cons k key =>
          simp only [List.isEmpty_cons, Bool.or_self, Bool.false_eq_true, if_false]
          split_ifs with hshort
          · simp only [false_iff, not_and, ne_eq]
            omega
          · rw [beq_iff_eq]
            exact ⟨fun h => ⟨List.cons_ne_nil k key, not_lt.mp hshort, h⟩, fun h => h.2.2⟩

/-- A signer with both keys, by the length of the signature. -/
theorem hybrid_verify_eq (hecdsa : h.mHasEcdsaKey = true) (hmldsa : h.mHasMldsaKey = true) :
    h.verify S message signature true =
      if signature.length < h.mldsaSigSize then true
      else if signature.length < h.mldsaSigSize + 64 then
        h.mMldsaSigner.verify message (signature.take h.mldsaSigSize)
      else h.mMldsaSigner.verify message (signature.take h.mldsaSigSize) &&
        h.verifyEcdsaAt S message signature h.mldsaSigSize := by
  simp only [CMLDSAHybridSigner.verify, hecdsa, hmldsa, Bool.and_self, Bool.true_and, if_true]
  rcases Nat.lt_or_ge signature.length h.mldsaSigSize with hshort | hlong
  · have hmissing : ¬ h.mldsaSigSize ≤ signature.length := by omega
    have hnone : ¬ h.mldsaSigSize + 64 ≤ signature.length := by omega
    simp [hshort, hmissing, hnone]
  · rcases Nat.lt_or_ge signature.length (h.mldsaSigSize + 64) with hcut | hfull
    · have hnone : ¬ h.mldsaSigSize + 64 ≤ signature.length := by omega
      cases h.mMldsaSigner.verify message (signature.take h.mldsaSigSize) <;>
        simp [not_lt.mpr hlong, hcut, hlong, hnone]
    · cases h.mMldsaSigner.verify message (signature.take h.mldsaSigSize) <;>
        simp [not_lt.mpr hlong, hlong, not_lt.mpr hfull, hfull]

/-- What a hybrid signature must be like for its parts to be checked. -/
theorem bothVerified_iff (hecdsa : h.mHasEcdsaKey = true) (hmldsa : h.mHasMldsaKey = true) :
    (h.verify S message signature true = true → BothVerified S h message signature) ↔
      h.mldsaSigSize + 64 ≤ signature.length ∨ h.mldsaSigSize ≤ signature.length ∧
        h.mMldsaSigner.verify message (signature.take h.mldsaSigSize) = false := by
  rw [hybrid_verify_eq hecdsa hmldsa, BothVerified]
  split_ifs with hshort hcut
  · simp only [true_imp_iff]
    omega
  · cases h.mMldsaSigner.verify message (signature.take h.mldsaSigSize) <;> simp <;> omega
  · have hfull := not_lt.mp hcut
    simp [hfull]

theorem fallback_bound_iff (hsig : m.mSig = none) (message signature : Bytes) :
    (m.verify message signature = true →
        ∀ message', message' ≠ message → m.verify message' signature = false) ↔
      m.mPublicKey = [] ∨ signature.length < 32 ∨ signature.drop 32 ≠ m.mPublicKey := by
  constructor
  · intro hbound
    by_contra hcond
    simp only [not_or, not_lt, not_not] at hcond
    have haccepted := fun message => (verify_fallback hsig message signature).mpr hcond
    have hother := hbound (haccepted message) (0 :: message) (by simp)
    rw [haccepted] at hother
    cases hother
  · intro hcond haccepted
    obtain ⟨hkey, hlong, hend⟩ := (verify_fallback hsig message signature).mp haccepted
    exfalso
    rcases hcond with hempty | hshort | hne
    · exact hkey hempty
    · omega
    · exact hne hend

end Accepted

/-- **A signature is worth something when it is long enough for both parts, or its ML-DSA part is
there and refused, and when its end is not just the key of the fallback.** -/
theorem soundAt_iff (S : OpenSsl) (h : CMLDSAHybridSigner) (message signature : Bytes)
    (hecdsa : h.mHasEcdsaKey = true) (hmldsa : h.mHasMldsaKey = true) :
    SoundAt S h message signature ↔
      (h.mldsaSigSize + 64 ≤ signature.length ∨ h.mldsaSigSize ≤ signature.length ∧
        h.mMldsaSigner.verify message (signature.take h.mldsaSigSize) = false) ∧
      (h.mMldsaSigner.mSig = none → h.mMldsaSigner.mPublicKey = [] ∨ signature.length < 32 ∨
        signature.drop 32 ≠ h.mMldsaSigner.mPublicKey) := by
  rw [SoundAt, bothVerified_iff hecdsa hmldsa]
  exact and_congr_right fun _ => imp_congr_right fun hsig => fallback_bound_iff hsig _ _

/-- OpenSSL that refuses every signature. -/
def refusing : OpenSsl where
  sha256 data := data
  ecdsaSign _ := none
  ecdsaVerify _ _ _ _ := false

/-- A signer with both keys, without liboqs. -/
def bothKeys : CMLDSAHybridSigner where
  mMldsaSigner := { mHasKey := true, mPublicKey := List.replicate 1952 1
                    mPrivateKey := List.replicate 4032 2 }
  mHasEcdsaKey := true
  mHasMldsaKey := true
  mEcdsaPrivate := List.replicate 32 3
  mEcdsaPublic := List.replicate 33 4

/-- A signature with room for both parts is worth something, one that is too short for the first
part is not. -/
theorem soundAt_bothKeys : SoundAt refusing bothKeys [1, 2, 3] (List.replicate 3357 5) ∧
    ¬ SoundAt refusing bothKeys [1, 2, 3] (List.replicate 3000 5) := by
  have hsize : bothKeys.mldsaSigSize = 3293 := rfl
  have hkey : bothKeys.mMldsaSigner.mPublicKey.length = 1952 := List.length_replicate
  constructor
  · refine (soundAt_iff refusing bothKeys _ _ rfl rfl).mpr ⟨.inl ?_, fun _ => .inr (.inr fun heq => ?_)⟩
    · rw [hsize, List.length_replicate]
    · have hlength := congrArg List.length heq
      rw [List.length_drop, List.length_replicate, hkey] at hlength
      omega
  · rw [soundAt_iff refusing bothKeys _ _ rfl rfl, hsize, List.length_replicate]
    omega

/-- The empty signature is accepted, and the fallback takes one signature for two messages. -/
theorem verify_accepts_empty :
    (bothKeys.verify refusing [] [] true = true ∧ ¬ BothVerified refusing bothKeys [] []) ∧
      ∀ message, bothKeys.mMldsaSigner.verify message
        (List.replicate 32 0 ++ List.replicate 1952 1) = true := by
  refine ⟨⟨?_, fun hboth => absurd hboth.1 (by decide)⟩, fun message => ?_⟩
  · rw [hybrid_verify_eq rfl rfl, if_pos (by decide)]
  · refine (verify_fallback rfl _ _).mpr ⟨List.cons_ne_nil _ _, ?_, ?_⟩
    · rw [List.length_append, List.length_replicate]
      omega
    · exact List.drop_left' List.length_replicate

end BhtBhte.Wallet
