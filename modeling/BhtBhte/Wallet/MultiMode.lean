import BhtBhte.Hardware.Apdus
import BhtBhte.Lib.ByteOrder
import BhtBhte.Mldsa.Correct
import BhtBhte.Wallet.Pending

/-!
# The wallet of several modes

`hardware_integration.go`.  A wallet has an ECDSA key, may be given a hardware device and an ML-DSA
key, and signs with them as its mode says.  The calls that use the ECDSA key hold the mutex of the
pending transactions.  SHA-256, Keccak and the secp256k1 functions are parameters; where the
sampling of ML-DSA runs out of fuel, the answer is `none`.  A wallet never gets a device, and signs
transactions only with ML-DSA alone (`signTransaction_returns_iff`); `verify_signed` says which of
its own signatures it accepts.
-/
namespace BhtBhte.Wallet

open BhtBhte.Lib
open BhtBhte.Lib.Locked (reading)
open BhtBhte.Channel (ByteArrayOf Address)
open BhtBhte.Hardware (HardwareWalletImpl HWWPath)
open BhtBhte.Mldsa (Xof PublicKey SecretKey)

variable {σ : Type}

/-! ## The code -/

/-- The functions of other packages that a wallet with a key calls; `keyAddress` is
`PubkeyToAddress` of its public half. -/
structure KeyCrypto extends GoCrypto where
  sha256 : List UInt8 → ByteArrayOf 32
  keyAddress : List UInt8 → Address
  hexToAddress : String → Address

/-- Signatures have 65 bytes, and the signer is recovered from them. -/
structure KeyCrypto.Sound (C : KeyCrypto) : Prop where
  length_sign : ∀ {hash key sig}, C.sign hash key = some sig → sig.length = 65
  recovers : ∀ {hash key sig}, C.sign hash key = some sig →
    C.sigToAddress hash sig = some (C.keyAddress key)

/-- How a wallet signs. -/
inductive WalletMode
  | ecdsa
  | mldsa
  | hybrid
  deriving DecidableEq

/-- A call ends with an error of one of the signers, or panics on an index out of range. -/
inductive SignFault
  | ecdsa
  | mldsa (err : Mldsa.Error)
  | device (message : String)
  | indexRange

/-- An answer, unless the sampling runs out of fuel. -/
abbrev Answer (α : Type) := Option (Except SignFault α)

/-- The wallet of `wallet.go`; its pending transactions are what its mutex guards. -/
structure SoftwareWallet where
  privateKey : List UInt8
  address : Address

namespace SoftwareWallet
variable (C : KeyCrypto) (w : SoftwareWallet)

/-- An ECDSA signature of a hash. -/
def signHash (hash : ByteArrayOf 32) : Except SignFault (List UInt8) :=
  (C.sign hash w.privateKey).elim (.error .ecdsa) .ok

def sign (data : List UInt8) : Guarded (Except SignFault (List UInt8)) :=
  reading .mu (pure (w.signHash C (C.sha256 data)))

/-- The hash of a message behind its prefix. -/
def signedMessageHash (message : List UInt8) : ByteArrayOf 32 :=
  C.keccak256 (encode "\x19Ethereum Signed Message:\n".toList ++
    encode (toString message.length).toList ++ message)

def signMessage (message : List UInt8) : Guarded (Except SignFault (List UInt8)) :=
  reading .mu (pure (w.signHash C (signedMessageHash C message)))

def verify (signature data : List UInt8) : Guarded Bool :=
  reading .mu (pure (
    if signature.length ≠ 65 then false
    else
      match C.sigToAddress (C.sha256 data) signature with
      | none => false
      | some recoveredAddr => decide (recoveredAddr = w.address)))

end SoftwareWallet

/-- `putUint64LE` into an array of `n` bytes. -/
def putUint64LE (n : ℕ) (v : UInt64) : List UInt8 := leBytes 8 v.toNat ++ List.replicate (n - 8) 0

/-- The bytes of a signed transaction. -/
def encodeEIP155Tx (p : Payment) : List UInt8 :=
  List.replicate 31 0 ++ [1] ++ putUint64LE 32 p.gasPrice ++ putUint64LE 32 p.gasLimit ++
    (List.replicate 12 0 ++ p.toAddress.1) ++ putUint64LE 32 p.value ++
    putUint64LE 32 (UInt64.ofNat p.data.length) ++ p.data ++ putUint64LE 32 1 ++ [0x80, 0x80]

/-- The bytes that are hashed for the signature. -/
def encodeEIP155TxForHash (p : Payment) : List UInt8 :=
  [1] ++ putUint64LE 8 p.gasPrice ++ putUint64LE 8 p.gasLimit ++ p.toAddress.1 ++
    putUint64LE 8 p.value ++ p.data

/-- A device with the path of its key. -/
structure HardwareWalletSigner (σ : Type) where
  wallet : HardwareWalletImpl σ
  path : HWWPath
  address : Address

/-- The device is in the state `s`. -/
def newHardwareWalletSigner (C : KeyCrypto) (wallet : HardwareWalletImpl σ) (path : HWWPath)
    (s : σ) : Except String (HardwareWalletSigner σ) :=
  match ((Hardware.getAddress wallet path).run s).result with
  | .error err => .error ("failed to get address from hardware wallet: " ++ err)
  | .ok addressStr => .ok ⟨wallet, path, C.hexToAddress addressStr⟩

namespace HardwareWalletSigner
variable (h : HardwareWalletSigner σ)

def signMessage (message : List UInt8) (s : σ) : Except SignFault (List UInt8) :=
  match ((Hardware.signMessage h.wallet h.path message).run s).result with
  | .error err => .error (.device ("hardware wallet sign message failed: " ++ err))
  | .ok sig => if 64 < sig.length then .ok (sig.set 64 27) else .error .indexRange

def signTransaction (p : Payment) (s : σ) : Except SignFault (List UInt8) :=
  match ((Hardware.signTransaction h.wallet h.path (encodeEIP155Tx p)).run s).result with
  | .error err => .error (.device ("hardware wallet sign transaction failed: " ++ err))
  | .ok sig =>
      if 64 < sig.length then .ok (sig.set 64 (27 + (sig.getD 64 0 &&& 1)))
      else .error .indexRange

end HardwareWalletSigner

/-- A key pair of `mldsa.go` with its parameter set. -/
structure MLSigner where
  pk : PublicKey
  sk : SecretKey
  param : Mldsa.ParameterSet

section
variable [Xof]

/-- `drawn` are the random bytes that stand in for a short seed. -/
def newMLSigner (param : Mldsa.ParameterSet) (seed drawn : List UInt8) :
    Option (Except Mldsa.Error MLSigner) :=
  (Mldsa.keyGenFromSeed param (if 32 ≤ seed.length then seed.take 32 else drawn)).map fun r =>
    r.map fun keys => ⟨keys.1, keys.2, param⟩

namespace MLSigner
variable (signer : MLSigner)

/-- `rnd` are the random bytes of `Sign`. -/
def sign (message rnd : List UInt8) : Option (Except Mldsa.Error (List UInt8)) :=
  Mldsa.sign signer.param signer.sk message rnd

def verify (message signature : List UInt8) : Option (Except Mldsa.Error Unit) :=
  Mldsa.verify signer.param signer.pk message signature

end MLSigner
end

/-- A wallet with its mode and its signers. -/
structure MultiModeWallet (σ : Type) where
  softwareWallet : SoftwareWallet
  hardwareWallet : Option (HardwareWalletSigner σ) := none
  mldsaSigner : Option MLSigner := none
  mode : WalletMode

/-- `key` is the key that is generated. -/
def newMultiModeWallet (C : KeyCrypto) (mode : WalletMode) (key : List UInt8) :
    MultiModeWallet σ where
  softwareWallet := ⟨key, C.keyAddress key⟩
  mode := mode

/-- The second signature stands behind the first, and is left out when there is an error. -/
def withMldsa (first : List UInt8) :
    Option (Except Mldsa.Error (List UInt8)) → Option (List UInt8)
  | none => none
  | some (.ok second) => some (first ++ second)
  | some (.error _) => some first

namespace MultiModeWallet
variable (C : KeyCrypto) (w : MultiModeWallet σ)

/-- The address of the device when there is one, else that of the ECDSA key. -/
def address : Address :=
  match w.hardwareWallet with
  | some h => h.address
  | none => w.softwareWallet.address

/-- Give the wallet a device. -/
def useHardwareWallet (hw : HardwareWalletImpl σ) (path : HWWPath) (s : σ) :
    Except String Unit × MultiModeWallet σ :=
  match newHardwareWalletSigner C hw path s with
  | .error err => (.error err, w)
  | .ok signer => (.ok (), { w with hardwareWallet := some signer })

/-- Give the wallet an ML-DSA key. -/
def useMLDSA [Xof] (seed drawn : List UInt8) :
    Option (Except Mldsa.Error Unit) × MultiModeWallet σ :=
  match newMLSigner .mldsa65 seed drawn with
  | none => (none, w)
  | some (.error err) => (some (.error err), w)
  | some (.ok signer) => (some (.ok ()), { w with mldsaSigner := some signer })

/-- A call on the wallet whose device, if it has one, is in the state `s`. -/
def signMessage [Xof] (message rnd : List UInt8) (s : σ) : Guarded (Answer (List UInt8)) :=
  match w.mode with
  | .mldsa =>
      match w.mldsaSigner with
      | some signer => pure ((signer.sign message rnd).map (Except.mapError .mldsa))
      | none => do
          let sig ← w.softwareWallet.signMessage C message
          pure (some sig)
  | .hybrid => do
      let ecdsa ← w.softwareWallet.signMessage C message
      match ecdsa, w.mldsaSigner with
      | .error err, _ => pure (some (.error err))
      | .ok ecdsaSig, some signer =>
          pure ((withMldsa ecdsaSig (signer.sign message rnd)).map .ok)
      | .ok ecdsaSig, none => pure (some (.ok ecdsaSig))
  | .ecdsa =>
      match w.hardwareWallet with
      | some h => pure (some (h.signMessage message s))
      | none => do
          let sig ← w.softwareWallet.signMessage C message
          pure (some sig)

def sign (data : List UInt8) (s : σ) : Guarded (Except SignFault (List UInt8)) :=
  match w.hardwareWallet with
  | some h => pure (((Hardware.signMessage h.wallet h.path data).run s).result.mapError .device)
  | none => w.softwareWallet.sign C data

/-- What is answered is the hash of the signature, or of the hash of the transaction. -/
def signTransaction [Xof] (p : Payment) (rnd : List UInt8) (s : σ) :
    Guarded (Answer (ByteArrayOf 32)) :=
  let txHash := (C.keccak256 (encodeEIP155TxForHash p)).1
  match w.mode with
  | .mldsa =>
      match w.mldsaSigner with
      | some signer =>
          pure ((signer.sign txHash rnd).map fun sig => (sig.map C.keccak256).mapError .mldsa)
      | none => do
          let sig ← Guarded.signtx C.toGoCrypto p
          pure (some (.ok (C.keccak256 sig.1)))
  | .hybrid => do
      let sig ← Guarded.signtx C.toGoCrypto p
      match w.mldsaSigner with
      | some signer =>
          pure ((withMldsa sig.1 (signer.sign txHash rnd)).map fun sig => .ok (C.keccak256 sig))
      | none => pure (some (.ok (C.keccak256 sig.1)))
  | .ecdsa =>
      match w.hardwareWallet with
      | some h => pure (some ((h.signTransaction p s).map C.keccak256))
      | none => do
          let sig ← Guarded.signtx C.toGoCrypto p
          pure (some (.ok sig))

def verify [Xof] (signature data : List UInt8) : Guarded (Option Bool) :=
  if signature.length = 65 then do
    let valid ← w.softwareWallet.verify C signature data
    pure (some valid)
  else if 65 < signature.length then
    match w.mldsaSigner with
    | none => pure (some false)
    | some signer => do
        let ecdsaValid ← w.softwareWallet.verify C (signature.take 65) data
        if !ecdsaValid then pure (some false)
        else pure ((signer.verify data (signature.drop 65)).map fun err => err.isOk)
  else pure (some false)

end MultiModeWallet

/-! ## The signers that a wallet gets -/

/-- The calls that give a wallet a signer. -/
inductive SignerOp (σ : Type)
  | useHardwareWallet (hw : HardwareWalletImpl σ) (path : HWWPath) (s : σ)
  | useMLDSA (seed drawn : List UInt8)

def SignerOp.exec [Xof] (C : KeyCrypto) : SignerOp σ → MultiModeWallet σ → MultiModeWallet σ
  | .useHardwareWallet hw path s, w => (w.useHardwareWallet C hw path s).2
  | .useMLDSA seed drawn, w => (w.useMLDSA seed drawn).2

/-- **No device gives the address that its signer needs**: what it answers is too short for a
key. -/
theorem newHardwareWalletSigner_eq_error (C : KeyCrypto) (hw : HardwareWalletImpl σ)
    (path : HWWPath) (s : σ) : ∃ err, newHardwareWalletSigner C hw path s = .error err := by
  cases hkey : ((Hardware.getPublicKey hw path).run s).result with
  | ok key => exact absurd hkey (Hardware.getPublicKey_ne_ok hw path s key)
  | error err =>
      have haddress : ((Hardware.getAddress hw path).run s).result = .error err := by
        rw [Hardware.getAddress, Session.run_bind_of_error hkey]
      exact ⟨_, by rw [newHardwareWalletSigner, haddress]⟩

/-- A wallet of this key and mode, without a device; its ML-DSA key, if it has one, is
generated. -/
structure MultiModeWallet.Made [Xof] (C : KeyCrypto) (mode₀ : WalletMode) (key : List UInt8)
    (w : MultiModeWallet σ) : Prop where
  softwareWallet : w.softwareWallet = ⟨key, C.keyAddress key⟩
  hardwareWallet : w.hardwareWallet = none
  mode : w.mode = mode₀
  mldsaSigner : ∀ signer ∈ w.mldsaSigner, signer.param = .mldsa65 ∧
    ∃ xi, Mldsa.keyGenFromSeed .mldsa65 xi = some (.ok (signer.pk, signer.sk))

section
variable [Xof] {C : KeyCrypto} {mode : WalletMode} {key : List UInt8} {w : MultiModeWallet σ}

theorem newMLSigner_eq_ok {param : Mldsa.ParameterSet} {seed drawn : List UInt8}
    {signer : MLSigner} (h : newMLSigner param seed drawn = some (.ok signer)) :
    signer.param = param ∧
      ∃ xi, Mldsa.keyGenFromSeed param xi = some (.ok (signer.pk, signer.sk)) := by
  obtain ⟨made, hmade, hsigner⟩ := Option.map_eq_some_iff.mp h
  cases made with
  | error err => cases hsigner
  | ok keys =>
      cases hsigner
      exact ⟨rfl, _, hmade⟩

namespace MultiModeWallet.Made

theorem exec (hw : w.Made C mode key) (op : SignerOp σ) : (op.exec C w).Made C mode key := by
  cases op with
  | useHardwareWallet hardware path s =>
      obtain ⟨err, herr⟩ := newHardwareWalletSigner_eq_error C hardware path s
      rw [SignerOp.exec, useHardwareWallet, herr]
      exact hw
  | useMLDSA seed drawn =>
      rw [SignerOp.exec, useMLDSA]
      split
      · exact hw
      · exact hw
      · next signer hsigner =>
          refine ⟨hw.softwareWallet, hw.hardwareWallet, hw.mode, fun signer' hmem => ?_⟩
          cases hmem
          exact newMLSigner_eq_ok hsigner

theorem run (C : KeyCrypto) (mode : WalletMode) (key : List UInt8) (ops : List (SignerOp σ)) :
    (runOps (SignerOp.exec C) ops (newMultiModeWallet C mode key)).Made C mode key :=
  run_invariant (P := Made C mode key) (fun op _ hw => hw.exec op) ops
    ⟨rfl, rfl, rfl, fun _ hmem => by cases hmem⟩

theorem address_eq (hw : w.Made C mode key) : w.address = C.keyAddress key := by
  rw [address, hw.hardwareWallet, hw.softwareWallet]

end MultiModeWallet.Made

/-! ## What returns -/

omit [Xof] in
theorem free_reading : Free [] [.rlock Mutex.mu, .runlock Mutex.mu] := by
  simp [Free, LockOp.Conflicts]

namespace MultiModeWallet.Made
variable (hw : w.Made C mode key) (s : σ) (g : GoWallet)
include hw

theorem free_sign (data : List UInt8) : Free [] ((w.sign C data s).trace g) := by
  rw [sign, hw.hardwareWallet]
  exact free_reading

theorem free_signMessage (message rnd : List UInt8) :
    Free [] ((w.signMessage C message rnd s).trace g) := by
  rw [signMessage, hw.hardwareWallet]
  cases w.mode with
  | ecdsa => exact free_reading
  | mldsa =>
      cases w.mldsaSigner with
      | none => exact free_reading
      | some signer => trivial
  | hybrid =>
      simp only [Locked.trace_bind]
      split <;> exact free_reading

omit hw in
theorem free_verify (signature data : List UInt8) :
    Free [] ((w.verify C signature data).trace g) := by
  rw [verify]
  split
  · exact free_reading
  · split
    · cases w.mldsaSigner with
      | none => trivial
      | some signer =>
          simp only [Locked.trace_bind]
          split <;> exact free_reading
    · trivial

/-- A transaction is signed without the mutex, or by a call that waits for itself. -/
theorem free_signTransaction_iff (p : Payment) (rnd : List UInt8) :
    Free [] ((w.signTransaction C p rnd s).trace g) ↔ mode = .mldsa ∧ w.mldsaSigner.isSome := by
  have hstuck := not_free_signtx C.toGoCrypto p g
  rw [trace_signtx] at hstuck
  rw [signTransaction, hw.hardwareWallet, hw.mode]
  cases mode with
  | ecdsa => exact iff_of_false hstuck fun h => WalletMode.noConfusion h.1
  | mldsa =>
      cases w.mldsaSigner with
      | none => exact iff_of_false hstuck fun h => absurd h.2 Bool.false_ne_true
      | some signer => exact iff_of_true trivial ⟨rfl, rfl⟩
  | hybrid =>
      refine iff_of_false ?_ fun h => WalletMode.noConfusion h.1
      simp only [Locked.trace_bind]
      split <;> exact hstuck

end MultiModeWallet.Made
end

/-- **A wallet never gets a device, and a transaction is signed exactly by the wallets that sign
with ML-DSA alone.**  Every other call that signs one waits for the mutex that it holds; the other
calls all return. -/
theorem signTransaction_returns_iff [Xof] (C : KeyCrypto) (mode : WalletMode) (key : List UInt8)
    (ops : List (SignerOp σ)) :
    let w := runOps (SignerOp.exec C) ops (newMultiModeWallet C mode key)
    w.address = C.keyAddress key ∧
      (∀ hw path s, ∃ err, w.useHardwareWallet C hw path s = (.error err, w)) ∧
      ∀ rnd s g, (∀ p, Free [] ((w.signTransaction C p rnd s).trace g) ↔
          mode = .mldsa ∧ w.mldsaSigner.isSome) ∧
        ∀ data, Free [] ((w.sign C data s).trace g) ∧
          Free [] ((w.signMessage C data rnd s).trace g) ∧
          ∀ signature, Free [] ((w.verify C signature data).trace g) := by
  intro w
  have hw : w.Made C mode key := .run C mode key ops
  refine ⟨hw.address_eq, fun hardware path s => ?_, fun rnd s g => ⟨fun p => ?_, fun data => ?_⟩⟩
  · obtain ⟨err, herr⟩ := newHardwareWalletSigner_eq_error C hardware path s
    exact ⟨err, by rw [MultiModeWallet.useHardwareWallet, herr]⟩
  · exact hw.free_signTransaction_iff s g p rnd
  · exact ⟨hw.free_sign s g data, hw.free_signMessage s g data rnd,
      fun signature => MultiModeWallet.Made.free_verify g signature data⟩

/-! ## What is accepted -/

namespace MLSigner
variable [Xof] {signer : MLSigner} {message : List UInt8}

/-- A generated pair accepts what it signs. -/
theorem accepts_own {param : Mldsa.ParameterSet} {xi rnd second : List UInt8}
    (hparam : signer.param = param)
    (hkeys : Mldsa.keyGenFromSeed param xi = some (.ok (signer.pk, signer.sk)))
    (hsign : signer.sign message rnd = some (.ok second)) :
    signer.verify message second = some (.ok ()) := by
  rw [sign, hparam] at hsign
  rw [verify, hparam]
  obtain ⟨a, kappa, ha, t, rfl⟩ := Mldsa.sign_eq_some hsign
  exact t.verifies hkeys ha

/-- A signature that is too short is refused. -/
theorem verify_ne_ok {signature : List UInt8}
    (hlen : signature.length ≠ signer.param.signatureSize) :
    signer.verify message signature ≠ some (.ok ()) := by
  rw [verify, Mldsa.verify, if_pos hlen]
  exact fun h => by cases h

end MLSigner

section
variable [Xof] {C : KeyCrypto} {mode : WalletMode} {key : List UInt8} {w : MultiModeWallet σ}
  {signature data : List UInt8} {g : GoWallet}

omit [Xof] in
theorem SoftwareWallet.result_verify (v : SoftwareWallet) :
    (v.verify C signature data).result g = true ↔
      signature.length = 65 ∧ C.sigToAddress (C.sha256 data) signature = some v.address := by
  show (if signature.length ≠ 65 then false else _) = true ↔ _
  by_cases hlen : signature.length = 65
  · rw [if_neg (not_not.mpr hlen)]
    cases C.sigToAddress (C.sha256 data) signature with
    | none => simp
    | some recoveredAddr => simp [hlen]
  · simp [hlen]

/-- The key of the wallet signed the data, and what follows its signature is one by ML-DSA. -/
structure MultiModeWallet.Accepts (C : KeyCrypto) (w : MultiModeWallet σ)
    (signature data : List UInt8) : Prop where
  le_length : 65 ≤ signature.length
  recovers : C.sigToAddress (C.sha256 data) (signature.take 65) = some w.softwareWallet.address
  rest : signature.length = 65 ∨
    ∃ signer ∈ w.mldsaSigner, signer.verify data (signature.drop 65) = some (.ok ())

/-- A signature of the wallet's key alone. -/
theorem MultiModeWallet.Accepts.of_length (hlen : signature.length = 65)
    (hrecovers : C.sigToAddress (C.sha256 data) signature = some w.softwareWallet.address) :
    w.Accepts C signature data where
  le_length := hlen.ge
  recovers := by rwa [List.take_of_length_le hlen.le]
  rest := .inl hlen

theorem MultiModeWallet.verify_eq_true :
    (w.verify C signature data).result g = some true ↔ w.Accepts C signature data := by
  rw [verify]
  split
  · next hlen =>
      have htake : signature.take 65 = signature := List.take_of_length_le hlen.le
      show some ((w.softwareWallet.verify C signature data).result g) = some true ↔ _
      rw [Option.some_inj, SoftwareWallet.result_verify]
      exact ⟨fun h => .of_length hlen h.2, fun h => ⟨hlen, htake ▸ h.recovers⟩⟩
  · next hne =>
      split
      · next hlt =>
          have htake : (signature.take 65).length = 65 :=
            List.length_take_of_le hlt.le
          cases hsigner : w.mldsaSigner with
          | none =>
              refine iff_of_false (fun h => by cases h) fun h => ?_
              rcases h.rest with hlen | ⟨signer, hmem, -⟩
              · exact hne hlen
              · rw [hsigner] at hmem
                cases hmem
          | some signer =>
              have hsoft : (w.softwareWallet.verify C (signature.take 65) data).result g = true ↔
                  (signature.take 65).length = 65 ∧ C.sigToAddress (C.sha256 data)
                    (signature.take 65) = some w.softwareWallet.address :=
                SoftwareWallet.result_verify w.softwareWallet
              simp only [Locked.result_bind]
              cases hvalid : (w.softwareWallet.verify C (signature.take 65) data).result g with
              | false =>
                  refine iff_of_false (fun h => by cases h) fun h => ?_
                  rw [hvalid] at hsoft
                  exact Bool.false_ne_true (hsoft.mpr ⟨htake, h.recovers⟩)
              | true =>
                  have hrecovers := (hsoft.mp hvalid).2
                  have hanswer : (signer.verify data (signature.drop 65)).map (fun err => err.isOk) =
                      some true ↔ signer.verify data (signature.drop 65) = some (.ok ()) := by
                    rcases signer.verify data (signature.drop 65) with _ | (_ | _) <;>
                      simp [Except.isOk, Except.toBool]
                  refine hanswer.trans ⟨fun h => ⟨hlt.le, hrecovers, .inr ⟨signer, hsigner, h⟩⟩,
                    fun h => ?_⟩
                  obtain ⟨signer', hmem, hverify⟩ := h.rest.resolve_left hne
                  rw [hsigner] at hmem
                  cases hmem
                  exact hverify
      · next hle =>
          refine iff_of_false (fun h => by cases h) fun h => ?_
          have := h.le_length
          omega

/-- **The first signature of an accepted one is accepted alone.** -/
theorem MultiModeWallet.Accepts.take (h : w.Accepts C signature data) :
    w.Accepts C (signature.take 65) data :=
  .of_length (List.length_take_of_le h.le_length) h.recovers

omit [Xof] in
theorem SoftwareWallet.signHash_eq_ok {v : SoftwareWallet} {hash : ByteArrayOf 32}
    {sig : List UInt8} : v.signHash C hash = .ok sig ↔ C.sign hash v.privateKey = some sig := by
  rw [signHash]
  cases C.sign hash v.privateKey <;> simp

namespace MultiModeWallet.Made

/-- In a mode with the key of the wallet, a message is signed by it, and perhaps by ML-DSA. -/
theorem signMessage_eq_ok (hw : w.Made C mode key) (hmode : mode ≠ .mldsa)
    {message rnd sig : List UInt8} {s : σ}
    (h : (w.signMessage C message rnd s).result g = some (.ok sig)) :
    ∃ first, C.sign (SoftwareWallet.signedMessageHash C message) key = some first ∧
      (sig = first ∨ ∃ signer ∈ w.mldsaSigner, ∃ second,
        signer.sign message rnd = some (.ok second) ∧ sig = first ++ second) := by
  have hkey : w.softwareWallet.privateKey = key := by rw [hw.softwareWallet]
  rw [signMessage, hw.hardwareWallet, hw.mode] at h
  cases mode with
  | mldsa => exact absurd rfl hmode
  | ecdsa =>
      have hfirst := SoftwareWallet.signHash_eq_ok.mp (Option.some_inj.mp h)
      rw [hkey] at hfirst
      exact ⟨sig, hfirst, .inl rfl⟩
  | hybrid =>
      simp only [Locked.result_bind] at h
      split at h
      · cases h
      · next first signer hfirst hsigner =>
          have hsign := SoftwareWallet.signHash_eq_ok.mp hfirst
          rw [hkey] at hsign
          obtain ⟨both, hboth, hsig⟩ := Option.map_eq_some_iff.mp h
          cases hsig
          refine ⟨first, hsign, ?_⟩
          cases hsecond : signer.sign message rnd with
          | none =>
              rw [hsecond] at hboth
              cases hboth
          | some answer =>
              rw [hsecond] at hboth
              cases answer with
              | error err =>
                  cases hboth
                  exact .inl rfl
              | ok second =>
                  cases hboth
                  exact .inr ⟨signer, hsigner, second, hsecond, rfl⟩
      · next first hfirst hnone =>
          have hsign := SoftwareWallet.signHash_eq_ok.mp hfirst
          rw [hkey] at hsign
          cases h
          exact ⟨sig, hsign, .inl rfl⟩

/-- The signature by ML-DSA may stand behind one that is accepted. -/
theorem accepts_append (hw : w.Made C mode key) {first second rnd : List UInt8}
    {signer : MLSigner} (hlen : first.length = 65)
    (hrecovers : C.sigToAddress (C.sha256 data) first = some w.softwareWallet.address)
    (hsigner : signer ∈ w.mldsaSigner) (hsecond : signer.sign data rnd = some (.ok second)) :
    w.Accepts C (first ++ second) data := by
  obtain ⟨hparam, xi, hkeys⟩ := hw.mldsaSigner signer hsigner
  refine ⟨?_, ?_, .inr ⟨signer, hsigner, ?_⟩⟩
  · rw [List.length_append, hlen]
    exact Nat.le_add_right 65 second.length
  · rwa [List.take_left' hlen]
  · rw [List.drop_left' hlen]
    exact signer.accepts_own hparam hkeys hsecond

/-- Data that are signed are accepted, with the signature by ML-DSA behind or not. -/
theorem accepts_sign (hw : w.Made C mode key) (hC : C.Sound) {sig : List UInt8} {s : σ}
    (h : (w.sign C data s).result g = .ok sig) :
    w.Accepts C sig data ∧ ∀ signer ∈ w.mldsaSigner, ∀ rnd second,
      signer.sign data rnd = some (.ok second) → w.Accepts C (sig ++ second) data := by
  rw [sign, hw.hardwareWallet] at h
  have hsign := SoftwareWallet.signHash_eq_ok.mp h
  have hlen := hC.length_sign hsign
  have haddress : w.softwareWallet.address = C.keyAddress w.softwareWallet.privateKey := by
    rw [hw.softwareWallet]
  have hrecovers := hC.recovers hsign
  rw [← haddress] at hrecovers
  exact ⟨.of_length hlen hrecovers, fun signer hsigner rnd second hsecond =>
    hw.accepts_append hlen hrecovers hsigner hsecond⟩

/-- A signature of a message is accepted when it is one of the hash of the message as well. -/
theorem accepts_signMessage_iff (hw : w.Made C mode key) (hC : C.Sound) (hmode : mode ≠ .mldsa)
    {message rnd sig : List UInt8} {s : σ}
    (h : (w.signMessage C message rnd s).result g = some (.ok sig)) :
    w.Accepts C sig message ↔
      C.sigToAddress (C.sha256 message) (sig.take 65) = some (C.keyAddress key) := by
  have haddress : w.softwareWallet.address = C.keyAddress key := by rw [hw.softwareWallet]
  rw [← haddress]
  refine ⟨fun haccepts => haccepts.recovers, fun hrecovers => ?_⟩
  obtain ⟨first, hfirst, rfl | ⟨signer, hsigner, second, hsecond, rfl⟩⟩ :=
    hw.signMessage_eq_ok hmode h
  · have hlen := hC.length_sign hfirst
    rw [List.take_of_length_le hlen.le] at hrecovers
    exact .of_length hlen hrecovers
  · have hlen := hC.length_sign hfirst
    rw [List.take_left' hlen] at hrecovers
    exact hw.accepts_append hlen hrecovers hsigner hsecond

/-- What ML-DSA signs alone is accepted for nothing: its rest is too short. -/
theorem not_accepts_mldsa (hw : w.Made C .mldsa key) {signer : MLSigner}
    (hsigner : signer ∈ w.mldsaSigner) {message rnd sig : List UInt8} {s : σ}
    (h : (w.signMessage C message rnd s).result g = some (.ok sig)) (data : List UInt8) :
    ¬ w.Accepts C sig data := by
  rw [signMessage, hw.mode, Option.mem_def.mp hsigner] at h
  obtain ⟨hparam, -⟩ := hw.mldsaSigner signer hsigner
  obtain ⟨answer, hanswer, hsig⟩ := Option.map_eq_some_iff.mp h
  cases answer with
  | error err => cases hsig
  | ok sig' =>
      cases hsig
      have hlen : sig.length = signer.param.signatureSize := Mldsa.length_sign hanswer
      have hsize : signer.param.signatureSize = 3309 := by rw [hparam]; rfl
      intro haccepts
      rcases haccepts.rest with hshort | ⟨signer', hmem, hverify⟩
      · omega
      · obtain rfl : signer' = signer := Option.mem_unique hmem hsigner
        refine MLSigner.verify_ne_ok ?_ hverify
        rw [List.length_drop]
        omega

end MultiModeWallet.Made
end

/-- **Which of its own signatures a wallet accepts.**  Those of data, with or without ML-DSA behind;
of an accepted signature the part before ML-DSA is accepted alone.  One of a message is accepted
where it is also one of its hash, and one by ML-DSA alone is accepted for nothing. -/
theorem verify_signed [Xof] {C : KeyCrypto} (hC : C.Sound) (mode : WalletMode) (key : List UInt8)
    (ops : List (SignerOp σ)) :
    let w := runOps (SignerOp.exec C) ops (newMultiModeWallet C mode key)
    let accepted := fun signature data => ∀ g, (w.verify C signature data).result g = some true
    (∀ data s g sig, (w.sign C data s).result g = .ok sig → accepted sig data ∧
        ∀ signer ∈ w.mldsaSigner, ∀ rnd second, signer.sign data rnd = some (.ok second) →
          accepted (sig ++ second) data) ∧
      (∀ signature data, accepted signature data → accepted (signature.take 65) data) ∧
      ∀ message rnd s g sig, (w.signMessage C message rnd s).result g = some (.ok sig) →
        (mode ≠ .mldsa → (accepted sig message ↔
          C.sigToAddress (C.sha256 message) (sig.take 65) = some (C.keyAddress key))) ∧
        (mode = .mldsa → w.mldsaSigner.isSome → ∀ data, ¬ accepted sig data) := by
  intro w accepted
  have hw : w.Made C mode key := .run C mode key ops
  have haccepted : ∀ signature data, accepted signature data ↔ w.Accepts C signature data :=
    fun signature data => ⟨fun h => MultiModeWallet.verify_eq_true.mp (h ⟨∅⟩),
      fun h g => MultiModeWallet.verify_eq_true.mpr h⟩
  simp only [haccepted]
  refine ⟨fun data s g sig hsign => hw.accepts_sign hC hsign,
    fun signature data haccepts => haccepts.take, fun message rnd s g sig hsign => ⟨fun hmode =>
      hw.accepts_signMessage_iff hC hmode hsign, fun hmode hsome data => ?_⟩⟩
  obtain ⟨signer, hsigner⟩ := Option.isSome_iff_exists.mp hsome
  subst hmode
  exact hw.not_accepts_mldsa hsigner hsign data

/-- A key whose signatures repeat the hash. -/
def repeating : KeyCrypto where
  keccak256 _ := zeroHash
  sign hash _ := some (hash.1 ++ List.replicate 33 0)
  sigToAddress hash sig := if sig.take 32 = hash.1 then some someSender else none
  sha256 _ := zeroHash
  keyAddress _ := someSender
  hexToAddress _ := someSender

theorem sound_repeating : repeating.Sound where
  length_sign := by
    rintro hash key sig h
    cases h
    rw [List.length_append, hash.2, List.length_replicate]
  recovers := by
    rintro hash key sig h
    cases h
    exact if_pos (List.take_left' hash.2)

/-- With an ML-DSA key, both signatures of the data are accepted together. -/
theorem verify_signed_hybrid : letI := Xof.constant
    ∃ signer second,
      let w := runOps (SignerOp.exec repeating) [.useMLDSA (List.replicate 32 0) []]
        (newMultiModeWallet repeating .hybrid [] : MultiModeWallet Unit)
      w.mldsaSigner = some signer ∧ signer.sign [1] (List.replicate 32 0) = some (.ok second) ∧
        ∀ g, (w.verify repeating (zeroHash.1 ++ List.replicate 33 0 ++ second) [1]).result g =
          some true := by
  let _ := Xof.constant
  obtain ⟨pk, sk, hkeys⟩ := Mldsa.keyGenFromSeed_constant Mldsa.constantStreams_constant
    (List.replicate 32 0)
  obtain ⟨second, hsecond⟩ := Mldsa.sign_constant Mldsa.constantStreams_constant hkeys [1]
    (List.replicate 32 0)
  have hmade : newMLSigner .mldsa65 (List.replicate 32 0) [] =
      some (.ok ⟨pk, sk, .mldsa65⟩) := by
    rw [newMLSigner, if_pos (by simp), List.take_of_length_le (by simp), hkeys]
    rfl
  have hw : runOps (SignerOp.exec repeating) [.useMLDSA (List.replicate 32 0) []]
      (newMultiModeWallet repeating .hybrid [] : MultiModeWallet Unit) =
      { newMultiModeWallet repeating .hybrid [] with mldsaSigner := some ⟨pk, sk, .mldsa65⟩ } := by
    rw [runOps, List.foldl_cons, List.foldl_nil, SignerOp.exec, MultiModeWallet.useMLDSA, hmade]
  have hsigned := verify_signed (σ := Unit) sound_repeating .hybrid []
    [.useMLDSA (List.replicate 32 0) []]
  rw [hw] at hsigned
  rw [hw]
  exact ⟨⟨pk, sk, .mldsa65⟩, second, rfl, hsecond,
    (hsigned.1 [1] () ⟨∅⟩ _ rfl).2 _ rfl _ _ hsecond⟩

end BhtBhte.Wallet
