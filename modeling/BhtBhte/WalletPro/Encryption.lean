import BhtBhte.Lib.Runs
import BhtBhte.WalletPro.CWallet

/-!
# The life cycle of an encrypted wallet

`EncryptWallet` computes a ciphertext and throws it away; it sets a flag.  `Unlock` decrypts the
ciphertext that the wallet has, which for a new wallet is empty and cannot be decrypted at all, and
which otherwise can be decrypted with every passphrase there is.  What reads the keys does not look
at the lock.  So the life cycle is never what it should be (`not_lifeCycle`).
-/
namespace BhtBhte.WalletPro

open BhtBhte.Lib

/-! ## The cipher -/

section Cipher
variable {key passphrase : Bytes}

/-- A passphrase, repeated. -/
def keyStream (passphrase : Bytes) (i : ℕ) : UInt8 := passphrase.getD (i % passphrase.length) 0

theorem encrypt_eq (hkey : key.length = 32) (hpass : passphrase ≠ []) :
    encrypt key passphrase = some (key.mapIdx fun i b => b ^^^ keyStream passphrase i) := by
  rw [encrypt, if_neg (not_not.mpr hkey), if_neg hpass]
  rfl

theorem encrypt_eq_none_iff :
    encrypt key passphrase = none ↔ key.length ≠ 32 ∨ passphrase = [] := by
  rw [encrypt]
  split_ifs with hkey hpass <;> simp_all

/-- Decryption is encryption. -/
theorem encrypt_encrypt {crypted : Bytes} (h : encrypt key passphrase = some crypted) :
    encrypt crypted passphrase = some key := by
  have hsome : ¬ encrypt key passphrase = none := by rw [h]; exact Option.some_ne_none _
  rw [encrypt_eq_none_iff, not_or, not_not] at hsome
  rw [encrypt_eq hsome.1 hsome.2] at h
  obtain rfl := Option.some.inj h
  rw [encrypt_eq (by rw [List.length_mapIdx]; exact hsome.1) hsome.2, List.mapIdx_mapIdx]
  congr 1
  refine List.ext_getElem (by simp) fun i _ _ => ?_
  rw [List.getElem_mapIdx, Function.comp_apply, UInt8.xor_assoc, UInt8.xor_self, UInt8.xor_zero]

/-- **A ciphertext gives the key to the passphrases with the same key stream.** -/
theorem decrypt_iff {crypted q : Bytes} (h : encrypt key passphrase = some crypted) (hq : q ≠ []) :
    encrypt crypted q = some key ↔ ∀ i < 32, keyStream passphrase i = keyStream q i := by
  have hsome : ¬ encrypt key passphrase = none := by rw [h]; exact Option.some_ne_none _
  rw [encrypt_eq_none_iff, not_or, not_not] at hsome
  obtain ⟨hkey, hpass⟩ := hsome
  rw [encrypt_eq hkey hpass] at h
  obtain rfl := Option.some.inj h
  rw [encrypt_eq (by rw [List.length_mapIdx]; exact hkey) hq, Option.some_inj]
  constructor
  · intro heq i hi
    have hbyte := List.getElem_of_eq heq (show i < _ by simpa [hkey] using hi)
    simp only [List.getElem_mapIdx, UInt8.xor_assoc] at hbyte
    have hkeyed := congrArg (key[i] ^^^ ·) hbyte
    simp only [← UInt8.xor_assoc, UInt8.xor_self, UInt8.zero_xor] at hkeyed
    exact UInt8.xor_eq_zero_iff.mp hkeyed
  · intro hstream
    refine List.ext_getElem (by simp) fun i _ hi => ?_
    rw [List.getElem_mapIdx, List.getElem_mapIdx, hstream i (hkey ▸ hi), UInt8.xor_assoc,
      UInt8.xor_self, UInt8.xor_zero]

end Cipher

/-! ## A locked wallet -/

namespace CWallet

/-- The wallet after `EncryptWallet` and `Lock`. -/
def locked (w : CWallet) (passphrase : Bytes) : CWallet := (w.encryptWallet passphrase).2.lock

theorem locked_eq {w : CWallet} {passphrase : Bytes} (h : (w.encryptWallet passphrase).1 = true) :
    passphrase ≠ [] ∧ w.locked passphrase = { w with mEncrypted := true, mLocked := true } := by
  rw [locked, encryptWallet] at *
  split_ifs at h ⊢ with hencrypted hkey hnone
  rw [encrypt_eq_none_iff, not_or] at hnone
  exact ⟨hnone.2, rfl⟩

/-- Unlocking an encrypted wallet. -/
theorem unlock_of_encrypted {w : CWallet} (h : w.mEncrypted = true) (passphrase : Bytes) :
    w.unlock passphrase = (w.mMasterKey.decrypt passphrase).elim (false, w) fun masterKey =>
      (true, { w with mMasterKey := w.mMasterKey.setPrivKey masterKey, mLocked := false }) := by
  rw [unlock, h]
  rfl

/-- Any passphrase that is not empty unlocks a wallet with a ciphertext. -/
theorem unlock_iff {w : CWallet} (h : w.mEncrypted = true) (passphrase : Bytes) :
    (w.unlock passphrase).1 = true ↔
      w.mMasterKey.mCryptedKey.length = 32 ∧ passphrase ≠ [] := by
  rw [unlock_of_encrypted h, CCrypterMasterKey.decrypt]
  cases hcrypted : encrypt w.mMasterKey.mCryptedKey passphrase with
  | none =>
      have hnone := encrypt_eq_none_iff.mp hcrypted
      simp only [Option.elim_none, Bool.false_eq_true, false_iff, not_and_or, not_not]
      exact hnone
  | some masterKey =>
      have hsome : ¬ encrypt w.mMasterKey.mCryptedKey passphrase = none := by simp [hcrypted]
      rw [encrypt_eq_none_iff, not_or, not_not] at hsome
      exact iff_of_true rfl hsome

end CWallet

/-- What may be called on a locked wallet. -/
inductive LockedOp where
  | lock
  | unlock (passphrase : Bytes)
  | getKey (address : CKeyID)
  | signTransaction (coins : COutPoint → Option Bytes) (tx : CTransaction)

/-- The wallet after a call; what reads the keys does not change it. -/
def LockedOp.exec : LockedOp → CWallet → CWallet
  | lock, w => w.lock
  | unlock passphrase, w => (w.unlock passphrase).2
  | getKey _, w => w
  | signTransaction _ _, w => w

/-- No call unlocks the wallet. -/
def StaysLocked (w : CWallet) : LockedOp → Prop
  | .unlock passphrase => (w.unlock passphrase).1 = false
  | _ => True

/-- The passphrase gives the master key back. -/
def Unlocks (w : CWallet) (passphrase : Bytes) : Prop :=
  ((w.locked passphrase).unlock passphrase).1 = true ∧
    ((w.locked passphrase).unlock passphrase).2.mMasterKey.mKey = w.mMasterKey.mKey

/-- Every other passphrase is refused and leaves the master key. -/
def Refuses (w : CWallet) (passphrase : Bytes) : Prop :=
  ∀ q ≠ passphrase, ((w.locked passphrase).unlock q).1 = false ∧
    ((w.locked passphrase).unlock q).2.mMasterKey.mKey = w.mMasterKey.mKey

/-- Until the wallet is unlocked there is no key and no signature. -/
def Sealed (ecdsaSign : Bytes → Bytes → Option Bytes) (w : CWallet) (passphrase : Bytes) : Prop :=
  ∀ ops, Allowed LockedOp.exec StaysLocked ops (w.locked passphrase) →
    let w' := runOps LockedOp.exec ops (w.locked passphrase)
    (∀ address, w'.getKey address = none) ∧
      ∀ coins tx, w'.signTransaction ecdsaSign coins tx = tx

structure LifeCycle (ecdsaSign : Bytes → Bytes → Option Bytes) (w : CWallet)
    (passphrase : Bytes) : Prop where
  unlocks : Unlocks w passphrase
  refuses : Refuses w passphrase
  sealed : Sealed ecdsaSign w passphrase

section LifeCycle
variable {ecdsaSign : Bytes → Bytes → Option Bytes} {w : CWallet} {passphrase : Bytes}

/-- The wallet must have had the ciphertext before it was encrypted. -/
theorem unlocks_iff (h : (w.encryptWallet passphrase).1 = true) : Unlocks w passphrase ↔
    encrypt w.mMasterKey.mCryptedKey passphrase = some w.mMasterKey.mKey := by
  obtain ⟨-, hlocked⟩ := CWallet.locked_eq h
  rw [Unlocks, hlocked, CWallet.unlock_of_encrypted rfl, CCrypterMasterKey.decrypt]
  cases hcrypted : encrypt w.mMasterKey.mCryptedKey passphrase with
  | none => simp
  | some masterKey => simp [CCrypterMasterKey.setPrivKey]

/-- Without a ciphertext everybody is refused, and with one nobody with a passphrase. -/
theorem refuses_iff (h : (w.encryptWallet passphrase).1 = true) :
    Refuses w passphrase ↔ w.mMasterKey.mCryptedKey.length ≠ 32 := by
  obtain ⟨hpass, hlocked⟩ := CWallet.locked_eq h
  rw [Refuses, hlocked]
  constructor
  · intro hrefuses hlength
    have hother : passphrase ++ [0] ≠ passphrase := by simp
    have hopen := (CWallet.unlock_iff (w := { w with mEncrypted := true, mLocked := true }) rfl
      (passphrase ++ [0])).mpr ⟨hlength, by simp⟩
    rw [(hrefuses _ hother).1] at hopen
    cases hopen
  · intro hlength q _
    have hnone := encrypt_eq_none_iff.mpr (.inl hlength : _ ∨ q = [])
    rw [CWallet.unlock_of_encrypted rfl, CCrypterMasterKey.decrypt, hnone]
    exact ⟨rfl, rfl⟩

/-- A call keeps the keys. -/
theorem mKeys_exec (op : LockedOp) (w : CWallet) : (op.exec w).mKeys = w.mKeys := by
  cases op with
  | lock =>
      rw [LockedOp.exec, CWallet.lock]
      split_ifs <;> rfl
  | unlock passphrase =>
      rw [LockedOp.exec, CWallet.unlock]
      split_ifs
      · rfl
      · cases w.mMasterKey.decrypt passphrase <;> rfl
  | getKey address => rfl
  | signTransaction coins tx => rfl

theorem signTransaction_of_no_keys (hkeys : w.mKeys = ∅) (coins : COutPoint → Option Bytes)
    (tx : CTransaction) : w.signTransaction ecdsaSign coins tx = tx := by
  have hinput : ∀ hash txin, w.signInput ecdsaSign coins hash txin = txin := by
    intro hash txin
    have hkey : ∀ address, w.getKey address = none := by
      intro address
      rw [CWallet.getKey, hkeys]
      rfl
    rw [CWallet.signInput]
    cases coins txin.prevout with
    | none => rfl
    | some scriptPubKey => rw [Option.elim_some, hkey, Option.elim_none]
  rw [CWallet.signTransaction, List.map_congr_left fun txin _ => hinput _ txin, List.map_id']

/-- Only a wallet that has no keys keeps them to itself. -/
theorem sealed_iff (h : (w.encryptWallet passphrase).1 = true) :
    Sealed ecdsaSign w passphrase ↔ w.mKeys = ∅ := by
  obtain ⟨-, hlocked⟩ := CWallet.locked_eq h
  rw [Sealed, hlocked]
  constructor
  · intro hsealed
    ext1 address
    exact (hsealed [] trivial).1 address
  · intro hkeys ops _
    have hnone : ({ w with mEncrypted := true, mLocked := true } : CWallet).mKeys = ∅ := hkeys
    have hrun := @run_invariant _ _ LockedOp.exec (fun w => w.mKeys = ∅)
      (fun op w hw => (mKeys_exec op w).trans hw) ops _ hnone
    refine ⟨fun address => ?_, signTransaction_of_no_keys hrun⟩
    exact congrArg (FinMap.get? · address) hrun

end LifeCycle

/-- **No wallet goes through the life cycle, whatever its keys and the passphrase are.** -/
theorem not_lifeCycle (ecdsaSign : Bytes → Bytes → Option Bytes) (w : CWallet)
    (passphrase : Bytes) (h : (w.encryptWallet passphrase).1 = true) :
    ¬ LifeCycle ecdsaSign w passphrase := by
  intro hcycle
  have hcrypted := (unlocks_iff h).mp hcycle.unlocks
  have hlength := (refuses_iff h).mp hcycle.refuses
  rw [encrypt_eq_none_iff.mpr (.inl hlength)] at hcrypted
  cases hcrypted

/-- A wallet with a master key only. -/
def plainWallet : CWallet := { mMasterKey := { mKey := List.replicate 32 7 } }

theorem not_lifeCycle_plainWallet : (plainWallet.encryptWallet [112]).1 = true ∧
    ¬ LifeCycle (fun hash key => some (hash ++ key)) plainWallet [112] :=
  ⟨by decide, not_lifeCycle _ plainWallet [112] (by decide)⟩

/-- **The passphrase that has just encrypted the wallet does not open it.** -/
theorem unlock_plainWallet : (plainWallet.encryptWallet [112]).1 = true ∧
    ((plainWallet.locked [112]).unlock [112]).1 = false := by
  decide

end BhtBhte.WalletPro
