import BhtBhte.Lib.ByteOrder
import BhtBhte.Lib.Bytes
import BhtBhte.Lib.FinMap
import BhtBhte.Wallet.Transaction

/-!
# The wallet

`CWallet` and the types it is made of.  A public key is the private key with one more byte.  The
hash of public keys and the signing function of OpenSSL are parameters.  So what a key is written as
is not what it can be set to (`CKey.length_getKey_ne`).
-/
namespace BhtBhte.WalletPro

open BhtBhte.Lib
open BhtBhte.Channel (ByteArrayOf)
open BhtBhte.Wallet (filled)

abbrev Bytes := List UInt8
abbrev CKeyID := ByteArrayOf 20

/-! ## Keys -/

/-- A public key. -/
structure CPubKey where
  mKey : Bytes
  deriving DecidableEq

namespace CPubKey

def isValid (pk : CPubKey) : Bool := !pk.mKey.isEmpty

/-- Vectors of bytes are compared byte by byte. -/
instance : LinearOrder CPubKey :=
  LinearOrder.lift' (fun pk => pk.mKey.map UInt8.toNat) fun a b h => by
    cases a
    cases b
    exact congrArg mk (List.map_injective_iff.mpr (fun _ _ h => UInt8.toNat_inj.mp h) h)

/-- `hash160` is RIPEMD-160 of SHA-256. -/
def getID (hash160 : Bytes → CKeyID) (pk : CPubKey) : CKeyID :=
  if pk.mKey.isEmpty then filled 20 0 else hash160 pk.mKey

end CPubKey

/-- A private key. -/
structure CKey where
  mKey : Bytes := []
  deriving DecidableEq

namespace CKey

def isValid (k : CKey) : Bool := k.mKey.length = 32

/-- Set a key of 32 bytes. -/
def setPrivKey (k : CKey) (key : Bytes) : Bool × CKey :=
  if key.length = 32 then (true, { k with mKey := key }) else (false, k)

/-- One byte more than the key has. -/
def getKey (k : CKey) : Bytes := if k.isValid then k.mKey ++ [0x01] else []

/-- The public key is the private one with one more byte. -/
def getPubKey (k : CKey) : CPubKey where
  mKey := if k.mKey.length = 32 then k.mKey ++ [0x02 ||| (k.mKey.getD 31 0 &&& 0x01)] else []

theorem isValid_getPubKey (k : CKey) : k.getPubKey.isValid = k.isValid := by
  rw [CPubKey.isValid, getPubKey, isValid]
  by_cases h : k.mKey.length = 32 <;> simp [h]

/-- What is written is never what can be read. -/
theorem length_getKey_ne (k : CKey) : k.getKey.length ≠ 32 := by
  rw [getKey, isValid]
  by_cases h : k.mKey.length = 32 <;> simp [h]

theorem setPrivKey_getKey (k k' : CKey) : k'.setPrivKey k.getKey = (false, k') :=
  if_neg k.length_getKey_ne

end CKey

/-! ## Encryption -/

/-- `CCrypter::Encrypt`, and `CCrypter::Decrypt` as well. -/
def encrypt (key passphrase : Bytes) : Option Bytes :=
  if key.length ≠ 32 then none
  else if passphrase = [] then none
  else some (key.mapIdx fun i b => b ^^^ passphrase.getD (i % passphrase.length) 0)

/-- The master key and its ciphertext. -/
structure CCrypterMasterKey where
  mKey : Bytes := []
  mCryptedKey : Bytes := []
  deriving DecidableEq

namespace CCrypterMasterKey

def setPrivKey (m : CCrypterMasterKey) (key : Bytes) : CCrypterMasterKey := { m with mKey := key }

/-- Decrypt the ciphertext that the wallet has. -/
def decrypt (m : CCrypterMasterKey) (passphrase : Bytes) : Option Bytes :=
  encrypt m.mCryptedKey passphrase

end CCrypterMasterKey

/-! ## The wallet -/

/-- The transactions of the wallet with their times.  A map has a size that fits in 64 bits. -/
structure WalletTxs where
  txs : FinMap (ByteArrayOf 32) UInt64 := ∅
  size_lt : txs.entries.length < 2 ^ 64 := by decide

def WalletTxs.empty : WalletTxs := {}

structure CWallet where
  mLocked : Bool := true
  mEncrypted : Bool := false
  mDirty : Bool := false
  mMasterKey : CCrypterMasterKey := {}
  mKeys : FinMap CKeyID CKey := ∅
  mPubkeyToKeyid : FinMap CPubKey CKeyID := ∅
  mPubkeys : FinMap CKeyID CPubKey := ∅
  mWalletTxs : WalletTxs := .empty

namespace CWallet

/-- `AddKey`. -/
def addKey (hash160 : Bytes → CKeyID) (w : CWallet) (key : CKey) : Bool × CWallet :=
  if key.getPubKey.isValid then
    let keyid := key.getPubKey.getID hash160
    (true, { w with
      mKeys := w.mKeys.insert keyid key
      mPubkeys := w.mPubkeys.insert keyid key.getPubKey
      mPubkeyToKeyid := w.mPubkeyToKeyid.insert key.getPubKey keyid
      mDirty := true })
  else (false, w)

/-- Add keys one after the other. -/
def addKeys (hash160 : Bytes → CKeyID) (w : CWallet) (keys : List CKey) : CWallet :=
  keys.foldl (fun w key => (w.addKey hash160 key).2) w

def getKey (w : CWallet) (address : CKeyID) : Option CKey := w.mKeys.get? address

/-- Mark a wallet as encrypted; the ciphertext is not kept. -/
def encryptWallet (w : CWallet) (passphrase : Bytes) : Bool × CWallet :=
  if w.mEncrypted then (false, w)
  else if w.mMasterKey.mKey = [] then (false, w)
  else if encrypt w.mMasterKey.mKey passphrase = none then (false, w)
  else (true, { w with mEncrypted := true })

/-- Unlock with a passphrase that decrypts. -/
def unlock (w : CWallet) (passphrase : Bytes) : Bool × CWallet :=
  if !w.mEncrypted then (true, { w with mLocked := false })
  else (w.mMasterKey.decrypt passphrase).elim (false, w) fun masterKey =>
    (true, { w with mMasterKey := w.mMasterKey.setPrivKey masterKey, mLocked := false })

/-- Lock an encrypted wallet. -/
def lock (w : CWallet) : CWallet := if w.mEncrypted then { w with mLocked := true } else w

end CWallet

/-! ## Signing -/

structure COutPoint where
  hash : ByteArrayOf 32
  n : UInt32
  deriving DecidableEq

structure TxIn where
  prevout : COutPoint
  scriptSig : Bytes := []
  nSequence : UInt32 := 0xFFFFFFFF
  deriving DecidableEq

structure CTransaction where
  version : UInt32 := 1
  vin : List TxIn := []
  deriving DecidableEq

/-- The hash looks at the version only. -/
def CTransaction.getHash (tx : CTransaction) : Bytes :=
  (leBytes 4 tx.version.toNat).map (· ^^^ 0xFF) ++ List.replicate 28 0

/-- `CScript::GetID`. -/
def scriptID (script : Bytes) : CKeyID :=
  if h : script.length = 20 then ⟨script, h⟩ else filled 20 0

namespace CWallet
section
variable (ecdsaSign : Bytes → Bytes → Option Bytes) (w : CWallet)

/-- One input; `coins` gives the scripts of the outputs that are known, and `ecdsaSign` the
signature of a hash with a private key. -/
def signInput (coins : COutPoint → Option Bytes) (hash : Bytes) (txin : TxIn) : TxIn :=
  (coins txin.prevout).elim txin fun scriptPubKey =>
    (w.getKey (scriptID scriptPubKey)).elim txin fun key =>
      (ecdsaSign hash (key.getKey.take 32)).elim txin fun sig =>
        { txin with scriptSig := txin.scriptSig ++ (sig ++ [0x01] ++ key.getPubKey.mKey) }

/-- Sign every input whose coin and key are known. -/
def signTransaction (coins : COutPoint → Option Bytes) (tx : CTransaction) : CTransaction :=
  { tx with vin := tx.vin.map (w.signInput ecdsaSign coins tx.getHash) }

end

/-! ## The keys of a wallet -/

section Keys
variable {hash160 : Bytes → CKeyID} {w : CWallet}

theorem addKey_of_valid {key : CKey} (h : key.isValid = true) :
    w.addKey hash160 key = (true, { w with
      mKeys := w.mKeys.insert (key.getPubKey.getID hash160) key
      mPubkeys := w.mPubkeys.insert (key.getPubKey.getID hash160) key.getPubKey
      mPubkeyToKeyid := w.mPubkeyToKeyid.insert key.getPubKey (key.getPubKey.getID hash160)
      mDirty := true }) :=
  if_pos (key.isValid_getPubKey.trans h)

theorem addKey_of_not_valid {key : CKey} (h : key.isValid = false) :
    w.addKey hash160 key = (false, w) :=
  if_neg (by rw [key.isValid_getPubKey, h]; exact Bool.false_ne_true)

end Keys

end CWallet

end BhtBhte.WalletPro
