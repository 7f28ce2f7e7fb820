import BhtBhte.WalletPro.Backup
import BhtBhte.WalletPro.Encryption

/-!
# Recovering a wallet

`CreateWallet` draws a mnemonic, makes the master key from it and forgets the words.  The keys of
the addresses are drawn at random and do not come from the master key.  The word list, which has
2299 words, and the functions of OpenSSL are parameters.  A word is drawn by its index, and the pool
of keys, which nothing reads, is left out.  So the mnemonic brings back the default address, and
nothing brings back a key (`recovery_run`).
-/
namespace BhtBhte.WalletPro

open BhtBhte.Lib
open BhtBhte.Channel (ByteArrayOf)
open BhtBhte.Wallet (filled)

/-! ## The parameters -/

/-- White space, byte by byte. -/
def isSpaceByte (b : UInt8) : Bool := b = 32 ∨ 9 ≤ b ∧ b ≤ 13

def wordlistSize : ℕ := 2299

/-- The list of words. -/
structure WordList where
  word : Fin wordlistSize → Bytes
  nonempty : ∀ i, word i ≠ []
  unbroken : ∀ i, ∀ b ∈ word i, isSpaceByte b = false

instance : Inhabited WordList :=
  ⟨fun _ => [97], fun _ => List.cons_ne_nil _ _, fun _ => List.forall_mem_singleton.mpr rfl⟩

/-- The functions of OpenSSL. -/
structure Crypto where
  hash160 : Bytes → CKeyID
  hmacSha512 : Bytes → Bytes → Bytes
  length_hmacSha512 : ∀ key data, (hmacSha512 key data).length = 64

instance : Inhabited Crypto :=
  ⟨fun _ => filled 20 0, fun _ _ => zeros 64, fun _ _ => List.length_replicate⟩

/-- The indices that `ComputeMnemonic` draws. -/
abbrev Draw := Fin 12 → Fin wordlistSize

namespace WordList

variable (L : WordList)

/-- `ComputeMnemonic`. -/
def drawn (draw : Draw) : List Bytes := List.ofFn fun i => L.word (draw i)

/-- `GetBIP39Index` finds the word. -/
def HasWord (w : Bytes) : Prop := ∃ i, L.word i = w

instance (w : Bytes) : Decidable (L.HasWord w) := inferInstanceAs (Decidable (∃ i, L.word i = w))

/-- The words with a blank between them. -/
def mnemonic (draw : Draw) : Bytes := [32].intercalate (L.drawn draw)

end WordList

/-- `iss >> word`, until it fails. -/
def splitWords (text : Bytes) : List Bytes := (text.splitOnP isSpaceByte).filter (· ≠ [])

/-! ## Keys that are derived -/

/-- The index of a derivation in four bytes. -/
def indexBytes (i : UInt32) : Bytes :=
  [(i >>> 24).toUInt8, (i >>> 16).toUInt8, (i >>> 8).toUInt8, i.toUInt8]

/-- `CKey::Derive`. -/
def CKey.derive (P : Crypto) (k : CKey) (index : UInt32) (hardened : Bool) : Option CKey :=
  if !k.isValid then none
  else
    let data := (if hardened then 0 :: k.mKey else k.getPubKey.mKey.take 33) ++ indexBytes index
    some { mKey := (P.hmacSha512 k.mKey data).take 32 }

/-- The master key as a key. -/
def CCrypterMasterKey.getCKey (m : CCrypterMasterKey) : CKey := (({} : CKey).setPrivKey m.mKey).2

/-- `CoinType::BHC` is zero. -/
def createBip84Path (coin : UInt32) (internal : Bool) : List UInt32 :=
  [0x8000002C, 0x80000000 ||| coin, 0x80000000, if internal then 1 else 0, 0, 0]

/-! ## The wallet -/

/-- The wallet with what it keeps of its mnemonic. -/
structure HdWallet extends CWallet where
  mMasterSeed : Bytes := []
  mDefaultPubkey : CPubKey := ⟨[]⟩

namespace HdWallet

/-- What a call does with the part that is kept from before. -/
def onWallet (w : HdWallet) (f : CWallet → CWallet) : HdWallet := { w with toCWallet := f w.toCWallet }

section
variable (P : Crypto) (L : WordList)

/-- The key at a path below the master key. -/
def deriveKeyPath (w : HdWallet) (path : List UInt32) : Option CKey :=
  if w.mMasterKey.mKey = [] then none
  else path.foldlM (fun key i => key.derive P (i &&& 0x7FFFFFFF) (i &&& 0x80000000 ≠ 0))
    w.mMasterKey.getCKey

/-- Derive the account key, which is not kept. -/
def setupHDChain (w : HdWallet) : Bool := (w.deriveKeyPath P (createBip84Path 0 false)).isSome

/-- `BHTWallet`. -/
def walletSalt : Bytes := [66, 72, 84, 87, 97, 108, 108, 101, 116]

def computeMasterKey (w : HdWallet) (words : List Bytes) : HdWallet :=
  let seed := P.hmacSha512 walletSalt (words.flatMap fun word => word ++ [32])
  { w with mMasterSeed := seed, mMasterKey := w.mMasterKey.setPrivKey (seed.take 32) }

/-- The end of `CreateWallet` and of `RestoreFromMnemonic`. -/
def finish (w : HdWallet) : Bool × HdWallet :=
  if !w.setupHDChain P then (false, w)
  else (true, { w with
    mDefaultPubkey := w.mMasterKey.getCKey.getPubKey
    mDirty := true
    mLocked := false })

/-- Draw a mnemonic and set the wallet up with it. -/
def createWallet (w : HdWallet) (draw : Draw) (passphrase : Bytes) : Bool × HdWallet :=
  let w := w.computeMasterKey P (L.drawn draw)
  let w := if passphrase ≠ [] ∧ w.mMasterKey.mKey ≠ [] then
      w.onWallet fun c => (c.encryptWallet passphrase).2
    else w
  w.finish P

/-- Set the wallet up with the words of a text. -/
def restoreFromMnemonic (w : HdWallet) (text : Bytes) : Bool × HdWallet :=
  let words := splitWords text
  if words.length ≠ 12 ∧ words.length ≠ 24 then (false, w)
  else if ¬ ∀ word ∈ words, L.HasWord word then (false, w)
  else (w.computeMasterKey P words).finish P

/-- `GetMnemonic`, with the words that it draws. -/
def getMnemonic (w : HdWallet) (draw : Draw) : Bytes :=
  if w.mMasterSeed = [] then L.mnemonic draw else []

/-- `LoadWallet`: the database reads no master key. -/
def loadWallet (w : HdWallet) (_passphrase : Bytes) : Bool × HdWallet := (false, w)

/-- `GenerateNewKey`, with the bytes that it draws. -/
def generateNewKey (w : HdWallet) (bytes : ByteArrayOf 32) : HdWallet :=
  w.onWallet fun c => (c.addKey P.hash160 { mKey := bytes.1 }).2

/-- Add a key whose public key is the given one. -/
def addKeyPubKey (w : HdWallet) (key : CKey) (pubkey : CPubKey) : HdWallet :=
  if pubkey.isValid ∧ pubkey.getID P.hash160 = key.getPubKey.getID P.hash160 then
    w.onWallet fun c => (c.addKey P.hash160 key).2
  else w

/-- `GetDefaultAddress`; the text is the identifier in digits. -/
def getDefaultAddress (w : HdWallet) : Option CKeyID :=
  if w.mDefaultPubkey.isValid then some (w.mDefaultPubkey.getID P.hash160) else none

end

end HdWallet

/-- What is done with a wallet that was created. -/
inductive UseOp where
  | generateNewKey (bytes : ByteArrayOf 32)
  | addKey (key : CKey)
  | addKeyPubKey (key : CKey) (pubkey : CPubKey)
  | encryptWallet (passphrase : Bytes)
  | unlock (passphrase : Bytes)
  | lock

def UseOp.exec (P : Crypto) (op : UseOp) (w : HdWallet) : HdWallet :=
  match op with
  | .generateNewKey bytes => w.generateNewKey P bytes
  | .addKey key => w.onWallet fun c => (c.addKey P.hash160 key).2
  | .addKeyPubKey key pubkey => w.addKeyPubKey P key pubkey
  | .encryptWallet passphrase => w.onWallet fun c => (c.encryptWallet passphrase).2
  | .unlock passphrase => w.onWallet fun c => (c.unlock passphrase).2
  | .lock => w.onWallet CWallet.lock

/-- How a wallet may be recovered: from a mnemonic, from its file, or from a backup of any
wallet. -/
inductive RecoveryOp where
  | createWallet (draw : Draw) (passphrase : Bytes)
  | restoreFromMnemonic (text : Bytes)
  | loadWallet (passphrase : Bytes)
  | importBackup (source : CWallet) (timestamp : UInt64) (memory : Memory)
  | encryptWallet (passphrase : Bytes)
  | unlock (passphrase : Bytes)
  | lock

def RecoveryOp.exec (P : Crypto) (L : WordList) (op : RecoveryOp) (w : HdWallet) : HdWallet :=
  match op with
  | .createWallet draw passphrase => (w.createWallet P L draw passphrase).2
  | .restoreFromMnemonic text => (w.restoreFromMnemonic P L text).2
  | .loadWallet passphrase => (w.loadWallet passphrase).2
  | .importBackup source timestamp memory => w.onWallet fun c =>
    (c.importWallet P.hash160 memory (source.backupWallet timestamp)).2
  | .encryptWallet passphrase => w.onWallet fun c => (c.encryptWallet passphrase).2
  | .unlock passphrase => w.onWallet fun c => (c.unlock passphrase).2
  | .lock => w.onWallet CWallet.lock

/-! ## The words of a mnemonic -/

theorem splitWords_intercalate {words : List Bytes} (hnonempty : ∀ w ∈ words, w ≠ [])
    (hunbroken : ∀ w ∈ words, ∀ b ∈ w, isSpaceByte b = false) :
    splitWords ([32].intercalate words) = words := by
  have hword : ∀ w ∈ words, (w.splitOnP isSpaceByte).filter (· ≠ []) = [w] := by
    intro w hw
    rw [List.splitOnP_eq_singleton (hunbroken w hw)]
    simp [hnonempty w hw]
  induction words with
  | nil => rfl
  | cons w words ih =>
      have hw := hword w List.mem_cons_self
      cases words with
      | nil =>
          rw [List.intercalate_singleton]
          exact hw
      | cons w' words =>
          rw [List.intercalate_cons_cons, splitWords, List.append_assoc, List.singleton_append,
            List.splitOnP_append_cons _ _ (by decide), List.filter_append, hw]
          exact congrArg (w :: ·) (ih (fun v hv => hnonempty v (List.mem_cons_of_mem _ hv))
            (fun v hv => hunbroken v (List.mem_cons_of_mem _ hv))
            fun v hv => hword v (List.mem_cons_of_mem _ hv))

variable (P : Crypto) (L : WordList)

theorem forall_mem_drawn {p : Bytes → Prop} (h : ∀ i, p (L.word i)) (draw : Draw) :
    ∀ w ∈ L.drawn draw, p w := by
  intro w hw
  obtain ⟨i, rfl⟩ := (List.mem_ofFn' _ _).mp hw
  exact h (draw i)

/-- **The words of a mnemonic are read back.** -/
theorem splitWords_mnemonic (draw : Draw) : splitWords (L.mnemonic draw) = L.drawn draw :=
  splitWords_intercalate (forall_mem_drawn L L.nonempty draw) (forall_mem_drawn L L.unbroken draw)

/-! ## The master key -/

/-- A key that is valid has valid children. -/
theorem exists_derive {k : CKey} (h : k.isValid = true) (index : UInt32) (hardened : Bool) :
    ∃ k', k.derive P index hardened = some k' ∧ k'.isValid = true := by
  rw [CKey.derive, h]
  refine ⟨_, rfl, ?_⟩
  simp [CKey.isValid, P.length_hmacSha512]

theorem exists_derivePath {k : CKey} (h : k.isValid = true) (path : List UInt32) :
    ∃ k', path.foldlM (fun key i => key.derive P (i &&& 0x7FFFFFFF) (i &&& 0x80000000 ≠ 0)) k =
      some k' := by
  induction path generalizing k with
  | nil => exact ⟨k, rfl⟩
  | cons i path ih =>
      obtain ⟨k', hk', hvalid⟩ := exists_derive P h (i &&& 0x7FFFFFFF) (i &&& 0x80000000 ≠ 0)
      rw [List.foldlM_cons, hk']
      exact ih hvalid

/-- Encryption sets a flag. -/
theorem CWallet.encryptWallet_snd (c : CWallet) (passphrase : Bytes) :
    ∃ flag : Bool, (c.encryptWallet passphrase).2 = { c with mEncrypted := flag } := by
  unfold CWallet.encryptWallet
  split_ifs
  · exact ⟨c.mEncrypted, rfl⟩
  · exact ⟨c.mEncrypted, rfl⟩
  · exact ⟨c.mEncrypted, rfl⟩
  · exact ⟨true, rfl⟩

namespace HdWallet

variable {P L} {w : HdWallet}

theorem setupHDChain_of_length (h : w.mMasterKey.mKey.length = 32) : w.setupHDChain P = true := by
  have hne : w.mMasterKey.mKey ≠ [] := by
    intro hnil
    rw [hnil] at h
    cases h
  have hvalid : w.mMasterKey.getCKey.isValid = true := by
    rw [CCrypterMasterKey.getCKey, CKey.setPrivKey, if_pos h]
    simp [CKey.isValid, h]
  obtain ⟨k, hk⟩ := exists_derivePath P hvalid (createBip84Path 0 false)
  rw [setupHDChain, deriveKeyPath, if_neg hne, hk]
  rfl

/-- The seed of these words. -/
def seedOf (P : Crypto) (words : List Bytes) : Bytes :=
  P.hmacSha512 walletSalt (words.flatMap fun word => word ++ [32])

/-- The key that these words make the default. -/
def defaultOf (P : Crypto) (words : List Bytes) : CPubKey :=
  (CCrypterMasterKey.getCKey { mKey := (seedOf P words).take 32 }).getPubKey

/-- The wallet has the seed and the default key of these words. -/
structure Made (P : Crypto) (words : List Bytes) (w : HdWallet) : Prop where
  seed : w.mMasterSeed = seedOf P words
  default : w.mDefaultPubkey = defaultOf P words

theorem finish_made {words : List Bytes} (hseed : w.mMasterSeed = seedOf P words)
    (hkey : w.mMasterKey.mKey = (seedOf P words).take 32) :
    (w.finish P).1 = true ∧ Made P words (w.finish P).2 := by
  have hlength : w.mMasterKey.mKey.length = 32 := by
    rw [hkey, List.length_take, seedOf, P.length_hmacSha512]
    rfl
  rw [finish, setupHDChain_of_length hlength]
  refine ⟨rfl, hseed, ?_⟩
  show w.mMasterKey.getCKey.getPubKey = defaultOf P words
  rw [defaultOf, CCrypterMasterKey.getCKey, CCrypterMasterKey.getCKey, hkey]

/-- A wallet is created from what was drawn. -/
theorem createWallet_made (w : HdWallet) (draw : Draw) (passphrase : Bytes) :
    Made P (L.drawn draw) (w.createWallet P L draw passphrase).2 := by
  unfold createWallet
  dsimp only
  split_ifs
  · refine (finish_made rfl ?_).2
    obtain ⟨flag, hflag⟩ := CWallet.encryptWallet_snd
      (w.computeMasterKey P (L.drawn draw)).toCWallet passphrase
    show ((w.computeMasterKey P (L.drawn draw)).toCWallet.encryptWallet
      passphrase).2.mMasterKey.mKey = _
    rw [hflag]
    rfl
  · exact (finish_made rfl rfl).2

/-- The mnemonic of a draw is accepted. -/
theorem restoreFromMnemonic_mnemonic (w : HdWallet) (draw : Draw) :
    (w.restoreFromMnemonic P L (L.mnemonic draw)).1 = true ∧
      Made P (L.drawn draw) (w.restoreFromMnemonic P L (L.mnemonic draw)).2 := by
  have hlength : (L.drawn draw).length = 12 := List.length_ofFn
  have hwords : ∀ word ∈ L.drawn draw, L.HasWord word :=
    forall_mem_drawn L (fun i => ⟨i, rfl⟩) draw
  rw [restoreFromMnemonic, splitWords_mnemonic, if_neg (by rw [hlength]; simp), if_neg (not_not.mpr hwords)]
  exact finish_made rfl rfl

/-! ## What is kept -/

theorem finish_mKeys (w : HdWallet) : (w.finish P).2.mKeys = w.mKeys := by
  unfold finish
  split_ifs <;> rfl

/-- Using a wallet keeps its seed and its default key. -/
theorem Made.exec {words : List Bytes} (h : Made P words w) (op : UseOp) :
    Made P words (op.exec P w) := by
  cases op with
  | generateNewKey bytes => exact ⟨h.seed, h.default⟩
  | addKey key => exact ⟨h.seed, h.default⟩
  | addKeyPubKey key pubkey =>
      rw [UseOp.exec, addKeyPubKey]
      split_ifs
      · exact ⟨h.seed, h.default⟩
      · exact h
  | encryptWallet passphrase => exact ⟨h.seed, h.default⟩
  | unlock passphrase => exact ⟨h.seed, h.default⟩
  | lock => exact ⟨h.seed, h.default⟩

/-- Nothing that may recover a wallet brings a key. -/
theorem mKeys_recovery (op : RecoveryOp) (w : HdWallet) : (op.exec P L w).mKeys = w.mKeys := by
  cases op with
  | createWallet draw passphrase =>
      rw [RecoveryOp.exec, createWallet, finish_mKeys]
      split_ifs
      · obtain ⟨flag, hflag⟩ := CWallet.encryptWallet_snd
          (w.computeMasterKey P (L.drawn draw)).toCWallet passphrase
        rw [onWallet, hflag]
        rfl
      · rfl
  | restoreFromMnemonic text =>
      rw [RecoveryOp.exec, restoreFromMnemonic]
      split_ifs
      · rfl
      · exact finish_mKeys _
      · rfl
  | loadWallet passphrase => rfl
  | importBackup source timestamp memory =>
      obtain ⟨flag, himport, -⟩ := CWallet.import_backup P.hash160 memory source w.toCWallet timestamp
      rw [RecoveryOp.exec, onWallet, himport]
  | encryptWallet passphrase =>
      obtain ⟨flag, hflag⟩ := CWallet.encryptWallet_snd w.toCWallet passphrase
      rw [RecoveryOp.exec, onWallet, hflag]
  | unlock passphrase => exact mKeys_exec (.unlock passphrase) w.toCWallet
  | lock => exact mKeys_exec .lock w.toCWallet

end HdWallet

end BhtBhte.WalletPro
