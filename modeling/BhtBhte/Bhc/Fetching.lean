import BhtBhte.Bhc.Cleanup
import BhtBhte.Lib.Scanf

/-!
# Auxiliary blocks that a node hands out

`GetAuxPoWData`, `GetAuxBlocks`, `GetAuxBlockForBHTTBlock` and `SubmitAuxBlock` of
`bhc/proxy/auxpow.go`.  None of them fills the Merkle branch of the data, and `VerifyAuxPoW` wants
one, so that a verifier that is given what it fetched never validates a block.  A text that is
decoded byte by byte is given as its bytes.  The time of the data and the number of confirmations,
which nothing reads, are left out.  That is `fetched_run`; that a node hands out what it was given
is `getAuxPoWData_of_submitted`.
-/
namespace BhtBhte.AuxPow

open BhtBhte.Lib
open BhtBhte.Bhc (hashOf)
open BhtBhte.Channel (Hash hashHex)

/-! ## Texts -/

/-- A byte of a text as a rune.  What begins a longer rune is no digit, and a blank of two bytes has
nothing behind it; both are an error wherever the replacement character is one. -/
def byteRune (b : UInt8) : Char := if b < 128 then Char.ofNat b.toNat else '\ufffd'

/-- The loop of `hexToBytes`. -/
def hexPairs : List UInt8 → Except String (List UInt8)
  | high :: low :: rest =>
    match scanHex 2 8 [byteRune high, byteRune low] with
    | .error e => .error e
    | .ok b =>
      match hexPairs rest with
      | .error e => .error e
      | .ok bytes => .ok (UInt8.ofNat b :: bytes)
  | _ => .ok []

def hexToBytes (hex : List UInt8) : Except String (List UInt8) :=
  hexPairs (if hex.length % 2 ≠ 0 then '0'.toNat.toUInt8 :: hex else hex)

def bytesToHex (data : List UInt8) : List UInt8 := (hexEncode data).map fun c => c.toNat.toUInt8

/-! ## The node -/

/-- The members of the answers to `getauxblock` and `getauxblocks` that are read. -/
structure AuxBlockResult where
  hash : String := ""
  height : UInt64 := 0
  coinbase : List UInt8 := []
  chainIndex : UInt32 := 0
  proofBits : List UInt8 := []
  parentHash : String := ""

/-- What the node answers while a call runs; `auxProof` has an error or none. -/
structure AuxRpc extends Rpc where
  getAuxBlock : String → Except String AuxBlockResult
  getAuxBlocks : Except String (List AuxBlockResult)
  createAuxBlock : List UInt8 → Except String String
  auxProof : String → List UInt8 → UInt32 → Option String

/-- Ask the node for the data of an auxiliary block. -/
def getAuxPoWData (rpc : AuxRpc) (auxBlockHash : Hash) : Except String AuxPoWData :=
  match rpc.getAuxBlock (hashHex auxBlockHash) with
  | .error e => .error ("failed to get AuxPoW data: " ++ e)
  | .ok result =>
    match hexToBytes result.coinbase with
    | .error e => .error ("failed to decode coinbase: " ++ e)
    | .ok coinbase =>
      match hexToBytes result.proofBits with
      | .error e => .error ("failed to decode proof bits: " ++ e)
      | .ok proofBits =>
        .ok
          { blockHash := hashOf result.hash
            parentHash := zeroHash
            coinbase
            merkleBranch := []
            chainIndex := result.chainIndex
            proofBits
            bhcHeight := result.height }

/-- A coinbase that cannot be decoded is empty. -/
def auxBlockOf (block : AuxBlockResult) : AuxPoWData where
  blockHash := hashOf block.hash
  parentHash := zeroHash
  coinbase := (hexToBytes block.coinbase).toOption.getD []
  merkleBranch := []
  chainIndex := 0
  proofBits := []
  bhcHeight := block.height

/-- Ask the node for the auxiliary blocks that wait. -/
def getAuxBlocks (rpc : AuxRpc) : Except String (List AuxPoWData) :=
  match rpc.getAuxBlocks with
  | .error e => .error ("failed to get aux blocks: " ++ e)
  | .ok result => .ok (result.map auxBlockOf)

def getAuxParent (rpc : AuxRpc) (auxHash : Hash) : Except String String :=
  match rpc.getAuxBlock (hashHex auxHash) with
  | .error e => .error e
  | .ok result => .ok result.parentHash

/-- The block is one that the loop of `GetAuxBlockForBHTTBlock` returns. -/
def hasParent (rpc : AuxRpc) (bhcBlockHash : Hash) (aux : AuxPoWData) : Bool :=
  match getBHCBlockHash rpc.toRpc aux.bhcHeight with
  | .error _ => false
  | .ok _ =>
    match getAuxParent rpc aux.blockHash with
    | .error _ => false
    | .ok auxParentResponse => hashOf auxParentResponse = bhcBlockHash

/-- The auxiliary block of a block of the other chain. -/
def getAuxBlockForBHTTBlock (rpc : AuxRpc) (bhcBlockHash : Hash) : Except String AuxPoWData :=
  match getAuxBlocks rpc with
  | .error e => .error e
  | .ok auxBlocks =>
    match auxBlocks.find? (hasParent rpc bhcBlockHash) with
    | some aux => .ok aux
    | none => .error ("no aux block found for BHC block " ++ hashHex bhcBlockHash)

/-- Hand an auxiliary block to the node. -/
def submitAuxBlock (rpc : AuxRpc) (auxBlock : AuxPoWData) : Except String Hash :=
  match rpc.createAuxBlock (bytesToHex auxBlock.coinbase) with
  | .error e => .error ("failed to create aux block: " ++ e)
  | .ok hash =>
    match rpc.auxProof hash (bytesToHex auxBlock.proofBits) auxBlock.chainIndex with
    | some e => .error ("failed to submit aux proof: " ++ e)
    | none => .ok (hashOf hash)

/-! ## The queries -/

def getValidatedAuxBlock (hash : Hash) (v : AuxPoWVerifier) : Option AuxPoWData :=
  v.auxBlocks.get? hash

def isAuxBlockValidated (hash : Hash) (v : AuxPoWVerifier) : Bool := v.Validated hash

def getAllValidatedAuxBlocks (σ : RangeOrder) (v : AuxPoWVerifier) : List AuxPoWData :=
  (v.auxBlocks.range σ).map Prod.snd

/-- Data that the verifier gets from some node. -/
def Fetched (auxData : AuxPoWData) : Prop :=
  ∃ rpc hash, getAuxPoWData rpc hash = .ok auxData ∨ getAuxBlockForBHTTBlock rpc hash = .ok auxData ∨
    ∃ auxBlocks, getAuxBlocks rpc = .ok auxBlocks ∧ auxData ∈ auxBlocks

variable {sha256 : List UInt8 → Hash} {auxData : AuxPoWData} {rpc : AuxRpc} {v : AuxPoWVerifier}
  {op : Op} {hash : Hash}

/-! ## Texts and back -/

theorem bytesToHex_cons (b : UInt8) (data : List UInt8) : bytesToHex (b :: data) =
    (Nat.digitChar (b.toNat / 16)).toNat.toUInt8 :: (Nat.digitChar (b.toNat % 16)).toNat.toUInt8 ::
      bytesToHex data := rfl

theorem byteRune_digitChar : ∀ d < 16, byteRune (Nat.digitChar d).toNat.toUInt8 = Nat.digitChar d := by
  decide

theorem hexPairs_bytesToHex (data : List UInt8) : hexPairs (bytesToHex data) = .ok data := by
  induction data with
  | nil => rfl
  | cons b data ih =>
      have hb := b.toNat_lt
      have hscan : scanHex 2 8 [Nat.digitChar (b.toNat / 16), Nat.digitChar (b.toNat % 16)] =
        .ok b.toNat := scanHex_hexEncode b
      rw [bytesToHex_cons, hexPairs, byteRune_digitChar _ (by omega),
        byteRune_digitChar _ (by omega), hscan, ih]
      simp

/-- **Bytes that were sent as a text are read back.** -/
theorem hexToBytes_bytesToHex (data : List UInt8) : hexToBytes (bytesToHex data) = .ok data := by
  have heven : ¬ (bytesToHex data).length % 2 ≠ 0 := by
    rw [bytesToHex, List.length_map, length_hexEncode]
    omega
  rw [hexToBytes, if_neg heven, hexPairs_bytesToHex]

/-- What a node has of a block that was submitted to it. -/
def auxBlockResult (hash : String) (height : UInt64) (auxBlock : AuxPoWData) : AuxBlockResult where
  hash
  height
  coinbase := bytesToHex auxBlock.coinbase
  chainIndex := auxBlock.chainIndex
  proofBits := bytesToHex auxBlock.proofBits

/-- **A node that keeps what it is given hands it out**, but for the branch and the parent. -/
theorem getAuxPoWData_of_submitted {height : UInt64}
    (hkeeps : ∀ text, rpc.createAuxBlock (bytesToHex auxData.coinbase) = .ok text →
      rpc.getAuxBlock (hashHex (hashOf text)) = .ok (auxBlockResult text height auxData))
    (h : submitAuxBlock rpc auxData = .ok hash) :
    getAuxPoWData rpc hash = .ok
      { auxData with
          blockHash := hash, parentHash := zeroHash, merkleBranch := [], bhcHeight := height } := by
  rw [submitAuxBlock] at h
  split at h
  · cases h
  next text htext =>
  split at h
  · cases h
  cases h
  rw [getAuxPoWData, hkeeps text htext]
  simp only [auxBlockResult, hexToBytes_bytesToHex]

/-! ## What is fetched -/

theorem merkleBranch_auxBlockOf (block : AuxBlockResult) : (auxBlockOf block).merkleBranch = [] := rfl

theorem merkleBranch_of_mem {auxBlocks : List AuxPoWData} (h : getAuxBlocks rpc = .ok auxBlocks)
    (hmem : auxData ∈ auxBlocks) : auxData.merkleBranch = [] := by
  rw [getAuxBlocks] at h
  cases hresult : rpc.getAuxBlocks with
  | error e =>
      rw [hresult] at h
      cases h
  | ok result =>
      rw [hresult] at h
      cases h
      obtain ⟨block, -, rfl⟩ := List.mem_map.mp hmem
      exact merkleBranch_auxBlockOf block

theorem merkleBranch_getAuxPoWData (h : getAuxPoWData rpc hash = .ok auxData) :
    auxData.merkleBranch = [] := by
  rw [getAuxPoWData] at h
  split at h
  · cases h
  split at h
  · cases h
  split at h
  · cases h
  cases h
  rfl

theorem merkleBranch_getAuxBlockForBHTTBlock (h : getAuxBlockForBHTTBlock rpc hash = .ok auxData) :
    auxData.merkleBranch = [] := by
  rw [getAuxBlockForBHTTBlock] at h
  split at h
  · cases h
  · next auxBlocks hblocks =>
      split at h
      · next aux hfind =>
          cases h
          exact merkleBranch_of_mem hblocks (List.mem_of_find?_eq_some hfind)
      · cases h

/-- Nothing that is fetched has a branch. -/
theorem Fetched.merkleBranch (h : Fetched auxData) : auxData.merkleBranch = [] := by
  obtain ⟨rpc, hash, hdata | hdata | ⟨auxBlocks, hblocks, hmem⟩⟩ := h
  · exact merkleBranch_getAuxPoWData hdata
  · exact merkleBranch_getAuxBlockForBHTTBlock hdata
  · exact merkleBranch_of_mem hblocks hmem

/-- Without a branch nothing passes. -/
theorem not_passes_of_merkleBranch {rpc : Rpc} {currentHeight : UInt64}
    (h : auxData.merkleBranch = []) : ¬ Passes sha256 rpc auxData currentHeight := by
  intro hpasses
  have hbranch := hpasses.branch
  rw [verifyMerkleBranch, h] at hbranch
  cases hbranch

/-- **A check of fetched data changes nothing**, and succeeds where the block hash was validated. -/
theorem verifyAuxPoW_fetched (h : Fetched auxData) (rpc : Rpc) (v : AuxPoWVerifier) :
    (verifyAuxPoW sha256 rpc auxData v).2 = v ∧
      ((verifyAuxPoW sha256 rpc auxData v).1 = .ok true ↔
        isAuxBlockValidated auxData.blockHash v = true) := by
  rw [isAuxBlockValidated, decide_eq_true_iff]
  by_cases hold : v.Validated auxData.blockHash
  · rw [verifyAuxPoW_validated hold]
    exact ⟨rfl, fun _ => hold, fun _ => rfl⟩
  rcases verifyAuxPoW_cases sha256 rpc auxData v with ⟨hold', -⟩ | ⟨⟨_, hpasses⟩, -⟩ | ⟨e, herror⟩
  · exact absurd hold' hold
  · exact absurd hpasses (not_passes_of_merkleBranch h.merkleBranch)
  · rw [herror]
    exact ⟨rfl, fun haccepted => (by cases haccepted), fun hold' => absurd hold' hold⟩

theorem mem_getAllValidatedAuxBlocks (h : getValidatedAuxBlock hash v = some auxData)
    (σ : RangeOrder) : auxData ∈ getAllValidatedAuxBlocks σ v :=
  List.mem_map.mpr ⟨(hash, auxData), FinMap.mem_range.mpr (FinMap.get?_eq_some.mp h), rfl⟩

/-! ## Every run -/

/-- What is kept under a block hash carries it, has a branch, and is among the data. -/
def AuxPoWVerifier.Keeps (v : AuxPoWVerifier) (checked : AuxPoWData → Prop) : Prop :=
  ∀ hash data, getValidatedAuxBlock hash v = some data →
    data.blockHash = hash ∧ data.merkleBranch ≠ [] ∧ checked data

/-- The operation is a check that the data pass. -/
def Op.Passed (sha256 : List UInt8 → Hash) (op : Op) (auxData : AuxPoWData) : Prop :=
  ∃ rpc currentHeight, op = .verifyAuxPoW rpc auxData ∧ Passes sha256 rpc auxData currentHeight

variable {checked : AuxPoWData → Prop}

theorem AuxPoWVerifier.Keeps.keep (hv : v.Keeps checked) (hbranch : auxData.merkleBranch ≠ [])
    (hchecked : checked auxData) : (v.keep auxData).Keeps checked := by
  intro hash data hdata
  rw [getValidatedAuxBlock, AuxPoWVerifier.keep, FinMap.get?_insert] at hdata
  split_ifs at hdata with hhash
  · cases hdata
    exact ⟨hhash.symm, hbranch, hchecked⟩
  · exact hv hash data hdata

theorem AuxPoWVerifier.Keeps.cleanup (hv : v.Keeps checked) (σ : RangeOrder)
    (currentHeight : UInt64) : (cleanupOldBlocksLocked σ currentHeight v).Keeps checked := by
  intro hash data hdata
  rw [getValidatedAuxBlock, cleanupOldBlocksLocked, foldl_cleanupBlock, FinMap.get?_foldl_erase]
    at hdata
  split_ifs at hdata
  exact hv hash data hdata

theorem AuxPoWVerifier.Keeps.exec (hv : v.Keeps checked) (op : Op)
    (hop : ∀ auxData, op.Passed sha256 auxData → checked auxData) : (exec sha256 op v).Keeps checked := by
  cases op with
  | verifyAuxPoW rpc auxData =>
      rw [AuxPow.exec]
      rcases verifyAuxPoW_cases sha256 rpc auxData v with ⟨-, h⟩ | ⟨⟨_, hpasses⟩, h⟩ | ⟨e, h⟩
      · rwa [h]
      · rw [h]
        exact hv.keep (fun hnil => not_passes_of_merkleBranch hnil hpasses)
          (hop auxData ⟨rpc, _, rfl, hpasses⟩)
      · rwa [h]
  | processNewBHCBlock rpc σ height =>
      rw [AuxPow.exec, processNewBHCBlock]
      split
      · exact hv
      · exact hv.cleanup σ height
  | cleanupOldAuxBlocks rpc σ =>
      rw [AuxPow.exec, cleanupOldAuxBlocks]
      split
      · exact hv.cleanup σ 0
      · exact hv.cleanup σ _

theorem keeps_run {ops : List Op}
    (hops : ∀ op ∈ ops, ∀ auxData, op.Passed sha256 auxData → checked auxData)
    (hkeys : v.SameKeys) (hv : v.Keeps checked) :
    (run sha256 ops v).SameKeys ∧ (run sha256 ops v).Keeps checked := by
  induction ops generalizing v with
  | nil => exact ⟨hkeys, hv⟩
  | cons op ops ih =>
      exact ih (fun op' hop' => hops op' (List.mem_cons_of_mem op hop')) (hkeys.exec sha256 op)
        (hv.exec op (hops op List.mem_cons_self))

/-- **What is fetched is never validated.**  After every run a check of fetched data changes nothing
and succeeds exactly where the block hash was validated, and there the data that are kept passed a
check of the run and are none that any node hands out. -/
theorem fetched_run (sha256 : List UInt8 → Hash) (ops : List Op) (rpc : Rpc) (auxData : AuxPoWData)
    (h : Fetched auxData) (hv : v = run sha256 ops newAuxPoWVerifier) :
    (verifyAuxPoW sha256 rpc auxData v).2 = v ∧
      ((verifyAuxPoW sha256 rpc auxData v).1 = .ok true ↔
        isAuxBlockValidated auxData.blockHash v = true) ∧
      (isAuxBlockValidated auxData.blockHash v = true →
        ∃ kept, getValidatedAuxBlock auxData.blockHash v = some kept ∧
          (∀ σ, kept ∈ getAllValidatedAuxBlocks σ v) ∧ kept.blockHash = auxData.blockHash ∧
          ¬ Fetched kept ∧ ∃ op ∈ ops, op.Passed sha256 kept) := by
  refine and_assoc.mp ⟨verifyAuxPoW_fetched h rpc v, fun hvalidated => ?_⟩
  have hinv : (run sha256 ops newAuxPoWVerifier).SameKeys ∧
      (run sha256 ops newAuxPoWVerifier).Keeps fun data => ∃ op ∈ ops, op.Passed sha256 data :=
    keeps_run (fun op hop data hdata => ⟨op, hop, hdata⟩) (fun _ => Iff.rfl)
      (fun _ _ hnone => by cases hnone)
  rw [← hv] at hinv
  have hmem : auxData.blockHash ∈ v.auxBlocks.keys :=
    (hinv.1 _).mpr (FinMap.mem_keys.mpr ⟨true, of_decide_eq_true hvalidated⟩)
  obtain ⟨kept, hkept⟩ := FinMap.mem_keys.mp hmem
  obtain ⟨hhash, hbranch, hchecked⟩ := hinv.2 _ kept hkept
  exact ⟨kept, hkept, fun σ => mem_getAllValidatedAuxBlocks hkept σ, hhash,
    fun hfetched => hbranch hfetched.merkleBranch, hchecked⟩

/-- A node with one auxiliary block. -/
def oneBlockRpc : AuxRpc where
  getBlockCount := .ok 112
  getBlockHash _ := .ok ""
  getAuxBlock _ := .ok { height := 100, coinbase := bytesToHex (List.replicate 20 0) }
  getAuxBlocks := .ok [{ height := 100, coinbase := bytesToHex (List.replicate 20 0) }]
  createAuxBlock _ := .ok ""
  auxProof _ _ _ := none

theorem fetched_oneBlockRpc : Fetched (auxBlockOf
    { height := 100, coinbase := bytesToHex (List.replicate 20 0) }) :=
  ⟨oneBlockRpc, zeroHash, .inr (.inr ⟨_, rfl, List.mem_singleton.mpr rfl⟩)⟩

/-- The block that is handed out is accepted after one with the same hash was. -/
theorem fetched_run_oneBlock :
    (verifyAuxPoW (fun _ => zeroHash) oneBlockRpc.toRpc
        (auxBlockOf { height := 100, coinbase := bytesToHex (List.replicate 20 0) })
        (run (fun _ => zeroHash)
          [.verifyAuxPoW (countedRpc 112) (plainProof zeroHash 100 zeroHash)]
          newAuxPoWVerifier)).1 = .ok true :=
  (fetched_run (fun _ => zeroHash) _ oneBlockRpc.toRpc _ fetched_oneBlockRpc rfl).2.1.mpr (by decide)

end BhtBhte.AuxPow
