import BhtBhte.Bhc.Anchors
import BhtBhte.Lib.Bytes

/-!
# Auxiliary proofs of work

`AuxPoWVerifier` of `bhc/proxy/auxpow.go`.  A proof that was accepted once is kept under its
block hash, and whatever carries that hash is accepted again until a cleanup drops it.  The node
is a parameter: what it answers during one call is a function of what it is asked.  SHA-256 is a
parameter.  The time of a proof is never read and is left out.
-/
namespace BhtBhte.AuxPow

open BhtBhte.Lib
open BhtBhte.Bhc (hashOf)
open BhtBhte.Channel (Hash decimal)

def maxAuxChainDepth : UInt64 := 144
def minBHCConfirmations : UInt64 := 6

def zeroHash : Hash := hashOf ""

/-- A proof: the block it is for, the coinbase, the branch and the bits. -/
structure AuxPoWData where
  blockHash : Hash
  parentHash : Hash
  coinbase : List UInt8
  merkleBranch : List Hash
  chainIndex : UInt32
  proofBits : List UInt8
  bhcHeight : UInt64
  deriving DecidableEq

/-- What the node answers while a call runs. -/
structure Rpc where
  getBlockCount : Except String UInt64
  getBlockHash : UInt64 → Except String String

/-- The verifier with the proofs that it keeps, by block hash, and when it has kept them. -/
structure AuxPoWVerifier where
  auxBlocks : FinMap Hash AuxPoWData
  validatedBlocks : FinMap Hash Bool

def newAuxPoWVerifier : AuxPoWVerifier where
  auxBlocks := ∅
  validatedBlocks := ∅

def getLatestBHCHeight (rpc : Rpc) : Except String UInt64 :=
  match rpc.getBlockCount with
  | .error e => .error ("failed to get BHC block count: " ++ e)
  | .ok height => .ok height

def getBHCBlockHash (rpc : Rpc) (height : UInt64) : Except String Hash :=
  match rpc.getBlockHash height with
  | .error e => .error ("failed to get block hash: " ++ e)
  | .ok hash => .ok (hashOf hash)

/-! ## The parts of the check

Each returns its error, if it has one. -/

/-- What is wrong with the coinbase of a proof, if anything. -/
def verifyCoinbase (auxData : AuxPoWData) : Option String :=
  if auxData.coinbase.length = 0 then some "empty coinbase"
  else if auxData.coinbase.length < 20 then some "coinbase too short"
  else if auxData.merkleBranch.length = 0 ∧ auxData.proofBits.length = 0 then
    some "missing merkle proof data"
  else none

/-- `binary.BigEndian.Uint32` of the first four bytes. -/
def bigEndianUint32 (b : List UInt8) : UInt32 :=
  (b.take 4).foldl (fun acc x => acc <<< 8 ||| x.toUInt32) 0

/-- The first four bytes of the folded hash are at most those of the proof. -/
def checkProofBits (hash proofBits : List UInt8) : Bool :=
  if proofBits.length < 4 then false else bigEndianUint32 hash ≤ bigEndianUint32 proofBits

section
variable (sha256 : List UInt8 → Hash)

/-- The loop of `verifyMerkleBranch` from round `i`: the side of a sibling alternates. -/
def foldBranch : ℕ → Hash → List Hash → Hash
  | _, currentHash, [] => currentHash
  | i, currentHash, branchHash :: branch =>
    let combined := if i % 2 = 0 then currentHash.1 ++ branchHash.1
      else branchHash.1 ++ currentHash.1
    foldBranch (i + 1) (sha256 combined) branch

def coinbaseHash (auxData : AuxPoWData) : Hash := sha256 (sha256 auxData.coinbase).1

/-- The value that the branch leads to. -/
def foldedHash (auxData : AuxPoWData) : Hash :=
  foldBranch sha256 0 (coinbaseHash sha256 auxData) auxData.merkleBranch

/-- What is wrong with the branch of a proof, if anything. -/
def verifyMerkleBranch (auxData : AuxPoWData) : Option String :=
  if auxData.merkleBranch.length = 0 then some "empty merkle branch"
  else
    let currentHash := foldedHash sha256 auxData
    if auxData.chainIndex ≠ 0 ∧ auxData.proofBits.length > 0 then
      if !checkProofBits currentHash.1 auxData.proofBits then
        some "proof bits verification failed"
      else none
    else none

/-! ## Verification -/

/-- The block hash was validated before. -/
def AuxPoWVerifier.Validated (v : AuxPoWVerifier) (hash : Hash) : Prop :=
  v.validatedBlocks.get? hash = some true

instance (v : AuxPoWVerifier) (hash : Hash) : Decidable (v.Validated hash) :=
  inferInstanceAs (Decidable (_ = _))

/-- Keep a proof under its block hash. -/
def AuxPoWVerifier.keep (v : AuxPoWVerifier) (auxData : AuxPoWData) : AuxPoWVerifier where
  validatedBlocks := v.validatedBlocks.insert auxData.blockHash true
  auxBlocks := v.auxBlocks.insert auxData.blockHash auxData

/-- Accept or refuse a proof.  One whose block hash is kept is accepted without a look. -/
def verifyAuxPoW (rpc : Rpc) (auxData : AuxPoWData) (v : AuxPoWVerifier) :
    Except String Bool × AuxPoWVerifier :=
  if v.Validated auxData.blockHash then (.ok true, v)
  else if auxData.bhcHeight < minBHCConfirmations then
    (.error ("insufficient BHC confirmations: need " ++ decimal minBHCConfirmations ++ ", got " ++
      decimal auxData.bhcHeight), v)
  else
    match getLatestBHCHeight rpc with
    | .error e => (.error e, v)
    | .ok currentHeight =>
      if currentHeight - auxData.bhcHeight < minBHCConfirmations then
        (.error ("BHC block not yet confirmed: height " ++ decimal auxData.bhcHeight ++
          ", current " ++ decimal currentHeight), v)
      else
        match getBHCBlockHash rpc auxData.bhcHeight with
        | .error e => (.error e, v)
        | .ok blockHash =>
          if blockHash ≠ auxData.parentHash ∧ auxData.parentHash ≠ zeroHash then
            (.error "parent hash mismatch", v)
          else
            match verifyCoinbase auxData with
            | some err => (.error ("coinbase verification failed: " ++ err), v)
            | none =>
              match verifyMerkleBranch sha256 auxData with
              | some err => (.error ("merkle branch verification failed: " ++ err), v)
              | none => (.ok true, v.keep auxData)

end

/-! ## Cleanup -/

/-- The body of the loop of `cleanupOldBlocksLocked`. -/
def cleanupBlock (currentHeight : UInt64) (v : AuxPoWVerifier) (e : Hash × AuxPoWData) :
    AuxPoWVerifier :=
  if currentHeight - e.2.bhcHeight > maxAuxChainDepth then
    { auxBlocks := v.auxBlocks.erase e.1, validatedBlocks := v.validatedBlocks.erase e.1 }
  else v

/-- `σ` is the order in which the map is ranged over. -/
def cleanupOldBlocksLocked (σ : RangeOrder) (currentHeight : UInt64) (v : AuxPoWVerifier) :
    AuxPoWVerifier :=
  (v.auxBlocks.range σ).foldl (cleanupBlock currentHeight) v

/-- A new block was seen: drop what has become too deep. -/
def processNewBHCBlock (rpc : Rpc) (σ : RangeOrder) (height : UInt64) (v : AuxPoWVerifier) :
    AuxPoWVerifier :=
  match getBHCBlockHash rpc height with
  | .error _ => v
  | .ok _ => cleanupOldBlocksLocked σ height v

/-- One tick of `cleanupOldAuxBlocks`; the error of the query is dropped and its height is `0`. -/
def cleanupOldAuxBlocks (rpc : Rpc) (σ : RangeOrder) (v : AuxPoWVerifier) : AuxPoWVerifier :=
  match getLatestBHCHeight rpc with
  | .error _ => cleanupOldBlocksLocked σ 0 v
  | .ok height => cleanupOldBlocksLocked σ height v

/-! ## Runs -/

inductive Op where
  | verifyAuxPoW (rpc : Rpc) (auxData : AuxPoWData)
  | processNewBHCBlock (rpc : Rpc) (σ : RangeOrder) (height : UInt64)
  | cleanupOldAuxBlocks (rpc : Rpc) (σ : RangeOrder)

def exec (sha256 : List UInt8 → Hash) : Op → AuxPoWVerifier → AuxPoWVerifier
  | .verifyAuxPoW rpc auxData, v => (AuxPow.verifyAuxPoW sha256 rpc auxData v).2
  | .processNewBHCBlock rpc σ height, v => AuxPow.processNewBHCBlock rpc σ height v
  | .cleanupOldAuxBlocks rpc σ, v => AuxPow.cleanupOldAuxBlocks rpc σ v

def run (sha256 : List UInt8 → Hash) (ops : List Op) (v : AuxPoWVerifier) : AuxPoWVerifier :=
  ops.foldl (fun v op => exec sha256 op v) v

/-! ## What acceptance checks -/

section
variable {sha256 : List UInt8 → Hash} {rpc : Rpc} {auxData : AuxPoWData} {v : AuxPoWVerifier}

/-- Everything that is looked at when the block hash is new. -/
structure Passes (sha256 : List UInt8 → Hash) (rpc : Rpc) (auxData : AuxPoWData)
    (currentHeight : UInt64) : Prop where
  height : minBHCConfirmations ≤ auxData.bhcHeight
  count : rpc.getBlockCount = .ok currentHeight
  confirmed : minBHCConfirmations ≤ currentHeight - auxData.bhcHeight
  parent : ∃ hash, rpc.getBlockHash auxData.bhcHeight = .ok hash ∧
    (hashOf hash = auxData.parentHash ∨ auxData.parentHash = zeroHash)
  coinbase : verifyCoinbase auxData = none
  branch : verifyMerkleBranch sha256 auxData = none

/-- A validated block hash is accepted whatever comes with it. -/
theorem verifyAuxPoW_validated (h : v.Validated auxData.blockHash) :
    verifyAuxPoW sha256 rpc auxData v = (.ok true, v) := if_pos h

theorem verifyAuxPoW_passes {currentHeight : UInt64} (h : ¬ v.Validated auxData.blockHash)
    (hpasses : Passes sha256 rpc auxData currentHeight) :
    verifyAuxPoW sha256 rpc auxData v = (.ok true, v.keep auxData) := by
  obtain ⟨hash, hhash, hparent⟩ := hpasses.parent
  have hfine : ¬ (hashOf hash ≠ auxData.parentHash ∧ auxData.parentHash ≠ zeroHash) :=
    fun hboth => hparent.elim hboth.1 hboth.2
  rw [verifyAuxPoW, if_neg h, if_neg (UInt64.not_lt.mpr hpasses.height), getLatestBHCHeight,
    hpasses.count]
  dsimp only
  rw [if_neg (UInt64.not_lt.mpr hpasses.confirmed), getBHCBlockHash, hhash]
  dsimp only
  rw [if_neg hfine, hpasses.coinbase]
  dsimp only
  rw [hpasses.branch]

/-- What a check answers and leaves behind: the block hash was validated, or everything passes and
the proof is kept, or there is an error. -/
theorem verifyAuxPoW_cases (sha256 : List UInt8 → Hash) (rpc : Rpc) (auxData : AuxPoWData)
    (v : AuxPoWVerifier) :
    v.Validated auxData.blockHash ∧ verifyAuxPoW sha256 rpc auxData v = (.ok true, v) ∨
      (∃ currentHeight, Passes sha256 rpc auxData currentHeight) ∧
        verifyAuxPoW sha256 rpc auxData v = (.ok true, v.keep auxData) ∨
      ∃ e, verifyAuxPoW sha256 rpc auxData v = (.error e, v) := by
  by_cases h : v.Validated auxData.blockHash
  · exact .inl ⟨h, if_pos h⟩
  refine .inr ?_
  rw [verifyAuxPoW, if_neg h]
  by_cases hheight : auxData.bhcHeight < minBHCConfirmations
  · exact .inr ⟨_, if_pos hheight⟩
  rw [if_neg hheight, getLatestBHCHeight]
  cases hcount : rpc.getBlockCount with
  | error e => exact .inr ⟨_, rfl⟩
  | ok currentHeight =>
      dsimp only
      by_cases hconfirmed : currentHeight - auxData.bhcHeight < minBHCConfirmations
      · exact .inr ⟨_, if_pos hconfirmed⟩
      rw [if_neg hconfirmed, getBHCBlockHash]
      cases hhash : rpc.getBlockHash auxData.bhcHeight with
      | error e => exact .inr ⟨_, rfl⟩
      | ok hash =>
          dsimp only
          by_cases hparent : hashOf hash ≠ auxData.parentHash ∧ auxData.parentHash ≠ zeroHash
          · exact .inr ⟨_, if_pos hparent⟩
          rw [if_neg hparent]
          cases hcoinbase : verifyCoinbase auxData with
          | some err => exact .inr ⟨_, rfl⟩
          | none =>
              cases hbranch : verifyMerkleBranch sha256 auxData with
              | some err => exact .inr ⟨_, rfl⟩
              | none =>
                  rw [not_and_or, not_not, not_not] at hparent
                  exact .inl ⟨⟨currentHeight, UInt64.not_lt.mp hheight, hcount,
                    UInt64.not_lt.mp hconfirmed, ⟨hash, hhash, hparent⟩, hcoinbase, hbranch⟩, rfl⟩

/-- **A new block hash is accepted only when it passes everything.** -/
theorem verifyAuxPoW_eq_true (h : ¬ v.Validated auxData.blockHash)
    (haccepted : (verifyAuxPoW sha256 rpc auxData v).1 = .ok true) :
    ∃ currentHeight, Passes sha256 rpc auxData currentHeight := by
  rcases verifyAuxPoW_cases sha256 rpc auxData v with ⟨hold, -⟩ | ⟨hpasses, -⟩ | ⟨e, herror⟩
  · exact absurd hold h
  · exact hpasses
  · rw [herror] at haccepted
    cases haccepted

/-- What a check leaves behind. -/
theorem verifyAuxPoW_state (sha256 : List UInt8 → Hash) (rpc : Rpc) (auxData : AuxPoWData)
    (v : AuxPoWVerifier) : (verifyAuxPoW sha256 rpc auxData v).2 = v ∨
      (verifyAuxPoW sha256 rpc auxData v).2 = v.keep auxData := by
  rcases verifyAuxPoW_cases sha256 rpc auxData v with ⟨-, hresult⟩ | ⟨-, hresult⟩ | ⟨e, hresult⟩
  · exact .inl (congrArg Prod.snd hresult)
  · exact .inr (congrArg Prod.snd hresult)
  · exact .inl (congrArg Prod.snd hresult)

theorem validated_keep (v : AuxPoWVerifier) (auxData : AuxPoWData) :
    (v.keep auxData).Validated auxData.blockHash := FinMap.get?_insert_self ..

end

end BhtBhte.AuxPow
