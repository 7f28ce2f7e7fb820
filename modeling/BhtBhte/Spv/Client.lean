import BhtBhte.Node.Platform

/-!
# The SPV client

`BHCSPVClient`: header lookups with their two caches, header synchronisation, and the
check of a transaction's Merkle proof against a header.  The node behind the client is a
parameter: `Rpc` answers each call as it likes, knowing how many calls came before.  An
answer is a JSON object that writes the members it has into a Go struct and leaves the
others alone, also when the call then fails.

Header fields that nothing here reads are left out.  `SHA-256` and the case tables behind
`EqualFold` are parameters.
-/
namespace BhtBhte.Spv

open BhtBhte.Lib
open BhtBhte.Node (Bytes isHexDigit decodeHex hexToHash)

/-- What the client takes from other packages. -/
class HashPlatform extends CaseTable where
  sha256 : Bytes → Bytes

def maxHeaderBatchSize : UInt64 := 2000
def maxMerkleProofHashes : ℕ := 1024
def defaultMinConfirmations : UInt64 := 3

structure BHCHeader where
  height : UInt64 := 0
  hash : String := ""
  previousHash : String := ""
  merkleRoot : String := ""
  time : Int64 := 0
  bits : UInt32 := 0
  deriving DecidableEq

structure MerkleProof where
  blockHash : String
  transaction : String
  proofHashes : List String
  proofFlags : List Bool
  headerHeight : UInt64

/-! ## The node's answers -/

/-- The members of an answer to `getblockheader`, and the error of the call. -/
structure HeaderAnswer where
  height : Option UInt64 := none
  hash : Option String := none
  previousHash : Option String := none
  merkleRoot : Option String := none
  time : Option Int64 := none
  bits : Option UInt32 := none
  err : Option String := none

/-- Decode an answer into a header. -/
def HeaderAnswer.fill (a : HeaderAnswer) (header : BHCHeader) : BHCHeader where
  height := a.height.getD header.height
  hash := a.hash.getD header.hash
  previousHash := a.previousHash.getD header.previousHash
  merkleRoot := a.merkleRoot.getD header.merkleRoot
  time := a.time.getD header.time
  bits := a.bits.getD header.bits

/-- The parameters of `getblockheader`: a hash, with the verbose flag or without, or a
height. -/
inductive HeaderQuery where
  | verbose (hash : String)
  | plain (hash : String)
  | height (height : UInt64)

/-- The local struct of `GetMerkleProof`. -/
structure ProofResult where
  blockHash : String := ""
  blockHashAlt : String := ""
  proof : List String := []
  merkleBranch : List String := []
  proofFlags : List Bool := []
  proofFlagsAlt : List Bool := []
  transaction : String := ""
  transactionAlt : String := ""
  txID : String := ""

/-- The members of an answer to `gettxoutproof`, and the error of the call. -/
structure ProofAnswer where
  blockHash : Option String := none
  blockHashAlt : Option String := none
  proof : Option (List String) := none
  merkleBranch : Option (List String) := none
  proofFlags : Option (List Bool) := none
  proofFlagsAlt : Option (List Bool) := none
  transaction : Option String := none
  transactionAlt : Option String := none
  txID : Option String := none
  err : Option String := none

/-- Write the members that an answer has over the ones that were there. -/
def ProofAnswer.fill (a : ProofAnswer) (r : ProofResult) : ProofResult where
  blockHash := a.blockHash.getD r.blockHash
  blockHashAlt := a.blockHashAlt.getD r.blockHashAlt
  proof := a.proof.getD r.proof
  merkleBranch := a.merkleBranch.getD r.merkleBranch
  proofFlags := a.proofFlags.getD r.proofFlags
  proofFlagsAlt := a.proofFlagsAlt.getD r.proofFlagsAlt
  transaction := a.transaction.getD r.transaction
  transactionAlt := a.transactionAlt.getD r.transactionAlt
  txID := a.txID.getD r.txID

/-- The second parameter of `gettxoutproof`. -/
inductive BlockRef where
  | hash (hash : String)
  | height (height : UInt64)

/-- A node: its answer to each call, given the number of calls before it. -/
structure Rpc where
  getBlockCount : ℕ → Except String UInt64
  getBlockHash : ℕ → UInt64 → Except String String
  getBlockHeader : ℕ → HeaderQuery → HeaderAnswer
  getTxOutProof : ℕ → String → BlockRef → ProofAnswer

/-! ## The client -/

/-- The two caches and the number of calls made.  Headers are kept under the number of
their height, hashes as 32 bytes. -/
structure Client where
  headerCache : FinMap ℕ BHCHeader
  hashIndex : Bytes → Option UInt64
  calls : ℕ

def newBHCSPVClient : Client where
  headerCache := ∅
  hashIndex _ := none
  calls := 0

def Client.called (c : Client) : Client := { c with calls := c.calls + 1 }

/-- Write one header into both caches. -/
def Client.record (c : Client) (height : UInt64) (header : BHCHeader) (hash : Bytes) : Client :=
  { c with
    headerCache := c.headerCache.insert height.toNat header
    hashIndex := Function.update c.hashIndex hash (some height) }

@[simp] theorem Client.record_headerCache (c : Client) (height : UInt64) (header : BHCHeader)
    (hash : Bytes) :
    (c.record height header hash).headerCache = c.headerCache.insert height.toNat header := rfl

@[simp] theorem Client.record_hashIndex (c : Client) (height : UInt64) (header : BHCHeader)
    (hash : Bytes) :
    (c.record height header hash).hashIndex = Function.update c.hashIndex hash (some height) := rfl

/-- Only the number of calls differs. -/
def SameCaches (c c' : Client) : Prop :=
  c'.headerCache = c.headerCache ∧ c'.hashIndex = c.hashIndex

section
variable (rpc : Rpc)

def getLatestHeight (c : Client) : Except String UInt64 × Client :=
  match rpc.getBlockCount c.calls with
  | .error e => (.error ("failed to get block count: " ++ e), c.called)
  | .ok n => (.ok n, c.called)

def getBlockHash (height : UInt64) (c : Client) : Except String String × Client :=
  match rpc.getBlockHash c.calls height with
  | .error e =>
    (.error ("failed to get block hash at height " ++ toString height.toNat ++ ": " ++ e), c.called)
  | .ok hash =>
    if hash = "" then (.error ("empty block hash at height " ++ toString height.toNat), c.called)
    else (.ok hash, c.called)

/-- One call of `getblockheader` into a header, with its error. -/
def callHeader (q : HeaderQuery) (header : BHCHeader) (c : Client) :
    BHCHeader × Option String × Client :=
  let a := rpc.getBlockHeader c.calls q
  (a.fill header, a.err, c.called)

/-- `getblockheader` by hash, a second time without the flag if the first call fails. -/
def callHeaderByHash (hash : String) (c : Client) : BHCHeader × Option String × Client :=
  let first := callHeader rpc (.verbose hash) {} c
  match first.2.1 with
  | none => first
  | some _ => callHeader rpc (.plain hash) first.1 first.2.2

/-- The calls of `GetBlockHeader`: the hash, the header by hash, and if that fails the
header by height. -/
def requestHeader (height : UInt64) (c : Client) :
    Except String String × BHCHeader × Option String × Client :=
  let (blockHash, c) := getBlockHash rpc height c
  let (header, err, c) :=
    match blockHash with
    | .ok hash => callHeaderByHash rpc hash c
    | .error e => ({}, some e, c)
  match err with
  | none => (blockHash, header, none, c)
  | some _ => (blockHash, callHeader rpc (.height height) header c)

/-- What a header is completed with before it is cached. -/
def completeHeader (blockHash : Except String String) (height : UInt64) (header : BHCHeader) :
    BHCHeader :=
  let header :=
    match blockHash with
    | .ok hash => if header.hash = "" ∧ hash ≠ "" then { header with hash := hash } else header
    | .error _ => header
  if header.height = 0 then { header with height := height } else header

/-- The header at a height, from the cache or from the node. -/
def getBlockHeader (height : UInt64) (c : Client) : Except String BHCHeader × Client :=
  match c.headerCache.get? height.toNat with
  | some header => (.ok header, c)
  | none =>
    let (blockHash, header, err, c) := requestHeader rpc height c
    match err with
    | some e => (.error ("failed to get block header: " ++ e), c)
    | none =>
      let header := completeHeader blockHash height header
      (.ok header, c.record height header (hexToHash header.hash))

/-- The header a hash leads to through both caches. -/
def Client.cachedByHash (c : Client) (hash : Bytes) : Option BHCHeader :=
  (c.hashIndex hash).bind fun height => c.headerCache.get? height.toNat

/-- The header with a hash, from the cache or from the node. -/
def getBlockHeaderByHash (hash : String) (c : Client) : Except String BHCHeader × Client :=
  let hashHash := hexToHash hash
  match c.cachedByHash hashHash with
  | some header => (.ok header, c)
  | none =>
    let (header, err, c) := callHeaderByHash rpc hash c
    match err with
    | some e => (.error ("failed to get block header: " ++ e), c)
    | none =>
      let header := if header.hash = "" then { header with hash := hash } else header
      (.ok header, c.record header.height header hashHash)

/-- The loop of `GetHeaderChain`.  It never ends when `endHeight` is the last 64-bit
number; `fuel` bounds the rounds, and `none` says that they were used up. -/
def headerLoop : ℕ → UInt64 → UInt64 → List BHCHeader → Client →
    Option (Except String (List BHCHeader)) × Client
  | 0, _, _, _, c => (none, c)
  | fuel + 1, h, endHeight, headers, c =>
    if h ≤ endHeight then
      match getBlockHeader rpc h c with
      | (.error e, c) => (some (.error e), c)
      | (.ok header, c) => headerLoop fuel (h + 1) endHeight (headers ++ [header]) c
    else (some (.ok headers), c)

/-- The headers of a range of heights, cut to the largest batch. -/
def getHeaderChain (fuel : ℕ) (startHeight endHeight : UInt64) (c : Client) :
    Option (Except String (List BHCHeader)) × Client :=
  if endHeight < startHeight then (some (.error "end height must be >= start height"), c)
  else
    let endHeight :=
      if endHeight - startHeight > maxHeaderBatchSize then startHeight + maxHeaderBatchSize
      else endHeight
    headerLoop rpc fuel startHeight endHeight [] c

/-- The second loop of `performHeaderSync`: every header under its own height. -/
def recordAll : List BHCHeader → Client → Client
  | [], c => c
  | h :: headers, c => recordAll headers (c.record h.height h (hexToHash h.hash))

/-- Fetch the headers from the highest cached one to the tip. -/
def performHeaderSync (fuel : ℕ) (c : Client) : Client :=
  match getLatestHeight rpc c with
  | (.error _, c) => c
  | (.ok latestHeight, c) =>
    let cachedHeight := UInt64.ofNat (c.headerCache.keys.foldl max 0)
    if latestHeight > cachedHeight then
      let startHeight := cachedHeight + 1
      let startHeight := if startHeight = 0 then 1 else startHeight
      match getHeaderChain rpc fuel startHeight latestHeight c with
      | (some (.ok headers), c) => recordAll headers c
      | (_, c) => c
    else c

end

end BhtBhte.Spv
