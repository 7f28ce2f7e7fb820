import BhtBhte.Node.Agreement
import BhtBhte.Node.Finality
import BhtBhte.Node.ForkChoice
import BhtBhte.Node.History
import BhtBhte.Node.References

/-!
# Reading a node

The calls that answer from the node's records and write nothing.
-/
namespace BhtBhte.Node
open BhtBhte.Lib
variable [Platform]

/-! ## Blocks and accounts -/

namespace RpcNode

/-- The pending block is the head with the pending transactions. -/
def blockByNumber (n : RpcNode) (number : String) : Option BlockRecord :=
  if number = "latest" ∨ number = "" then some n.lastBlock
  else if number = "pending" then some { n.lastBlock with transactions := n.pendingTxs }
  else n.blocks.find? fun block => quantity64 block.number = quantity64 number

/-- The answer of `eth_getStorageAt`. -/
def storageAt (n : RpcNode) (addr key : String) : String :=
  match n.world.storage.get? addr with
  | none => zeroHash
  | some slots => stringOrDefault ((slots.get? key).getD "") zeroHash

/-- A word of 63 zeros and a last digit. -/
def boolWord (digit : Char) : String :=
  "0x" ++ String.ofList (List.replicate 63 '0' ++ [digit])

/-- A call runs no code: the bridge answers two selectors, everything else is empty. -/
def callContract (cfg : Config) (tx : Object) : String :=
  let recipient := normalizeAddress (text tx "to")
  let data := text tx "data"
  let input := if data = "<nil>" then text tx "input" else data
  if recipient = cfg.bridgeAddress then
    if abiSelector input = "0x3f4ba83a" then boolWord '0'
    else if abiSelector input = "0x5c975abb" then boolWord '1'
    else "0x"
  else "0x"

/-! ## Lists -/

/-- The pending transactions by sender and nonce; the later of two takes the place. -/
def txpoolContent (n : RpcNode) : FinMap String (FinMap String TxRecord) :=
  n.pendingTxs.foldl (fun pending tx =>
    let sender := if tx.sender = "" then "0x0000000000000000000000000000000000000000" else tx.sender
    pending.insert sender (((pending.get? sender).getD ∅).insert tx.nonce tx)) ∅

/-- The newest logs of the bridge, newest first. -/
def bridgeEvents (n : RpcNode) (cfg : Config) (limit : ℤ) : List LogRecord :=
  (n.logs.reverse.filter fun lg => normalizeAddress lg.address = cfg.bridgeAddress).take
    (resultLimit limit)

/-- The peers by URL; peers of one URL stand in the order of the range. -/
def peerList (n : RpcNode) (ω : Choices) : List PeerRecord :=
  ((n.peers.range ω.order).map Prod.snd).mergeSort fun a b => !decide (b.url < a.url)

/-- The commits of a kind and height, newest first; an empty kind and a zero height match
all. -/
def getTrieCommits (n : RpcNode) (kind : String) (height : ℕ) : List TrieCommitRecord :=
  let kind := trimSpace kind
  n.trieCommits.reverse.filter fun commit =>
    !(kind ≠ "" && commit.kind ≠ kind) && !(height ≠ 0 && commit.height ≠ height)

/-- The answer of `getTrieNode`. -/
structure TrieNodeInfo where
  root : String
  kind : String
  height : String
  hash : String
  path : String
  blob : String
  deleted : Bool
deriving DecidableEq

/-- A recorded node of a trie. -/
def getTrieNode (n : RpcNode) (root hash : String) : Except String TrieNodeInfo :=
  match n.trieCommitByRoot root with
  | none => .error "trie commit not found"
  | some commit =>
      match commit.nodes.find? fun node => toLower node.hash = toLower hash with
      | none => .error "trie node not found"
      | some node =>
          .ok ⟨commit.root, commit.kind, toHex commit.height, node.hash, node.path, node.blob,
            node.deleted⟩

/-! ## Summaries -/

structure ConsensusStatus where
  engine : String := "bhte-dev-poa"
  height : String
  bestHash : String
  stateRoot : String
  peerCount : String
  finalized : String
  strictMode : Bool
deriving DecidableEq

def consensusStatus (n : RpcNode) (cfg : Config) : ConsensusStatus where
  height := toHex n.height
  bestHash := n.lastBlock.hash
  stateRoot := n.lastBlock.stateRoot
  peerCount := toHex n.peers.entries.length
  finalized := toHex n.finalizedHeight
  strictMode := cfg.strictMode

structure ForkChoiceStatus where
  engine : String := "bhte-dev-forkchoice"
  canonicalHead : Option HeadInfo
  bestKnownHead : Option HeadInfo
  finalized : String
  knownBlocks : String
  tips : List (Option HeadInfo)
  message : String := "highest validated cumulative-weight head is tracked; " ++
    "automatic non-canonical reorg adoption is not enabled yet"
deriving DecidableEq

def forkChoiceStatus (n : RpcNode) (ω : Choices) : ForkChoiceStatus where
  canonicalHead := (n.blockIndex.get? (toLower n.lastBlock.hash)).bind forkChoiceHeadInfo
  bestKnownHead := forkChoiceHeadInfo (n.bestIndexedHead (ω.call 0))
  finalized := toHex n.finalizedHeight
  knownBlocks := toHex n.blockIndex.entries.length
  tips := n.forkChoiceTips (ω.call 1)

structure SecurityStatus where
  strictMode : Bool
  autoMine : Bool
  minGasLimit : String
  maxGasLimit : String
  challengeSeconds : ℤ
  bridgeAddress : String
  bhtRpcConfigured : Bool
deriving DecidableEq

def securityStatus (cfg : Config) : SecurityStatus where
  strictMode := cfg.strictMode
  autoMine := cfg.autoMine
  minGasLimit := toHex cfg.minGasLimit
  maxGasLimit := toHex cfg.maxGasLimit
  challengeSeconds := cfg.challengeSeconds
  bridgeAddress := cfg.bridgeAddress
  bhtRpcConfigured := cfg.bhtRPC ≠ ""

/-! ## Anchors -/

/-- The answer of `verifyStateRoot`; the members after the message are given when there is an
anchor. -/
structure StateRootAnswer where
  valid : Bool
  message : String
  height : Option String := none
  stateRoot : Option String := none
  blockHash : Option String := none
deriving DecidableEq

/-- Compare a state root with the anchor recorded for a height. -/
def verifyStateRoot (n : RpcNode) (height : ℕ) (stateRoot : String) (proof : List String) :
    StateRootAnswer :=
  match n.anchors.get? height with
  | none => { valid := false, message := "anchor not found" }
  | some anchor =>
      let valid := equalFold anchor.stateRoot stateRoot &&
        proof.head?.all fun first => equalFold first stateRoot
      { valid := valid
        message := if valid then "state root verified" else "state root mismatch"
        height := some (toHex height)
        stateRoot := some anchor.stateRoot
        blockHash := some anchor.blockHash }

end RpcNode

/-! ## Reading the chain -/

/-- The texts that `eth_getBlockByNumber` does not read as numbers. -/
def isBlockTag (number : String) : Bool :=
  number = "latest" || number = "" || number = "pending"

namespace ChainOk
variable {n : RpcNode}

theorem blockAt_of_mem (h : ChainOk n) {b : BlockRecord} (hb : b ∈ n.blocks) :
    n.blockAt (quantity64 b.number) = some b := by
  obtain ⟨i, hi, rfl⟩ := List.mem_iff_getElem.mp hb
  have hat : n.blockAt (i + 1) = some n.blocks[i] := by
    rw [RpcNode.blockAt, if_neg (by omega), Nat.add_sub_cancel, List.getElem?_eq_getElem hi]
  rw [h.number_of_blockAt hat, hat]

/-- A number finds the block at its height. -/
theorem blockByNumber_eq (h : ChainOk n) {number : String} (htag : isBlockTag number = false) :
    n.blockByNumber number = n.blockAt (quantity64 number) := by
  simp only [isBlockTag, Bool.or_eq_false_iff, decide_eq_false_iff_not] at htag
  rw [RpcNode.blockByNumber, if_neg (not_or.mpr htag.1), if_neg htag.2]
  cases hfind : n.blocks.find? fun block => quantity64 block.number = quantity64 number with
  | some b =>
      have hnumber : quantity64 b.number = quantity64 number := by
        simpa using List.find?_some hfind
      rw [← hnumber, h.blockAt_of_mem (List.mem_of_find?_eq_some hfind)]
  | none =>
      cases hat : n.blockAt (quantity64 number) with
      | none => rfl
      | some b =>
          have hne := List.find?_eq_none.mp hfind b (mem_of_blockAt hat)
          exact absurd (h.number_of_blockAt hat) (by simpa using hne)

omit [Platform] in
theorem isBlockTag_toHex (k : ℕ) : isBlockTag (toHex k) = false := by
  have hne : ∀ t : String, t.toList.head? ≠ some '0' → toHex k ≠ t := by
    intro t ht
    rw [toHex]
    exact hexPrefix_ne ht
  simp [isBlockTag, hne "latest" (by decide), hne "pending" (by decide), hne "" (by decide)]

/-- The chain is read back block by block. -/
theorem blocks_readable (h : ChainOk n) :
    (List.range' 1 n.height).map (fun k => n.blockByNumber (toHex k)) = n.blocks.map some := by
  have hlen := h.length
  have hbound := h.bound
  refine List.ext_getElem (by simp [hlen]) fun i hi hi' => ?_
  rw [List.length_map] at hi'
  rw [List.getElem_map, List.getElem_map, List.getElem_range', Nat.one_mul,
    h.blockByNumber_eq (isBlockTag_toHex _), quantity64_toHex (by omega), RpcNode.blockAt,
    if_neg (by omega), Nat.add_sub_cancel_left, List.getElem?_eq_getElem hi']

end ChainOk

end BhtBhte.Node
