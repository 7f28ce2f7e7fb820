import BhtBhte.Node.Records
import Mathlib.Data.List.Sort

/-!
# Snapshots, tries and the block index

How the node copies its account maps, computes trie roots and records them, and indexes
blocks.  Every operation here changes one field of the node.
-/
namespace BhtBhte.Node
open BhtBhte.Lib
variable [Platform]

/-! ## Copies -/

/-- A copy of a map, written under normalised addresses in the order of the range. -/
def copyMap {V : Type} (σ : RangeOrder) (input : FinMap String V) : FinMap String V :=
  FinMap.rekey normalizeAddress (input.range σ)

/-- A copy under normalised keys; of two spellings the last in the order stays. -/
def copyStringMap (σ : RangeOrder) (input : FinMap String String) : FinMap String String :=
  copyMap σ input

/-- The same for nonces. -/
def copyNonceMap (σ : RangeOrder) (input : FinMap String ℕ) : FinMap String ℕ :=
  copyMap σ input

/-- The slots of one account, copied under normalised storage keys. -/
def copySlots (σ : RangeOrder) (slots : FinMap String String) : FinMap String String :=
  FinMap.rekey normalizeStorageKey (slots.range σ)

/-- The same for storage, with the slots of each account copied as well. -/
def copyNestedStringMap (ω : Choices) (input : FinMap String (FinMap String String)) :
    FinMap String (FinMap String String) :=
  FinMap.rekey normalizeAddress <| (input.range ω.order).mapIdx fun i e =>
    (e.1, copySlots (ω.call i).order e.2)

/-- The four maps copied one after the other. -/
def World.copy (w : World) (ω : Choices) : World where
  balances := copyStringMap (ω.call 0).order w.balances
  nonces := copyNonceMap (ω.call 1).order w.nonces
  code := copyStringMap (ω.call 2).order w.code
  storage := copyNestedStringMap (ω.call 3) w.storage

/-- The balance under a spelling of an address, zero when there is none. -/
def World.balance (w : World) (addr : String) : ℤ :=
  if addr = "" then 0 else parseQuantity ((w.balances.get? addr).getD "")

/-! ## Tries -/

/-- The keys of a `seen` set that are addresses, in order. -/
def sortedAddresses (keys : List String) : List String :=
  let seen := keys.foldl (fun seen account => seen.insert (normalizeAddress account) true) ∅
  (FinMap.keys (V := Bool) seen).filter isHexAddress

/-- The listed addresses, in normal form and once each. -/
theorem mem_sortedAddresses {keys : List String} {a : String} :
    a ∈ sortedAddresses keys ↔ isHexAddress a = true ∧ ∃ k ∈ keys, normalizeAddress k = a := by
  have hfold : ∀ (l : List String) (seen : FinMap String Bool) a,
      a ∈ (l.foldl (fun seen account => seen.insert (normalizeAddress account) true) seen).keys ↔
        (∃ k ∈ l, normalizeAddress k = a) ∨ a ∈ seen.keys := by
    intro l
    induction l with
    | nil => simp
    | cons k l ih =>
        intro seen a
        rw [List.foldl_cons, ih, FinMap.mem_keys_insert, List.exists_mem_cons_iff,
          eq_comm (a := a), or_assoc, or_left_comm]
  rw [sortedAddresses, List.mem_filter, hfold]
  simp only [FinMap.keys, EmptyCollection.emptyCollection, List.map_nil, List.not_mem_nil, or_false]
  tauto

theorem nodup_sortedAddresses (keys : List String) : (sortedAddresses keys).Nodup :=
  (FinMap.nodup_keys _).filter _

def sortedSnapshotAccounts (w : World) : List String :=
  sortedAddresses (w.balances.keys ++ w.nonces.keys ++ w.code.keys ++ w.storage.keys)

/-- The storage trie of an account. -/
def buildStorageTrieFromSnapshot (w : World) (addr : String) : Trie :=
  let slots := (w.storage.get? (normalizeAddress addr)).getD ∅
  let keys := (slots.keys.map normalizeStorageKey).insertionSort (· ≤ ·)
  keys.map fun key =>
    (Platform.keccak256 (fromHex key),
      Platform.rlpBytes (trimLeftZeroes (fromHex ((slots.get? key).getD ""))))

def storageRootFromSnapshot (w : World) (addr : String) : String :=
  hexString (Platform.trieRoot (buildStorageTrieFromSnapshot w addr))

/-- The hash of the code of an account. -/
def codeHashFromSnapshot (w : World) (addr : String) : Bytes :=
  Platform.keccak256 (fromHex ((w.code.get? (normalizeAddress addr)).getD ""))

/-- The trie of all accounts. -/
def buildStateTrieFromSnapshot (w : World) : Trie :=
  (sortedSnapshotAccounts w).map fun account =>
    (Platform.keccak256 (hexToAddress account),
      Platform.rlpAccount
        { nonce := (w.nonces.get? account).getD 0
          balance := (parseQuantity ((w.balances.get? account).getD "") % 2 ^ 256).toNat
          root := hexToHash (storageRootFromSnapshot w account)
          codeHash := codeHashFromSnapshot w account })

def stateTrieRoot (w : World) : String :=
  hexString (Platform.trieRoot (buildStateTrieFromSnapshot w))

/-- A log as the consensus encoding has it. -/
def LogRecord.toGethLog (lg : LogRecord) : ConsensusLog where
  address := hexToAddress lg.address
  topics := lg.topics.map fun topic => hexToHash topic.text
  data := fromHex lg.data

omit [Platform] in
/-- Topics are hashed rune by rune, so that reading them back makes no difference. -/
@[simp] theorem LogRecord.toGethLog_reread (lg : LogRecord) : lg.reread.toGethLog = lg.toGethLog := by
  simp only [toGethLog, reread, List.map_map, Function.comp_def, Topic.text_reread]

/-- The bloom filter of logs. -/
def bloomOf (logs : List LogRecord) : Bytes :=
  Platform.createBloom (logs.map LogRecord.toGethLog)

/-- The fields of `toGethReceipt` that enter the encoding of a receipt. -/
def ReceiptRecord.toGethReceipt (r : ReceiptRecord) : ConsensusReceipt where
  status := quantity64 r.status
  cumulativeGasUsed := quantity64 r.cumulativeGasUsed
  bloom := bloomOf r.logs
  logs := r.logs.map LogRecord.toGethLog

@[simp] theorem ReceiptRecord.toGethReceipt_reread (r : ReceiptRecord) :
    r.reread.toGethReceipt = r.toGethReceipt := by
  have hlogs : r.reread.logs.map LogRecord.toGethLog = r.logs.map LogRecord.toGethLog := by
    simp only [reread, List.map_map, Function.comp_def, LogRecord.toGethLog_reread]
  rw [toGethReceipt, toGethReceipt, bloomOf, bloomOf, hlogs]
  rfl

/-- The trie of the receipts of a block, by their index. -/
def buildReceiptTrie (receipts : List ReceiptRecord) : Trie :=
  receipts.mapIdx fun i r => (Platform.rlpUint i, Platform.rlpReceipt r.toGethReceipt)

def receiptTrieRoot (receipts : List ReceiptRecord) : String :=
  hexString (Platform.trieRoot (buildReceiptTrie receipts))

def receiptBloomHex (r : ReceiptRecord) : String := hexString (bloomOf r.logs)

def blockLogsBloomHex (receipts : List ReceiptRecord) : String :=
  hexString (Platform.mergeBloom (receipts.map fun r => bloomOf r.logs))

/-! ## Operations of the node -/

namespace RpcNode

/-- The last block; the source would panic on an empty chain. -/
def lastBlock (n : RpcNode) : BlockRecord := n.blocks.getLastD {}

/-- Write every file of the data directory. -/
def save (n : RpcNode) : RpcNode :=
  { n with disk :=
      { state := some n.toNodeState
        chain := some ⟨n.blocks, n.canonical, n.blockIndex⟩
        stateDB := some ⟨n.accounts, n.world, n.stateSnapshots⟩
        history := some ⟨n.pendingTxs, n.txs, n.receipts, n.logs, n.withdrawals, n.anchors⟩
        trie := some n.trieCommits } :: n.disk }

/-- A copy of the live accounts. -/
def currentStateSnapshot (n : RpcNode) (ω : Choices) (blockHash stateRoot : String) :
    StateSnapshotRecord where
  height := n.height
  blockHash := blockHash
  stateRoot := stateRoot
  complete := true
  source := "local"
  world := n.world.copy (ω.call 0)
  timestamp := (ω.call 1).unix

/-- Keep a copy of the live accounts for a height. -/
def storeStateSnapshot (n : RpcNode) (ω : Choices) (height : ℕ) (blockHash stateRoot : String) :
    RpcNode :=
  let snapshot := { n.currentStateSnapshot ω blockHash stateRoot with height := height }
  { n with stateSnapshots := n.stateSnapshots.insert height snapshot }

/-- Put the accounts and the height back to a snapshot. -/
def restoreStateSnapshot (n : RpcNode) (ω : Choices) (snapshot : StateSnapshotRecord) : RpcNode :=
  { n with height := snapshot.height, world := snapshot.world.copy ω }

/-- Append trie commits. -/
def addCommits (n : RpcNode) (commits : List TrieCommitRecord) : RpcNode :=
  { n with trieCommits := n.trieCommits ++ commits }

/-- Record a commit, unless the same root is recorded for this kind and height. -/
def persistTrieNodes (n : RpcNode) (ω : Choices) (root kind : String) (height : ℕ)
    (nodes : Option (List TrieNode)) : RpcNode :=
  match nodes with
  | none => n
  | some nodes =>
      if n.trieCommits.any fun c => equalFold c.root root && c.kind = kind && c.height = height then n
      else
        n.addCommits
          [{ root := root
             kind := kind
             height := height
             nodes := nodes.map fun node =>
               ⟨hexString node.hash, String.ofList (hexEncode node.path), hexString node.blob,
                 node.deleted⟩
             timestamp := ω.unix }]

/-- Commit the storage trie of an account. -/
def persistStorageTrie (n : RpcNode) (ω : Choices) (addr : String) : RpcNode :=
  let tr := buildStorageTrieFromSnapshot (n.currentStateSnapshot (ω.call 0) "" "").world addr
  n.persistTrieNodes (ω.call 1) (hexString (Platform.trieRoot tr)) ("storage:" ++ addr) n.height
    (Platform.trieNodes tr)

/-- Every address that the live accounts know, in order. -/
def sortedAccounts (n : RpcNode) : List String :=
  sortedAddresses (n.world.balances.keys ++ n.world.nonces.keys ++ n.accounts ++
    n.world.code.keys ++ n.world.storage.keys)

/-- Commit the storage trie of every listed account that has slots. -/
def persistStorageTries (n : RpcNode) (ω : Choices) : List String → RpcNode
  | [] => n
  | account :: accounts =>
      let slots := (n.world.storage.get? account).getD ∅
      let n := if slots.entries = [] then n else n.persistStorageTrie (ω.call 0) account
      n.persistStorageTries (ω.call 1) accounts

/-- The root of the live accounts, with its tries committed. -/
def computeStateTrieRoot (n : RpcNode) (ω : Choices) : String × RpcNode :=
  let n := n.persistStorageTries (ω.call 0) n.sortedAccounts
  let tr := buildStateTrieFromSnapshot (n.currentStateSnapshot (ω.call 1) "" "").world
  let root := hexString (Platform.trieRoot tr)
  (root, n.persistTrieNodes (ω.call 2) root "state" n.height (Platform.trieNodes tr))

/-- The root of receipts, with its trie committed. -/
def computeReceiptTrieRoot (n : RpcNode) (ω : Choices) (receipts : List ReceiptRecord) :
    String × RpcNode :=
  let tr := buildReceiptTrie receipts
  let root := hexString (Platform.trieRoot tr)
  (root, n.persistTrieNodes ω root "receipts" n.height (Platform.trieNodes tr))

/-- Enter a block in the index.  An entry that is there keeps the greater weight and stays
canonical. -/
def indexBlock (n : RpcNode) (ω : Choices) (block : BlockRecord) (canonical validated : Bool)
    (source peerId : String) : RpcNode :=
  let height := quantity64 block.number
  let parentWeight := ((n.blockIndex.get? (toLower block.parentHash)).map (·.totalWeight)).getD 0
  let weight := u64 (parentWeight + 1)
  let key := toLower block.hash
  let record : BlockIndexRecord := match n.blockIndex.get? key with
    | some existing =>
        { hash := block.hash
          parentHash := block.parentHash
          height := height
          totalWeight := if existing.totalWeight = 0 ∨ existing.totalWeight < weight then weight
            else existing.totalWeight
          canonical := existing.canonical || canonical
          validated := existing.validated || validated
          source := if existing.source = "" then source else existing.source
          peerId := if existing.peerId = "" then peerId else existing.peerId
          receivedAt := if existing.receivedAt = 0 then ω.unix else existing.receivedAt }
    | none =>
        { hash := block.hash
          parentHash := block.parentHash
          height := height
          totalWeight := weight
          canonical := canonical
          validated := validated
          source := source
          peerId := peerId
          receivedAt := ω.unix }
  { n with blockIndex := n.blockIndex.insert key record }

/-- Indexing a canonical block writes one canonical entry at the block's height. -/
theorem indexBlock_eq (n : RpcNode) (ω : Choices) (block : BlockRecord) (source peerId : String) :
    ∃ record, n.indexBlock ω block true true source peerId =
        { n with blockIndex := n.blockIndex.insert (toLower block.hash) record } ∧
      record.canonical = true ∧ record.height = quantity64 block.number := by
  cases hkey : n.blockIndex.get? (toLower block.hash) with
  | some existing =>
      simp only [indexBlock, hkey]
      exact ⟨_, rfl, Bool.or_true _, rfl⟩
  | none =>
      simp only [indexBlock, hkey]
      exact ⟨_, rfl, rfl, rfl⟩

end RpcNode

end BhtBhte.Node
