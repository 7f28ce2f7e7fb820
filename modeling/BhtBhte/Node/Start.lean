import BhtBhte.Node.Replay

/-!
# Starting a node, and its runs

The command line, the start of a node from its data directory, and the calls that a running node
serves.  `RpcNode.next` is what a call does; a node is reachable when calls and restarts lead to it
from a fresh one while it has less than `2 ^ 63` blocks.
-/
namespace BhtBhte.Node
open BhtBhte.Lib
variable [Platform]

/-- Flags in order, the last one wins; a flag without its value is ignored. -/
def parseArgs (cfg : Config) : List String → Config
  | [] => cfg
  | "--account" :: v :: args => parseArgs { cfg with accounts := [toLower v] } args
  | "--bridge.address" :: v :: args =>
      parseArgs { cfg with bridgeAddress := normalizeAddress v } args
  | "--bht.rpc" :: v :: args => parseArgs { cfg with bhtRPC := v } args
  | "--http.addr" :: _ :: args => parseArgs cfg args
  | "--http.port" :: _ :: args => parseArgs cfg args
  | "--datadir" :: _ :: args => parseArgs cfg args
  | "--bht.rpcuser" :: _ :: args => parseArgs cfg args
  | "--bht.rpcpass" :: _ :: args => parseArgs cfg args
  | "--dev-insecure" :: args => parseArgs { cfg with strictMode := false } args
  | "--no-automine" :: args => parseArgs { cfg with autoMine := false } args
  | _ :: args => parseArgs cfg args

/-- The balance every listed account starts with. -/
def initialBalance : String := "0x3635c9adc5dea00000"

def defaultAccount : String := "0x0000000000000000000000000000000000000100"

/-- The state before anything is loaded. -/
def initialState (cfg : Config) : NodeState where
  height := 1
  accounts := cfg.accounts
  world := { balances := (∅ : FinMap String String).insert defaultAccount initialBalance }

namespace RpcNode

/-- Read the state file; one without accounts counts as none. -/
def load (n : RpcNode) (files : Files) : RpcNode :=
  match files.state with
  | some state => if state.accounts = [] then n else { n with toNodeState := state.reread }
  | none => n

/-- Read the chain from its own file. -/
def loadChainDB (n : RpcNode) (files : Files) : RpcNode :=
  match files.chain with
  | some chain =>
      if chain.blocks = [] then n
      else { n with
        blocks := chain.blocks
        canonical := chain.canonical
        blockIndex := chain.blockIndex }
  | none => n

/-- Read the accounts from their own file. -/
def loadStateDB (n : RpcNode) (files : Files) : RpcNode :=
  match files.stateDB with
  | some db => { n with
      accounts := if db.accounts = [] then n.accounts else db.accounts
      world := db.world
      stateSnapshots := db.stateSnapshots }
  | none => n

/-- Read the history from its own file. -/
def loadHistoryDB (n : RpcNode) (files : Files) : RpcNode :=
  match files.history with
  | some db => { n with
      pendingTxs := db.pendingTxs
      txs := db.txs
      receipts := db.receipts.mapValues ReceiptRecord.reread
      logs := db.logs.map LogRecord.reread
      withdrawals := db.withdrawals
      anchors := db.anchors }
  | none => n

/-- Read the trie commits. -/
def loadTrieDB (n : RpcNode) (files : Files) : RpcNode :=
  match files.trie with
  | some commits => { n with trieCommits := commits }
  | none => n

/-- The genesis block, with its state root computed over the accounts at that moment. -/
def genesisBlock (n : RpcNode) (ω : Choices) : BlockRecord × RpcNode :=
  let state := n.computeStateTrieRoot (ω.call 0)
  ({ number := "0x1"
     hash := hashHex (utf8 "bhte-genesis")
     parentHash := zeroHash
     stateRoot := state.1
     txRoot := zeroHash
     receiptRoot := zeroHash
     logsBloom := zeroHash
     timestamp := toHex (u64 (ω.call 1).unix) }, state.2)

/-- Enter every block in the canonical map and the index. -/
def indexBlocks (n : RpcNode) (ω : Choices) : List BlockRecord → RpcNode
  | [] => n
  | block :: blocks =>
      let n := { n with canonical := n.canonical.insert (quantity64 block.number) block.hash }
      (n.indexBlock (ω.call 0) block true true "local" "").indexBlocks (ω.call 1) blocks

/-- A snapshot of an older version that does not say where it comes from. -/
def completeLegacy (s : StateSnapshotRecord) : StateSnapshotRecord :=
  if ¬ s.complete ∧ s.source = "" then { s with complete := true, source := "legacy-local" } else s

def initialScore (peer : PeerRecord) : PeerRecord :=
  if peer.score = 0 ∧ peer.failures = 0 ∧ peer.bannedUntil = 0 then
    { peer with score := peerScoreInitial }
  else peer

/-- The accounts in normal form, the default one when none is given. -/
def ensureAccounts (accounts : List String) : List String :=
  (if accounts = [] then [defaultAccount] else accounts).map normalizeAddress

/-- Normalise the accounts and repair old records. -/
def repairRecords (n : RpcNode) : RpcNode :=
  { n with
    height := if n.height = 0 then 1 else n.height
    accounts := ensureAccounts n.accounts
    stateSnapshots := n.stateSnapshots.mapValues completeLegacy
    peers := n.peers.mapValues initialScore }

/-- Start a chain when there is none. -/
def ensureGenesis (n : RpcNode) (ω : Choices) : RpcNode :=
  if n.blocks = [] then
    let genesis := n.genesisBlock ω
    { genesis.2 with blocks := [genesis.1] }
  else n

/-- Index every block of the chain. -/
def ensureIndex (n : RpcNode) (ω : Choices) : RpcNode := n.indexBlocks ω n.blocks

/-- Give every account without a balance the initial one. -/
def ensureBalance (balances : FinMap String String) (account : String) : FinMap String String :=
  if (balances.get? account).isSome then balances else balances.insert account initialBalance

/-- Every account of the node has a balance. -/
def ensureBalances (n : RpcNode) : RpcNode :=
  { n with world := { n.world with balances := n.accounts.foldl ensureBalance n.world.balances } }

/-- Take a snapshot of the head when it has none. -/
def ensureSnapshot (n : RpcNode) (ω : Choices) : RpcNode :=
  let latest := n.lastBlock
  let height := quantity64 latest.number
  if (n.stateSnapshots.get? height).isSome then n
  else n.storeStateSnapshot ω height latest.hash latest.stateRoot

/-- Repair what was read. -/
def ensureState (n : RpcNode) (ω : Choices) : RpcNode :=
  (((n.repairRecords.ensureGenesis (ω.call 0)).ensureIndex (ω.call 1)).ensureBalances).ensureSnapshot
    (ω.call 2)

end RpcNode

/-- A node started on a data directory. -/
def newRPCNode (cfg : Config) (ω : Choices) (files : Files) : RpcNode :=
  let n : RpcNode := { toNodeState := initialState cfg, disk := [files] }
  (((((n.load files).loadChainDB files).loadStateDB files).loadHistoryDB files).loadTrieDB
    files).ensureState ω

/-! ## What starting a node gives -/

namespace RpcNode

/-- Indexing the chain writes the canonical map and, for each block, one index entry. -/
theorem indexBlocks_eq (n : RpcNode) (ω : Choices) (l : List BlockRecord) :
    ∃ index, n.indexBlocks ω l = { n with
        canonical := l.foldl (fun c b => c.insert (quantity64 b.number) b.hash) n.canonical
        blockIndex := index } ∧
      ∀ key i, index.get? key = some i →
        n.blockIndex.get? key = some i ∨ ∃ b ∈ l, i.height = quantity64 b.number := by
  induction l generalizing n ω with
  | nil => exact ⟨n.blockIndex, rfl, fun key i hi => .inl hi⟩
  | cons b l ih =>
      obtain ⟨record, hrecord, -, hheight⟩ := indexBlock_eq
        { n with canonical := n.canonical.insert (quantity64 b.number) b.hash } (ω.call 0) b "local" ""
      obtain ⟨index, hindex, hentries⟩ := ih
        { n with
          canonical := n.canonical.insert (quantity64 b.number) b.hash
          blockIndex := n.blockIndex.insert (toLower b.hash) record } (ω.call 1)
      refine ⟨index, ?_, fun key i hi => ?_⟩
      · rw [indexBlocks, hrecord]
        exact hindex
      · rcases hentries key i hi with hi | ⟨b', hb', hi⟩
        · rw [FinMap.get?_insert] at hi
          split at hi
          · cases hi
            exact .inr ⟨b, List.mem_cons_self, hheight⟩
          · exact .inl hi
        · exact .inr ⟨b', List.mem_cons_of_mem _ hb', hi⟩

/-- What a restart puts in place before it completes the state: the saved node. -/
theorem newRPCNode_save {n : RpcNode} (haccounts : n.accounts ≠ []) (hblocks : n.blocks ≠ [])
    (cfg : Config) (ω : Choices) :
    newRPCNode cfg ω (n.save.disk.headD {}) =
      { n with
        toNodeState := n.toNodeState.reread
        replayMode := false
        disk := [n.save.disk.headD {}] }.ensureState ω := by
  rw [newRPCNode]
  congr 1
  simp only [save, List.headD_cons, load, loadChainDB, loadStateDB, loadHistoryDB, loadTrieDB,
    haccounts, hblocks, if_false]
  rfl

end RpcNode

omit [Platform] in
theorem quantity64_one : quantity64 "0x1" = 1 := by decide +kernel

/-- The genesis block a fresh node makes. -/
def freshGenesis (ω : Choices) : BlockRecord where
  number := "0x1"
  hash := hashHex (utf8 "bhte-genesis")
  parentHash := zeroHash
  stateRoot := stateTrieRoot (World.copy
    { balances := (∅ : FinMap String String).insert defaultAccount initialBalance }
    ((((ω.call 0).call 0).call 1).call 0))
  txRoot := zeroHash
  receiptRoot := zeroHash
  logsBloom := zeroHash
  timestamp := toHex (u64 ((ω.call 0).call 1).unix)

/-- The accounts of a fresh node. -/
def freshWorld (cfg : Config) : World where
  balances := (RpcNode.ensureAccounts cfg.accounts).foldl RpcNode.ensureBalance
    ((∅ : FinMap String String).insert defaultAccount initialBalance)

/-- The index entry of the genesis block of a fresh node. -/
def freshIndex (ω : Choices) : BlockIndexRecord where
  hash := (freshGenesis ω).hash
  parentHash := zeroHash
  height := 1
  totalWeight := 1
  canonical := true
  validated := true
  source := "local"
  peerId := ""
  receivedAt := ((ω.call 1).call 0).unix

/-- **A fresh node.** One genesis block, its snapshot, and commits of its root at height one. -/
theorem newRPCNode_fresh (cfg : Config) (ω : Choices) :
    ∃ (ω₁ : Choices) (l : List TrieCommitRecord) (timestamp : ℤ), newRPCNode cfg ω {} =
        { height := 1
          accounts := RpcNode.ensureAccounts cfg.accounts
          world := freshWorld cfg
          blocks := [freshGenesis ω]
          canonical := (∅ : FinMap ℕ String).insert 1 (freshGenesis ω).hash
          blockIndex := (∅ : FinMap String BlockIndexRecord).insert
            (toLower (freshGenesis ω).hash) (freshIndex ω)
          stateSnapshots := (∅ : FinMap ℕ StateSnapshotRecord).insert 1
            ⟨1, (freshGenesis ω).hash, (freshGenesis ω).stateRoot, true, "local",
              (freshWorld cfg).copy ω₁, timestamp⟩
          trieCommits := l
          disk := [{}] } ∧
      (∀ c ∈ l, c.height = 1 ∧ c.root = (freshGenesis ω).stateRoot ∧ c.kind = "state") := by
  let start : RpcNode :=
    { height := 1
      accounts := RpcNode.ensureAccounts cfg.accounts
      world := { balances := (∅ : FinMap String String).insert defaultAccount initialBalance }
      disk := [{}] }
  have hnew : newRPCNode cfg ω {} = ((((start.ensureGenesis (ω.call 0)).ensureIndex
      (ω.call 1)).ensureBalances).ensureSnapshot (ω.call 2)) := rfl
  obtain ⟨l, hl, hheight⟩ := start.computeStateTrieRoot_eq ((ω.call 0).call 0)
  have hroot := start.computeStateTrieRoot_root ((ω.call 0).call 0)
  have hgenesis : start.ensureGenesis (ω.call 0) =
      { start.addCommits l with blocks := [freshGenesis ω] } := by
    rw [RpcNode.ensureGenesis, if_pos rfl, RpcNode.genesisBlock]
    dsimp only
    rw [hl, hroot]
    rfl
  have hnumber : quantity64 (freshGenesis ω).number = 1 := quantity64_one
  have hindex : ({ start.addCommits l with blocks := [freshGenesis ω] } : RpcNode).ensureIndex
      (ω.call 1) = { start.addCommits l with
        blocks := [freshGenesis ω]
        canonical := (∅ : FinMap ℕ String).insert 1 (freshGenesis ω).hash
        blockIndex := (∅ : FinMap String BlockIndexRecord).insert
          (toLower (freshGenesis ω).hash) (freshIndex ω) } := by
    simp only [RpcNode.ensureIndex, RpcNode.indexBlocks, RpcNode.indexBlock, hnumber]
    rfl
  have hcommits : ∀ c ∈ l, c.height = 1 ∧ c.root = (freshGenesis ω).stateRoot ∧
      c.kind = "state" := by
    intro c hc
    refine ⟨hheight c hc, ?_⟩
    have hmem : c ∈ (start.computeStateTrieRoot ((ω.call 0).call 0)).2.trieCommits := by
      rw [hl]
      exact List.mem_append_right _ hc
    rw [start.computeStateTrieRoot_of_empty rfl] at hmem
    exact (RpcNode.root_of_mem_persistTrieNodes hmem).resolve_left List.not_mem_nil
  refine ⟨(ω.call 2).call 0, l, ((ω.call 2).call 1).unix, ?_, hcommits⟩
  rw [hnew, hgenesis, hindex]
  generalize hm : RpcNode.ensureBalances _ = m
  have hlast : m.lastBlock = freshGenesis ω := by rw [← hm]; rfl
  have hnone : m.stateSnapshots.get? 1 = none := by rw [← hm]; rfl
  rw [RpcNode.ensureSnapshot, hlast, hnumber, hnone, if_neg (by simp), ← hm]
  rfl

/-! ## Runs -/

/-- The calls that change a node.  A sync is one `syncBlock` for each fetched block and one
`setPeer`; a restart saves the node and starts a new one on what was written. -/
inductive Event
  | sendTransaction (tx : Object)
  | sendRawTransaction (rawTx : String)
  | mineBlock
  | handleReorg (height : ℕ) (newHash : String)
  | syncBlock (block : PeerBlock)
  | setPeer (peer : PeerRecord)
  | submitBridgeEvent (event : Object)
  | initiateWithdrawal (request : Object)
  | processWithdrawal (id : String) (answer : Except String String)
  | submitAnchor (anchor : Object)
  | replayChain
  | validateBlock (block : BlockRecord)
  | restart

/-- What a call does to the node. -/
def RpcNode.next (n : RpcNode) (cfg : Config) (ω : Choices) : Event → RpcNode
  | .sendTransaction tx => (n.sendTransaction cfg ω tx).2
  | .sendRawTransaction rawTx => (n.addRawTransaction cfg ω rawTx).2
  | .mineBlock => (n.minePendingBlock cfg ω).2
  | .handleReorg height newHash => (n.handleReorg ω height newHash).2
  | .syncBlock block => (n.syncBlock cfg ω (n.height + 1) block).2
  | .setPeer peer => n.setPeer peer
  | .submitBridgeEvent event => n.submitBridgeEvent cfg ω event
  | .initiateWithdrawal request => (n.initiateWithdrawal cfg ω request).2
  | .processWithdrawal id answer => (n.processWithdrawal cfg ω id answer).2
  | .submitAnchor anchor => (n.submitAnchor ω anchor).2
  | .replayChain => (n.replayChain cfg ω).2
  | .validateBlock block => (n.validateBlockRecord cfg ω block).2
  | .restart => newRPCNode cfg ω (n.save.disk.headD {})

/-- One call.  A slice never holds `2 ^ 63` blocks: the append that would make it so
panics. -/
def Step (cfg : Config) (ok : RpcNode → Choices → Event → Prop) (n n' : RpcNode) : Prop :=
  ∃ ω e, ok n ω e ∧ n' = n.next cfg ω e ∧ n'.blocks.length < 2 ^ 63

/-- Reached from a fresh node by calls that all meet `ok`. -/
def ReachableBy (cfg : Config) (ok : RpcNode → Choices → Event → Prop) (n : RpcNode) : Prop :=
  ∃ ω, Relation.ReflTransGen (Step cfg ok) (newRPCNode cfg ω {}) n

/-- Reached from a fresh node by any calls. -/
def Reachable (cfg : Config) (n : RpcNode) : Prop := ReachableBy cfg (fun _ _ _ => True) n

theorem ReachableBy.next {cfg : Config} {ok : RpcNode → Choices → Event → Prop} {n : RpcNode}
    (h : ReachableBy cfg ok n) {ω : Choices} {e : Event} (hok : ok n ω e)
    (hlen : (n.next cfg ω e).blocks.length < 2 ^ 63) : ReachableBy cfg ok (n.next cfg ω e) := by
  obtain ⟨ω₀, hrun⟩ := h
  exact ⟨ω₀, hrun.tail ⟨ω, e, hok, rfl, hlen⟩⟩

/-- A weaker condition on the calls allows the same run. -/
theorem ReachableBy.mono {cfg : Config} {ok ok' : RpcNode → Choices → Event → Prop} {n : RpcNode}
    (h : ReachableBy cfg ok n) (hok : ∀ m ω e, ok m ω e → ok' m ω e) : ReachableBy cfg ok' n := by
  obtain ⟨ω, hrun⟩ := h
  have hstep : ∀ m m', Step cfg ok m m' → Step cfg ok' m m' := by
    rintro m m' ⟨ω', e, he, hnext⟩
    exact ⟨ω', e, hok _ _ _ he, hnext⟩
  exact ⟨ω, Relation.ReflTransGen.mono hstep _ _ hrun⟩

theorem ReachableBy.reachable {cfg : Config} {ok : RpcNode → Choices → Event → Prop} {n : RpcNode}
    (h : ReachableBy cfg ok n) : Reachable cfg n := h.mono fun _ _ _ _ => trivial

/-- What holds of a fresh node and is kept by every allowed call holds of every node
reached. -/
theorem ReachableBy.induct {cfg : Config} {ok : RpcNode → Choices → Event → Prop}
    {P : RpcNode → Prop} (hfresh : ∀ ω, P (newRPCNode cfg ω {}))
    (hstep : ∀ n ω e, P n → ok n ω e → (n.next cfg ω e).blocks.length < 2 ^ 63 →
      P (n.next cfg ω e)) {n : RpcNode} (h : ReachableBy cfg ok n) : P n := by
  obtain ⟨ω, hrun⟩ := h
  induction hrun with
  | refl => exact hfresh ω
  | tail _ hs ih =>
      obtain ⟨ω', e, hok, rfl, hlen⟩ := hs
      exact hstep _ ω' e ih hok hlen

end BhtBhte.Node
