import BhtBhte.Node.Mine

/-!
# Peers and the import of their blocks

A peer's answers are arbitrary: `PeerAnswers` gives the reply to each call, an error or a
decoded value.
-/
namespace BhtBhte.Node
open BhtBhte.Lib
variable [Platform]

/-- A block as a peer sends it; an absent transaction list decodes to a nil slice. -/
structure PeerBlock where
  record : BlockRecord
  nilTransactions : Bool := false

/-- The replies of a peer to `eth_blockNumber` and to `eth_getBlockByNumber`. -/
structure PeerAnswers where
  blockNumber : Except String String
  block : ℕ → Except String PeerBlock

/-- The node's state that a replay puts back. -/
structure ReplaySave where
  height : ℕ
  snapshot : StateSnapshotRecord
  receipts : FinMap String ReceiptRecord
  logs : List LogRecord
  txs : List TxRecord
  withdrawals : FinMap String WithdrawalRecord
  anchors : FinMap ℕ AnchorRecord
  commits : List TrieCommitRecord
  replayMode : Bool

namespace RpcNode

/-- What a replay keeps of the node before it starts. -/
def replaySave (n : RpcNode) (ω : Choices) : ReplaySave where
  height := n.height
  snapshot := n.currentStateSnapshot ω "" ""
  receipts := n.receipts
  logs := n.logs
  txs := n.txs
  withdrawals := n.withdrawals
  anchors := n.anchors
  commits := n.trieCommits
  replayMode := n.replayMode

/-- Put the state back as it was before a replay. -/
def restoreReplayState (n : RpcNode) (ω : Choices) (before : ReplaySave) : RpcNode :=
  { { n with height := before.height }.restoreStateSnapshot ω before.snapshot with
    receipts := before.receipts
    logs := before.logs
    txs := before.txs
    withdrawals := before.withdrawals
    anchors := before.anchors
    trieCommits := before.commits
    replayMode := before.replayMode }

/-- A root given by a block matches the computed one; an empty one is not checked. -/
def rootMatches (given computed : String) : Bool := given = "" || equalFold given computed

/-- As `rootMatches`, with the zero hash not checked either. -/
def bloomMatches (given computed : String) : Bool := given = zeroHash || rootMatches given computed

/-- The checks on a peer's block before it is executed. -/
def validatePeerBlock (n : RpcNode) (block : PeerBlock) (expectedHeight : ℕ) :
    Except String Unit :=
  let b := block.record
  let existing := (n.canonical.get? expectedHeight).getD ""
  let parent := (n.canonical.get? (u64 (expectedHeight - 1))).getD ""
  let expectedParent := if parent = "" then n.lastBlock.hash else parent
  let expectedTxRoot := hashHex (utf8 (nilTxsJson block.nilTransactions b.transactions))
  let name := "peer block " ++ toString expectedHeight
  if b.hash = "" ∨ b.hash = zeroHash then .error (name ++ " missing hash")
  else if b.stateRoot = "" ∨ b.stateRoot = zeroHash then .error (name ++ " missing state root")
  else if b.receiptRoot = "" then .error (name ++ " missing receipt root")
  else if quantity64 b.number ≠ expectedHeight then
    .error ("peer block number mismatch: got " ++ b.number ++ " want " ++ toHex expectedHeight)
  else if existing ≠ "" ∧ ¬ equalFold existing b.hash then
    .error (name ++ " conflicts with canonical hash: got " ++ b.hash ++ " want " ++ existing)
  else if 1 < expectedHeight ∧ ¬ equalFold b.parentHash expectedParent then
    .error (name ++ " parent mismatch: got " ++ b.parentHash ++ " want " ++ expectedParent)
  else if ¬ rootMatches b.txRoot expectedTxRoot then
    .error (name ++ " tx root mismatch: got " ++ b.txRoot ++ " want " ++ expectedTxRoot)
  else .ok ()

/-- A peer's block executed on the live state. -/
def applyPeerBlock (n : RpcNode) (cfg : Config) (ω : Choices) (block : BlockRecord) :
    List TxRecord × List ReceiptRecord × RpcNode :=
  let height := quantity64 block.number
  applyTxs cfg block.hash height { n with height := height, replayMode := true } ω 0
    block.transactions

/-- Execute a peer's block and compare the roots; on a mismatch the state before it is put
back. -/
def replayPeerBlock (n : RpcNode) (cfg : Config) (ω : Choices) (block : BlockRecord) :
    Except String (List TxRecord × List ReceiptRecord) × RpcNode :=
  let before := n.replaySave (ω.call 0)
  let height := quantity64 block.number
  let r := n.applyPeerBlock cfg (ω.call 1) block
  let stateRoot := stateTrieRoot (r.2.2.currentStateSnapshot (ω.call 2) block.hash "").world
  let txRoot := hashTxs r.1
  let receiptRoot := receiptTrieRoot r.2.1
  let logsBloom := blockLogsBloomHex r.2.1
  let fail (message : String) := (Except.error ("peer block " ++ toString height ++ message),
    r.2.2.restoreReplayState (ω.call 3) before)
  if ¬ equalFold block.stateRoot stateRoot then
    fail (" state root mismatch: got " ++ stateRoot ++ " want " ++ block.stateRoot)
  else if ¬ rootMatches block.txRoot txRoot then
    fail (" replay tx root mismatch: got " ++ txRoot ++ " want " ++ block.txRoot)
  else if ¬ rootMatches block.receiptRoot receiptRoot then
    fail (" receipt root mismatch: got " ++ receiptRoot ++ " want " ++ block.receiptRoot)
  else if ¬ bloomMatches block.logsBloom logsBloom then
    fail (" logs bloom mismatch: got " ++ logsBloom ++ " want " ++ block.logsBloom)
  else (.ok (r.1, r.2.1), { r.2.2 with replayMode := before.replayMode })

/-- A transaction with this hash is pending or recorded. -/
def transactionByHash (n : RpcNode) (hash : String) : Option TxRecord :=
  (n.pendingTxs ++ n.txs).find? fun tx => toLower tx.hash = toLower hash

/-- Record the transactions of an imported block; one that is pending or recorded already
is not added to the list again. -/
def recordImported (n : RpcNode) : List TxRecord → List ReceiptRecord → RpcNode
  | tx :: txs, receipt :: receipts =>
      let n := { n with
        receipts := n.receipts.insert (toLower tx.hash) receipt
        logs := n.logs ++ receipt.logs }
      let n := if (n.transactionByHash tx.hash).isSome then n else { n with txs := n.txs ++ [tx] }
      n.recordImported txs receipts
  | _, _ => n

/-- Execute a peer's block on the live accounts and append it when its roots are right. -/
def importPeerBlock (n : RpcNode) (cfg : Config) (ω : Choices) (block : BlockRecord) :
    Except String Bool × RpcNode :=
  let height := quantity64 block.number
  let existing := (n.canonical.get? height).getD ""
  if existing ≠ "" ∧ equalFold existing block.hash then (.ok false, n)
  else
    let replayed := n.replayPeerBlock cfg (ω.call 0) block
    match replayed.1 with
    | .error e => (.error e, replayed.2)
    | .ok (minedTxs, receipts) =>
        let receipt := replayed.2.computeReceiptTrieRoot (ω.call 1) receipts
        let block := { block with
          transactions := minedTxs
          txRoot := hashTxs minedTxs
          receiptRoot := receipt.1
          logsBloom := blockLogsBloomHex receipts }
        (.ok true,
          (receipt.2.appendBlock (ω.call 2) block height "peer" block.txRoot).recordImported
            minedTxs receipts)

/-- One round of `syncPeerBlocks`: a fetched block is validated against its height and
imported. -/
def syncBlock (n : RpcNode) (cfg : Config) (ω : Choices) (height : ℕ) (block : PeerBlock) :
    Except String Bool × RpcNode :=
  match n.validatePeerBlock block height with
  | .error e => (.error e, n)
  | .ok _ => n.importPeerBlock cfg ω block.record

/-! ## What an import can do -/

/-- The node with its accounts copied out and back in, as a replay leaves it. -/
def recopied (n : RpcNode) (ω ω' : Choices) (disk : List Files) : RpcNode :=
  { n with world := (n.world.copy ω).copy ω', disk := disk }

/-- Restoring puts back everything but the spelling of the account keys. -/
theorem restoreReplayState_replaySave {n m : RpcNode} (h : SameIndex n m) (ω ω' : Choices) :
    m.restoreReplayState ω' (n.replaySave ω) = n.recopied (ω.call 0) ω' m.disk := by
  obtain ⟨haccounts, hpending, hblocks, hcanonical, hindex, hsnapshots, hpeers⟩ := h
  simp only [restoreReplayState, restoreStateSnapshot, replaySave, currentStateSnapshot, recopied,
    haccounts, hpending, hblocks, hcanonical, hindex, hsnapshots, hpeers]

theorem applyPeerBlock_sameChain (n : RpcNode) (cfg : Config) (ω : Choices) (block : BlockRecord) :
    SameChain { n with height := quantity64 block.number, replayMode := true }
      (n.applyPeerBlock cfg ω block).2.2 :=
  applyTxs_sameChain _

theorem applyPeerBlock_sameIndex (n : RpcNode) (cfg : Config) (ω : Choices) (block : BlockRecord) :
    SameIndex n (n.applyPeerBlock cfg ω block).2.2 :=
  have h := n.applyPeerBlock_sameChain cfg ω block
  ⟨h.accounts, h.pendingTxs, h.blocks, h.canonical, h.blockIndex, h.stateSnapshots, h.peers⟩

/-- A replayed peer block is rejected and undone, or accepted with matching roots. -/
theorem replayPeerBlock_cases (n : RpcNode) (cfg : Config) (ω : Choices) (block : BlockRecord) :
    (∃ e ω₁ ω₂ disk, n.replayPeerBlock cfg ω block = (.error e, n.recopied ω₁ ω₂ disk)) ∨
    (equalFold block.stateRoot (stateTrieRoot
        ((n.applyPeerBlock cfg (ω.call 1) block).2.2.world.copy ((ω.call 2).call 0))) = true ∧
      n.replayPeerBlock cfg ω block =
        (.ok ((n.applyPeerBlock cfg (ω.call 1) block).1, (n.applyPeerBlock cfg (ω.call 1) block).2.1),
          { (n.applyPeerBlock cfg (ω.call 1) block).2.2 with replayMode := n.replayMode })) := by
  have hrestore := restoreReplayState_replaySave
    (n.applyPeerBlock_sameIndex cfg (ω.call 1) block) (ω.call 0) (ω.call 3)
  rw [replayPeerBlock]
  dsimp only
  rw [hrestore]
  split
  · exact .inl ⟨_, _, _, _, rfl⟩
  · next hroot =>
      split
      · exact .inl ⟨_, _, _, _, rfl⟩
      · split
        · exact .inl ⟨_, _, _, _, rfl⟩
        · split
          · exact .inl ⟨_, _, _, _, rfl⟩
          · exact .inr ⟨not_not.mp hroot, rfl⟩

/-- The roots of a block match what executing it gave; `ω` is the order in which the accounts
are copied for the state root. -/
structure RootsMatch (block : BlockRecord) (r : List TxRecord × List ReceiptRecord × RpcNode)
    (ω : Choices) : Prop where
  state : equalFold block.stateRoot (stateTrieRoot (r.2.2.world.copy ω)) = true
  txs : rootMatches block.txRoot (hashTxs r.1) = true
  receipts : rootMatches block.receiptRoot (receiptTrieRoot r.2.1) = true
  bloom : bloomMatches block.logsBloom (blockLogsBloomHex r.2.1) = true

/-- A block whose roots match is accepted. -/
theorem replayPeerBlock_of_match {n : RpcNode} {cfg : Config} {ω : Choices} {block : BlockRecord}
    (h : RootsMatch block (n.applyPeerBlock cfg (ω.call 1) block) ((ω.call 2).call 0)) :
    n.replayPeerBlock cfg ω block =
      (.ok ((n.applyPeerBlock cfg (ω.call 1) block).1, (n.applyPeerBlock cfg (ω.call 1) block).2.1),
        { (n.applyPeerBlock cfg (ω.call 1) block).2.2 with replayMode := n.replayMode }) := by
  have hstate : equalFold block.stateRoot (stateTrieRoot
      ((n.applyPeerBlock cfg (ω.call 1) block).2.2.currentStateSnapshot (ω.call 2) block.hash
        "").world) = true := h.state
  rw [replayPeerBlock]
  dsimp only
  rw [if_neg (not_not_intro hstate), if_neg (not_not_intro h.txs),
    if_neg (not_not_intro h.receipts), if_neg (not_not_intro h.bloom)]
  rfl

/-- The block as it is stored after an import. -/
def importedBlock (block : BlockRecord) (mined : List TxRecord) (receipts : List ReceiptRecord) :
    BlockRecord :=
  { block with
    transactions := mined
    txRoot := hashTxs mined
    receiptRoot := receiptTrieRoot receipts
    logsBloom := blockLogsBloomHex receipts }

/-- The node after a successful import, where `r` is what executing the block gave. -/
def afterImport (n : RpcNode) (ω : Choices) (block : BlockRecord) (commits : List TrieCommitRecord)
    (r : List TxRecord × List ReceiptRecord × RpcNode) : RpcNode :=
  let stored := importedBlock block r.1 r.2.1
  ((({ r.2.2 with replayMode := n.replayMode } : RpcNode).addCommits commits).appendBlock ω stored
    (quantity64 block.number) "peer" stored.txRoot).recordImported r.1 r.2.1

/-- **Import.** The block is on the chain already, it is rejected and undone, or it is
executed and appended. -/
theorem importPeerBlock_cases (n : RpcNode) (cfg : Config) (ω : Choices) (block : BlockRecord) :
    (n.importPeerBlock cfg ω block = (.ok false, n) ∧
      (n.canonical.get? (quantity64 block.number)).getD "" ≠ "") ∨
    (∃ e ω₁ ω₂ disk, n.importPeerBlock cfg ω block = (.error e, n.recopied ω₁ ω₂ disk)) ∨
    (∃ ω₂ l, n.importPeerBlock cfg ω block = (.ok true,
        n.afterImport (ω.call 2) block l (n.applyPeerBlock cfg ((ω.call 0).call 1) block)) ∧
      (∀ c ∈ l, c.height = quantity64 block.number) ∧
      equalFold block.stateRoot (stateTrieRoot
        ((n.applyPeerBlock cfg ((ω.call 0).call 1) block).2.2.world.copy ω₂)) = true) := by
  rw [importPeerBlock]
  dsimp only
  split
  · next hexists => exact .inl ⟨rfl, hexists.1⟩
  · rcases n.replayPeerBlock_cases cfg (ω.call 0) block with ⟨e, ω₁, ω₂, disk, heq⟩ | ⟨hroot, heq⟩
    · rw [heq]
      exact .inr (.inl ⟨e, ω₁, ω₂, disk, rfl⟩)
    · rw [heq]
      have hsame := n.applyPeerBlock_sameChain cfg ((ω.call 0).call 1) block
      obtain ⟨l, hl, hheight⟩ := computeReceiptTrieRoot_eq
        { (n.applyPeerBlock cfg ((ω.call 0).call 1) block).2.2 with replayMode := n.replayMode }
        (ω.call 1) (n.applyPeerBlock cfg ((ω.call 0).call 1) block).2.1
      dsimp only
      rw [hl]
      refine .inr (.inr ⟨_, l, rfl, fun c hc => ?_, hroot⟩)
      exact (hheight c hc).trans hsame.height

/-- A block for a new height whose roots match is imported. -/
theorem importPeerBlock_of_match {n : RpcNode} {cfg : Config} {ω : Choices} {block : BlockRecord}
    (hnew : (n.canonical.get? (quantity64 block.number)).getD "" = "")
    (h : RootsMatch block (n.applyPeerBlock cfg ((ω.call 0).call 1) block)
      (((ω.call 0).call 2).call 0)) :
    ∃ l, n.importPeerBlock cfg ω block = (.ok true,
      n.afterImport (ω.call 2) block l (n.applyPeerBlock cfg ((ω.call 0).call 1) block)) := by
  obtain ⟨l, hl, -⟩ := computeReceiptTrieRoot_eq
    { (n.applyPeerBlock cfg ((ω.call 0).call 1) block).2.2 with replayMode := n.replayMode }
    (ω.call 1) (n.applyPeerBlock cfg ((ω.call 0).call 1) block).2.1
  refine ⟨l, ?_⟩
  rw [importPeerBlock]
  dsimp only
  rw [if_neg (fun hold => hold.1 hnew), replayPeerBlock_of_match h]
  dsimp only
  rw [hl]
  rfl

/-- What validation establishes about a peer's block. -/
structure PeerBlockOk (n : RpcNode) (block : BlockRecord) (height : ℕ) : Prop where
  hash : block.hash ≠ ""
  number : quantity64 block.number = height
  fresh : (n.canonical.get? height).getD "" ≠ "" →
    equalFold ((n.canonical.get? height).getD "") block.hash = true
  parent : 1 < height → (n.canonical.get? (u64 (height - 1))).getD "" ≠ "" →
    equalFold block.parentHash ((n.canonical.get? (u64 (height - 1))).getD "") = true

omit [Platform] in
theorem ite_error_eq_ok {ε α : Type} {c : Prop} [Decidable c] {e : ε} {x : Except ε α} {a : α} :
    (if c then .error e else x) = .ok a ↔ ¬ c ∧ x = .ok a := by
  by_cases h : c <;> simp [h]

theorem validatePeerBlock_ok {n : RpcNode} {block : PeerBlock} {height : ℕ}
    (h : n.validatePeerBlock block height = .ok ()) : PeerBlockOk n block.record height := by
  rw [validatePeerBlock] at h
  simp only [ite_error_eq_ok] at h
  obtain ⟨hhash, -, -, hnumber, hexisting, hparent, -⟩ := h
  refine ⟨fun hempty => hhash (.inl hempty), not_not.mp hnumber, fun hne => ?_, fun hone hne => ?_⟩
  · by_contra hnot
    exact hexisting ⟨hne, hnot⟩
  · rw [if_neg hne] at hparent
    by_contra hnot
    exact hparent ⟨hone, hnot⟩

/-- **One round of a sync.** The block is refused or known, it is rejected and undone, or a
valid block is executed and appended. -/
theorem syncBlock_cases (n : RpcNode) (cfg : Config) (ω : Choices) (height : ℕ)
    (block : PeerBlock) :
    ((n.syncBlock cfg ω height block).2 = n ∧
      ((n.canonical.get? height).getD "" = "" → ∃ e, (n.syncBlock cfg ω height block).1 = .error e)) ∨
    (∃ e ω₁ ω₂ disk, n.syncBlock cfg ω height block = (.error e, n.recopied ω₁ ω₂ disk)) ∨
    (∃ ω₂ l, n.syncBlock cfg ω height block = (.ok true,
        n.afterImport (ω.call 2) block.record l
          (n.applyPeerBlock cfg ((ω.call 0).call 1) block.record)) ∧
      (∀ c ∈ l, c.height = height) ∧
      PeerBlockOk n block.record height ∧
      equalFold block.record.stateRoot (stateTrieRoot
        ((n.applyPeerBlock cfg ((ω.call 0).call 1) block.record).2.2.world.copy ω₂)) = true) := by
  rw [syncBlock]
  split
  · next e _ => exact .inl ⟨rfl, fun _ => ⟨e, rfl⟩⟩
  · next hok =>
      have hvalid := validatePeerBlock_ok hok
      rcases n.importPeerBlock_cases cfg ω block.record with ⟨h, hex⟩ | h | ⟨ω₂, l, h, hl, hroot⟩
      · rw [hvalid.number] at hex
        exact .inl ⟨by rw [h], fun hnone => absurd hnone hex⟩
      · exact .inr (.inl h)
      · rw [hvalid.number] at hl
        exact .inr (.inr ⟨ω₂, l, h, hl, hvalid, hroot⟩)

/-- Recording the transactions of an imported block leaves the chain alone. -/
theorem recordImported_sameBlocks (n : RpcNode) (txs : List TxRecord)
    (receipts : List ReceiptRecord) : SameBlocks n (n.recordImported txs receipts) := by
  induction txs generalizing n receipts with
  | nil => exact .refl n
  | cons tx txs ih =>
      cases receipts with
      | nil => exact .refl n
      | cons receipt receipts =>
          rw [recordImported]
          refine SameBlocks.trans ?_ (ih _ _)
          split <;> exact ⟨⟨rfl, rfl, rfl, rfl, rfl, rfl, rfl⟩, rfl, rfl⟩

theorem afterImport_blocks (n : RpcNode) (ω : Choices) (block : BlockRecord)
    (commits : List TrieCommitRecord) (r : List TxRecord × List ReceiptRecord × RpcNode) :
    (n.afterImport ω block commits r).blocks = r.2.2.blocks ++ [importedBlock block r.1 r.2.1] :=
  (recordImported_sameBlocks _ _ _).blocks

theorem recordImported_world (n : RpcNode) (txs : List TxRecord) (receipts : List ReceiptRecord) :
    (n.recordImported txs receipts).world = n.world := by
  induction txs generalizing n receipts with
  | nil => rfl
  | cons tx txs ih =>
      cases receipts with
      | nil => rfl
      | cons receipt receipts =>
          rw [recordImported, ih]
          split <;> rfl

theorem applyPeerBlock_world (n : RpcNode) (cfg : Config) (ω : Choices) (block : BlockRecord) :
    (n.applyPeerBlock cfg ω block).2.2.world =
      block.transactions.foldl (World.apply · cfg.bridgeAddress ·) n.world :=
  applyTxs_world block.transactions

/-- An import executes the block's transactions on the accounts, appends the block with them
and takes its snapshot; the pending list stays. -/
theorem afterImport_chain (n : RpcNode) (cfg : Config) (ω ω' : Choices) (block : BlockRecord)
    (commits : List TrieCommitRecord) :
    let n' := n.afterImport ω block commits (n.applyPeerBlock cfg ω' block)
    ∃ stored timestamp, n'.blocks = n.blocks ++ [stored] ∧
      stored.transactions = block.transactions.mapIdx (fun i tx =>
        minedTx tx block.hash (quantity64 block.number) (0 + i)) ∧
      n'.stateSnapshots = n.stateSnapshots.insert (quantity64 block.number)
        ⟨quantity64 block.number, block.hash, block.stateRoot, true, "local",
          n'.world.copy ((ω.call 2).call 0), timestamp⟩ ∧
      n'.world = block.transactions.foldl (World.apply · cfg.bridgeAddress ·) n.world ∧
      n'.pendingTxs = n.pendingTxs := by
  intro n'
  have hindex := n.applyPeerBlock_sameIndex cfg ω' block
  have hworld : n'.world = (n.applyPeerBlock cfg ω' block).2.2.world :=
    recordImported_world _ _ _
  refine ⟨importedBlock block (n.applyPeerBlock cfg ω' block).1 (n.applyPeerBlock cfg ω' block).2.1,
    ((ω.call 2).call 1).unix, ?_, applyTxs_mined block.transactions, ?_,
    hworld.trans (n.applyPeerBlock_world cfg ω' block), ?_⟩
  · exact (n.afterImport_blocks ω block commits _).trans (by rw [hindex.blocks])
  · rw [hworld]
    refine (recordImported_sameBlocks _ _ _).stateSnapshots.trans ?_
    exact congrArg (FinMap.insert · _ _) hindex.stateSnapshots
  · exact (recordImported_sameBlocks _ _ _).pendingTxs.trans hindex.pendingTxs

/-! ## The sync loop -/

def maxPeerSyncBlocks : ℕ := 128

/-- The loop over heights; `fuel` counts the heights left up to the end. -/
def syncPeerBlocks (cfg : Config) (answers : PeerAnswers) :
    ℕ → RpcNode → Choices → ℕ → ℕ → Except (ℕ × String) ℕ × RpcNode
  | 0, n, _, _, imported => (.ok imported, n)
  | fuel + 1, n, ω, height, imported =>
      if maxPeerSyncBlocks ≤ imported then (.ok imported, n)
      else
        match answers.block height with
        | .error e =>
            (.error (imported, "failed to fetch peer block " ++ toString height ++ ": " ++ e), n)
        | .ok block =>
            let r := n.syncBlock cfg (ω.call 0) height block
            match r.1 with
            | .error e => (.error (imported, e), r.2)
            | .ok new =>
                syncPeerBlocks cfg answers fuel r.2 (ω.call 1) (height + 1)
                  (if new then imported + 1 else imported)

/-! ## Peer bookkeeping -/

def peerScoreInitial : ℤ := 100
def peerScoreMax : ℤ := 100
def peerFailurePenalty : ℤ := 25
def peerSuccessReward : ℤ := 5
def peerBanSeconds : ℤ := 10 * 60

/-- A failure lowers the score, and at zero the peer is banned. -/
def recordPeerFailure (ω : Choices) (peer : PeerRecord) : PeerRecord :=
  let score := max 0 (peer.score - peerFailurePenalty)
  { peer with
    failures := peer.failures + 1
    score := score
    trusted := false
    lastSeen := (ω.call 0).unix
    bannedUntil := if score = 0 then (ω.call 1).unix + peerBanSeconds else peer.bannedUntil }

/-- A success raises the score. -/
def recordPeerSuccess (ω : Choices) (peer : PeerRecord) : PeerRecord :=
  { peer with
    failures := 0
    score := min peerScoreMax (peer.score + peerSuccessReward)
    bannedUntil := 0
    lastSeen := ω.unix }

/-- Record a peer and save. -/
def setPeer (n : RpcNode) (peer : PeerRecord) : RpcNode :=
  { n with peers := n.peers.insert peer.id peer }.save

/-- Record a peer under its URL, over the record that was there. -/
def addPeer (n : RpcNode) (ω : Choices) (url : String) : PeerRecord × RpcNode :=
  let url := trimSpace url
  let peer : PeerRecord :=
    { id := hashHex (utf8 url)
      url := url
      height := n.height
      bestHash := n.lastBlock.hash
      lastSeen := ω.unix
      trusted := hasPrefix url "http://127.0.0.1" || hasPrefix url "http://localhost"
      score := peerScoreInitial }
  (peer, n.setPeer peer)

/-- The answer of `syncPeer`. -/
structure SyncResult where
  synced : Bool
  peer : PeerRecord
  error : Option String := none
  imported : ℕ := 0

/-- Fetch the blocks above the head, when the peer has some. -/
def syncAbove (n : RpcNode) (cfg : Config) (ω : Choices) (height : ℕ) (answers : PeerAnswers) :
    Except (ℕ × String) ℕ × RpcNode :=
  if n.height < height then syncPeerBlocks cfg answers (height - n.height) n ω (n.height + 1) 0
  else (.ok 0, n)

/-- The sync itself, once the peer is known and not banned. -/
def syncKnownPeer (n : RpcNode) (cfg : Config) (ω : Choices) (peer : PeerRecord)
    (answers : PeerAnswers) : SyncResult × RpcNode :=
  match answers.blockNumber with
  | .error e =>
      let peer := recordPeerFailure (ω.call 0) peer
      (⟨false, peer, some e, 0⟩, n.setPeer peer)
  | .ok remoteHeight =>
      let peer := { peer with height := quantity64 remoteHeight, lastSeen := (ω.call 1).unix }
      let r := n.syncAbove cfg (ω.call 2) peer.height answers
      match r.1 with
      | .error (_, e) =>
          let peer := recordPeerFailure (ω.call 3) peer
          (⟨false, peer, some e, 0⟩, r.2.setPeer peer)
      | .ok imported =>
          let peer := if 0 < r.2.height then { peer with bestHash := r.2.lastBlock.hash } else peer
          let peer := recordPeerSuccess (ω.call 4) peer
          (⟨true, peer, none, imported⟩, r.2.setPeer peer)

/-- The peer with this id or URL, added when there is none. -/
def findPeer (n : RpcNode) (ω : Choices) (idOrURL : String) : PeerRecord × RpcNode :=
  let known := ((n.peers.range ω.order).find? fun e => e.2.id = idOrURL || e.2.url = idOrURL).map
    Prod.snd
  let peer := known.getD {}
  if peer.url = "" then n.addPeer (ω.call 0) idOrURL else (peer, n)

/-- Ask a peer for its height and import its blocks from the next one on. -/
def syncPeer (n : RpcNode) (cfg : Config) (ω : Choices) (idOrURL : String)
    (answers : PeerAnswers) : SyncResult × RpcNode :=
  let r := n.findPeer (ω.call 0) idOrURL
  if (ω.call 1).unix < r.1.bannedUntil then
    (⟨false, r.1, some "peer is temporarily banned", 0⟩, r.2)
  else r.2.syncKnownPeer cfg (ω.call 2) r.1 answers

end RpcNode

end BhtBhte.Node
