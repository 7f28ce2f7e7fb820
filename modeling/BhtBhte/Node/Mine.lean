import BhtBhte.Node.Execute

/-!
# Submission, mining and reorganisation

Transactions come in by RPC, wait on the pending list and are mined all at once: a block executes
the pending list on the accounts of the head and takes their roots.  A reorganisation rolls the
chain back to the parent of a height and puts the transactions of the removed blocks back on the
list.
-/
namespace BhtBhte.Node
open BhtBhte.Lib
variable [Platform]

namespace RpcNode

/-! ## Mining -/

/-- The hash of the block that would be mined now. -/
def nextBlockHash (n : RpcNode) (ω : Choices) : String :=
  blockHash n.lastBlock.hash (u64 (n.height + 1)) ω.unixNano n.pendingTxs

/-- Append a block as the new head: height, chain, canonical map, index, anchor and
snapshot. -/
def appendBlock (n : RpcNode) (ω : Choices) (block : BlockRecord) (height : ℕ)
    (source anchorTxHash : String) : RpcNode :=
  let n := { n with
    height := height
    blocks := n.blocks ++ [block]
    canonical := n.canonical.insert height block.hash }
  let n := n.indexBlock (ω.call 0) block true true source ""
  let anchor : AnchorRecord :=
    { height := height
      stateRoot := block.stateRoot
      blockHash := block.hash
      txHash := anchorTxHash
      timestamp := (ω.call 1).unix }
  let n := { n with anchors := n.anchors.insert height anchor }
  n.storeStateSnapshot (ω.call 2) height block.hash block.stateRoot

/-- The pending list, taken off the node and executed for the next block. -/
def minePendingTxs (n : RpcNode) (cfg : Config) (ω : Choices) :
    List TxRecord × List ReceiptRecord × RpcNode :=
  mineTxs cfg (n.nextBlockHash (ω.call 0)) (u64 (n.height + 1)) { n with pendingTxs := [] }
    (ω.call 1) 0 n.pendingTxs

/-- Execute the pending list and extend the chain by the block of it. -/
def minePendingBlock (n : RpcNode) (cfg : Config) (ω : Choices) : BlockRecord × RpcNode :=
  let parent := n.lastBlock
  let blockNumber := u64 (n.height + 1)
  let hash := n.nextBlockHash (ω.call 0)
  let r := n.minePendingTxs cfg ω
  let n := { r.2.2 with height := blockNumber }
  let state := n.computeStateTrieRoot (ω.call 2)
  let receipt := state.2.computeReceiptTrieRoot (ω.call 3) r.2.1
  let block : BlockRecord :=
    { number := toHex blockNumber
      hash := hash
      parentHash := parent.hash
      stateRoot := state.1
      txRoot := hashTxs r.1
      receiptRoot := receipt.1
      logsBloom := blockLogsBloomHex r.2.1
      timestamp := toHex (u64 (ω.call 4).unix)
      transactions := r.1 }
  (block, (receipt.2.appendBlock (ω.call 5) block blockNumber "local" (hashTxs r.1)).save)

/-- Put a transaction on the pending list, then mine or save. -/
def enqueue (n : RpcNode) (cfg : Config) (ω : Choices) (record : TxRecord) : RpcNode :=
  let n := { n with pendingTxs := n.pendingTxs ++ [record] }
  if cfg.autoMine then (n.minePendingBlock cfg ω).2 else n.save

/-- A transaction that is mined at once, alone in its block. -/
theorem enqueue_of_empty {n : RpcNode} {cfg : Config} (hauto : cfg.autoMine = true)
    (hempty : n.pendingTxs = []) (ω : Choices) (record : TxRecord) :
    n.enqueue cfg ω record = ({ n with pendingTxs := [record] }.minePendingBlock cfg ω).2 := by
  rw [enqueue, hempty, List.nil_append, if_pos hauto]

/-- The transactions of the mined block. -/
theorem minePendingBlock_transactions (n : RpcNode) (cfg : Config) (ω : Choices) :
    (n.minePendingBlock cfg ω).1.transactions = n.pendingTxs.mapIdx fun i tx =>
      minedTx tx (n.nextBlockHash (ω.call 0)) (u64 (n.height + 1)) (0 + i) :=
  mineTxs_mined _

/-- **Mining.** The pending list is executed, commits are recorded at the new height, and
one block is appended that names the old head as its parent. -/
theorem minePendingBlock_eq (n : RpcNode) (cfg : Config) (ω : Choices) :
    ∃ block l, (n.minePendingBlock cfg ω).2 =
        (({ (n.minePendingTxs cfg ω).2.2 with height := u64 (n.height + 1) }.addCommits
          l).appendBlock (ω.call 5) block (u64 (n.height + 1)) "local" block.txRoot).save ∧
      (∀ c ∈ l, c.height = u64 (n.height + 1)) ∧
      block.number = toHex (u64 (n.height + 1)) ∧
      block.hash = n.nextBlockHash (ω.call 0) ∧
      block.parentHash = n.lastBlock.hash ∧
      block.stateRoot =
        stateTrieRoot ((n.minePendingTxs cfg ω).2.2.world.copy (((ω.call 2).call 1).call 0)) ∧
      block.txRoot = hashTxs (n.minePendingTxs cfg ω).1 ∧
      block.receiptRoot = receiptTrieRoot (n.minePendingTxs cfg ω).2.1 ∧
      block.logsBloom = blockLogsBloomHex (n.minePendingTxs cfg ω).2.1 ∧
      block.transactions = (n.minePendingTxs cfg ω).1 := by
  rw [minePendingBlock]
  generalize n.minePendingTxs cfg ω = r
  obtain ⟨l, hl, hheight⟩ := computeStateTrieRoot_eq
    { r.2.2 with height := u64 (n.height + 1) } (ω.call 2)
  have hroot := computeStateTrieRoot_root { r.2.2 with height := u64 (n.height + 1) } (ω.call 2)
  dsimp only
  rw [hl, hroot]
  obtain ⟨l', hl', hheight'⟩ := computeReceiptTrieRoot_eq
    ({ r.2.2 with height := u64 (n.height + 1) }.addCommits l) (ω.call 3) r.2.1
  rw [hl', addCommits_addCommits]
  refine ⟨_, l ++ l', rfl, fun c hc => ?_, rfl, rfl, rfl, rfl, rfl, rfl, rfl, rfl⟩
  rcases List.mem_append.mp hc with h | h
  · exact hheight c h
  · exact hheight' c h

theorem minePendingBlock_world (n : RpcNode) (cfg : Config) (ω : Choices) :
    (n.minePendingBlock cfg ω).2.world =
      n.pendingTxs.foldl (World.apply · cfg.bridgeAddress ·) n.world := by
  obtain ⟨block, l, heq, -⟩ := n.minePendingBlock_eq cfg ω
  rw [heq]
  exact mineTxs_world n.pendingTxs

theorem minePendingBlock_pendingTxs (n : RpcNode) (cfg : Config) (ω : Choices) :
    (n.minePendingBlock cfg ω).2.pendingTxs = [] := by
  obtain ⟨block, l, heq, -⟩ := n.minePendingBlock_eq cfg ω
  have hsame : SameBlocks { n with pendingTxs := [] } (n.minePendingTxs cfg ω).2.2 :=
    mineTxs_sameBlocks n.pendingTxs
  rw [heq]
  exact hsame.pendingTxs

/-- The appended block holds the pending transactions, and its snapshot a copy of the
accounts. -/
theorem minePendingBlock_chain (n : RpcNode) (cfg : Config) (ω : Choices) :
    ∃ block timestamp, (n.minePendingBlock cfg ω).2.blocks = n.blocks ++ [block] ∧
      block.transactions = n.pendingTxs.mapIdx (fun i tx =>
        minedTx tx (n.nextBlockHash (ω.call 0)) (u64 (n.height + 1)) (0 + i)) ∧
      (n.minePendingBlock cfg ω).2.stateSnapshots =
        n.stateSnapshots.insert (u64 (n.height + 1))
          ⟨u64 (n.height + 1), block.hash, block.stateRoot, true, "local",
            (n.minePendingBlock cfg ω).2.world.copy (((ω.call 5).call 2).call 0), timestamp⟩ := by
  obtain ⟨block, l, heq, -, -, -, -, -, -, -, -, htxs⟩ := n.minePendingBlock_eq cfg ω
  have hsame : SameBlocks { n with pendingTxs := [] } (n.minePendingTxs cfg ω).2.2 :=
    mineTxs_sameBlocks n.pendingTxs
  refine ⟨block, (((ω.call 5).call 2).call 1).unix, ?_, htxs.trans (mineTxs_mined n.pendingTxs), ?_⟩
  · rw [heq]
    exact congrArg (· ++ [block]) hsame.blocks
  · rw [heq]
    exact congrArg (FinMap.insert · _ _) hsame.stateSnapshots

/-- Mining appends one block. -/
theorem minePendingBlock_blocks (n : RpcNode) (cfg : Config) (ω : Choices) :
    ∃ block, (n.minePendingBlock cfg ω).2.blocks = n.blocks ++ [block] := by
  obtain ⟨block, _, hblocks, -⟩ := n.minePendingBlock_chain cfg ω
  exact ⟨block, hblocks⟩

/-! ## Submission -/

/-- The checks on a transaction object.  The last three are made in strict mode only. -/
def validateTransaction (n : RpcNode) (cfg : Config) (tx : Object) : Except String Unit :=
  let sender := normalizeAddress (text tx "from")
  let recipient := normalizeAddress (text tx "to")
  let value := parseQuantity (text tx "value")
  let gasLimit := quantityFromInterface (field tx "gas")
  let gasLimit := if gasLimit = 0 then cfg.minGasLimit else gasLimit
  let nonce := (n.world.nonces.get? sender).getD 0
  if ¬ isHexAddress sender then .error "invalid from address"
  else if recipient ≠ "" ∧ ¬ isHexAddress recipient then .error "invalid to address"
  else if gasLimit < cfg.minGasLimit ∨ cfg.maxGasLimit < gasLimit then
    .error ("gas limit " ++ toString gasLimit ++ " outside allowed range")
  else if (tx.get? "nonce").any fun v => quantityFromInterface v ≠ nonce then
    .error ("invalid nonce: got " ++ toString (quantityFromInterface (field tx "nonce")) ++
      " want " ++ toString nonce)
  else if cfg.strictMode ∧ n.world.balance sender < value then .error "insufficient balance"
  else .ok ()

/-- The record a submitted transaction object becomes. -/
def txOfObject (n : RpcNode) (ω : Choices) (tx : Object) (raw : String) : TxRecord :=
  let sender := normalizeAddress (text tx "from")
  let recipient := normalizeAddress (text tx "to")
  let value := parseQuantity (text tx "value")
  let nonce := (n.world.nonces.get? sender).getD 0
  let now := (ω.call 1).unix
  { hash := txHash sender recipient value nonce (ω.call 0).unixNano
    sender := sender
    recipient := recipient
    value := hexText value
    nonce := toHex nonce
    gas := stringOrDefault (text tx "gas") "0x5208"
    input := stringOrDefault (text tx "data") (stringOrDefault (text tx "input") "0x")
    time := now
    timestamp := now
    fee := "0x0"
    raw := raw }

/-- Put a transaction on the pending list, and mine it at once if so configured. -/
def addPendingTransaction (n : RpcNode) (cfg : Config) (ω : Choices) (tx : Object) (raw : String) :
    String × RpcNode :=
  let record := n.txOfObject (ω.call 0) tx raw
  (record.hash, n.enqueue cfg (ω.call 1) record)

/-- What becomes of a transaction object once its check has a result. -/
def addChecked (n : RpcNode) (cfg : Config) (ω : Choices) (tx : Object) :
    Except String Unit → Except String String × RpcNode
  | .error e => (.error e, n)
  | .ok _ =>
      let r := n.addPendingTransaction cfg ω tx ""
      (.ok r.1, r.2)

/-- `eth_sendTransaction`. -/
def sendTransaction (n : RpcNode) (cfg : Config) (ω : Choices) (tx : Object) :
    Except String String × RpcNode :=
  n.addChecked cfg ω tx (n.validateTransaction cfg tx)

/-- A transaction between hexadecimal addresses, without a gas limit or a nonce of its own, that
the sender can pay is accepted. -/
theorem validateTransaction_of_covered {n : RpcNode} {cfg : Config} {tx : Object} {a b : String}
    {v : ℤ} (hfrom : normalizeAddress (text tx "from") = a)
    (hto : normalizeAddress (text tx "to") = b) (hvalue : parseQuantity (text tx "value") = v)
    (hgas : field tx "gas" = .null) (hlimits : cfg.minGasLimit ≤ cfg.maxGasLimit)
    (hnonce : tx.get? "nonce" = none) (ha : isHexAddress a = true)
    (hb : b = "" ∨ isHexAddress b = true) (hcovered : v ≤ n.world.balance a) :
    n.validateTransaction cfg tx = .ok () := by
  have hrecipient : ¬ (b ≠ "" ∧ ¬ isHexAddress b = true) := by tauto
  have hbalance : ¬ (cfg.strictMode = true ∧ n.world.balance a < v) := fun h => by omega
  have hlimit : ¬ (cfg.minGasLimit < cfg.minGasLimit ∨ cfg.maxGasLimit < cfg.minGasLimit) := by omega
  rw [validateTransaction, hfrom, hto, hvalue, quantityFromInterface_of_null hgas, hnonce,
    Option.any_none, if_pos rfl, ha, if_neg (not_not_intro rfl), if_neg hrecipient, if_neg hlimit,
    if_neg Bool.false_ne_true, if_neg hbalance]

/-- A rejected transaction changes nothing, an accepted one is enqueued. -/
theorem sendTransaction_cases (n : RpcNode) (cfg : Config) (ω : Choices) (tx : Object) :
    (n.sendTransaction cfg ω tx).2 = n ∨
    (n.validateTransaction cfg tx = .ok () ∧
      (n.sendTransaction cfg ω tx).2 = n.enqueue cfg (ω.call 1) (n.txOfObject (ω.call 0) tx "")) := by
  rw [sendTransaction]
  generalize n.validateTransaction cfg tx = result
  cases result with
  | error e => exact .inl rfl
  | ok u =>
      refine .inr ⟨rfl, ?_⟩
      rw [addChecked, addPendingTransaction]

/-- The record a raw transaction becomes: its text is the input, it has no sender. -/
def txOfRaw (ω : Choices) (rawTx : String) : TxRecord :=
  { hash := hashHex (utf8 rawTx)
    value := "0x0"
    nonce := "0x0"
    gas := "0x5208"
    input := rawTx
    time := ω.unix
    timestamp := ω.unix
    fee := "0x0"
    raw := rawTx }

/-- The same for raw bytes, of which only the hash is kept. -/
def addRawTransaction (n : RpcNode) (cfg : Config) (ω : Choices) (rawTx : String) :
    String × RpcNode :=
  let record := txOfRaw (ω.call 0) rawTx
  (record.hash, n.enqueue cfg (ω.call 1) record)

/-! ## Reorganisation -/

/-- What a reorganisation answers. -/
inductive ReorgResult
  | refused (height : ℕ) (message : String)
  | unchanged (height : ℕ) (hash : String)
  | done (height rollbackTo : ℕ) (oldHash newHash : String)
      (removedBlocks removedTxs removedLogs requeuedTxs : ℕ)
deriving DecidableEq

/-- A removed transaction goes back to the pending list without its place in a block. -/
def requeuedTx (tx : TxRecord) : TxRecord :=
  { tx with blockHash := "", blockNumber := "", transactionIndex := "", confirmations := 0 }

/-- The blocks from a height on. -/
def blocksFrom (n : RpcNode) (height : ℕ) : List BlockRecord :=
  n.blocks.filter fun block => height ≤ quantity64 block.number

/-- The removed transactions, in chain order. -/
def removedTxs (n : RpcNode) (height : ℕ) : List TxRecord :=
  (n.blocksFrom height).flatMap fun block => block.transactions.map requeuedTx

def removedTxHashes (n : RpcNode) (height : ℕ) : List String :=
  (n.removedTxs height).map fun tx => toLower tx.hash

/-- A log that the rollback drops. -/
def isRemovedLog (n : RpcNode) (height : ℕ) (lg : LogRecord) : Bool :=
  height ≤ quantity64 lg.blockNumber || toLower lg.transactionHash ∈ n.removedTxHashes height

/-- The node after the rollback to a snapshot at `height - 1`, before it is saved. -/
def rollback (n : RpcNode) (ω : Choices) (height : ℕ) (snapshot : StateSnapshotRecord) : RpcNode :=
  let removedTxHashes := n.removedTxHashes height
  { n.restoreStateSnapshot ω snapshot with
    blocks := n.blocks.filter fun block => quantity64 block.number < height
    canonical := (n.blocksFrom height).foldl
      (fun canonical block => canonical.erase (quantity64 block.number)) n.canonical
    txs := n.txs.filter fun tx => toLower tx.hash ∉ removedTxHashes
    receipts := removedTxHashes.foldl (fun receipts hash => receipts.erase hash) n.receipts
    logs := n.logs.filter fun lg => !n.isRemovedLog height lg
    withdrawals := n.withdrawals.filter fun _ w => toLower w.l2TxHash ∉ removedTxHashes
    anchors := n.anchors.filter fun anchorHeight _ => anchorHeight < height
    stateSnapshots := n.stateSnapshots.filter fun snapshotHeight _ => snapshotHeight < height
    blockIndex := n.blockIndex.filter fun _ index => !(index.canonical && height ≤ index.height)
    trieCommits := n.trieCommits.filter fun commit => commit.height < height
    pendingTxs := n.pendingTxs ++ n.removedTxs height }

/-- Roll the chain back to the parent of a height and requeue what is removed. -/
def handleReorg (n : RpcNode) (ω : Choices) (height : ℕ) (newHash : String) :
    ReorgResult × RpcNode :=
  if height ≤ 1 then (.refused height "cannot reorg genesis", n)
  else
    let oldHash := (n.canonical.get? height).getD ""
    if oldHash = "" ∨ equalFold oldHash newHash then (.unchanged height oldHash, n)
    else
      match n.stateSnapshots.get? (height - 1) with
      | none => (.refused height "rollback snapshot not found", n)
      | some snapshot =>
          (.done height (height - 1) oldHash newHash (n.blocksFrom height).length
              (n.removedTxs height).length (n.logs.filter (n.isRemovedLog height)).length
              (n.removedTxs height).length,
            (n.rollback ω height snapshot).save)

/-- **Reorganisation.** It is refused, or the node is rolled back to the snapshot below a
canonical height and saved. -/
theorem handleReorg_cases (n : RpcNode) (ω : Choices) (height : ℕ) (newHash : String) :
    (n.handleReorg ω height newHash).2 = n ∨
    ∃ snapshot, (1 < height ∧ (n.canonical.get? height).getD "" ≠ "" ∧
        equalFold ((n.canonical.get? height).getD "") newHash = false) ∧
      n.stateSnapshots.get? (height - 1) = some snapshot ∧
      (n.handleReorg ω height newHash).2 = (n.rollback ω height snapshot).save := by
  rw [handleReorg]
  split
  · exact .inl rfl
  · next hone =>
      dsimp only
      split
      · exact .inl rfl
      · next hold =>
          split
          · exact .inl rfl
          · next s hs =>
              refine .inr ⟨s, ⟨by omega, fun hempty => hold (.inl hempty), ?_⟩, hs, rfl⟩
              exact Bool.eq_false_iff.mpr fun hfold => hold (.inr hfold)

end RpcNode

end BhtBhte.Node
