import BhtBhte.Node.State

/-!
# Executing transactions

One transaction at a time: the transfer, then the contract creation, bridge call or storage
call that its recipient and input select.  What a transaction does to the accounts depends
on the accounts alone, so it is stated on a `World`; the bridge adds withdrawals, anchors
and logs to the node.
-/
namespace BhtBhte.Node
open BhtBhte.Lib
variable [Platform]

/-! ## Accounts -/

namespace World

/-- The debit is made only when the balance covers it. -/
def debit (w : World) (addr : String) (value : ℤ) : World :=
  if value ≤ w.balance addr then
    { w with balances := w.balances.insert addr (hexText (w.balance addr - value)) }
  else w

/-- Add to a balance. -/
def credit (w : World) (addr : String) (value : ℤ) : World :=
  { w with balances := w.balances.insert addr (hexText (w.balance addr + value)) }

/-- The next nonce of an account. -/
def bumpNonce (w : World) (addr : String) : World :=
  { w with nonces := w.nonces.insert addr (u64 ((w.nonces.get? addr).getD 0 + 1)) }

/-- The first part of `applyMinedTransaction`: the credit follows the debit whether or not
the debit was made. -/
def transfer (w : World) (tx : TxRecord) : World :=
  if tx.sender ≠ "" ∧ tx.recipient ≠ "" then
    let value := parseQuantity tx.value
    ((w.debit tx.sender value).credit tx.recipient value).bumpNonce tx.sender
  else w

/-- Write one slot of the storage of the recipient, if the input asks for it. -/
def executeSimpleStorageCall (w : World) (tx : TxRecord) : World :=
  if abiSelector tx.input ≠ "0x6057361d" then w
  else
    let slots := (w.storage.get? tx.recipient).getD ∅
    { w with storage := w.storage.insert tx.recipient (slots.insert zeroHash tx.value) }

/-- What `executeTransaction` writes to the accounts. -/
def execute (w : World) (bridgeAddress : String) (tx : TxRecord) : World :=
  if tx.recipient = "" then
    { w with code := w.code.insert (contractAddress tx.sender tx.nonce) tx.input }
  else if tx.recipient = bridgeAddress then w
  else if tx.input ≠ "" ∧ tx.input ≠ "0x" then w.executeSimpleStorageCall tx
  else w

/-- The whole effect of one transaction on the accounts. -/
def apply (w : World) (bridgeAddress : String) (tx : TxRecord) : World :=
  (w.transfer tx).execute bridgeAddress tx

end World

/-! ## Bridge -/

/-- The bridge call starts a withdrawal. -/
def isWithdrawalCall (tx : TxRecord) : Bool :=
  abiSelector tx.input = "0x7a0f1d9e" || contains (toLower tx.input) "withdraw"

/-- The bridge call submits an anchor. -/
def isAnchorCall (tx : TxRecord) : Bool :=
  abiSelector tx.input = "0x3de90c0b" || contains (toLower tx.input) "anchor"

namespace RpcNode

/-- Append a log of the bridge at the current head. -/
def appendLog (n : RpcNode) (cfg : Config) (topics : List Topic) (data transactionHash : String) :
    RpcNode :=
  { n with logs := n.logs ++
      [{ address := cfg.bridgeAddress
         topics := topics
         data := data
         blockNumber := toHex n.height
         blockHash := n.lastBlock.hash
         transactionHash := transactionHash
         transactionIndex := "0x0"
         logIndex := toHex n.logs.length }] }

/-- Append the log of a bridge event. -/
def submitBridgeEvent (n : RpcNode) (cfg : Config) (ω : Choices) (event : Object) : RpcNode :=
  let txHash := stringOrDefault (text event "txHash")
    (hashHex (utf8 (sprintObject event ++ toString ω.unix)))
  let topic := stringOrDefault (text event "topic") (topicHash "BridgeEvent")
  (n.appendLog cfg [.ofText topic] (stringOrDefault (text event "data") "0x") txHash).save

/-- The record that a withdrawal request stands for. -/
def withdrawalOf (cfg : Config) (ω : Choices) (request : Object) : WithdrawalRecord :=
  let now := ω.unix
  let recipient := normalizeAddress (text request "recipient")
  let amount := stringOrDefault (text request "amount") "0x0"
  let l2TxHash := stringOrDefault (text request "l2TxHash")
    (hashHex (utf8 (recipient ++ amount ++ toString now)))
  { id := toLower l2TxHash
    l2TxHash := l2TxHash
    recipient := recipient
    amount := amount
    challengeDeadline := now + cfg.challengeSeconds
    createdAt := now }

/-- The request overwrites whatever is recorded under its id. -/
def initiateWithdrawal (n : RpcNode) (cfg : Config) (ω : Choices) (request : Object) :
    WithdrawalRecord × RpcNode :=
  let w := withdrawalOf cfg ω request
  let n := { n with withdrawals := n.withdrawals.insert w.id w }
  (w,
    if n.replayMode then n
    else (n.appendLog cfg [.ofText (topicHash "WithdrawalInitiated"), paddedTopic w.recipient] w.amount
      w.l2TxHash).save)

/-- The checks that come before a payout: an error, or the record and whether it is still to
be paid. -/
def dueWithdrawal (n : RpcNode) (cfg : Config) (ω : Choices) (id : String) :
    Except String (WithdrawalRecord × Bool) :=
  let w := (n.withdrawals.get? (toLower id)).getD {}
  if w.id = "" then .error "withdrawal not found"
  else if w.challenged then .error "withdrawal challenged"
  else if w.processed then .ok (w, false)
  else if cfg.strictMode ∧ ω.unix < w.challengeDeadline then .error "challenge period not over"
  else .ok (w, true)

/-- `answer` is what the BHT node replies to `sendtoaddress`. -/
def broadcastBHTWithdrawal (cfg : Config) (w : WithdrawalRecord) (answer : Except String String) :
    Except String String :=
  if ¬ cfg.strictMode ∧ cfg.bhtRPC = "" then .ok (hashHex (utf8 (w.id ++ "bht-withdrawal")))
  else if cfg.bhtRPC = "" then .error "BHT RPC endpoint is not configured"
  else match answer with
    | .error e =>
        if cfg.strictMode then .error e
        else .ok (hashHex (utf8 (w.id ++ "bht-withdrawal-fallback")))
    | .ok result => .ok result

/-- Pay a withdrawal whose time has come; the answer is that of the BHT node. -/
def processWithdrawal (n : RpcNode) (cfg : Config) (ω : Choices) (id : String)
    (answer : Except String String) : Except String WithdrawalRecord × RpcNode :=
  match n.dueWithdrawal cfg ω id with
  | .error e => (.error e, n)
  | .ok (w, false) => (.ok w, n)
  | .ok (w, true) =>
      match broadcastBHTWithdrawal cfg w answer with
      | .error e => (.error e, n)
      | .ok bhtTxHash =>
          let w := { w with processed := true, bhtTxHash := bhtTxHash }
          let n := { n with withdrawals := n.withdrawals.insert (toLower id) w }
          (.ok w,
            (n.appendLog cfg [.ofText (topicHash "WithdrawalProcessed"), paddedTopic w.recipient] w.amount
              w.l2TxHash).save)

/-- Record an anchor. -/
def submitAnchor (n : RpcNode) (ω : Choices) (anchor : Object) : AnchorRecord × RpcNode :=
  let height := quantityFromInterface (field anchor "height")
  let height := if height = 0 then n.height else height
  let stateRoot := stringOrDefault (text anchor "stateRoot") n.lastBlock.stateRoot
  let record : AnchorRecord :=
    { height := height
      stateRoot := stateRoot
      blockHash := stringOrDefault (text anchor "blockHash") n.lastBlock.hash
      txHash := stringOrDefault (text anchor "txHash") (hashHex (utf8 stateRoot))
      timestamp := ω.unix }
  let n := { n with anchors := n.anchors.insert height record }
  (record, if n.replayMode then n else n.save)

/-- The withdrawal that a bridge transaction asks for. -/
def withdrawalRequest (tx : TxRecord) : Object :=
  object [("recipient", .str tx.sender), ("amount", .str tx.value), ("l2TxHash", .str tx.hash)]

/-- The withdrawal branch of a bridge call. -/
def bridgeWithdrawal (n : RpcNode) (cfg : Config) (ω : Choices) (tx : TxRecord) : RpcNode :=
  if isWithdrawalCall tx ∧ tx.sender ≠ "" then
    (n.initiateWithdrawal cfg ω (withdrawalRequest tx)).2
  else n

/-- The anchor branch of a bridge call: the root is computed while the node still has the
height of the parent block. -/
def bridgeAnchor (n : RpcNode) (ω : Choices) (tx : TxRecord) (blockHash : String)
    (blockNumber : ℕ) : RpcNode :=
  if isAnchorCall tx then
    let r := n.computeStateTrieRoot (ω.call 0)
    (r.2.submitAnchor (ω.call 1) (object [("height", .other (toString blockNumber)),
      ("stateRoot", .str r.1), ("blockHash", .str blockHash), ("txHash", .str tx.hash)])).2
  else n

/-- The name of the event of a bridge call. -/
def bridgeTopic (tx : TxRecord) : String :=
  if isAnchorCall tx then topicHash "AnchorSubmitted"
  else if isWithdrawalCall tx then topicHash "WithdrawalInitiated"
  else topicHash "BridgeTransfer"

/-- `none` when the transaction is not addressed to the bridge. -/
def executeBridgeCall (n : RpcNode) (cfg : Config) (ω : Choices) (tx : TxRecord)
    (blockHash : String) (blockNumber txIndex : ℕ) : Option (List LogRecord) × RpcNode :=
  if tx.recipient ≠ cfg.bridgeAddress then (none, n)
  else
    let n := n.bridgeWithdrawal cfg (ω.call 0) tx
    let n := n.bridgeAnchor (ω.call 1) tx blockHash blockNumber
    (some [{ address := cfg.bridgeAddress
             topics := [.ofText (bridgeTopic tx), paddedTopic tx.sender, paddedTopic tx.recipient]
             data := tx.value
             blockNumber := toHex blockNumber
             blockHash := blockHash
             transactionHash := tx.hash
             transactionIndex := toHex txIndex
             logIndex := toHex n.logs.length }], n)

/-- Call the bridge, or do what the transaction does to the accounts; the logs and the status. -/
def executeTransaction (n : RpcNode) (cfg : Config) (ω : Choices) (tx : TxRecord)
    (blockHash : String) (blockNumber txIndex : ℕ) : List LogRecord × String × RpcNode :=
  if tx.recipient ≠ "" ∧ tx.recipient = cfg.bridgeAddress then
    let r := n.executeBridgeCall cfg ω tx blockHash blockNumber txIndex
    (r.1.getD [], if r.1.isSome then "0x1" else "0x0", r.2)
  else ([], "0x1", { n with world := n.world.execute cfg.bridgeAddress tx })

/-- The transaction as it stands in the block. -/
def minedTx (tx : TxRecord) (blockHash : String) (blockNumber index : ℕ) : TxRecord :=
  { tx with
    blockHash := blockHash
    blockNumber := toHex blockNumber
    transactionIndex := toHex index
    confirmations := 1 }

/-- Execute a transaction of a block, and its receipt. -/
def applyMinedTransaction (n : RpcNode) (cfg : Config) (ω : Choices) (tx : TxRecord)
    (blockHash : String) (blockNumber index : ℕ) : TxRecord × ReceiptRecord × RpcNode :=
  let n := { n with world := n.world.transfer tx }
  let tx := minedTx tx blockHash blockNumber index
  let r := n.executeTransaction cfg ω tx blockHash blockNumber index
  let receipt : ReceiptRecord :=
    { transactionHash := tx.hash
      transactionIndex := toHex index
      blockHash := blockHash
      blockNumber := toHex blockNumber
      sender := tx.sender
      recipient := tx.recipient
      logs := r.1
      status := r.2.1 }
  (tx, { receipt with logsBloom := receiptBloomHex receipt }, r.2.2)

/-- Execute the transactions of a block without recording them. -/
def applyTxs (cfg : Config) (blockHash : String) (blockNumber : ℕ) :
    RpcNode → Choices → ℕ → List TxRecord → List TxRecord × List ReceiptRecord × RpcNode
  | n, _, _, [] => ([], [], n)
  | n, ω, i, tx :: txs =>
      let r := n.applyMinedTransaction cfg (ω.call 0) tx blockHash blockNumber i
      let rest := applyTxs cfg blockHash blockNumber r.2.2 (ω.call 1) (i + 1) txs
      (r.1 :: rest.1, r.2.1 :: rest.2.1, rest.2.2)

/-- Record a mined transaction, its receipt and its logs. -/
def recordTx (n : RpcNode) (mined : TxRecord) (receipt : ReceiptRecord) : RpcNode :=
  { n with
    receipts := n.receipts.insert (toLower mined.hash) receipt
    logs := n.logs ++ receipt.logs
    txs := n.txs ++ [mined] }

/-- Execute the pending transactions and record each one. -/
def mineTxs (cfg : Config) (blockHash : String) (blockNumber : ℕ) :
    RpcNode → Choices → ℕ → List TxRecord → List TxRecord × List ReceiptRecord × RpcNode
  | n, _, _, [] => ([], [], n)
  | n, ω, i, tx :: txs =>
      let r := n.applyMinedTransaction cfg (ω.call 0) tx blockHash blockNumber i
      let rest := mineTxs cfg blockHash blockNumber (r.2.2.recordTx r.1 r.2.1) (ω.call 1) (i + 1) txs
      (r.1 :: rest.1, r.2.1 :: rest.2.1, rest.2.2)

end RpcNode

/-! ## What execution leaves alone -/

/-- The chain, what indexes it and the pending list agree. -/
structure SameIndex (n n' : RpcNode) : Prop where
  accounts : n'.accounts = n.accounts
  pendingTxs : n'.pendingTxs = n.pendingTxs
  blocks : n'.blocks = n.blocks
  canonical : n'.canonical = n.canonical
  blockIndex : n'.blockIndex = n.blockIndex
  stateSnapshots : n'.stateSnapshots = n.stateSnapshots
  peers : n'.peers = n.peers

/-- The height and the replay flag agree as well. -/
structure SameBlocks (n n' : RpcNode) : Prop extends SameIndex n n' where
  height : n'.height = n.height
  replayMode : n'.replayMode = n.replayMode

/-- The recorded transactions and receipts agree as well. -/
structure SameChain (n n' : RpcNode) : Prop extends SameBlocks n n' where
  txs : n'.txs = n.txs
  receipts : n'.receipts = n.receipts

omit [Platform] in
theorem SameIndex.refl (n : RpcNode) : SameIndex n n := ⟨rfl, rfl, rfl, rfl, rfl, rfl, rfl⟩

omit [Platform] in
theorem SameIndex.trans {n n' n'' : RpcNode} (h : SameIndex n n') (h' : SameIndex n' n'') :
    SameIndex n n'' where
  accounts := h'.accounts.trans h.accounts
  pendingTxs := h'.pendingTxs.trans h.pendingTxs
  blocks := h'.blocks.trans h.blocks
  canonical := h'.canonical.trans h.canonical
  blockIndex := h'.blockIndex.trans h.blockIndex
  stateSnapshots := h'.stateSnapshots.trans h.stateSnapshots
  peers := h'.peers.trans h.peers

omit [Platform] in
theorem SameBlocks.refl (n : RpcNode) : SameBlocks n n := ⟨.refl n, rfl, rfl⟩

omit [Platform] in
theorem SameBlocks.trans {n n' n'' : RpcNode} (h : SameBlocks n n') (h' : SameBlocks n' n'') :
    SameBlocks n n'' :=
  ⟨h.toSameIndex.trans h'.toSameIndex, h'.height.trans h.height,
    h'.replayMode.trans h.replayMode⟩

omit [Platform] in
theorem SameChain.refl (n : RpcNode) : SameChain n n := ⟨.refl n, rfl, rfl⟩

omit [Platform] in
theorem SameChain.trans {n n' n'' : RpcNode} (h : SameChain n n') (h' : SameChain n' n'') :
    SameChain n n'' :=
  ⟨h.toSameBlocks.trans h'.toSameBlocks, h'.txs.trans h.txs, h'.receipts.trans h.receipts⟩

namespace RpcNode
variable {cfg : Config} {ω : Choices} {n : RpcNode} {tx : TxRecord} {blockHash : String}
  {blockNumber index : ℕ}

omit [Platform] in
@[simp] theorem addCommits_nil (n : RpcNode) : n.addCommits [] = n := by
  simp [addCommits]

omit [Platform] in
@[simp] theorem addCommits_addCommits (n : RpcNode) (l l' : List TrieCommitRecord) :
    (n.addCommits l).addCommits l' = n.addCommits (l ++ l') := by
  simp [addCommits]

omit [Platform] in
theorem addCommits_sameChain (n : RpcNode) (l : List TrieCommitRecord) :
    SameChain n (n.addCommits l) :=
  ⟨⟨⟨rfl, rfl, rfl, rfl, rfl, rfl, rfl⟩, rfl, rfl⟩, rfl, rfl⟩

/-- Recording a trie appends commits of the given height and changes nothing else. -/
theorem persistTrieNodes_eq (n : RpcNode) (ω : Choices) (root kind : String) (height : ℕ)
    (nodes : Option (List TrieNode)) :
    ∃ l, n.persistTrieNodes ω root kind height nodes = n.addCommits l ∧
      ∀ c ∈ l, c.height = height := by
  rw [persistTrieNodes.eq_def]
  split
  · exact ⟨[], by simp, by simp⟩
  · split
    · exact ⟨[], by simp, by simp⟩
    · exact ⟨_, rfl, by simp⟩

theorem persistStorageTries_eq (n : RpcNode) (ω : Choices) (accounts : List String) :
    ∃ l, n.persistStorageTries ω accounts = n.addCommits l ∧ ∀ c ∈ l, c.height = n.height := by
  induction accounts generalizing n ω with
  | nil => exact ⟨[], by simp [persistStorageTries], by simp⟩
  | cons account accounts ih =>
      rw [persistStorageTries]
      split
      · exact ih n _
      · rw [persistStorageTrie]
        obtain ⟨l, hl, hheight⟩ := persistTrieNodes_eq n ((ω.call 0).call 1) _
          ("storage:" ++ account) n.height _
        rw [hl]
        obtain ⟨l', hl', hheight'⟩ := ih (n.addCommits l) (ω.call 1)
        refine ⟨l ++ l', by rw [hl', addCommits_addCommits], fun c hc => ?_⟩
        rcases List.mem_append.mp hc with h | h
        · exact hheight c h
        · exact hheight' c h

/-- Computing the state root records commits at the node's height and changes nothing else. -/
theorem computeStateTrieRoot_eq (n : RpcNode) (ω : Choices) :
    ∃ l, (n.computeStateTrieRoot ω).2 = n.addCommits l ∧ ∀ c ∈ l, c.height = n.height := by
  rw [computeStateTrieRoot]
  obtain ⟨l, hl, hheight⟩ := n.persistStorageTries_eq (ω.call 0) n.sortedAccounts
  rw [hl]
  obtain ⟨l', hl', hheight'⟩ := persistTrieNodes_eq (n.addCommits l) (ω.call 2) _ "state"
    n.height _
  refine ⟨l ++ l', hl'.trans (addCommits_addCommits n l l'), fun c hc => ?_⟩
  rcases List.mem_append.mp hc with h | h
  · exact hheight c h
  · exact hheight' c h

/-- The computed root is that of a copy of the accounts. -/
theorem computeStateTrieRoot_root (n : RpcNode) (ω : Choices) :
    (n.computeStateTrieRoot ω).1 = stateTrieRoot (n.world.copy ((ω.call 1).call 0)) := by
  obtain ⟨l, hl, -⟩ := n.persistStorageTries_eq (ω.call 0) n.sortedAccounts
  rw [computeStateTrieRoot, hl]
  rfl

theorem persistStorageTries_of_empty (n : RpcNode) (h : n.world.storage = ∅) (ω : Choices)
    (accounts : List String) : n.persistStorageTries ω accounts = n := by
  induction accounts generalizing ω with
  | nil => rfl
  | cons account accounts ih =>
      rw [persistStorageTries]
      have hslots : ((n.world.storage.get? account).getD ∅).entries = [] := by
        rw [h]
        rfl
      rw [if_pos hslots]
      exact ih _

/-- Without storage, computing the state root records at most one commit, of that root. -/
theorem computeStateTrieRoot_of_empty (n : RpcNode) (h : n.world.storage = ∅) (ω : Choices) :
    (n.computeStateTrieRoot ω).2 =
      n.persistTrieNodes (ω.call 2) (stateTrieRoot (n.world.copy ((ω.call 1).call 0))) "state" n.height
        (Platform.trieNodes (buildStateTrieFromSnapshot (n.world.copy ((ω.call 1).call 0)))) := by
  rw [computeStateTrieRoot, n.persistStorageTries_of_empty h]
  rfl

theorem root_of_mem_persistTrieNodes {n : RpcNode} {ω : Choices} {root kind : String} {height : ℕ}
    {nodes : Option (List TrieNode)} {c : TrieCommitRecord}
    (h : c ∈ (n.persistTrieNodes ω root kind height nodes).trieCommits) :
    c ∈ n.trieCommits ∨ (c.root = root ∧ c.kind = kind) := by
  rw [persistTrieNodes.eq_def] at h
  split at h
  · exact .inl h
  · split at h
    · exact .inl h
    · rcases List.mem_append.mp h with h | h
      · exact .inl h
      · rw [List.mem_singleton.mp h]
        exact .inr ⟨rfl, rfl⟩

theorem computeReceiptTrieRoot_eq (n : RpcNode) (ω : Choices) (receipts : List ReceiptRecord) :
    ∃ l, (n.computeReceiptTrieRoot ω receipts).2 = n.addCommits l ∧ ∀ c ∈ l, c.height = n.height :=
  persistTrieNodes_eq n ω _ "receipts" n.height _

@[simp] theorem computeReceiptTrieRoot_root (n : RpcNode) (ω : Choices)
    (receipts : List ReceiptRecord) :
    (n.computeReceiptTrieRoot ω receipts).1 = receiptTrieRoot receipts := rfl

theorem initiateWithdrawal_sameChain (request : Object) :
    SameChain n (n.initiateWithdrawal cfg ω request).2 := by
  rw [initiateWithdrawal]
  split <;> exact ⟨⟨⟨rfl, rfl, rfl, rfl, rfl, rfl, rfl⟩, rfl, rfl⟩, rfl, rfl⟩

theorem submitAnchor_sameChain (anchor : Object) :
    SameChain n (n.submitAnchor ω anchor).2 := by
  rw [submitAnchor]
  dsimp only
  split <;> exact ⟨⟨⟨rfl, rfl, rfl, rfl, rfl, rfl, rfl⟩, rfl, rfl⟩, rfl, rfl⟩

theorem bridgeWithdrawal_sameChain : SameChain n (n.bridgeWithdrawal cfg ω tx) := by
  rw [bridgeWithdrawal]
  split
  · exact initiateWithdrawal_sameChain _
  · exact .refl n

theorem bridgeAnchor_sameChain : SameChain n (n.bridgeAnchor ω tx blockHash blockNumber) := by
  rw [bridgeAnchor]
  split
  · obtain ⟨l, hl, -⟩ := n.computeStateTrieRoot_eq (ω.call 0)
    refine SameChain.trans ?_ (submitAnchor_sameChain _)
    rw [hl]
    exact addCommits_sameChain n l
  · exact .refl n

/-- Execution either calls the bridge or writes to the accounts. -/
theorem executeTransaction_cases (n : RpcNode) (cfg : Config) (ω : Choices) (tx : TxRecord)
    (blockHash : String) (blockNumber index : ℕ) :
    (tx.recipient ≠ "" ∧ tx.recipient = cfg.bridgeAddress ∧
      (n.executeTransaction cfg ω tx blockHash blockNumber index).2.2 =
        (n.bridgeWithdrawal cfg (ω.call 0) tx).bridgeAnchor (ω.call 1) tx blockHash blockNumber) ∨
    (¬ (tx.recipient ≠ "" ∧ tx.recipient = cfg.bridgeAddress) ∧
      (n.executeTransaction cfg ω tx blockHash blockNumber index).2.2 =
        { n with world := n.world.execute cfg.bridgeAddress tx }) := by
  rw [executeTransaction]
  split
  · next h =>
      refine .inl ⟨h.1, h.2, ?_⟩
      rw [executeBridgeCall, if_neg (not_not_intro h.2)]
  · next h => exact .inr ⟨h, rfl⟩

theorem executeTransaction_sameChain :
    SameChain n (n.executeTransaction cfg ω tx blockHash blockNumber index).2.2 := by
  rcases n.executeTransaction_cases cfg ω tx blockHash blockNumber index with
    ⟨-, -, heq⟩ | ⟨-, heq⟩
  · rw [heq]
    exact bridgeWithdrawal_sameChain.trans bridgeAnchor_sameChain
  · rw [heq]
    exact ⟨⟨⟨rfl, rfl, rfl, rfl, rfl, rfl, rfl⟩, rfl, rfl⟩, rfl, rfl⟩

/-- Executing a transaction touches accounts, logs, withdrawals, anchors and trie commits,
nothing else. -/
theorem applyMinedTransaction_sameChain :
    SameChain n (n.applyMinedTransaction cfg ω tx blockHash blockNumber index).2.2 := by
  refine SameChain.trans ?_ executeTransaction_sameChain
  exact ⟨⟨⟨rfl, rfl, rfl, rfl, rfl, rfl, rfl⟩, rfl, rfl⟩, rfl, rfl⟩

theorem applyTxs_sameChain (txs : List TxRecord) :
    SameChain n (applyTxs cfg blockHash blockNumber n ω index txs).2.2 := by
  induction txs generalizing n ω index with
  | nil => exact .refl n
  | cons tx txs ih => exact applyMinedTransaction_sameChain.trans ih

theorem mineTxs_sameBlocks (txs : List TxRecord) :
    SameBlocks n (mineTxs cfg blockHash blockNumber n ω index txs).2.2 := by
  induction txs generalizing n ω index with
  | nil => exact .refl n
  | cons tx txs ih =>
      rw [mineTxs]
      refine (SameBlocks.trans ?_ ih)
      exact applyMinedTransaction_sameChain.toSameBlocks.trans
        ⟨⟨rfl, rfl, rfl, rfl, rfl, rfl, rfl⟩, rfl, rfl⟩

/-! ## The accounts after execution -/

theorem initiateWithdrawal_world (request : Object) :
    (n.initiateWithdrawal cfg ω request).2.world = n.world := by
  rw [initiateWithdrawal]
  split <;> rfl

theorem submitAnchor_world (anchor : Object) : (n.submitAnchor ω anchor).2.world = n.world := by
  rw [submitAnchor]
  dsimp only
  split <;> rfl

theorem initiateWithdrawal_trieCommits (request : Object) :
    (n.initiateWithdrawal cfg ω request).2.trieCommits = n.trieCommits := by
  rw [initiateWithdrawal]
  split <;> rfl

theorem submitAnchor_trieCommits (anchor : Object) :
    (n.submitAnchor ω anchor).2.trieCommits = n.trieCommits := by
  rw [submitAnchor]
  dsimp only
  split <;> rfl

theorem bridgeWithdrawal_world : (n.bridgeWithdrawal cfg ω tx).world = n.world := by
  rw [bridgeWithdrawal]
  split
  · exact initiateWithdrawal_world _
  · rfl

theorem bridgeAnchor_world : (n.bridgeAnchor ω tx blockHash blockNumber).world = n.world := by
  rw [bridgeAnchor]
  split
  · obtain ⟨l, hl, -⟩ := n.computeStateTrieRoot_eq (ω.call 0)
    rw [submitAnchor_world, hl]
    rfl
  · rfl

theorem executeTransaction_world :
    (n.executeTransaction cfg ω tx blockHash blockNumber index).2.2.world =
      n.world.execute cfg.bridgeAddress tx := by
  rcases n.executeTransaction_cases cfg ω tx blockHash blockNumber index with
    ⟨hne, hbridge, heq⟩ | ⟨-, heq⟩
  · rw [heq, bridgeAnchor_world, bridgeWithdrawal_world, World.execute, if_neg hne, if_pos hbridge]
  · rw [heq]

/-- The accounts after a transaction are a function of the accounts before it. -/
theorem applyMinedTransaction_world :
    (n.applyMinedTransaction cfg ω tx blockHash blockNumber index).2.2.world =
      n.world.apply cfg.bridgeAddress tx :=
  executeTransaction_world

theorem applyTxs_world (txs : List TxRecord) :
    (applyTxs cfg blockHash blockNumber n ω index txs).2.2.world =
      txs.foldl (World.apply · cfg.bridgeAddress ·) n.world := by
  induction txs generalizing n ω index with
  | nil => rfl
  | cons tx txs ih => exact ih.trans (by rw [applyMinedTransaction_world]; rfl)

theorem mineTxs_world (txs : List TxRecord) :
    (mineTxs cfg blockHash blockNumber n ω index txs).2.2.world =
      txs.foldl (World.apply · cfg.bridgeAddress ·) n.world := by
  induction txs generalizing n ω index with
  | nil => rfl
  | cons tx txs ih =>
      refine ih.trans ?_
      rw [recordTx, applyMinedTransaction_world]
      rfl

/-- Both loops return the transactions as they stand in the block. -/
theorem applyTxs_mined (txs : List TxRecord) :
    (applyTxs cfg blockHash blockNumber n ω index txs).1 =
      txs.mapIdx fun i tx => minedTx tx blockHash blockNumber (index + i) := by
  induction txs generalizing n ω index with
  | nil => rfl
  | cons tx txs ih =>
      rw [applyTxs, List.mapIdx_cons]
      dsimp only
      rw [ih]
      simp only [add_zero, Nat.add_assoc, Nat.add_comm 1]
      rfl

theorem mineTxs_mined (txs : List TxRecord) :
    (mineTxs cfg blockHash blockNumber n ω index txs).1 =
      txs.mapIdx fun i tx => minedTx tx blockHash blockNumber (index + i) := by
  induction txs generalizing n ω index with
  | nil => rfl
  | cons tx txs ih =>
      rw [mineTxs, List.mapIdx_cons]
      dsimp only
      rw [ih]
      simp only [add_zero, Nat.add_assoc, Nat.add_comm 1]
      rfl

end RpcNode

omit [Platform] in
/-- A view that does not see where a transaction is mined. -/
theorem map_mapIdx_eq {β : Type} (g : TxRecord → β) (f : ℕ → TxRecord → TxRecord)
    (txs : List TxRecord) (hf : ∀ i tx, g (f i tx) = g tx) : (txs.mapIdx f).map g = txs.map g := by
  apply List.ext_getElem (by simp)
  intro i h₁ h₂
  simp only [List.getElem_map, List.getElem_mapIdx, hf]

end BhtBhte.Node
