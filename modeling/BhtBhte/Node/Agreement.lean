import BhtBhte.Node.Undo
import BhtBhte.Node.Replayable

/-!
# The miner and the importer of a block

A miner executes a transaction, appends its logs and goes on to the next; an importer executes
the whole block first and appends the logs afterwards.  The bridge numbers a log by the length
of the list, and a withdrawal that starts outside a replay appends a log of its own.  So the two
nodes agree exactly on the blocks with at most one bridge call, which starts no withdrawal.
-/
namespace BhtBhte.Node
open BhtBhte.Lib
variable [Platform]

/-! ## Reading the logs -/

/-- `eth_getLogs`. -/
def RpcNode.filterLogs (n : RpcNode) (filter : Object) : List LogRecord :=
  let fromBlock := (filter.get? "fromBlock").elim 0 fun raw => quantity64 raw.sprint
  let toBlock := (filter.get? "toBlock").elim (2 ^ 64 - 1) fun raw =>
    if raw.sprint = "latest" then 2 ^ 64 - 1 else quantity64 raw.sprint
  let address := normalizeAddress (text filter "address")
  n.logs.filter fun lg =>
    let height := quantity64 lg.blockNumber
    !(height < fromBlock || toBlock < height) &&
      !(address ≠ "" && normalizeAddress lg.address ≠ address)

omit [Platform] in
theorem quantity64_lt (s : String) : quantity64 s < 2 ^ 64 := by
  rw [quantity64, bigUint64]
  exact Nat.mod_lt _ (by decide)

/-- Without a filter all logs are read. -/
theorem RpcNode.filterLogs_empty (n : RpcNode) : n.filterLogs ∅ = n.logs := by
  have haddress : normalizeAddress (text (∅ : Object) "address") = "" := normalizeAddress_nil
  rw [RpcNode.filterLogs, haddress]
  refine List.filter_eq_self.mpr fun lg _ => ?_
  have hlt := quantity64_lt lg.blockNumber
  have hto : quantity64 lg.blockNumber ≤ 2 ^ 64 - 1 := by omega
  have hnone : ∀ key, (∅ : Object).get? key = none := fun _ => rfl
  simp only [hnone, Option.elim_none, ne_eq, not_true_eq_false, decide_false, Bool.false_and,
    Bool.not_false, Bool.and_true, Nat.not_lt_zero, Bool.false_or, Bool.not_eq_true',
    decide_eq_false_iff_not, not_lt]
  exact hto

/-! ## Bridge calls -/

/-- The transaction is a call of the bridge. -/
def callsBridge (cfg : Config) (tx : TxRecord) : Bool :=
  tx.recipient ≠ "" && tx.recipient = cfg.bridgeAddress

omit [Platform] in
theorem callsBridge_iff {cfg : Config} {tx : TxRecord} :
    callsBridge cfg tx = true ↔ tx.recipient ≠ "" ∧ tx.recipient = cfg.bridgeAddress := by
  simp [callsBridge]

/-- The log of a bridge call, under the number it gets. -/
def bridgeLogs (cfg : Config) (tx : TxRecord) (blockHash : String)
    (blockNumber index logIndex : ℕ) : List LogRecord :=
  if callsBridge cfg tx then
    [{ address := cfg.bridgeAddress
       topics := [.ofText (RpcNode.bridgeTopic tx), paddedTopic tx.sender, paddedTopic tx.recipient]
       data := tx.value
       blockNumber := toHex blockNumber
       blockHash := blockHash
       transactionHash := tx.hash
       transactionIndex := toHex index
       logIndex := toHex logIndex }]
  else []

/-- The receipt of a transaction, given the number of its log. -/
def receiptOf (cfg : Config) (tx : TxRecord) (blockHash : String)
    (blockNumber index logIndex : ℕ) : ReceiptRecord :=
  let receipt : ReceiptRecord :=
    { transactionHash := tx.hash
      transactionIndex := toHex index
      blockHash := blockHash
      blockNumber := toHex blockNumber
      sender := tx.sender
      recipient := tx.recipient
      logs := bridgeLogs cfg tx blockHash blockNumber index logIndex
      status := "0x1" }
  { receipt with logsBloom := receiptBloomHex receipt }

/-- The receipts of a block whose logs all get one number. -/
def receiptsOf (cfg : Config) (blockHash : String) (blockNumber index logIndex : ℕ)
    (txs : List TxRecord) : List ReceiptRecord :=
  txs.mapIdx fun i tx => receiptOf cfg tx blockHash blockNumber (index + i) logIndex

/-- At most one transaction calls the bridge, and none starts a withdrawal. -/
structure OneBridgeCall (cfg : Config) (txs : List TxRecord) : Prop where
  calls : txs.countP (callsBridge cfg) ≤ 1
  withdrawals : ∀ tx ∈ txs, RpcNode.startsWithdrawal cfg tx = false

theorem receiptsOf_cons (cfg : Config) (blockHash : String) (blockNumber index logIndex : ℕ)
    (tx : TxRecord) (txs : List TxRecord) :
    receiptsOf cfg blockHash blockNumber index logIndex (tx :: txs) =
      receiptOf cfg tx blockHash blockNumber index logIndex ::
        receiptsOf cfg blockHash blockNumber (index + 1) logIndex txs := by
  rw [receiptsOf, List.mapIdx_cons, receiptsOf]
  simp only [add_zero, Nat.add_assoc, Nat.add_comm 1]

/-- The number matters to bridge calls only. -/
theorem receiptOf_of_not_callsBridge {cfg : Config} {tx : TxRecord} (h : callsBridge cfg tx = false)
    (blockHash : String) (blockNumber index logIndex logIndex' : ℕ) :
    receiptOf cfg tx blockHash blockNumber index logIndex =
      receiptOf cfg tx blockHash blockNumber index logIndex' := by
  simp only [receiptOf, bridgeLogs, h, Bool.false_eq_true, if_false]

theorem length_bridgeLogs (cfg : Config) (tx : TxRecord) (blockHash : String)
    (blockNumber index logIndex : ℕ) :
    (bridgeLogs cfg tx blockHash blockNumber index logIndex).length =
      if callsBridge cfg tx then 1 else 0 := by
  rw [bridgeLogs]
  split <;> rfl

namespace RpcNode
variable {cfg : Config} {ω : Choices} {n : RpcNode} {tx : TxRecord} {blockHash : String}
  {blockNumber index : ℕ}

/-- A receipt carries the log with the number of logs that the transaction leaves. -/
theorem applyMinedTransaction_receiptOf :
    (n.applyMinedTransaction cfg ω tx blockHash blockNumber index).2.1 =
      receiptOf cfg tx blockHash blockNumber index
        (n.applyMinedTransaction cfg ω tx blockHash blockNumber index).2.2.logs.length := by
  rw [applyMinedTransaction, executeTransaction]
  dsimp only
  split
  · next h =>
      have hcalls : callsBridge cfg tx = true := callsBridge_iff.mpr h
      rw [executeBridgeCall, if_neg (not_not_intro h.2), receiptOf, bridgeLogs, if_pos hcalls]
      rfl
  · next h =>
      have hcalls : ¬ callsBridge cfg tx = true := fun hcalls => h (callsBridge_iff.mp hcalls)
      rw [receiptOf, bridgeLogs, if_neg hcalls]
      rfl

theorem bridgeAnchor_frame :
    (n.bridgeAnchor ω tx blockHash blockNumber).logs = n.logs ∧
    (n.bridgeAnchor ω tx blockHash blockNumber).withdrawals = n.withdrawals := by
  rw [bridgeAnchor]
  split
  · obtain ⟨l, hl, -⟩ := n.computeStateTrieRoot_eq (ω.call 0)
    dsimp only
    rw [(submitAnchor_frame _ _ _).1, (submitAnchor_frame _ _ _).2.1, hl]
    exact ⟨rfl, rfl⟩
  · exact ⟨rfl, rfl⟩

/-- Outside a replay, a transaction that starts a withdrawal appends a log of its own. -/
theorem logs_length_applyMinedTransaction :
    ∃ l, (n.applyMinedTransaction cfg ω tx blockHash blockNumber index).2.2.logs = n.logs ++ l ∧
      l.length = if startsWithdrawal cfg tx && !n.replayMode then 1 else 0 := by
  let m : RpcNode := { n with world := n.world.transfer tx }
  let mined := minedTx tx blockHash blockNumber index
  have hexec : (n.applyMinedTransaction cfg ω tx blockHash blockNumber index).2.2 =
      (m.executeTransaction cfg ω mined blockHash blockNumber index).2.2 := rfl
  rcases m.executeTransaction_cases cfg ω mined blockHash blockNumber index with
    ⟨hne, hbridge, heq⟩ | ⟨hnot, heq⟩
  · have hstarts : startsWithdrawal cfg tx = true ↔
        isWithdrawalCall mined = true ∧ mined.sender ≠ "" := by
      have hcalls : (tx.recipient ≠ "" && tx.recipient = cfg.bridgeAddress) = true :=
        callsBridge_iff.mpr ⟨hne, hbridge⟩
      rw [startsWithdrawal, hcalls, Bool.true_and, Bool.and_eq_true, decide_eq_true_eq]
      rfl
    rw [hexec, heq, bridgeAnchor_frame.1, bridgeWithdrawal]
    split
    · next h =>
        rw [initiateWithdrawal, hstarts.mpr h, Bool.true_and]
        cases hmode : n.replayMode with
        | true => exact ⟨[], (List.append_nil _).symm, rfl⟩
        | false => exact ⟨[_], rfl, rfl⟩
    · next h =>
        rw [Bool.eq_false_iff.mpr fun hyes => h (hstarts.mp hyes)]
        exact ⟨[], (List.append_nil _).symm, rfl⟩
  · have hstarts : startsWithdrawal cfg tx = false := by
      refine Bool.eq_false_iff.mpr fun hyes => hnot ?_
      rw [startsWithdrawal, Bool.and_eq_true, Bool.and_eq_true] at hyes
      exact callsBridge_iff.mp hyes.1.1
    rw [hexec, heq, hstarts]
    exact ⟨[], (List.append_nil _).symm, rfl⟩

/-- So one that starts none, or runs in a replay, leaves the logs alone. -/
theorem logs_applyMinedTransaction (h : startsWithdrawal cfg tx = false ∨ n.replayMode = true) :
    (n.applyMinedTransaction cfg ω tx blockHash blockNumber index).2.2.logs = n.logs := by
  obtain ⟨l, hlogs, hlength⟩ := @logs_length_applyMinedTransaction _ cfg ω n tx blockHash
    blockNumber index
  have hquiet : (startsWithdrawal cfg tx && !n.replayMode) = false := by
    rcases h with h | h
    · rw [h, Bool.false_and]
    · rw [h, Bool.not_true, Bool.and_false]
  rw [hquiet] at hlength
  rw [hlogs, List.eq_nil_of_length_eq_zero hlength, List.append_nil]

/-! ## The two loops -/

/-- The receipts of an imported block all give their logs the same number. -/
theorem applyTxs_receiptsOf (h : n.replayMode = true) (txs : List TxRecord) :
    (applyTxs cfg blockHash blockNumber n ω index txs).2.1 =
      receiptsOf cfg blockHash blockNumber index n.logs.length txs ∧
    (applyTxs cfg blockHash blockNumber n ω index txs).2.2.logs = n.logs := by
  induction txs generalizing n ω index with
  | nil => exact ⟨rfl, rfl⟩
  | cons tx txs ih =>
      have hlogs := @logs_applyMinedTransaction _ cfg (ω.call 0) n tx blockHash blockNumber index
        (.inr h)
      have hsame := @applyMinedTransaction_sameChain _ cfg (ω.call 0) n tx blockHash blockNumber index
      obtain ⟨hreceipts, hrest⟩ := @ih (ω.call 1) _ (index + 1) (hsame.replayMode.trans h)
      rw [applyTxs, receiptsOf_cons, applyMinedTransaction_receiptOf]
      dsimp only
      rw [hreceipts, hrest, hlogs]
      exact ⟨rfl, rfl⟩

/-- With one bridge call the miner gives the same receipts; `logIndex` is the number of the
bridge call, if there is one left. -/
theorem mineTxs_receiptsOf {txs : List TxRecord} (h : OneBridgeCall cfg txs) {logIndex : ℕ}
    (hindex : n.logs.length = logIndex ∨ txs.countP (callsBridge cfg) = 0) :
    (mineTxs cfg blockHash blockNumber n ω index txs).2.1 =
      receiptsOf cfg blockHash blockNumber index logIndex txs := by
  induction txs generalizing n ω index with
  | nil => rfl
  | cons tx txs ih =>
      have hlogs := @logs_applyMinedTransaction _ cfg (ω.call 0) n tx blockHash blockNumber index
        (.inl (h.withdrawals tx List.mem_cons_self))
      have hcalls := h.calls
      rw [mineTxs, receiptsOf_cons, applyMinedTransaction_receiptOf, hlogs]
      dsimp only
      cases hcall : callsBridge cfg tx with
      | true =>
          rw [List.countP_cons, if_pos hcall] at hcalls hindex
          have hnone : txs.countP (callsBridge cfg) = 0 := by omega
          rw [hindex.resolve_right (by omega)]
          rw [ih ⟨by omega, fun tx' htx' => h.withdrawals tx' (List.mem_cons_of_mem _ htx')⟩
            (.inr hnone)]
      | false =>
          rw [List.countP_cons, hcall, if_neg Bool.false_ne_true, Nat.add_zero] at hcalls hindex
          rw [receiptOf_of_not_callsBridge hcall _ _ _ _ logIndex]
          rw [ih ⟨hcalls, fun tx' htx' => h.withdrawals tx' (List.mem_cons_of_mem _ htx')⟩]
          refine hindex.imp_left fun hlength => ?_
          rw [recordTx, hlogs, receiptOf, bridgeLogs, hcall]
          simpa using hlength

theorem mineTxs_logs {txs : List TxRecord} (h : ∀ tx ∈ txs, startsWithdrawal cfg tx = false) :
    (mineTxs cfg blockHash blockNumber n ω index txs).2.2.logs =
      n.logs ++ (mineTxs cfg blockHash blockNumber n ω index txs).2.1.flatMap (·.logs) := by
  induction txs generalizing n ω index with
  | nil => exact (List.append_nil _).symm
  | cons tx txs ih =>
      have hlogs := @logs_applyMinedTransaction _ cfg (ω.call 0) n tx blockHash blockNumber index
        (.inl (h tx List.mem_cons_self))
      rw [mineTxs, List.flatMap_cons]
      dsimp only
      rw [ih fun tx' htx' => h tx' (List.mem_cons_of_mem _ htx'), recordTx]
      dsimp only
      rw [hlogs, List.append_assoc]

/-- Mining adds one log for each bridge call and one more for each withdrawal it starts. -/
theorem mineTxs_logs_length (h : n.replayMode = false) (txs : List TxRecord) :
    (mineTxs cfg blockHash blockNumber n ω index txs).2.2.logs.length =
      n.logs.length + txs.countP (callsBridge cfg) + txs.countP (startsWithdrawal cfg) := by
  induction txs generalizing n ω index with
  | nil => rfl
  | cons tx txs ih =>
      obtain ⟨l, hlogs, hlength⟩ := @logs_length_applyMinedTransaction _ cfg (ω.call 0) n tx
        blockHash blockNumber index
      have hsame := @applyMinedTransaction_sameChain _ cfg (ω.call 0) n tx blockHash blockNumber index
      rw [h, Bool.not_false, Bool.and_true] at hlength
      rw [mineTxs]
      dsimp only
      rw [ih (show (recordTx _ _ _).replayMode = false from hsame.replayMode.trans h), recordTx,
        applyMinedTransaction_receiptOf]
      dsimp only
      rw [List.length_append, hlogs, List.length_append, hlength, receiptOf, length_bridgeLogs,
        List.countP_cons, List.countP_cons]
      omega

/-- When the miner's logs carry one number throughout, there is one of them, and there is none
once the miner's list is longer than that number. -/
theorem countP_of_mineTxs {txs : List TxRecord} (h : ∀ tx ∈ txs, startsWithdrawal cfg tx = false)
    {logIndex : ℕ} (hle : logIndex ≤ n.logs.length)
    (heq : (mineTxs cfg blockHash blockNumber n ω index txs).2.1.flatMap (·.logs) =
      (receiptsOf cfg blockHash blockNumber index logIndex txs).flatMap (·.logs)) :
    txs.countP (callsBridge cfg) ≤ 1 ∧
      (logIndex < n.logs.length → txs.countP (callsBridge cfg) = 0) := by
  induction txs generalizing n ω index with
  | nil => exact ⟨Nat.zero_le _, fun _ => rfl⟩
  | cons tx txs ih =>
      have hlogs := @logs_applyMinedTransaction _ cfg (ω.call 0) n tx blockHash blockNumber index
        (.inl (h tx List.mem_cons_self))
      have hrest : ∀ tx' ∈ txs, startsWithdrawal cfg tx' = false :=
        fun tx' htx' => h tx' (List.mem_cons_of_mem _ htx')
      rw [mineTxs, receiptsOf_cons, List.flatMap_cons, List.flatMap_cons,
        applyMinedTransaction_receiptOf, hlogs] at heq
      have hlength : (recordTx (n.applyMinedTransaction cfg (ω.call 0) tx blockHash blockNumber
            index).2.2 (n.applyMinedTransaction cfg (ω.call 0) tx blockHash blockNumber index).1
            (receiptOf cfg tx blockHash blockNumber index n.logs.length)).logs.length =
          n.logs.length + if callsBridge cfg tx then 1 else 0 := by
        rw [recordTx]
        dsimp only
        rw [hlogs, List.length_append, receiptOf, length_bridgeLogs]
      generalize recordTx _ _ _ = recorded at heq hlength
      cases hcall : callsBridge cfg tx with
      | true =>
          rw [hcall, if_pos rfl] at hlength
          simp only [receiptOf, bridgeLogs, hcall, if_true, List.singleton_append, List.cons.injEq,
            LogRecord.mk.injEq, true_and, and_true] at heq
          have hindex := toHex_injective heq.1
          obtain ⟨-, hnone⟩ := ih hrest (by rw [hlength]; omega) heq.2
          rw [List.countP_cons, if_pos hcall, hnone (by rw [hlength]; omega)]
          exact ⟨le_rfl, fun hlt => by omega⟩
      | false =>
          rw [hcall, if_neg Bool.false_ne_true, Nat.add_zero] at hlength
          have hhead : ∀ k, (receiptOf cfg tx blockHash blockNumber index k).logs = [] := by
            intro k
            rw [receiptOf, bridgeLogs, hcall]
            rfl
          rw [hhead, hhead, List.nil_append, List.nil_append] at heq
          rw [List.countP_cons, hcall, if_neg Bool.false_ne_true, Nat.add_zero, ← hlength]
          exact ih hrest (by rw [hlength]; exact hle) heq

theorem applyTxs_withdrawals {txs : List TxRecord}
    (h : ∀ tx ∈ txs, startsWithdrawal cfg tx = false) :
    (applyTxs cfg blockHash blockNumber n ω index txs).2.2.withdrawals = n.withdrawals := by
  induction txs generalizing n ω index with
  | nil => rfl
  | cons tx txs ih =>
      refine (ih fun tx' htx' => h tx' (List.mem_cons_of_mem _ htx')).trans ?_
      rw [applyMinedTransaction_withdrawals, h tx List.mem_cons_self, if_neg Bool.false_ne_true]

theorem mineTxs_withdrawals {txs : List TxRecord}
    (h : ∀ tx ∈ txs, startsWithdrawal cfg tx = false) :
    (mineTxs cfg blockHash blockNumber n ω index txs).2.2.withdrawals = n.withdrawals := by
  induction txs generalizing n ω index with
  | nil => rfl
  | cons tx txs ih =>
      refine (ih fun tx' htx' => h tx' (List.mem_cons_of_mem _ htx')).trans ?_
      rw [recordTx, applyMinedTransaction_withdrawals, h tx List.mem_cons_self,
        if_neg Bool.false_ne_true]

/-! ## Recording the receipts -/

/-- Enter the receipts of a block under the hashes of its transactions. -/
def recordReceipts (receipts : FinMap String ReceiptRecord) (mined : List TxRecord)
    (new : List ReceiptRecord) : FinMap String ReceiptRecord :=
  (mined.zip new).foldl (fun receipts e => receipts.insert (toLower e.1.hash) e.2) receipts

theorem mineTxs_recordReceipts (txs : List TxRecord) :
    (mineTxs cfg blockHash blockNumber n ω index txs).2.2.receipts =
      recordReceipts n.receipts (mineTxs cfg blockHash blockNumber n ω index txs).1
        (mineTxs cfg blockHash blockNumber n ω index txs).2.1 := by
  induction txs generalizing n ω index with
  | nil => rfl
  | cons tx txs ih =>
      have hsame := @applyMinedTransaction_sameChain _ cfg (ω.call 0) n tx blockHash blockNumber index
      rw [mineTxs, recordReceipts, List.zip_cons_cons, List.foldl_cons]
      dsimp only
      rw [ih, recordTx, recordReceipts]
      dsimp only
      rw [hsame.receipts]

theorem recordImported_receipts (n : RpcNode) (txs : List TxRecord) (receipts : List ReceiptRecord) :
    (n.recordImported txs receipts).receipts = recordReceipts n.receipts txs receipts := by
  induction txs generalizing n receipts with
  | nil => rfl
  | cons tx txs ih =>
      cases receipts with
      | nil => rfl
      | cons receipt receipts =>
          rw [recordImported, ih, recordReceipts, recordReceipts, List.zip_cons_cons, List.foldl_cons]
          split <;> rfl

theorem recordImported_logs (n : RpcNode) {txs : List TxRecord} {receipts : List ReceiptRecord}
    (h : txs.length = receipts.length) :
    (n.recordImported txs receipts).logs = n.logs ++ receipts.flatMap (·.logs) := by
  induction txs generalizing n receipts with
  | nil =>
      rw [List.eq_nil_of_length_eq_zero h.symm]
      exact (List.append_nil _).symm
  | cons tx txs ih =>
      cases receipts with
      | nil => cases h
      | cons receipt receipts =>
          rw [recordImported, ih _ (Nat.succ.inj h), List.flatMap_cons, ← List.append_assoc]
          split <;> rfl

/-! ## The mined block -/

theorem minePendingBlock_fst (n : RpcNode) (cfg : Config) (ω : Choices) :
    (n.minePendingBlock cfg ω).2.blocks = n.blocks ++ [(n.minePendingBlock cfg ω).1] := by
  have hsame : SameBlocks { n with pendingTxs := [] } (n.minePendingTxs cfg ω).2.2 :=
    mineTxs_sameBlocks n.pendingTxs
  obtain ⟨l, hl, -⟩ := computeStateTrieRoot_eq
    { (n.minePendingTxs cfg ω).2.2 with height := u64 (n.height + 1) } (ω.call 2)
  obtain ⟨l', hl', -⟩ := computeReceiptTrieRoot_eq
    ({ (n.minePendingTxs cfg ω).2.2 with height := u64 (n.height + 1) }.addCommits l) (ω.call 3)
    (n.minePendingTxs cfg ω).2.1
  rw [minePendingBlock]
  dsimp only
  rw [hl, hl']
  exact congrArg (· ++ [_]) hsame.blocks

theorem minePendingBlock_replayMode (n : RpcNode) (cfg : Config) (ω : Choices) :
    (n.minePendingBlock cfg ω).2.replayMode = n.replayMode := by
  have hsame : SameBlocks { n with pendingTxs := [] } (n.minePendingTxs cfg ω).2.2 :=
    mineTxs_sameBlocks n.pendingTxs
  obtain ⟨block, l, heq, -⟩ := n.minePendingBlock_eq cfg ω
  rw [heq]
  exact hsame.replayMode

/-- The records after mining are those that the loop leaves. -/
theorem minePendingBlock_records (n : RpcNode) (cfg : Config) (ω : Choices) :
    (n.minePendingBlock cfg ω).2.receipts = (n.minePendingTxs cfg ω).2.2.receipts ∧
    (n.minePendingBlock cfg ω).2.logs = (n.minePendingTxs cfg ω).2.2.logs ∧
    (n.minePendingBlock cfg ω).2.withdrawals = (n.minePendingTxs cfg ω).2.2.withdrawals := by
  obtain ⟨block, l, heq, -⟩ := n.minePendingBlock_eq cfg ω
  rw [heq]
  exact ⟨rfl, rfl, rfl⟩

end RpcNode

/-! ## No replay between calls -/

theorem replayMode_next {cfg : Config} {n : RpcNode} (hchain : ChainOk n)
    (h : n.replayMode = false) (ω : Choices) (e : Event) : (n.next cfg ω e).replayMode = false := by
  rcases n.syncBlock_or_localCall hchain cfg ω e with ⟨block, rfl⟩ | hcall
  · rw [RpcNode.next]
    rcases n.syncBlock_cases cfg ω (n.height + 1) block with ⟨heq, -⟩ | ⟨e, ω₁, ω₂, disk, heq⟩ |
      ⟨ω₂, l, heq, -⟩
    · rw [heq]; exact h
    · rw [heq]; exact h
    · rw [heq]
      exact (RpcNode.recordImported_sameBlocks _ _ _).replayMode.trans h
  · generalize n.next cfg ω e = n' at hcall ⊢
    cases hcall with
    | quiet hquiet => exact hquiet.replayMode.trans h
    | recopied ω₁ ω₂ disk => exact h
    | mined hmines => exact (RpcNode.minePendingBlock_replayMode _ _ _).trans h
    | rolledBack hone hle hs => exact h
    | restarted =>
        obtain ⟨index, disk, heq, -⟩ := hchain.restart cfg ω
        rw [heq]
        rfl

/-- Between calls no node is replaying. -/
theorem ReachableBy.replayMode {cfg : Config} {ok : RpcNode → Choices → Event → Prop} {n : RpcNode}
    (h : ReachableBy cfg ok n) : n.replayMode = false := by
  have hinv : ChainOk n ∧ n.replayMode = false := by
    refine h.induct (P := fun n => ChainOk n ∧ n.replayMode = false)
      (fun ω => ⟨chainOk_fresh cfg ω, ?_⟩)
      fun n ω e hn _ hlen => ⟨hn.1.next hlen, replayMode_next hn.1 hn.2 ω e⟩
    obtain ⟨ω₁, l, timestamp, heq, -⟩ := newRPCNode_fresh cfg ω
    rw [heq]
  exact hinv.2

/-! ## Two nodes -/

/-- The importer holds the chain, the accounts and the records of the miner. -/
structure SameLedger (n m : RpcNode) : Prop where
  height : m.height = n.height
  world : m.world = n.world
  canonical : m.canonical = n.canonical
  receipts : m.receipts = n.receipts
  logs : m.logs = n.logs
  withdrawals : m.withdrawals = n.withdrawals

omit [Platform] in
theorem SameLedger.refl (n : RpcNode) : SameLedger n n := ⟨rfl, rfl, rfl, rfl, rfl, rfl⟩

/-- The two nodes hold the same receipts of a block, answer `eth_getLogs` alike and have the same
accounts and withdrawals; when a withdrawal was recorded is not compared. -/
structure Agrees (block : BlockRecord) (n m : RpcNode) : Prop where
  receipts : ∀ tx ∈ block.transactions,
    m.receipts.get? (toLower tx.hash) = n.receipts.get? (toLower tx.hash)
  logs : ∀ filter, m.filterLogs filter = n.filterLogs filter
  world : m.world = n.world
  withdrawals : ∀ id, (m.withdrawals.get? id).map (fun w => (w.recipient, w.amount)) =
    (n.withdrawals.get? id).map (fun w => (w.recipient, w.amount))

/-- What an import reads of the configuration is the address of the bridge. -/
theorem receiptsOf_congr {cfg cfg' : Config} (h : cfg'.bridgeAddress = cfg.bridgeAddress) :
    receiptsOf cfg' = receiptsOf cfg ∧ consensusReceipt cfg' = consensusReceipt cfg ∧
    World.applyAll cfg' = World.applyAll cfg ∧
    RpcNode.startsWithdrawal cfg' = RpcNode.startsWithdrawal cfg := by
  refine ⟨?_, ?_, ?_, ?_⟩
  · funext blockHash blockNumber index logIndex txs
    rw [receiptsOf, receiptsOf]
    congr 1
    funext i tx
    rw [receiptOf, receiptOf, bridgeLogs, bridgeLogs, callsBridge, callsBridge, h]
  · funext tx
    rw [consensusReceipt, consensusReceipt, consensusLogs, consensusLogs, h]
  · funext w txs
    rw [World.applyAll, World.applyAll, h]
  · funext tx
    rw [RpcNode.startsWithdrawal, RpcNode.startsWithdrawal, h]

/-- A block that replays on the accounts of the importer has the roots that the import asks
for. -/
theorem rootsMatch_of_blockReplays {cfg : Config} {m : RpcNode} {block : BlockRecord}
    (h : BlockReplays cfg m.world block) (ω ω' : Choices) :
    RpcNode.RootsMatch block (m.applyPeerBlock cfg ω block) ω' := by
  have hmined : (m.applyPeerBlock cfg ω block).1 = block.transactions :=
    (RpcNode.applyTxs_mined _).trans h.mined
  have hreceipts : (m.applyPeerBlock cfg ω block).2.1.map (·.toGethReceipt) =
      block.transactions.map (consensusReceipt cfg) := RpcNode.applyTxs_receipts _
  have hworld : (m.applyPeerBlock cfg ω block).2.2.world =
      m.world.applyAll cfg block.transactions := RpcNode.applyTxs_world _
  refine ⟨?_, ?_, ?_, ?_⟩
  · rw [hworld, ← h.state ω', equalFold_refl]
  · rw [hmined, ← h.txs, RpcNode.rootMatches, equalFold_refl, Bool.or_true]
  · rw [receiptTrieRoot_eq, hreceipts, ← h.receipts, RpcNode.rootMatches, equalFold_refl,
      Bool.or_true]
  · rw [blockLogsBloomHex_eq, hreceipts, ← h.bloom, RpcNode.bloomMatches, RpcNode.rootMatches,
      equalFold_refl, Bool.or_true, Bool.or_true]

theorem receiptsOf_minedTx (cfg : Config) (blockHash : String) (blockNumber logIndex : ℕ)
    (txs : List TxRecord) :
    receiptsOf cfg blockHash blockNumber 0 logIndex
        (txs.mapIdx fun i tx => RpcNode.minedTx tx blockHash blockNumber (0 + i)) =
      receiptsOf cfg blockHash blockNumber 0 logIndex txs := by
  rw [receiptsOf, receiptsOf, List.mapIdx_mapIdx]
  rfl

theorem length_logs_receiptsOf (cfg : Config) (blockHash : String) (blockNumber index logIndex : ℕ)
    (txs : List TxRecord) :
    ((receiptsOf cfg blockHash blockNumber index logIndex txs).flatMap (·.logs)).length =
      txs.countP (callsBridge cfg) := by
  induction txs generalizing index with
  | nil => rfl
  | cons tx txs ih =>
      rw [receiptsOf_cons, List.flatMap_cons, List.length_append, ih, receiptOf, length_bridgeLogs,
        List.countP_cons, Nat.add_comm]

section Import
variable {cfg cfg' : Config} {n m : RpcNode} {txs : List TxRecord} {ω ω' : Choices}

/-- The number of a mined block. -/
theorem number_minePendingBlock (hchain : ChainOk n) :
    quantity64 (n.minePendingBlock cfg ω).1.number = n.height + 1 := by
  have hbound := hchain.bound
  have hnum : u64 ((n.height : ℤ) + 1) = n.height + 1 := u64_of_lt (k := n.height + 1) (by omega)
  have hnumber : (n.minePendingBlock cfg ω).1.number = toHex (u64 (n.height + 1)) := rfl
  rw [hnumber, hnum, quantity64_toHex (by omega)]

/-- Where no two spellings of an address disagree, the block is imported. -/
theorem import_of_wellSpelled (hbridge : cfg'.bridgeAddress = cfg.bridgeAddress)
    (hchain : ChainOk n) (hm : SameLedger n m)
    (h : (n.world.applyAll cfg n.pendingTxs).WellSpelled) :
    (m.importPeerBlock cfg' ω' (n.minePendingBlock cfg ω).1).1 = .ok true := by
  obtain ⟨hreceipts, hconsensus, happly, -⟩ := receiptsOf_congr hbridge
  obtain ⟨block, hblocks, hreplays, -⟩ := blockReplays_of_mined (ω := ω) (.refl _) h h
  rw [n.minePendingBlock_fst cfg ω, List.append_cancel_left_eq, List.cons.injEq] at hblocks
  obtain ⟨rfl, -⟩ := hblocks
  have hreplays' : BlockReplays cfg' m.world (n.minePendingBlock cfg ω).1 := by
    rw [hm.world]
    refine ⟨?_, hreplays.mined, hreplays.txs, ?_, ?_⟩
    · rw [happly]
      exact hreplays.state
    · rw [hconsensus]
      exact hreplays.receipts
    · rw [hconsensus]
      exact hreplays.bloom
  have hnew : (m.canonical.get? (quantity64 (n.minePendingBlock cfg ω).1.number)).getD "" = "" := by
    rw [hm.canonical, number_minePendingBlock hchain, hchain.canonical_eq_empty_iff]
    omega
  obtain ⟨l, himport⟩ := RpcNode.importPeerBlock_of_match hnew
    (rootsMatch_of_blockReplays hreplays' _ _)
  rw [himport]

/-- What an import of a mined block leaves. -/
theorem importPeerBlock_minePendingBlock (hbridge : cfg'.bridgeAddress = cfg.bridgeAddress)
    (hchain : ChainOk n) (hm : SameLedger n m)
    (hok : (m.importPeerBlock cfg' ω' (n.minePendingBlock cfg ω).1).1 = .ok true) :
    let m' := (m.importPeerBlock cfg' ω' (n.minePendingBlock cfg ω).1).2
    let receipts := receiptsOf cfg (n.nextBlockHash (ω.call 0)) (u64 (n.height + 1)) 0 n.logs.length
      n.pendingTxs
    m'.receipts = RpcNode.recordReceipts n.receipts (n.minePendingTxs cfg ω).1 receipts ∧
    m'.logs = n.logs ++ receipts.flatMap (·.logs) ∧
    m'.world = n.world.applyAll cfg n.pendingTxs ∧
    ((∀ tx ∈ n.pendingTxs, RpcNode.startsWithdrawal cfg tx = false) →
      m'.withdrawals = n.withdrawals) := by
  intro m' receipts
  obtain ⟨hcongr, -, happly, hstarts⟩ := receiptsOf_congr hbridge
  have hnum : quantity64 (n.minePendingBlock cfg ω).1.number = u64 (n.height + 1) := by
    have hbound := hchain.bound
    rw [number_minePendingBlock hchain]
    exact (u64_of_lt (k := n.height + 1) (by omega)).symm
  have htxs := n.minePendingBlock_transactions cfg ω
  rcases m.importPeerBlock_cases cfg' ω' (n.minePendingBlock cfg ω).1 with ⟨heq, -⟩ |
    ⟨e, ω₁, ω₂, disk, heq⟩ | ⟨ω₂, l, heq, -⟩
  · rw [heq] at hok
    cases hok
  · rw [heq] at hok
    cases hok
  · have hm' : m' = m.afterImport (ω'.call 2) (n.minePendingBlock cfg ω).1 l
        (m.applyPeerBlock cfg' ((ω'.call 0).call 1) (n.minePendingBlock cfg ω).1) :=
      congrArg Prod.snd heq
    have hloop := @RpcNode.applyTxs_receiptsOf _ cfg' ((ω'.call 0).call 1)
      { m with height := quantity64 (n.minePendingBlock cfg ω).1.number, replayMode := true }
      (n.minePendingBlock cfg ω).1.hash (quantity64 (n.minePendingBlock cfg ω).1.number) 0 rfl
      (n.minePendingBlock cfg ω).1.transactions
    have hmined : (m.applyPeerBlock cfg' ((ω'.call 0).call 1) (n.minePendingBlock cfg ω).1).1 =
        (n.minePendingTxs cfg ω).1 := by
      refine (RpcNode.applyTxs_mined _).trans ?_
      rw [htxs, hnum, List.mapIdx_mapIdx]
      exact htxs.symm
    have hreceipts : (m.applyPeerBlock cfg' ((ω'.call 0).call 1)
        (n.minePendingBlock cfg ω).1).2.1 = receipts := by
      refine hloop.1.trans ?_
      rw [hcongr, htxs, hnum]
      show receiptsOf cfg _ _ _ m.logs.length _ = _
      rw [hm.logs]
      exact receiptsOf_minedTx cfg _ _ _ _
    have hlogs : (m.applyPeerBlock cfg' ((ω'.call 0).call 1)
        (n.minePendingBlock cfg ω).1).2.2.logs = n.logs := hloop.2.trans hm.logs
    have hsame := m.applyPeerBlock_sameChain cfg' ((ω'.call 0).call 1) (n.minePendingBlock cfg ω).1
    rw [hm', RpcNode.afterImport, hmined, hreceipts]
    refine ⟨?_, ?_, ?_, fun hnone => ?_⟩
    · rw [RpcNode.recordImported_receipts]
      exact congrArg (RpcNode.recordReceipts · _ _) (hsame.receipts.trans hm.receipts)
    · rw [RpcNode.recordImported_logs]
      · exact congrArg (· ++ _) hlogs
      · show (n.minePendingBlock cfg ω).1.transactions.length = _
        rw [htxs]
        simp [receipts, receiptsOf]
    · rw [RpcNode.recordImported_world]
      refine (RpcNode.applyTxs_world _).trans ?_
      show World.applyAll cfg' m.world _ = _
      rw [happly, hm.world, htxs, World.applyAll_mapIdx_minedTx]
    · rw [RpcNode.recordImported_withdrawals]
      refine (RpcNode.applyTxs_withdrawals fun tx htx => ?_).trans hm.withdrawals
      rw [htxs] at htx
      obtain ⟨i, hi, rfl⟩ := List.mem_mapIdx.mp htx
      rw [hstarts]
      exact hnone n.pendingTxs[i] (List.getElem_mem hi)

/-- With at most one bridge call and no withdrawal the importer ends like the miner. -/
theorem agrees_of_oneBridgeCall (hbridge : cfg'.bridgeAddress = cfg.bridgeAddress)
    (hchain : ChainOk n) (hm : SameLedger n m)
    (hok : (m.importPeerBlock cfg' ω' (n.minePendingBlock cfg ω).1).1 = .ok true)
    (hone : OneBridgeCall cfg n.pendingTxs) :
    Agrees (n.minePendingBlock cfg ω).1 (n.minePendingBlock cfg ω).2
      (m.importPeerBlock cfg' ω' (n.minePendingBlock cfg ω).1).2 := by
  obtain ⟨hreceipts, hlogs, hworld, hwithdrawals⟩ :=
    importPeerBlock_minePendingBlock hbridge hchain hm hok
  obtain ⟨hminer, hminerLogs, hminerWithdrawals⟩ := n.minePendingBlock_records cfg ω
  have hsame : (n.minePendingTxs cfg ω).2.1 = receiptsOf cfg (n.nextBlockHash (ω.call 0))
      (u64 (n.height + 1)) 0 n.logs.length n.pendingTxs :=
    RpcNode.mineTxs_receiptsOf hone (.inl rfl)
  refine ⟨fun tx _ => ?_, fun filter => ?_, ?_, fun id => ?_⟩
  · have hrecorded : (n.minePendingTxs cfg ω).2.2.receipts = RpcNode.recordReceipts n.receipts
        (n.minePendingTxs cfg ω).1 (n.minePendingTxs cfg ω).2.1 :=
      RpcNode.mineTxs_recordReceipts n.pendingTxs
    rw [hreceipts, hminer, hrecorded, ← hsame]
  · have hequal : (n.minePendingBlock cfg ω).2.logs =
        (m.importPeerBlock cfg' ω' (n.minePendingBlock cfg ω).1).2.logs := by
      rw [hlogs, hminerLogs, ← hsame]
      exact RpcNode.mineTxs_logs hone.withdrawals
    rw [RpcNode.filterLogs, RpcNode.filterLogs, hequal]
  · rw [hworld, n.minePendingBlock_world cfg ω]
    rfl
  · have hkept : (n.minePendingTxs cfg ω).2.2.withdrawals = n.withdrawals :=
      RpcNode.mineTxs_withdrawals hone.withdrawals
    rw [hwithdrawals hone.withdrawals, hminerWithdrawals, hkept]

/-- An importer whose logs are those of the miner has imported no other block. -/
theorem oneBridgeCall_of_logs (hbridge : cfg'.bridgeAddress = cfg.bridgeAddress)
    (hchain : ChainOk n) (hmode : n.replayMode = false) (hm : SameLedger n m)
    (hok : (m.importPeerBlock cfg' ω' (n.minePendingBlock cfg ω).1).1 = .ok true)
    (heq : (m.importPeerBlock cfg' ω' (n.minePendingBlock cfg ω).1).2.logs =
      (n.minePendingBlock cfg ω).2.logs) : OneBridgeCall cfg n.pendingTxs := by
  obtain ⟨-, hlogs, -⟩ := importPeerBlock_minePendingBlock hbridge hchain hm hok
  rw [hlogs, (n.minePendingBlock_records cfg ω).2.1] at heq
  -- the list of the miner is longer by one entry for each withdrawal
  have hlength := congrArg List.length heq
  have hminer := @RpcNode.mineTxs_logs_length _ cfg (ω.call 1) { n with pendingTxs := [] }
    (n.nextBlockHash (ω.call 0)) (u64 (n.height + 1)) 0 hmode n.pendingTxs
  rw [List.length_append, length_logs_receiptsOf] at hlength
  have hzero : n.pendingTxs.countP (RpcNode.startsWithdrawal cfg) = 0 := by
    have htotal : n.logs.length + n.pendingTxs.countP (callsBridge cfg) = n.logs.length +
        n.pendingTxs.countP (callsBridge cfg) + n.pendingTxs.countP (RpcNode.startsWithdrawal cfg) :=
      hlength.trans hminer
    omega
  have hnone : ∀ tx ∈ n.pendingTxs, RpcNode.startsWithdrawal cfg tx = false :=
    fun tx htx => Bool.eq_false_iff.mpr (List.countP_eq_zero.mp hzero tx htx)
  have hmined : (n.minePendingTxs cfg ω).2.2.logs =
      n.logs ++ (n.minePendingTxs cfg ω).2.1.flatMap (·.logs) := RpcNode.mineTxs_logs hnone
  rw [hmined] at heq
  have hflat := List.append_cancel_left heq
  exact ⟨(RpcNode.countP_of_mineTxs hnone le_rfl hflat.symm).1, hnone⟩

/-- **Miner and importer.** Two nodes that hold the same ledger, where one mines any list of
transactions and the other imports the block: the import succeeds when no two spellings of an
address hold different values, and then the two nodes agree exactly when the block has at most
one bridge call and starts no withdrawal. -/
theorem importer_agrees_iff (hbridge : cfg'.bridgeAddress = cfg.bridgeAddress)
    (h : Reachable cfg n) (hm : SameLedger n m) (txs : List TxRecord) (ω ω' : Choices) :
    let miner := RpcNode.minePendingBlock { n with pendingTxs := txs } cfg ω
    let importer := m.importPeerBlock cfg' ω' miner.1
    ((n.world.applyAll cfg txs).WellSpelled → importer.1 = .ok true) ∧
    (importer.1 = .ok true → (Agrees miner.1 miner.2 importer.2 ↔ OneBridgeCall cfg txs)) := by
  intro miner importer
  have hchain : ChainOk { n with pendingTxs := txs } := h.chainOk.of_eq rfl rfl rfl rfl rfl
  have hmode : n.replayMode = false := h.replayMode
  have hledger : SameLedger { n with pendingTxs := txs } m :=
    ⟨hm.height, hm.world, hm.canonical, hm.receipts, hm.logs, hm.withdrawals⟩
  refine ⟨import_of_wellSpelled hbridge hchain hledger, fun hok => ?_⟩
  constructor
  · intro hagrees
    have hlogs := hagrees.logs ∅
    rw [RpcNode.filterLogs_empty, RpcNode.filterLogs_empty] at hlogs
    exact oneBridgeCall_of_logs hbridge hchain hmode hledger hok hlogs
  · exact agrees_of_oneBridgeCall hbridge hchain hledger hok

end Import

/-! ## An anchor call -/

/-- Accounts in normal form stay well spelled under a call of the bridge. -/
theorem wellSpelled_of_bridgeCall {w : World} (hw : w.Normal) {tx : TxRecord} (htx : tx.Normal)
    (hrecipient : tx.recipient = bridge) : (w.applyAll {} [tx]).WellSpelled := by
  refine hw.wellSpelled.apply (hw.plain.spelledAlike htx fun hcreate => ?_)
  rw [hrecipient] at hcreate
  exact absurd hcreate (by decide)

theorem oneBridgeCall_anchorCall (n : RpcNode) (ω : Choices) :
    OneBridgeCall {} [n.txOfObject ω anchorCall ""] := by
  obtain ⟨-, -, -, hinput⟩ := anchorCall_record n ω
  refine ⟨List.countP_le_length, fun tx htx => ?_⟩
  rw [List.mem_singleton.mp htx, RpcNode.startsWithdrawal, (isAnchorCall_record hinput).2,
    Bool.and_false, Bool.false_and]

/-- A fresh node is reachable, and a bridge call leaves its accounts well spelled. -/
theorem fresh_bridgeCall {n : RpcNode} {ω : Choices} (hn : n = newRPCNode {} ω {}) {tx : Object}
    (htx : (n.txOfObject ω tx "").recipient = bridge) :
    Reachable {} n ∧ n.world = freshWorld {} ∧
      (n.world.applyAll {} [n.txOfObject ω tx ""]).WellSpelled := by
  have hworld : n.world = freshWorld {} := by
    obtain ⟨ω₁, l, timestamp, hfresh, -⟩ := newRPCNode_fresh {} ω
    rw [hn, hfresh]
  refine ⟨hn ▸ ⟨ω, .refl⟩, hworld, wellSpelled_of_bridgeCall ?_ (normal_txOfObject _ _ _ _) htx⟩
  rw [hworld]
  exact freshWorld_normal {}

omit [Platform] in
theorem importer_agrees_on_anchorCall :
    letI := Platform.checksums
    let n := newRPCNode {} default {}
    let miner := RpcNode.minePendingBlock
      { n with pendingTxs := [n.txOfObject default anchorCall ""] } {} default
    let importer := n.importPeerBlock {} default miner.1
    importer.1 = .ok true ∧ Agrees miner.1 miner.2 importer.2 := by
  obtain ⟨hreach, -, hspelled⟩ := @fresh_bridgeCall Platform.checksums _ default rfl anchorCall
    (@anchorCall_record Platform.checksums _ _).2.1
  obtain ⟨hok, hagrees⟩ := @importer_agrees_iff Platform.checksums {} {} _ _ rfl hreach (.refl _) _
    default default
  exact ⟨hok hspelled,
    (hagrees (hok hspelled)).mpr (@oneBridgeCall_anchorCall Platform.checksums _ _)⟩

/-! ## A withdrawal call -/

/-- A call of the bridge that starts a withdrawal. -/
def withdrawalCall : Object :=
  object [("from", .str defaultAccount), ("to", .str bridge), ("data", .str "0x7a0f1d9e")]

theorem text_withdrawalCall : text withdrawalCall "from" = defaultAccount ∧
    text withdrawalCall "to" = bridge ∧ text withdrawalCall "value" = "<nil>" ∧
    text withdrawalCall "data" = "0x7a0f1d9e" :=
  ⟨text_of_str rfl, text_of_str rfl, text_of_null rfl, text_of_str rfl⟩

theorem isWithdrawalCall_record {tx : TxRecord} (h : tx.input = "0x7a0f1d9e") :
    isWithdrawalCall tx = true := by
  have hlower : toLower "0x7a0f1d9e" = "0x7a0f1d9e" := by
    rw [toLower_of_ascii (by decide)]
    decide
  have htrim : trimSpace "0x7a0f1d9e" = "0x7a0f1d9e" := by decide
  have hselector : abiSelector "0x7a0f1d9e" = "0x7a0f1d9e" :=
    abiSelector_eq_self (by rw [htrim, hlower]) (by decide)
  rw [isWithdrawalCall, h, hselector]
  rfl

theorem validate_withdrawalCall {n : RpcNode} (h : n.world = freshWorld {}) :
    n.validateTransaction {} withdrawalCall = .ok () := by
  obtain ⟨hfrom, hto, hvalue, -⟩ := text_withdrawalCall
  exact validate_bridgeCall ⟨hfrom, hto, hvalue⟩ rfl rfl h

theorem withdrawalCall_record (n : RpcNode) (ω : Choices) :
    (n.txOfObject ω withdrawalCall "").sender = defaultAccount ∧
    (n.txOfObject ω withdrawalCall "").recipient = bridge ∧
    (n.txOfObject ω withdrawalCall "").value = hexText 0 ∧
    (n.txOfObject ω withdrawalCall "").input = "0x7a0f1d9e" :=
  bridgeCall_record text_withdrawalCall (fun _ => rfl) n ω

theorem startsWithdrawal_withdrawalCall (n : RpcNode) (ω : Choices) :
    RpcNode.startsWithdrawal {} (n.txOfObject ω withdrawalCall "") = true := by
  obtain ⟨hsender, hrecipient, -, hinput⟩ := withdrawalCall_record n ω
  rw [RpcNode.startsWithdrawal, hsender, hrecipient, isWithdrawalCall_record hinput]
  decide

theorem withdrawalCall_disagrees {n : RpcNode} {ω : Choices} (hn : n = newRPCNode {} ω {})
    (ω₁ ω₂ : Choices) :
    let miner := RpcNode.minePendingBlock
      { n with pendingTxs := [n.txOfObject ω withdrawalCall ""] } {} ω₁
    let importer := n.importPeerBlock {} ω₂ miner.1
    n.validateTransaction {} withdrawalCall = .ok () ∧ importer.1 = .ok true ∧
      ¬ Agrees miner.1 miner.2 importer.2 := by
  intro miner importer
  obtain ⟨hreach, hworld, hspelled⟩ := fresh_bridgeCall hn (withdrawalCall_record n ω).2.1
  have hchain : ChainOk { n with pendingTxs := [n.txOfObject ω withdrawalCall ""] } :=
    hreach.chainOk.of_eq rfl rfl rfl rfl rfl
  have hledger : SameLedger { n with pendingTxs := [n.txOfObject ω withdrawalCall ""] } n :=
    ⟨rfl, rfl, rfl, rfl, rfl, rfl⟩
  have hok : (n.importPeerBlock {} ω₂ miner.1).1 = .ok true :=
    import_of_wellSpelled rfl hchain hledger hspelled
  refine ⟨validate_withdrawalCall hworld, hok, fun hagrees => ?_⟩
  have hlogs := hagrees.logs ∅
  rw [RpcNode.filterLogs_empty, RpcNode.filterLogs_empty] at hlogs
  have hone := oneBridgeCall_of_logs rfl hchain hreach.replayMode hledger hok hlogs
  have hnone := hone.withdrawals _ (List.mem_singleton_self _)
  rw [startsWithdrawal_withdrawalCall] at hnone
  cases hnone

omit [Platform] in
/-- **A missing log.** A fresh node mines a withdrawal call; a second fresh node imports the block
and lacks the log that starting the withdrawal appended. -/
theorem importer_misses_log :
    letI := Platform.checksums
    let n := newRPCNode {} default {}
    let miner := RpcNode.minePendingBlock
      { n with pendingTxs := [n.txOfObject default withdrawalCall ""] } {} default
    let importer := n.importPeerBlock {} default miner.1
    n.validateTransaction {} withdrawalCall = .ok () ∧ importer.1 = .ok true ∧
      ¬ Agrees miner.1 miner.2 importer.2 := by
  exact @withdrawalCall_disagrees Platform.checksums _ default rfl default default

end BhtBhte.Node
