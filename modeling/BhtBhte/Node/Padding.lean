import BhtBhte.Node.Stamps

/-!
# Where topics come from

Every topic that a node keeps, in its list of logs or in the log of a receipt, is a text or a
padded address, whatever calls came before: the executor and the three bridge calls write no other,
and a restart turns the padded ones into texts.
-/
namespace BhtBhte.Node
open BhtBhte.Lib
variable [Platform]

/-- The topics of the log are texts and padded addresses. -/
def LogRecord.Worded (lg : LogRecord) : Prop :=
  ∀ t ∈ lg.topics, t.IsText ∨ ∃ addr, t = paddedTopic addr

/-- So are those of every log that the node keeps. -/
structure WordedOk (n : RpcNode) : Prop where
  logs : ∀ lg ∈ n.logs, lg.Worded
  receipts : ∀ key r, n.receipts.get? key = some r → ∀ lg ∈ r.logs, lg.Worded

theorem Topic.IsText.worded (s : String) :
    (Topic.ofText s).IsText ∨ ∃ addr, Topic.ofText s = paddedTopic addr := .inl ⟨s, rfl⟩

theorem LogRecord.worded_reread (lg : LogRecord) : lg.reread.Worded := by
  intro t ht
  obtain ⟨t, -, rfl⟩ := List.mem_map.mp ht
  rw [Topic.reread_eq]
  exact Topic.IsText.worded _

namespace WordedOk
variable {n n' : RpcNode} {cfg : Config} {ω : Choices} {tx : TxRecord} {blockHash : String}
  {blockNumber index : ℕ}

theorem of_eq (h : WordedOk n) (hlogs : n'.logs = n.logs) (hreceipts : n'.receipts = n.receipts) :
    WordedOk n' :=
  ⟨hlogs ▸ h.logs, hreceipts ▸ h.receipts⟩

theorem append (h : WordedOk n) {l : List LogRecord} (hl : ∀ lg ∈ l, lg.Worded)
    (hlogs : n'.logs = n.logs ++ l) (hreceipts : n'.receipts = n.receipts) : WordedOk n' := by
  refine ⟨fun lg hlg => ?_, hreceipts ▸ h.receipts⟩
  rw [hlogs] at hlg
  exact (List.mem_append.mp hlg).elim (h.logs lg) (hl lg)

/-- A log with a text and a padded address. -/
theorem appendLog (h : WordedOk n) (cfg : Config) (s addr data transactionHash : String) :
    WordedOk (n.appendLog cfg [.ofText s, paddedTopic addr] data transactionHash) := by
  refine h.append (fun lg hlg => ?_) rfl rfl
  rw [List.mem_singleton.mp hlg]
  intro t ht
  simp only [List.mem_cons, List.not_mem_nil, or_false] at ht
  rcases ht with rfl | rfl
  · exact Topic.IsText.worded s
  · exact .inr ⟨addr, rfl⟩

theorem initiateWithdrawal (h : WordedOk n) (request : Object) :
    WordedOk (n.initiateWithdrawal cfg ω request).2 := by
  rw [RpcNode.initiateWithdrawal]
  split
  · exact h.of_eq rfl rfl
  · exact (h.appendLog cfg _ _ _ _).of_eq rfl rfl

/-! ## Execution -/

theorem bridgeAnchor (h : WordedOk n) : WordedOk (n.bridgeAnchor ω tx blockHash blockNumber) := by
  rw [RpcNode.bridgeAnchor]
  split
  · obtain ⟨l, hl, -⟩ := n.computeStateTrieRoot_eq (ω.call 0)
    dsimp only
    rw [hl]
    exact h.of_eq (RpcNode.submitAnchor_frame _ _ _).1 (RpcNode.submitAnchor_sameChain _).receipts
  · exact h

/-- The executor leaves worded logs behind, and gives worded logs. -/
theorem executeTransaction (h : WordedOk n) :
    WordedOk (n.executeTransaction cfg ω tx blockHash blockNumber index).2.2 ∧
      ∀ lg ∈ (n.executeTransaction cfg ω tx blockHash blockNumber index).1, lg.Worded := by
  rw [RpcNode.executeTransaction]
  split
  · next hcall =>
      rw [RpcNode.executeBridgeCall, if_neg (not_not_intro hcall.2)]
      have hwithdrawal : WordedOk (n.bridgeWithdrawal cfg (ω.call 0) tx) := by
        rw [RpcNode.bridgeWithdrawal]
        split
        · exact h.initiateWithdrawal _
        · exact h
      refine ⟨hwithdrawal.bridgeAnchor, fun lg hlg => ?_⟩
      rw [List.mem_singleton.mp hlg]
      intro t ht
      simp only [List.mem_cons, List.not_mem_nil, or_false] at ht
      rcases ht with rfl | rfl | rfl
      · exact Topic.IsText.worded _
      · exact .inr ⟨_, rfl⟩
      · exact .inr ⟨_, rfl⟩
  · exact ⟨h.of_eq rfl rfl, fun lg hlg => absurd hlg List.not_mem_nil⟩

theorem applyMinedTransaction (h : WordedOk n) (cfg : Config) (ω : Choices) (tx : TxRecord)
    (blockHash : String) (blockNumber index : ℕ) :
    WordedOk (n.applyMinedTransaction cfg ω tx blockHash blockNumber index).2.2 ∧
      ∀ lg ∈ (n.applyMinedTransaction cfg ω tx blockHash blockNumber index).2.1.logs, lg.Worded := by
  have hmoved : WordedOk { n with world := n.world.transfer tx } := h.of_eq rfl rfl
  exact hmoved.executeTransaction

theorem enter (h : WordedOk n) {key : String} {r : ReceiptRecord} (hr : ∀ lg ∈ r.logs, lg.Worded)
    (hlogs : n'.logs = n.logs ++ r.logs) (hreceipts : n'.receipts = n.receipts.insert key r) :
    WordedOk n' := by
  refine ⟨fun lg hlg => ?_, fun key' r' hr' => ?_⟩
  · rw [hlogs] at hlg
    exact (List.mem_append.mp hlg).elim (h.logs lg) (hr lg)
  · rw [hreceipts, FinMap.get?_insert] at hr'
    split at hr'
    · cases hr'
      exact hr
    · exact h.receipts key' r' hr'

theorem mineTxs (h : WordedOk n) (txs : List TxRecord) :
    WordedOk (RpcNode.mineTxs cfg blockHash blockNumber n ω index txs).2.2 := by
  induction txs generalizing n ω index with
  | nil => exact h
  | cons tx txs ih =>
      obtain ⟨hnext, hlogs⟩ :=
        h.applyMinedTransaction cfg (ω.call 0) tx blockHash blockNumber index
      rw [RpcNode.mineTxs]
      exact ih (hnext.enter hlogs rfl rfl)

theorem applyTxs (h : WordedOk n) (cfg : Config) (ω : Choices) (blockHash : String)
    (blockNumber index : ℕ) (txs : List TxRecord) :
    WordedOk (RpcNode.applyTxs cfg blockHash blockNumber n ω index txs).2.2 ∧
      ∀ r ∈ (RpcNode.applyTxs cfg blockHash blockNumber n ω index txs).2.1, ∀ lg ∈ r.logs,
        lg.Worded := by
  induction txs generalizing n ω index with
  | nil => exact ⟨h, fun r hr => absurd hr List.not_mem_nil⟩
  | cons tx txs ih =>
      obtain ⟨hnext, hlogs⟩ :=
        h.applyMinedTransaction cfg (ω.call 0) tx blockHash blockNumber index
      obtain ⟨hrest, hreceipts⟩ := ih hnext (ω.call 1) (index + 1)
      rw [RpcNode.applyTxs]
      refine ⟨hrest, fun r hr => ?_⟩
      rcases List.mem_cons.mp hr with rfl | hr
      · exact hlogs
      · exact hreceipts r hr

theorem recordImported (h : WordedOk n) {receipts : List ReceiptRecord}
    (hreceipts : ∀ r ∈ receipts, ∀ lg ∈ r.logs, lg.Worded) (txs : List TxRecord) :
    WordedOk (n.recordImported txs receipts) := by
  induction txs generalizing n receipts with
  | nil => exact h
  | cons tx txs ih =>
      cases receipts with
      | nil => exact h
      | cons r receipts =>
          have hrest := fun r' hr' => hreceipts r' (List.mem_cons_of_mem r hr')
          have hr := hreceipts r List.mem_cons_self
          rw [RpcNode.recordImported]
          dsimp only
          split
          · exact ih (h.enter hr rfl rfl) hrest
          · exact ih (h.enter hr rfl rfl) hrest

/-! ## Calls -/

theorem minePendingBlock (h : WordedOk n) : WordedOk (n.minePendingBlock cfg ω).2 := by
  obtain ⟨block, l, heq, -⟩ := n.minePendingBlock_eq cfg ω
  have hstart : WordedOk { n with pendingTxs := [] } := h.of_eq rfl rfl
  rw [heq]
  exact (hstart.mineTxs n.pendingTxs).of_eq rfl rfl

theorem enqueue (h : WordedOk n) (record : TxRecord) : WordedOk (n.enqueue cfg ω record) := by
  have hpending : WordedOk { n with pendingTxs := n.pendingTxs ++ [record] } := h.of_eq rfl rfl
  rw [RpcNode.enqueue]
  split
  · exact hpending.minePendingBlock
  · exact hpending.of_eq rfl rfl

theorem syncBlock (h : WordedOk n) (height : ℕ) (block : PeerBlock) :
    WordedOk (n.syncBlock cfg ω height block).2 := by
  rcases n.syncBlock_cases cfg ω height block with ⟨heq, -⟩ | ⟨e, ω₁, ω₂, disk, heq⟩ |
    ⟨ω₂, l, heq, -⟩
  · rw [heq]; exact h
  · rw [heq]; exact h.of_eq rfl rfl
  · have hstart : WordedOk { n with
        height := quantity64 block.record.number, replayMode := true } := h.of_eq rfl rfl
    obtain ⟨hdone, hreceipts⟩ := hstart.applyTxs cfg ((ω.call 0).call 1) block.record.hash
      (quantity64 block.record.number) 0 block.record.transactions
    rw [heq]
    show WordedOk (n.afterImport _ _ _ _)
    rw [RpcNode.afterImport]
    refine recordImported ?_ hreceipts _
    exact hdone.of_eq rfl rfl

theorem rollback (h : WordedOk n) (height : ℕ) (s : StateSnapshotRecord) :
    WordedOk (n.rollback ω height s) := by
  have herase : ∀ (hashes : List String) (m : FinMap String ReceiptRecord) key r,
      (hashes.foldl (fun m hash => m.erase hash) m).get? key = some r → m.get? key = some r := by
    intro hashes
    induction hashes with
    | nil => exact fun m key r hr => hr
    | cons hash hashes ih =>
        intro m key r hr
        have hkept := ih (m.erase hash) key r hr
        rw [FinMap.erase, FinMap.get?_filter, Option.filter_eq_some_iff] at hkept
        exact hkept.1
  exact ⟨fun lg hlg => h.logs lg (List.mem_filter.mp hlg).1,
    fun key r hr => h.receipts key r (herase _ _ key r hr)⟩

theorem next (h : WordedOk n) (hchain : ChainOk n) (e : Event) : WordedOk (n.next cfg ω e) := by
  cases e with
  | sendTransaction tx =>
      rw [RpcNode.next]
      rcases n.sendTransaction_cases cfg ω tx with heq | ⟨-, heq⟩
      · rw [heq]; exact h
      · rw [heq]; exact h.enqueue _
  | sendRawTransaction rawTx => exact h.enqueue _
  | mineBlock => exact h.minePendingBlock
  | handleReorg height newHash =>
      rw [RpcNode.next]
      rcases n.handleReorg_cases ω height newHash with heq | ⟨s, -, -, heq⟩
      · rw [heq]; exact h
      · rw [heq]; exact (h.rollback height s).of_eq rfl rfl
  | syncBlock block => exact h.syncBlock _ block
  | setPeer peer => exact h.of_eq rfl rfl
  | submitBridgeEvent event =>
      refine h.append (fun lg hlg => ?_) rfl rfl
      rw [List.mem_singleton.mp hlg]
      intro t ht
      rw [List.mem_singleton.mp ht]
      exact Topic.IsText.worded _
  | initiateWithdrawal request => exact h.initiateWithdrawal request
  | processWithdrawal id answer =>
      rw [RpcNode.next]
      rcases n.processWithdrawal_cases cfg ω id answer with ⟨heq, -⟩ | ⟨w, hash, -, -, -, heq⟩
      · rw [heq]; exact h
      · have hpaid : WordedOk { n with
            withdrawals := n.withdrawals.insert (toLower id) (w.paid hash) } := h.of_eq rfl rfl
        rw [heq]
        exact (hpaid.appendLog cfg _ _ _ _).of_eq rfl rfl
  | submitAnchor anchor =>
      exact h.of_eq (n.submitAnchor_frame ω anchor).1 (RpcNode.submitAnchor_sameChain _).receipts
  | replayChain =>
      rw [RpcNode.next]
      rcases n.replayChain_cases cfg ω with heq | ⟨ω₁, ω₂, disk, heq⟩
      · rw [heq]; exact h
      · rw [heq]; exact h.of_eq rfl rfl
  | validateBlock block =>
      rw [RpcNode.next]
      rcases n.validateBlockRecord_cases cfg ω block with heq | ⟨ω₁, ω₂, disk, heq⟩
      · rw [heq]; exact h
      · rw [heq]; exact h.of_eq rfl rfl
  | restart =>
      obtain ⟨index, disk, heq, -⟩ := hchain.restart cfg ω
      rw [RpcNode.next, heq]
      refine ⟨fun lg hlg => ?_, fun key r hr lg hlg => ?_⟩
      · obtain ⟨saved, -, rfl⟩ := List.mem_map.mp hlg
        exact saved.worded_reread
      · have hread : (n.receipts.mapValues ReceiptRecord.reread).get? key = some r := hr
        rw [FinMap.get?_mapValues, Option.map_eq_some_iff] at hread
        obtain ⟨saved, -, rfl⟩ := hread
        obtain ⟨lg, -, rfl⟩ := List.mem_map.mp hlg
        exact lg.worded_reread

end WordedOk

/-- **Topics.** In every run, every topic that the node keeps is a text or a padded address. -/
theorem Reachable.wordedOk {cfg : Config} {n : RpcNode} (h : Reachable cfg n) : WordedOk n := by
  refine (h.induct (P := fun n => ChainOk n ∧ WordedOk n) (fun ω => ⟨chainOk_fresh cfg ω, ?_⟩)
    fun n ω e hn _ hlen => ⟨hn.1.next hlen, hn.2.next hn.1 e⟩).2
  obtain ⟨ω₁, l, timestamp, heq, -⟩ := newRPCNode_fresh cfg ω
  rw [heq]
  exact ⟨fun lg hlg => absurd hlg List.not_mem_nil, fun key r hr => nomatch hr⟩

end BhtBhte.Node
