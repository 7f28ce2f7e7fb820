import BhtBhte.Node.Broadcasts

/-!
# What execution adds, and at which heights

Executing a block appends logs, trie commits, receipts, withdrawals and anchors.  Each of them
carries a height or a transaction hash, and a reorganisation later selects by these.  Nothing is
ever stamped above the head (`StampsOk.next`).
-/
namespace BhtBhte.Node
open BhtBhte.Lib
variable [Platform]

/-- From `n` to `n'` records were added: by hash they satisfy `H`, by height they lie between
`lo` and `hi`. -/
structure Grows (H : String → Prop) (lo hi : ℕ) (n n' : RpcNode) : Prop where
  txs : ∃ l, n'.txs = n.txs ++ l ∧ ∀ tx ∈ l, H (toLower tx.hash)
  receipts : ∀ key, ¬ H key → n'.receipts.get? key = n.receipts.get? key
  logs : ∃ l, n'.logs = n.logs ++ l ∧ ∀ lg ∈ l,
    H (toLower lg.transactionHash) ∧ quantity64 lg.blockNumber ≤ hi
  withdrawals : ∀ key, ¬ H key → n'.withdrawals.get? key = n.withdrawals.get? key
  started : ∀ key w, n'.withdrawals.get? key = some w →
    n.withdrawals.get? key = some w ∨ toLower w.l2TxHash = key
  anchors : ∀ k, k < lo → n'.anchors.get? k = n.anchors.get? k
  commits : ∃ l, n'.trieCommits = n.trieCommits ++ l ∧ ∀ c ∈ l, lo ≤ c.height ∧ c.height ≤ hi

namespace Grows
variable {H : String → Prop} {lo hi : ℕ} {n n' n'' : RpcNode}

/-- Nothing that `Grows` speaks of has changed. -/
theorem of_eq (htxs : n'.txs = n.txs) (hreceipts : n'.receipts = n.receipts)
    (hlogs : n'.logs = n.logs) (hwithdrawals : n'.withdrawals = n.withdrawals)
    (hanchors : n'.anchors = n.anchors) (hcommits : n'.trieCommits = n.trieCommits) :
    Grows H lo hi n n' := by
  refine ⟨⟨[], by simp [htxs], by simp⟩, fun _ _ => by rw [hreceipts], ⟨[], by simp [hlogs],
    by simp⟩, fun _ _ => by rw [hwithdrawals], fun key w hw => ?_, fun _ _ => by rw [hanchors],
    ⟨[], by simp [hcommits], by simp⟩⟩
  rw [hwithdrawals] at hw
  exact .inl hw

theorem refl (n : RpcNode) : Grows H lo hi n n := of_eq rfl rfl rfl rfl rfl rfl

theorem trans (h : Grows H lo hi n n') (h' : Grows H lo hi n' n'') : Grows H lo hi n n'' := by
  obtain ⟨txs, htxs, htxsH⟩ := h.txs
  obtain ⟨txs', htxs', htxsH'⟩ := h'.txs
  obtain ⟨logs, hlogs, hlogsH⟩ := h.logs
  obtain ⟨logs', hlogs', hlogsH'⟩ := h'.logs
  obtain ⟨commits, hcommits, hcommitsH⟩ := h.commits
  obtain ⟨commits', hcommits', hcommitsH'⟩ := h'.commits
  refine ⟨⟨txs ++ txs', by rw [htxs', htxs, List.append_assoc], fun tx htx => ?_⟩,
    fun key hkey => (h'.receipts key hkey).trans (h.receipts key hkey),
    ⟨logs ++ logs', by rw [hlogs', hlogs, List.append_assoc], fun lg hlg => ?_⟩,
    fun key hkey => (h'.withdrawals key hkey).trans (h.withdrawals key hkey), fun key w hw => ?_,
    fun k hk => (h'.anchors k hk).trans (h.anchors k hk),
    ⟨commits ++ commits', by rw [hcommits', hcommits, List.append_assoc], fun c hc => ?_⟩⟩
  · exact (List.mem_append.mp htx).elim (htxsH tx) (htxsH' tx)
  · exact (List.mem_append.mp hlg).elim (hlogsH lg) (hlogsH' lg)
  · exact (h'.started key w hw).elim (h.started key w) .inr
  · exact (List.mem_append.mp hc).elim (hcommitsH c) (hcommitsH' c)

/-- Weaker bounds on hashes and heights. -/
theorem mono {H' : String → Prop} {hi' : ℕ} (h : Grows H lo hi n n') (hH : ∀ s, H s → H' s)
    (hhi : hi ≤ hi') : Grows H' lo hi' n n' := by
  obtain ⟨txs, htxs, htxsH⟩ := h.txs
  obtain ⟨logs, hlogs, hlogsH⟩ := h.logs
  obtain ⟨commits, hcommits, hcommitsH⟩ := h.commits
  exact ⟨⟨txs, htxs, fun tx htx => hH _ (htxsH tx htx)⟩,
    fun key hkey => h.receipts key fun hk => hkey (hH key hk),
    ⟨logs, hlogs, fun lg hlg => ⟨hH _ (hlogsH lg hlg).1, (hlogsH lg hlg).2.trans hhi⟩⟩,
    fun key hkey => h.withdrawals key fun hk => hkey (hH key hk), h.started, h.anchors,
    ⟨commits, hcommits, fun c hc => ⟨(hcommitsH c hc).1, (hcommitsH c hc).2.trans hhi⟩⟩⟩

end Grows

/-! ## One transaction -/

/-- The node calls the anchor branch of the bridge for this transaction. -/
def callsAnchor (cfg : Config) (tx : TxRecord) : Bool :=
  tx.recipient ≠ "" && tx.recipient = cfg.bridgeAddress && isAnchorCall tx

namespace RpcNode
variable {H : String → Prop} {lo hi : ℕ} {cfg : Config} {ω : Choices} {n : RpcNode} {tx : TxRecord}
  {blockHash : String} {blockNumber index : ℕ}

theorem addCommits_grows {l : List TrieCommitRecord} (h : ∀ c ∈ l, lo ≤ c.height ∧ c.height ≤ hi) :
    Grows H lo hi n (n.addCommits l) :=
  ⟨⟨[], by simp [addCommits], by simp⟩, fun _ _ => rfl, ⟨[], by simp [addCommits], by simp⟩,
    fun _ _ => rfl, fun _ _ hw => .inl hw, fun _ _ => rfl, ⟨l, rfl, h⟩⟩

theorem initiateWithdrawal_grows {request : Object}
    (hH : H (withdrawalOf cfg ω request).id) (hhi : n.height ≤ hi) (hbound : n.height < 2 ^ 64) :
    Grows H lo hi n (n.initiateWithdrawal cfg ω request).2 := by
  have hwithdrawals : (n.initiateWithdrawal cfg ω request).2.withdrawals =
      n.withdrawals.insert (withdrawalOf cfg ω request).id (withdrawalOf cfg ω request) :=
    initiateWithdrawal_withdrawals request
  have hlogs : ∃ l, (n.initiateWithdrawal cfg ω request).2.logs = n.logs ++ l ∧ ∀ lg ∈ l,
      H (toLower lg.transactionHash) ∧ quantity64 lg.blockNumber ≤ hi := by
    rw [initiateWithdrawal]
    split
    · exact ⟨[], by simp, by simp⟩
    · refine ⟨_, rfl, fun lg hlg => ?_⟩
      rw [List.mem_singleton.mp hlg]
      refine ⟨hH, ?_⟩
      show quantity64 (toHex n.height) ≤ hi
      rwa [quantity64_toHex hbound]
  have hsame : SameChain n (n.initiateWithdrawal cfg ω request).2 :=
    initiateWithdrawal_sameChain request
  refine ⟨⟨[], by simp [hsame.txs], by simp⟩, fun _ _ => by rw [hsame.receipts], hlogs,
    fun key hkey => ?_, fun key w hw => ?_, fun k _ => ?_, ⟨[], ?_, by simp⟩⟩
  · rw [hwithdrawals, FinMap.get?_insert_of_ne]
    rintro rfl
    exact hkey hH
  · rw [hwithdrawals, FinMap.get?_insert] at hw
    split at hw
    · next hkey =>
        cases hw
        exact .inr hkey.symm
    · exact .inl hw
  · rw [initiateWithdrawal]
    split <;> rfl
  · rw [initiateWithdrawal]
    split <;> exact (List.append_nil _).symm

/-- The height that the anchor branch submits is read back as the number of the block. -/
theorem anchorHeight (hne : blockNumber ≠ 0) (hbound : blockNumber < 2 ^ 64) {m : RpcNode}
    {root : String} :
    (m.submitAnchor ω (object [("height", .other (toString blockNumber)), ("stateRoot", .str root),
      ("blockHash", .str blockHash), ("txHash", .str tx.hash)])).1.height = blockNumber := by
  have hfield : field (object [("height", .other (toString blockNumber)), ("stateRoot", .str root),
      ("blockHash", .str blockHash), ("txHash", .str tx.hash)]) "height" =
        .other (toString blockNumber) := by
    simp only [object, List.foldl_cons, List.foldl_nil, field]
    rw [FinMap.get?_insert_of_ne _ _ (by decide), FinMap.get?_insert_of_ne _ _ (by decide),
      FinMap.get?_insert_of_ne _ _ (by decide), FinMap.get?_insert_self]
    rfl
  have hquantity : quantityFromInterface (.other (toString blockNumber)) = blockNumber :=
    quantity64_toString hbound
  rw [submitAnchor]
  dsimp only
  rw [hfield, hquantity, if_neg hne]

theorem submitAnchor_anchors (n : RpcNode) (ω : Choices) (anchor : Object) :
    (n.submitAnchor ω anchor).2.anchors =
      n.anchors.insert (n.submitAnchor ω anchor).1.height (n.submitAnchor ω anchor).1 := by
  rw [submitAnchor]
  dsimp only
  split <;> rfl

theorem submitAnchor_frame (n : RpcNode) (ω : Choices) (anchor : Object) :
    (n.submitAnchor ω anchor).2.logs = n.logs ∧
    (n.submitAnchor ω anchor).2.withdrawals = n.withdrawals ∧
    (n.submitAnchor ω anchor).2.trieCommits = n.trieCommits := by
  rw [submitAnchor]
  dsimp only
  split <;> exact ⟨rfl, rfl, rfl⟩

theorem bridgeAnchor_grows (hlo : isAnchorCall tx = true → lo ≤ n.height) (hhi : n.height ≤ hi)
    (hblock : lo ≤ blockNumber) (hne : blockNumber ≠ 0) (hbound : blockNumber < 2 ^ 64) :
    Grows H lo hi n (n.bridgeAnchor ω tx blockHash blockNumber) := by
  rw [bridgeAnchor]
  split
  · next hcall =>
      obtain ⟨l, hl, hheight⟩ := n.computeStateTrieRoot_eq (ω.call 0)
      dsimp only
      rw [hl]
      refine (addCommits_grows (l := l) fun c hc => ?_).trans ?_
      · rw [hheight c hc]
        exact ⟨hlo hcall, hhi⟩
      · generalize n.addCommits l = m
        generalize hanchor : object _ = anchor
        have hsame := submitAnchor_sameChain (n := m) (ω := ω.call 1) anchor
        obtain ⟨hlogs, hwithdrawals, hcommits⟩ := m.submitAnchor_frame (ω.call 1) anchor
        refine ⟨⟨[], by simp [hsame.txs], by simp⟩, fun _ _ => by rw [hsame.receipts],
          ⟨[], by simp [hlogs], by simp⟩, fun _ _ => by rw [hwithdrawals],
          fun _ _ hw => .inl (hwithdrawals ▸ hw), fun k hk => ?_, ⟨[], by simp [hcommits], by simp⟩⟩
        rw [submitAnchor_anchors, FinMap.get?_insert_of_ne]
        rw [← hanchor, anchorHeight hne hbound]
        omega
  · exact .refl n

/-- What has to hold of a transaction for its execution to grow the node within the bounds. -/
structure Stamped (H : String → Prop) (lo : ℕ) (cfg : Config) (height : ℕ) (tx : TxRecord) : Prop where
  hash : H (toLower tx.hash)
  withdrawal : ∀ ω, startsWithdrawal cfg tx = true → H (withdrawalOf cfg ω (withdrawalRequest tx)).id
  anchor : callsAnchor cfg tx = true → lo ≤ height

theorem executeTransaction_grows (htx : Stamped H lo cfg n.height tx) (hhi : n.height ≤ hi)
    (hblock : lo ≤ blockNumber) (hne : blockNumber ≠ 0) (hbound : blockNumber < 2 ^ 64)
    (hheight : n.height < 2 ^ 64) :
    Grows H lo hi n (n.executeTransaction cfg ω tx blockHash blockNumber index).2.2 := by
  rcases n.executeTransaction_cases cfg ω tx blockHash blockNumber index with
    ⟨hrecipient, hbridge, heq⟩ | ⟨-, heq⟩
  · rw [heq]
    have hsame : (n.bridgeWithdrawal cfg (ω.call 0) tx).height = n.height :=
      bridgeWithdrawal_sameChain.height
    have hwithdrawal : Grows H lo hi n (n.bridgeWithdrawal cfg (ω.call 0) tx) := by
      rw [bridgeWithdrawal]
      split
      · next hcall =>
          refine initiateWithdrawal_grows (htx.withdrawal _ ?_) hhi hheight
          simp only [startsWithdrawal, Bool.and_eq_true, decide_eq_true_eq]
          exact ⟨⟨⟨hrecipient, hbridge⟩, hcall.1⟩, hcall.2⟩
      · exact .refl n
    refine hwithdrawal.trans (bridgeAnchor_grows (fun hcall => ?_) (hsame ▸ hhi) hblock hne hbound)
    rw [hsame]
    refine htx.anchor ?_
    simp only [callsAnchor, Bool.and_eq_true, decide_eq_true_eq]
    exact ⟨⟨hrecipient, hbridge⟩, hcall⟩
  · rw [heq]
    exact .of_eq rfl rfl rfl rfl rfl rfl

theorem applyMinedTransaction_grows (htx : Stamped H lo cfg n.height tx) (hhi : n.height ≤ hi)
    (hblock : lo ≤ blockNumber) (hne : blockNumber ≠ 0) (hbound : blockNumber < 2 ^ 64)
    (hheight : n.height < 2 ^ 64) :
    Grows H lo hi n (n.applyMinedTransaction cfg ω tx blockHash blockNumber index).2.2 := by
  have htransfer : Grows H lo hi n { n with world := n.world.transfer tx } :=
    .of_eq rfl rfl rfl rfl rfl rfl
  have hmined : Stamped H lo cfg n.height (minedTx tx blockHash blockNumber index) :=
    ⟨htx.hash, htx.withdrawal, htx.anchor⟩
  exact htransfer.trans (executeTransaction_grows (n := { n with world := n.world.transfer tx })
    hmined hhi hblock hne hbound hheight)

/-- The logs of a receipt name the transaction and the block. -/
theorem applyMinedTransaction_logs {lg : LogRecord}
    (h : lg ∈ (n.applyMinedTransaction cfg ω tx blockHash blockNumber index).2.1.logs) :
    lg.transactionHash = tx.hash ∧ lg.blockNumber = toHex blockNumber := by
  have h : lg ∈ (executeTransaction { n with world := n.world.transfer tx } cfg ω
    (minedTx tx blockHash blockNumber index) blockHash blockNumber index).1 := h
  rw [executeTransaction] at h
  split at h
  · rw [executeBridgeCall] at h
    split at h
    · cases h
    · rw [List.mem_singleton.mp h]
      exact ⟨rfl, rfl⟩
  · cases h

/-! ## Lists of transactions -/

theorem applyTxs_grows {txs : List TxRecord} (htxs : ∀ tx ∈ txs, Stamped H lo cfg n.height tx)
    (hhi : n.height ≤ hi) (hblock : lo ≤ blockNumber) (hne : blockNumber ≠ 0)
    (hbound : blockNumber < 2 ^ 64) (hheight : n.height < 2 ^ 64) :
    Grows H lo hi n (applyTxs cfg blockHash blockNumber n ω index txs).2.2 := by
  induction txs generalizing n ω index with
  | nil => exact .refl n
  | cons tx txs ih =>
      have hsame : (n.applyMinedTransaction cfg (ω.call 0) tx blockHash blockNumber
          index).2.2.height = n.height := applyMinedTransaction_sameChain.height
      rw [applyTxs]
      refine (applyMinedTransaction_grows (htxs tx List.mem_cons_self) hhi hblock hne hbound
        hheight).trans (ih (fun tx' htx' => ?_) ?_ ?_)
      · rw [hsame]
        exact htxs tx' (List.mem_cons_of_mem _ htx')
      · rwa [hsame]
      · rwa [hsame]

/-- Recording a transaction with logs of its own. -/
theorem recordTx_grows {mined : TxRecord} {receipt : ReceiptRecord} (hH : H (toLower mined.hash))
    (hlogs : ∀ lg ∈ receipt.logs, H (toLower lg.transactionHash) ∧ quantity64 lg.blockNumber ≤ hi) :
    Grows H lo hi n (n.recordTx mined receipt) := by
  refine ⟨⟨[mined], rfl, ?_⟩, fun key hkey => ?_, ⟨receipt.logs, rfl, hlogs⟩, fun _ _ => rfl,
    fun _ _ hw => .inl hw, fun _ _ => rfl, ⟨[], by simp [recordTx], by simp⟩⟩
  · intro tx htx
    rw [List.mem_singleton.mp htx]
    exact hH
  · refine FinMap.get?_insert_of_ne _ _ ?_
    rintro rfl
    exact hkey hH

theorem mineTxs_grows {txs : List TxRecord} (htxs : ∀ tx ∈ txs, Stamped H lo cfg n.height tx)
    (hhi : n.height ≤ hi) (hblock : lo ≤ blockNumber) (hblockhi : blockNumber ≤ hi)
    (hne : blockNumber ≠ 0) (hbound : blockNumber < 2 ^ 64) (hheight : n.height < 2 ^ 64) :
    Grows H lo hi n (mineTxs cfg blockHash blockNumber n ω index txs).2.2 := by
  induction txs generalizing n ω index with
  | nil => exact .refl n
  | cons tx txs ih =>
      have hsame : (n.applyMinedTransaction cfg (ω.call 0) tx blockHash blockNumber
          index).2.2.height = n.height := applyMinedTransaction_sameChain.height
      have htx := htxs tx List.mem_cons_self
      rw [mineTxs]
      refine (applyMinedTransaction_grows htx hhi hblock hne hbound hheight).trans
        ((recordTx_grows ?_ fun lg hlg => ?_).trans (ih (fun tx' htx' => ?_) ?_ ?_))
      · exact htx.hash
      · obtain ⟨hhash, hnumber⟩ := applyMinedTransaction_logs hlg
        rw [hhash, hnumber, quantity64_toHex hbound]
        exact ⟨htx.hash, hblockhi⟩
      · have hmem := htxs tx' (List.mem_cons_of_mem _ htx')
        rwa [← hsame] at hmem
      · exact hsame.trans_le hhi
      · exact hsame.trans_lt hheight

/-! ## Blocks -/

/-- Appending a block writes one anchor and one index entry, at its height. -/
theorem appendBlock_grows {block : BlockRecord} {height : ℕ} {source anchorTxHash : String}
    (hlo : lo ≤ height) : Grows H lo hi n (n.appendBlock ω block height source anchorTxHash) := by
  refine ⟨⟨[], (List.append_nil _).symm, by simp⟩, fun _ _ => rfl,
    ⟨[], (List.append_nil _).symm, by simp⟩, fun _ _ => rfl, fun _ _ hw => .inl hw, fun k hk => ?_,
    ⟨[], (List.append_nil _).symm, by simp⟩⟩
  exact FinMap.get?_insert_of_ne _ _ (by omega)

theorem appendBlock_index (n : RpcNode) (ω : Choices) (block : BlockRecord) (height : ℕ)
    (source anchorTxHash : String) :
    ∃ record, (n.appendBlock ω block height source anchorTxHash).blockIndex =
        n.blockIndex.insert (toLower block.hash) record ∧
      record.canonical = true ∧ record.height = quantity64 block.number := by
  obtain ⟨record, hrecord, hcanonical, hheight⟩ := indexBlock_eq
    { n with
      height := height
      blocks := n.blocks ++ [block]
      canonical := n.canonical.insert height block.hash } (ω.call 0) block source ""
  exact ⟨record, congrArg (fun m : RpcNode => m.blockIndex) hrecord, hcanonical, hheight⟩

/-- **Mining** adds within the bounds when the pending transactions do. -/
theorem minePendingBlock_grows (htxs : ∀ tx ∈ n.pendingTxs, Stamped H lo cfg n.height tx)
    (hlo : lo ≤ n.height + 1) (hhi : n.height + 1 ≤ hi) (hbound : n.height + 1 < 2 ^ 64) :
    Grows H lo hi n (n.minePendingBlock cfg ω).2 := by
  obtain ⟨block, l, heq, hl, -⟩ := n.minePendingBlock_eq cfg ω
  have hnum : u64 ((n.height : ℤ) + 1) = n.height + 1 := u64_of_lt (k := n.height + 1) hbound
  rw [hnum] at heq hl
  have hmined : Grows H lo hi { n with pendingTxs := [] } (n.minePendingTxs cfg ω).2.2 := by
    rw [minePendingTxs, hnum]
    exact mineTxs_grows (n := { n with pendingTxs := [] }) htxs (Nat.le_of_succ_le hhi) hlo hhi
      (by omega) hbound (Nat.lt_of_succ_lt hbound)
  rw [heq]
  generalize (n.minePendingTxs cfg ω).2.2 = m at hmined
  have hstart : Grows H lo hi n { n with pendingTxs := [] } := .of_eq rfl rfl rfl rfl rfl rfl
  have hheight : Grows H lo hi m { m with height := n.height + 1 } := .of_eq rfl rfl rfl rfl rfl rfl
  have hcommits : Grows H lo hi { m with height := n.height + 1 }
      ({ m with height := n.height + 1 }.addCommits l) := addCommits_grows fun c hc => by
    rw [hl c hc]
    exact ⟨hlo, hhi⟩
  exact hstart.trans (hmined.trans (hheight.trans (hcommits.trans ((appendBlock_grows hlo).trans
    (.of_eq rfl rfl rfl rfl rfl rfl)))))

/-- The block that mining indexes. -/
theorem minePendingBlock_index (n : RpcNode) (cfg : Config) (ω : Choices)
    (hbound : n.height + 1 < 2 ^ 64) :
    ∃ record, (n.minePendingBlock cfg ω).2.blockIndex =
        n.blockIndex.insert (toLower (n.nextBlockHash (ω.call 0))) record ∧
      record.canonical = true ∧ record.height = n.height + 1 := by
  obtain ⟨block, l, heq, -, hnumber, hhash, -⟩ := n.minePendingBlock_eq cfg ω
  have hnum : u64 ((n.height : ℤ) + 1) = n.height + 1 := u64_of_lt (k := n.height + 1) hbound
  have hsame : SameBlocks { n with pendingTxs := [] } (n.minePendingTxs cfg ω).2.2 :=
    mineTxs_sameBlocks n.pendingTxs
  obtain ⟨record, hindex, hcanonical, hheight⟩ := appendBlock_index
    ({ (n.minePendingTxs cfg ω).2.2 with height := u64 (n.height + 1) }.addCommits l) (ω.call 5)
    block (u64 (n.height + 1)) "local" block.txRoot
  refine ⟨record, ?_, hcanonical, ?_⟩
  · rw [heq, ← hhash]
    refine hindex.trans ?_
    exact congrArg (FinMap.insert · _ _) hsame.blockIndex
  · rw [hheight, hnumber, hnum, quantity64_toHex hbound]

theorem applyTxs_logs {txs : List TxRecord} {receipt : ReceiptRecord} {lg : LogRecord}
    (h : receipt ∈ (applyTxs cfg blockHash blockNumber n ω index txs).2.1)
    (hlg : lg ∈ receipt.logs) : lg.blockNumber = toHex blockNumber := by
  induction txs generalizing n ω index with
  | nil => cases h
  | cons tx txs ih =>
      rw [applyTxs] at h
      rcases List.mem_cons.mp h with rfl | h
      · exact (applyMinedTransaction_logs hlg).2
      · exact ih h

/-- Recording an imported block appends the logs of its receipts. -/
theorem recordImported_grows {txs : List TxRecord} {receipts : List ReceiptRecord}
    (hlogs : ∀ receipt ∈ receipts, ∀ lg ∈ receipt.logs, quantity64 lg.blockNumber ≤ hi) :
    Grows (fun _ => True) lo hi n (n.recordImported txs receipts) := by
  induction txs generalizing n receipts with
  | nil => exact .refl n
  | cons tx txs ih =>
      cases receipts with
      | nil => exact .refl n
      | cons receipt receipts =>
          rw [recordImported]
          refine Grows.trans ?_ (ih fun r hr => hlogs r (List.mem_cons_of_mem _ hr))
          have hlg : ∀ lg ∈ receipt.logs, True ∧ quantity64 lg.blockNumber ≤ hi :=
            fun lg hlg => ⟨trivial, hlogs receipt List.mem_cons_self lg hlg⟩
          split
          · exact ⟨⟨[], (List.append_nil _).symm, by simp⟩, fun _ hkey => absurd trivial hkey,
              ⟨receipt.logs, rfl, hlg⟩, fun _ _ => rfl, fun _ _ hw => .inl hw, fun _ _ => rfl,
              ⟨[], (List.append_nil _).symm, by simp⟩⟩
          · exact ⟨⟨[tx], rfl, fun _ _ => trivial⟩, fun _ hkey => absurd trivial hkey,
              ⟨receipt.logs, rfl, hlg⟩, fun _ _ => rfl, fun _ _ hw => .inl hw, fun _ _ => rfl,
              ⟨[], (List.append_nil _).symm, by simp⟩⟩

/-- **Importing** adds nothing above the height of the block. -/
theorem afterImport_grows {block : BlockRecord} {l : List TrieCommitRecord} {ω' : Choices}
    (hl : ∀ c ∈ l, c.height = quantity64 block.number) (hne : quantity64 block.number ≠ 0)
    (hbound : quantity64 block.number < 2 ^ 64) :
    Grows (fun _ => True) 0 (quantity64 block.number) n
      (n.afterImport ω block l (n.applyPeerBlock cfg ω' block)) := by
  have hstart : Grows (fun _ => True) 0 (quantity64 block.number) n
      { n with height := quantity64 block.number, replayMode := true } :=
    .of_eq rfl rfl rfl rfl rfl rfl
  have happly : Grows (fun _ => True) 0 (quantity64 block.number)
      { n with height := quantity64 block.number, replayMode := true }
      (n.applyPeerBlock cfg ω' block).2.2 :=
    applyTxs_grows (n := { n with height := quantity64 block.number, replayMode := true })
      (fun tx _ => ⟨trivial, fun _ _ => trivial, fun _ => Nat.zero_le _⟩) le_rfl (Nat.zero_le _) hne
      hbound hbound
  have hlogs : ∀ receipt ∈ (n.applyPeerBlock cfg ω' block).2.1, ∀ lg ∈ receipt.logs,
      quantity64 lg.blockNumber ≤ quantity64 block.number := by
    intro receipt hreceipt lg hlg
    rw [applyTxs_logs hreceipt hlg, quantity64_toHex hbound]
  rw [afterImport]
  generalize n.applyPeerBlock cfg ω' block = r at happly hlogs
  have hmode : Grows (fun _ => True) 0 (quantity64 block.number) r.2.2
      { r.2.2 with replayMode := n.replayMode } := .of_eq rfl rfl rfl rfl rfl rfl
  have hcommits : Grows (fun _ => True) 0 (quantity64 block.number)
      { r.2.2 with replayMode := n.replayMode }
      ({ r.2.2 with replayMode := n.replayMode }.addCommits l) := addCommits_grows fun c hc =>
    ⟨Nat.zero_le _, (hl c hc).le⟩
  exact hstart.trans (happly.trans (hmode.trans (hcommits.trans
    ((appendBlock_grows (Nat.zero_le _)).trans (recordImported_grows hlogs)))))

theorem recordImported_index (n : RpcNode) (txs : List TxRecord) (receipts : List ReceiptRecord) :
    (n.recordImported txs receipts).blockIndex = n.blockIndex :=
  (recordImported_sameBlocks n txs receipts).blockIndex

end RpcNode

/-! ## Stamps below the head -/

/-- No log, commit or canonical index entry is above the head, and withdrawals are kept under
the lower-case form of their hash. -/
structure StampsOk (n : RpcNode) : Prop where
  logs : ∀ lg ∈ n.logs, quantity64 lg.blockNumber ≤ n.height
  commits : ∀ c ∈ n.trieCommits, c.height ≤ n.height
  index : ∀ key i, n.blockIndex.get? key = some i → i.canonical = true → i.height ≤ n.height
  withdrawals : ∀ key w, n.withdrawals.get? key = some w → toLower w.l2TxHash = key

namespace StampsOk
variable {n n' : RpcNode}

/-- Additions up to the new head keep the stamps below it. -/
theorem grows {H : String → Prop} (h : StampsOk n) (hgrows : Grows H 0 n'.height n n')
    (hheight : n.height ≤ n'.height)
    (hindex : ∀ key i, n'.blockIndex.get? key = some i →
      n.blockIndex.get? key = some i ∨ i.height ≤ n'.height) : StampsOk n' := by
  obtain ⟨logs, hlogs, hlogsH⟩ := hgrows.logs
  obtain ⟨commits, hcommits, hcommitsH⟩ := hgrows.commits
  refine ⟨fun lg hlg => ?_, fun c hc => ?_, fun key i hi hcanonical => ?_, fun key w hw => ?_⟩
  · rw [hlogs] at hlg
    rcases List.mem_append.mp hlg with hlg | hlg
    · exact (h.logs lg hlg).trans hheight
    · exact (hlogsH lg hlg).2
  · rw [hcommits] at hc
    rcases List.mem_append.mp hc with hc | hc
    · exact (h.commits c hc).trans hheight
    · exact (hcommitsH c hc).2
  · rcases hindex key i hi with hi | hle
    · exact (h.index key i hi hcanonical).trans hheight
    · exact hle
  · rcases hgrows.started key w hw with hw | hkey
    · exact h.withdrawals key w hw
    · exact hkey

/-- Growth at an unchanged height and index. -/
theorem grows_same {H : String → Prop} (h : StampsOk n) (hgrows : Grows H 0 n.height n n')
    (hheight : n'.height = n.height) (hindex : n'.blockIndex = n.blockIndex) : StampsOk n' :=
  h.grows (hheight ▸ hgrows) hheight.ge fun _ _ hi => .inl (hindex ▸ hi)

theorem of_eq (h : StampsOk n) (hheight : n'.height = n.height) (hlogs : n'.logs = n.logs)
    (hcommits : n'.trieCommits = n.trieCommits) (hindex : n'.blockIndex = n.blockIndex)
    (hwithdrawals : n'.withdrawals = n.withdrawals) : StampsOk n' := by
  constructor
  · rw [hlogs, hheight]; exact h.logs
  · rw [hcommits, hheight]; exact h.commits
  · rw [hindex, hheight]; exact h.index
  · rw [hwithdrawals]; exact h.withdrawals

theorem minePendingBlock (h : StampsOk n) (hchain : ChainOk n) {cfg : Config} {ω : Choices}
    (hlen : (n.minePendingBlock cfg ω).2.blocks.length < 2 ^ 63) :
    StampsOk (n.minePendingBlock cfg ω).2 := by
  have hheight := (minePendingBlock_appended hchain hlen).height
  have hbound := (hchain.minePendingBlock hlen).bound
  rw [hheight] at hbound
  obtain ⟨record, hindex, -, hrecord⟩ := n.minePendingBlock_index cfg ω (by omega)
  refine h.grows (H := fun _ => True) ?_ (by omega) fun key i hi => ?_
  · rw [hheight]
    exact RpcNode.minePendingBlock_grows (fun tx _ => ⟨trivial, fun _ _ => trivial,
      fun _ => Nat.zero_le _⟩) (Nat.zero_le _) le_rfl (by omega)
  · rw [hindex, FinMap.get?_insert] at hi
    split at hi
    · cases hi
      exact .inr (by rw [hrecord, hheight])
    · exact .inl hi

theorem enqueue (h : StampsOk n) (hchain : ChainOk n) {cfg : Config} {ω : Choices}
    {record : TxRecord} (hlen : (n.enqueue cfg ω record).blocks.length < 2 ^ 63) :
    StampsOk (n.enqueue cfg ω record) := by
  have hpending : ChainOk { n with pendingTxs := n.pendingTxs ++ [record] } :=
    hchain.of_eq rfl rfl rfl rfl rfl
  have hstamps : StampsOk { n with pendingTxs := n.pendingTxs ++ [record] } :=
    h.of_eq rfl rfl rfl rfl rfl
  rw [RpcNode.enqueue] at hlen ⊢
  by_cases hauto : cfg.autoMine = true
  · rw [if_pos hauto] at hlen ⊢
    exact hstamps.minePendingBlock hpending hlen
  · rw [if_neg hauto]
    exact hstamps.of_eq rfl rfl rfl rfl rfl

theorem syncBlock (h : StampsOk n) (hchain : ChainOk n) {cfg : Config} {ω : Choices}
    {block : PeerBlock} (hlen : (n.syncBlock cfg ω (n.height + 1) block).2.blocks.length < 2 ^ 63) :
    StampsOk (n.syncBlock cfg ω (n.height + 1) block).2 := by
  rcases n.syncBlock_cases cfg ω (n.height + 1) block with ⟨heq, -⟩ | ⟨e, ω₁, ω₂, disk, heq⟩ |
    ⟨ω₂, l, heq, hl, hok, -⟩
  · rw [heq]; exact h
  · rw [heq]; exact h.of_eq rfl rfl rfl rfl rfl
  · rw [heq] at hlen ⊢
    dsimp only at hlen ⊢
    have hnext := hchain.afterImport hok hlen
    have hheight : (n.afterImport (ω.call 2) block.record l
        (n.applyPeerBlock cfg ((ω.call 0).call 1) block.record)).height = n.height + 1 := by
      rw [← hnext.length, RpcNode.afterImport_blocks,
        (n.applyPeerBlock_sameIndex cfg _ block.record).blocks, List.length_append, hchain.length]
      rfl
    have hbound := hnext.bound
    rw [hheight] at hbound
    refine h.grows (H := fun _ => True) ?_ (by omega) fun key i hi => ?_
    · rw [hheight, ← hok.number]
      exact RpcNode.afterImport_grows (fun c hc => (hl c hc).trans hok.number.symm)
        (by rw [hok.number]; omega) (by rw [hok.number]; omega)
    · rw [hheight]
      rw [RpcNode.afterImport, RpcNode.recordImported_index] at hi
      obtain ⟨record, hindex, -, hrecord⟩ := RpcNode.appendBlock_index
        (({ (n.applyPeerBlock cfg ((ω.call 0).call 1) block.record).2.2 with
          replayMode := n.replayMode } : RpcNode).addCommits l) (ω.call 2)
        (RpcNode.importedBlock block.record (n.applyPeerBlock cfg ((ω.call 0).call 1) block.record).1
          (n.applyPeerBlock cfg ((ω.call 0).call 1) block.record).2.1)
        (quantity64 block.record.number) "peer" (RpcNode.importedBlock block.record
          (n.applyPeerBlock cfg ((ω.call 0).call 1) block.record).1
          (n.applyPeerBlock cfg ((ω.call 0).call 1) block.record).2.1).txRoot
      rw [hindex, FinMap.get?_insert] at hi
      split at hi
      · cases hi
        exact .inr (hrecord.trans hok.number).le
      · have hsame := (n.applyPeerBlock_sameIndex cfg ((ω.call 0).call 1) block.record).blockIndex
        exact .inl (hsame ▸ hi)

theorem rollback (h : StampsOk n) (hchain : ChainOk n) {ω : Choices} {height : ℕ}
    {s : StateSnapshotRecord} (hone : 1 < height) (hle : height ≤ n.height)
    (hs : n.stateSnapshots.get? (height - 1) = some s) :
    StampsOk (n.rollback ω height s) := by
  have hheight : (n.rollback ω height s).height = height - 1 := hchain.snapshot_height hone hle hs
  refine ⟨fun lg hlg => ?_, fun c hc => ?_, fun key i hi hcanonical => ?_, fun key w hw => ?_⟩
  · have hkeep := (List.mem_filter.mp hlg).2
    simp only [RpcNode.isRemovedLog, Bool.not_eq_true', Bool.or_eq_false_iff,
      decide_eq_false_iff_not] at hkeep
    omega
  · have hkeep := (List.mem_filter.mp hc).2
    simp only [decide_eq_true_eq] at hkeep
    omega
  · have hi' := (FinMap.get?_filter _ _ key).symm.trans hi
    have hkeep := (Option.filter_eq_some_iff.mp hi').2
    simp only [hcanonical, Bool.true_and, Bool.not_eq_true', decide_eq_false_iff_not] at hkeep
    omega
  · have hw' := (FinMap.get?_filter _ _ key).symm.trans hw
    exact h.withdrawals key w (Option.filter_eq_some_iff.mp hw').1

theorem appendLog (h : StampsOk n) (hchain : ChainOk n) (cfg : Config) (topics : List Topic)
    (data transactionHash : String) : StampsOk (n.appendLog cfg topics data transactionHash) := by
  have hbound := hchain.bound
  refine ⟨fun lg hlg => ?_, h.commits, h.index, h.withdrawals⟩
  rcases List.mem_append.mp hlg with hlg | hlg
  · exact h.logs lg hlg
  · rw [List.mem_singleton.mp hlg]
    show quantity64 (toHex n.height) ≤ n.height
    rw [quantity64_toHex (by omega)]

/-- A withdrawal that is paid keeps its identifier. -/
theorem paid (h : StampsOk n) {id : String} {w : WithdrawalRecord}
    (hget : n.withdrawals.get? (toLower id) = some w) (hash : String) :
    StampsOk { n with withdrawals := n.withdrawals.insert (toLower id) (w.paid hash) } := by
  refine ⟨h.logs, h.commits, h.index, fun key w' hw' => ?_⟩
  rw [FinMap.get?_insert] at hw'
  split at hw'
  · next hkey =>
      cases hw'
      exact (h.withdrawals _ w hget).trans hkey.symm
  · exact h.withdrawals key w' hw'


/-- Every call keeps the stamps below the head. -/
theorem next (h : StampsOk n) (hchain : ChainOk n) {cfg : Config} {ω : Choices} {e : Event}
    (hlen : (n.next cfg ω e).blocks.length < 2 ^ 63) : StampsOk (n.next cfg ω e) := by
  have hbound := hchain.bound
  cases e with
  | sendTransaction tx =>
      rw [RpcNode.next] at hlen ⊢
      rcases n.sendTransaction_cases cfg ω tx with heq | ⟨-, heq⟩
      · rw [heq]; exact h
      · rw [heq] at hlen ⊢; exact h.enqueue hchain hlen
  | sendRawTransaction rawTx => exact h.enqueue hchain hlen
  | mineBlock => exact h.minePendingBlock hchain hlen
  | handleReorg height newHash =>
      rw [RpcNode.next]
      rcases n.handleReorg_cases ω height newHash with heq | ⟨s, ⟨hone, hold, -⟩, hs, heq⟩
      · rw [heq]; exact h
      · rw [heq]
        exact (h.rollback hchain hone (hchain.height_of_canonical hold).2 hs).of_eq rfl rfl rfl rfl
          rfl
  | syncBlock block => exact h.syncBlock hchain hlen
  | setPeer peer => exact h.of_eq rfl rfl rfl rfl rfl
  | submitBridgeEvent event =>
      exact (h.appendLog hchain cfg _ _ _).of_eq rfl rfl rfl rfl rfl
  | initiateWithdrawal request =>
      have hsame : SameChain n (n.initiateWithdrawal cfg ω request).2 :=
        RpcNode.initiateWithdrawal_sameChain request
      exact h.grows_same (H := fun _ => True) (RpcNode.initiateWithdrawal_grows trivial le_rfl
        (by omega)) hsame.height hsame.blockIndex
  | processWithdrawal id answer =>
      rw [RpcNode.next]
      rcases n.processWithdrawal_cases cfg ω id answer with ⟨heq, -⟩ | ⟨w, hash, hget, -, -, heq⟩
      · rw [heq]; exact h
      · rw [heq]
        have hpaid := h.paid hget hash
        have hpaidChain : ChainOk { n with
            withdrawals := n.withdrawals.insert (toLower id) (w.paid hash) } :=
          hchain.of_eq rfl rfl rfl rfl rfl
        exact (hpaid.appendLog hpaidChain cfg _ _ _).of_eq rfl rfl rfl rfl rfl
  | submitAnchor anchor =>
      have hsame := RpcNode.submitAnchor_sameChain (n := n) (ω := ω) anchor
      obtain ⟨hlogs, hwithdrawals, hcommits⟩ := n.submitAnchor_frame ω anchor
      exact h.of_eq hsame.height hlogs hcommits hsame.blockIndex hwithdrawals
  | replayChain =>
      rw [RpcNode.next]
      rcases n.replayChain_cases cfg ω with heq | ⟨ω₁, ω₂, disk, heq⟩
      · rw [heq]; exact h
      · rw [heq]; exact h.of_eq rfl rfl rfl rfl rfl
  | validateBlock block =>
      rw [RpcNode.next]
      rcases n.validateBlockRecord_cases cfg ω block with heq | ⟨ω₁, ω₂, disk, heq⟩
      · rw [heq]; exact h
      · rw [heq]; exact h.of_eq rfl rfl rfl rfl rfl
  | restart =>
      obtain ⟨index, disk, heq, hindex⟩ := hchain.restart cfg ω
      rw [RpcNode.next, heq]
      refine ⟨fun lg hlg => ?_, h.commits, fun key i hi hcanonical => ?_, h.withdrawals⟩
      · obtain ⟨saved, hsaved, rfl⟩ := List.mem_map.mp hlg
        exact h.logs saved hsaved
      · rcases hindex key i hi with hi | ⟨b, hb, hi⟩
        · exact h.index key i hi hcanonical
        · exact hi.trans_le (hchain.number_le hb)

end StampsOk

end BhtBhte.Node
