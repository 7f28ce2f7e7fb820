import BhtBhte.Node.Agreement
import BhtBhte.Node.Duplicates
import BhtBhte.Node.Proofs
import BhtBhte.Node.Roots

/-!
# Receipts of the chain and their proofs

Receipts are kept in one map under the lower-case hashes of their transactions, the roots and the
trie commits in each block.  A second transaction of one hash replaces the receipt of the first.  As
long as no call brings one onto the chain, the receipts of every block can be put together again and
each of them is proved by its trie.  That is `receiptProof_of_receiptStep`, with both of the checks.
-/
namespace BhtBhte.Node
open BhtBhte.Lib
variable [Platform]

/-- The trie of the receipts of a list of transactions. -/
def receiptTrie (cfg : Config) (txs : List TxRecord) : Trie :=
  (txs.map (consensusReceipt cfg)).mapIdx fun i r => (Platform.rlpUint i, Platform.rlpReceipt r)

/-- Receipts with the consensus parts of some transactions build their trie. -/
theorem buildReceiptTrie_eq {cfg : Config} {receipts : List ReceiptRecord} {txs : List TxRecord}
    (h : receipts.map (·.toGethReceipt) = txs.map (consensusReceipt cfg)) :
    buildReceiptTrie receipts = receiptTrie cfg txs := by
  rw [receiptTrie, ← h, buildReceiptTrie]
  apply List.ext_getElem (by simp)
  intro i h₁ h₂
  simp

namespace RpcNode

/-- The keys of the receipts of the chain, in chain order. -/
def receiptKeys (n : RpcNode) : List String :=
  n.blocks.flatMap fun b => b.transactions.map fun tx => toLower tx.hash

/-- The commits of receipt tries. -/
def receiptCommits (n : RpcNode) : List TrieCommitRecord :=
  n.trieCommits.filter fun c => c.kind = "receipts"

/-! ## The map of receipts -/

theorem get?_recordReceipts_of_not_mem {receipts : FinMap String ReceiptRecord}
    {mined : List TxRecord} {new : List ReceiptRecord} {key : String}
    (h : key ∉ mined.map fun tx => toLower tx.hash) :
    (recordReceipts receipts mined new).get? key = receipts.get? key := by
  induction mined generalizing receipts new with
  | nil => rfl
  | cons tx mined ih =>
      rw [List.map_cons, List.mem_cons, not_or] at h
      cases new with
      | nil => rfl
      | cons r new =>
          refine (ih h.2).trans ?_
          rw [FinMap.get?_insert_of_ne _ _ h.1]

/-- Each transaction finds its own receipt when no two hashes are alike. -/
theorem get?_recordReceipts {receipts : FinMap String ReceiptRecord} {mined : List TxRecord}
    {new : List ReceiptRecord} (h : (mined.map fun tx => toLower tx.hash).Nodup) {i : ℕ}
    {tx : TxRecord} {r : ReceiptRecord} (htx : mined[i]? = some tx) (hr : new[i]? = some r) :
    (recordReceipts receipts mined new).get? (toLower tx.hash) = some r := by
  induction mined generalizing receipts new i with
  | nil => cases htx
  | cons tx' mined ih =>
      rw [List.map_cons, List.nodup_cons] at h
      cases new with
      | nil => cases hr
      | cons r' new =>
          cases i with
          | zero =>
              cases htx
              cases hr
              refine (get?_recordReceipts_of_not_mem h.1).trans ?_
              rw [FinMap.get?_insert_self]
          | succ i => exact ih h.2 htx hr

section Loops
variable {cfg : Config} {ω : Choices} {n : RpcNode} {tx : TxRecord} {blockHash : String}
  {blockNumber index : ℕ}

theorem mineTxs_receiptAt {txs : List TxRecord} {i : ℕ} (htx : txs[i]? = some tx) :
    ∃ logIndex, (mineTxs cfg blockHash blockNumber n ω index txs).2.1[i]? =
      some (receiptOf cfg tx blockHash blockNumber (index + i) logIndex) := by
  induction txs generalizing n ω index i with
  | nil => cases htx
  | cons tx' txs ih =>
      rw [mineTxs, applyMinedTransaction_receiptOf]
      cases i with
      | zero =>
          cases htx
          exact ⟨_, rfl⟩
      | succ i =>
          obtain ⟨logIndex, hlog⟩ := @ih (ω.call 1) _ (index + 1) i htx
          refine ⟨logIndex, hlog.trans ?_⟩
          rw [Nat.add_assoc, Nat.add_comm 1]

theorem applyTxs_receiptAt {txs : List TxRecord} {i : ℕ} (htx : txs[i]? = some tx) :
    ∃ logIndex, (applyTxs cfg blockHash blockNumber n ω index txs).2.1[i]? =
      some (receiptOf cfg tx blockHash blockNumber (index + i) logIndex) := by
  induction txs generalizing n ω index i with
  | nil => cases htx
  | cons tx' txs ih =>
      rw [applyTxs, applyMinedTransaction_receiptOf]
      cases i with
      | zero =>
          cases htx
          exact ⟨_, rfl⟩
      | succ i =>
          obtain ⟨logIndex, hlog⟩ := @ih (ω.call 1) _ (index + 1) i htx
          refine ⟨logIndex, hlog.trans ?_⟩
          rw [Nat.add_assoc, Nat.add_comm 1]

/-! ## Commits of receipt tries -/

/-- Commits of another kind are not commits of receipts. -/
theorem receiptCommits_persistTrieNodes {root kind : String} (h : kind ≠ "receipts") (height : ℕ)
    (nodes : Option (List TrieNode)) :
    (n.persistTrieNodes ω root kind height nodes).receiptCommits = n.receiptCommits := by
  rw [persistTrieNodes.eq_def]
  split
  · rfl
  · split
    · rfl
    · rw [receiptCommits, addCommits]
      dsimp only
      rw [List.filter_append, List.filter_cons_of_neg (by simpa using h), List.filter_nil,
        List.append_nil]
      rfl

theorem receiptCommits_persistStorageTries (accounts : List String) :
    (n.persistStorageTries ω accounts).receiptCommits = n.receiptCommits := by
  have hkind : ∀ account : String, "storage:" ++ account ≠ "receipts" := by
    intro account heq
    have hhead := congrArg (fun s : String => s.toList.headD 'r') heq
    rw [String.toList_append] at hhead
    exact absurd (show 's' = 'r' from hhead) (by decide)
  induction accounts generalizing n ω with
  | nil => rfl
  | cons account accounts ih =>
      rw [persistStorageTries, ih]
      split
      · rfl
      · rw [persistStorageTrie, receiptCommits_persistTrieNodes (hkind account)]

theorem receiptCommits_computeStateTrieRoot :
    (n.computeStateTrieRoot ω).2.receiptCommits = n.receiptCommits := by
  rw [computeStateTrieRoot]
  dsimp only
  rw [receiptCommits_persistTrieNodes (by decide), receiptCommits_persistStorageTries]

theorem receiptCommits_applyMinedTransaction :
    (n.applyMinedTransaction cfg ω tx blockHash blockNumber index).2.2.receiptCommits =
      n.receiptCommits := by
  let m : RpcNode := { n with world := n.world.transfer tx }
  let mined := minedTx tx blockHash blockNumber index
  have hexec : (n.applyMinedTransaction cfg ω tx blockHash blockNumber index).2.2 =
      (m.executeTransaction cfg ω mined blockHash blockNumber index).2.2 := rfl
  rcases m.executeTransaction_cases cfg ω mined blockHash blockNumber index with
    ⟨-, -, heq⟩ | ⟨-, heq⟩
  · have hwithdrawal : (m.bridgeWithdrawal cfg (ω.call 0) mined).trieCommits = n.trieCommits := by
      rw [bridgeWithdrawal]
      split
      · exact initiateWithdrawal_trieCommits _
      · rfl
    have hcommits : (m.bridgeWithdrawal cfg (ω.call 0) mined).receiptCommits = n.receiptCommits :=
      congrArg (List.filter _) hwithdrawal
    rw [hexec, heq, bridgeAnchor]
    split
    · dsimp only
      rw [receiptCommits, submitAnchor_trieCommits]
      exact receiptCommits_computeStateTrieRoot.trans hcommits
    · exact hcommits
  · rw [hexec, heq]
    rfl

theorem receiptCommits_applyTxs (txs : List TxRecord) :
    (applyTxs cfg blockHash blockNumber n ω index txs).2.2.receiptCommits = n.receiptCommits := by
  induction txs generalizing n ω index with
  | nil => rfl
  | cons tx txs ih => exact ih.trans receiptCommits_applyMinedTransaction

theorem receiptCommits_mineTxs (txs : List TxRecord) :
    (mineTxs cfg blockHash blockNumber n ω index txs).2.2.receiptCommits = n.receiptCommits := by
  induction txs generalizing n ω index with
  | nil => rfl
  | cons tx txs ih => exact ih.trans receiptCommits_applyMinedTransaction

/-- Computing the root of receipts commits their trie at a height without such a commit. -/
theorem receiptCommits_computeReceiptTrieRoot {receipts : List ReceiptRecord}
    (h : ∀ c ∈ n.receiptCommits, c.height ≠ n.height) :
    ∃ l, (n.computeReceiptTrieRoot ω receipts).2.receiptCommits = n.receiptCommits ++ l ∧
      (∀ c ∈ l, c.height = n.height ∧ Commits c (buildReceiptTrie receipts)) ∧
      ((Platform.trieNodes (buildReceiptTrie receipts)).isSome = true → l ≠ []) := by
  rw [computeReceiptTrieRoot]
  dsimp only
  rw [persistTrieNodes.eq_def]
  split
  · next hnone => exact ⟨[], (List.append_nil _).symm, by simp, by simp [hnone]⟩
  · next nodes hnodes =>
      have hnew : ¬ (n.trieCommits.any fun c => equalFold c.root
          (hexString (Platform.trieRoot (buildReceiptTrie receipts))) && c.kind = "receipts" &&
            c.height = n.height) = true := by
        simp only [List.any_eq_true, Bool.and_eq_true, decide_eq_true_eq, not_exists, not_and,
          and_imp]
        intro c hc _ hkind
        exact h c (List.mem_filter.mpr ⟨hc, by simpa using hkind⟩)
      rw [if_neg hnew, receiptCommits, addCommits]
      dsimp only
      rw [List.filter_append]
      refine ⟨_, rfl, fun c hc => ?_, fun _ => by simp⟩
      rw [List.mem_singleton.mp (List.mem_of_mem_filter hc)]
      exact ⟨rfl, rfl, nodes, hnodes, rfl⟩

end Loops

end RpcNode

/-! ## One block more -/

/-- The receipt of the transaction at an index of a block. -/
structure ReceiptFor (cfg : Config) (b : BlockRecord) (i : ℕ) (tx : TxRecord) (r : ReceiptRecord) :
    Prop where
  blockHash : r.blockHash = b.hash
  transactionIndex : r.transactionIndex = toHex i
  transactionHash : r.transactionHash = tx.hash
  consensus : r.toGethReceipt = consensusReceipt cfg tx

/-- The node with one block more, its receipts entered and their trie committed. -/
structure Extended (cfg : Config) (n n' : RpcNode) (block : BlockRecord) : Prop where
  blocks : n'.blocks = n.blocks ++ [block]
  receipts : ∃ receipts, n'.receipts =
      RpcNode.recordReceipts n.receipts block.transactions receipts ∧
    ∀ i tx, block.transactions[i]? = some tx →
      ∃ r, receipts[i]? = some r ∧ ReceiptFor cfg block i tx r
  root : block.receiptRoot = hexString (Platform.trieRoot (receiptTrie cfg block.transactions))
  commits : ∃ l, n'.receiptCommits = n.receiptCommits ++ l ∧
    (∀ c ∈ l, c.height = n.height + 1 ∧ Commits c (receiptTrie cfg block.transactions)) ∧
    ((Platform.trieNodes (receiptTrie cfg block.transactions)).isSome = true → l ≠ [])

theorem toGethReceipt_receiptOf (cfg : Config) (tx : TxRecord) (blockHash : String)
    (blockNumber index logIndex : ℕ) :
    (receiptOf cfg tx blockHash blockNumber index logIndex).toGethReceipt =
      consensusReceipt cfg tx := by
  have hlogs : (bridgeLogs cfg tx blockHash blockNumber index logIndex).map LogRecord.toGethLog =
      consensusLogs cfg tx := by
    rw [bridgeLogs, consensusLogs]
    by_cases h : callsBridge cfg tx = true
    · rw [if_pos h, if_pos (callsBridge_iff.mp h)]
      rfl
    · rw [if_neg h, if_neg fun hcalls => h (callsBridge_iff.mpr hcalls)]
      rfl
  rw [ReceiptRecord.toGethReceipt, bloomOf, receiptOf]
  dsimp only
  rw [hlogs]
  rfl

/-- Both loops give the transactions of a block their receipts. -/
theorem receiptFor_of_loop {cfg : Config} {txs : List TxRecord} {block : BlockRecord}
    {blockNumber : ℕ} {receipts : List ReceiptRecord}
    (htxs : block.transactions = txs.mapIdx fun i tx =>
      RpcNode.minedTx tx block.hash blockNumber (0 + i))
    (hloop : ∀ i tx, txs[i]? = some tx → ∃ logIndex,
      receipts[i]? = some (receiptOf cfg tx block.hash blockNumber (0 + i) logIndex)) :
    ∀ i tx, block.transactions[i]? = some tx →
      ∃ r, receipts[i]? = some r ∧ ReceiptFor cfg block i tx r := by
  intro i tx htx
  rw [htxs, List.getElem?_mapIdx, Option.map_eq_some_iff] at htx
  obtain ⟨tx', htx', rfl⟩ := htx
  obtain ⟨logIndex, hr⟩ := hloop i tx' htx'
  refine ⟨_, hr, rfl, ?_, rfl, toGethReceipt_receiptOf _ _ _ _ _ _⟩
  show toHex (0 + i) = toHex i
  rw [Nat.zero_add]

section Extend
variable {cfg : Config} {ω : Choices} {n : RpcNode}

theorem RpcNode.buildReceiptTrie_minePendingTxs (n : RpcNode) (cfg : Config) (ω : Choices) :
    buildReceiptTrie (n.minePendingTxs cfg ω).2.1 =
      receiptTrie cfg (n.minePendingBlock cfg ω).1.transactions := by
  refine buildReceiptTrie_eq ((mineTxs_receipts n.pendingTxs).trans ?_)
  rw [n.minePendingBlock_transactions]
  symm
  exact map_mapIdx_eq _ _ _ fun i tx => rfl

theorem RpcNode.buildReceiptTrie_applyPeerBlock (n : RpcNode) (cfg : Config) (ω : Choices)
    (block : BlockRecord) :
    buildReceiptTrie (n.applyPeerBlock cfg ω block).2.1 =
      receiptTrie cfg (n.applyPeerBlock cfg ω block).1 := by
  have hmined : (n.applyPeerBlock cfg ω block).1 = block.transactions.mapIdx fun i tx =>
      minedTx tx block.hash (quantity64 block.number) (0 + i) := applyTxs_mined _
  refine buildReceiptTrie_eq ((applyTxs_receipts block.transactions).trans ?_)
  rw [hmined]
  symm
  exact map_mapIdx_eq _ _ _ fun i tx => rfl

theorem minePendingBlock_extended (hchain : ChainOk n)
    (hcommits : ∀ c ∈ n.receiptCommits, c.height ≤ n.height) :
    Extended cfg n (n.minePendingBlock cfg ω).2 (n.minePendingBlock cfg ω).1 := by
  have hbound := hchain.bound
  have hnum : u64 ((n.height : ℤ) + 1) = n.height + 1 := u64_of_lt (k := n.height + 1) (by omega)
  have htxs := n.minePendingBlock_transactions cfg ω
  have htrie := n.buildReceiptTrie_minePendingTxs cfg ω
  constructor
  · exact n.minePendingBlock_fst cfg ω
  · have hrecorded : (n.minePendingTxs cfg ω).2.2.receipts = RpcNode.recordReceipts n.receipts
        (n.minePendingTxs cfg ω).1 (n.minePendingTxs cfg ω).2.1 :=
      RpcNode.mineTxs_recordReceipts n.pendingTxs
    refine ⟨(n.minePendingTxs cfg ω).2.1, ?_, ?_⟩
    · rw [(n.minePendingBlock_records cfg ω).1, hrecorded]
      rfl
    · have hloop := @receiptFor_of_loop _ cfg n.pendingTxs (n.minePendingBlock cfg ω).1
      exact hloop htxs fun i tx htx => RpcNode.mineTxs_receiptAt htx
  · show receiptTrieRoot (n.minePendingTxs cfg ω).2.1 = _
    rw [receiptTrieRoot, htrie]
  · let mined : RpcNode := { (n.minePendingTxs cfg ω).2.2 with height := u64 (n.height + 1) }
    have hkept : (mined.computeStateTrieRoot (ω.call 2)).2.receiptCommits = n.receiptCommits :=
      RpcNode.receiptCommits_computeStateTrieRoot.trans (RpcNode.receiptCommits_mineTxs n.pendingTxs)
    have hheight : (mined.computeStateTrieRoot (ω.call 2)).2.height = n.height + 1 := by
      obtain ⟨l, hl, -⟩ := mined.computeStateTrieRoot_eq (ω.call 2)
      rw [hl]
      exact hnum
    obtain ⟨l, hl, hnew, hne⟩ := @RpcNode.receiptCommits_computeReceiptTrieRoot _ (ω.call 3)
      (mined.computeStateTrieRoot (ω.call 2)).2 (n.minePendingTxs cfg ω).2.1 (by
        rw [hkept, hheight]
        intro c hc
        have := hcommits c hc
        omega)
    rw [hkept] at hl
    rw [hheight, htrie] at hnew
    rw [htrie] at hne
    exact ⟨l, hl, hnew, hne⟩

theorem recordImported_trieCommits (n : RpcNode) (txs : List TxRecord)
    (receipts : List ReceiptRecord) :
    (n.recordImported txs receipts).trieCommits = n.trieCommits := by
  induction txs generalizing n receipts with
  | nil => rfl
  | cons tx txs ih =>
      cases receipts with
      | nil => rfl
      | cons receipt receipts =>
          rw [RpcNode.recordImported, ih]
          split <;> rfl

/-- What a successful import commits. -/
theorem importPeerBlock_trieCommits {block : BlockRecord}
    (h : (n.importPeerBlock cfg ω block).1 = .ok true) :
    (n.importPeerBlock cfg ω block).2.trieCommits =
      (RpcNode.computeReceiptTrieRoot
        { (n.applyPeerBlock cfg ((ω.call 0).call 1) block).2.2 with replayMode := n.replayMode }
        (ω.call 1) (n.applyPeerBlock cfg ((ω.call 0).call 1) block).2.1).2.trieCommits := by
  rw [RpcNode.importPeerBlock] at h ⊢
  dsimp only at h ⊢
  split at h
  · cases h
  · next hnew =>
      rw [if_neg hnew]
      rcases n.replayPeerBlock_cases cfg (ω.call 0) block with ⟨e, ω₁, ω₂, disk, heq⟩ | ⟨-, heq⟩
      · rw [heq] at h
        cases h
      · rw [heq]
        exact recordImported_trieCommits _ _ _

theorem importPeerBlock_extended {block : BlockRecord} (hnumber : quantity64 block.number = n.height + 1)
    (hcommits : ∀ c ∈ n.receiptCommits, c.height ≤ n.height)
    (hok : (n.importPeerBlock cfg ω block).1 = .ok true) :
    ∃ stored, stored.hash = block.hash ∧
      stored.transactions.map (·.hash) = block.transactions.map (·.hash) ∧
      Extended cfg n (n.importPeerBlock cfg ω block).2 stored := by
  have htrieCommits := importPeerBlock_trieCommits hok
  rcases n.importPeerBlock_cases cfg ω block with ⟨heq, -⟩ | ⟨e, ω₁, ω₂, disk, heq⟩ |
    ⟨ω₂, l, heq, -⟩
  · rw [heq] at hok
    cases hok
  · rw [heq] at hok
    cases hok
  · have hsame := n.applyPeerBlock_sameChain cfg ((ω.call 0).call 1) block
    have hkept : RpcNode.receiptCommits
        { (n.applyPeerBlock cfg ((ω.call 0).call 1) block).2.2 with replayMode := n.replayMode } =
          n.receiptCommits := RpcNode.receiptCommits_applyTxs _
    have hmined : (n.applyPeerBlock cfg ((ω.call 0).call 1) block).1 = block.transactions.mapIdx
        fun i tx => RpcNode.minedTx tx block.hash (quantity64 block.number) (0 + i) :=
      RpcNode.applyTxs_mined _
    have htrie := n.buildReceiptTrie_applyPeerBlock cfg ((ω.call 0).call 1) block
    have hreceipts : ∀ i tx, block.transactions[i]? = some tx → ∃ logIndex,
        (n.applyPeerBlock cfg ((ω.call 0).call 1) block).2.1[i]? = some (receiptOf cfg tx block.hash
          (quantity64 block.number) (0 + i) logIndex) :=
      fun i tx htx => RpcNode.applyTxs_receiptAt htx
    rw [heq] at htrieCommits ⊢
    generalize n.applyPeerBlock cfg ((ω.call 0).call 1) block = r at *
    refine ⟨RpcNode.importedBlock block r.1 r.2.1, rfl, ?_, ?_⟩
    · show r.1.map (·.hash) = _
      rw [hmined]
      exact map_mapIdx_eq _ _ _ fun i tx => rfl
    constructor
    · rw [RpcNode.afterImport_blocks, hsame.blocks]
    · refine ⟨r.2.1, ?_, receiptFor_of_loop hmined hreceipts⟩
      rw [RpcNode.afterImport, RpcNode.recordImported_receipts]
      exact congrArg (RpcNode.recordReceipts · _ _) hsame.receipts
    · show receiptTrieRoot r.2.1 = _
      rw [receiptTrieRoot, htrie]
      rfl
    · obtain ⟨l', hl', hnew, hne⟩ := @RpcNode.receiptCommits_computeReceiptTrieRoot _ (ω.call 1)
        { r.2.2 with replayMode := n.replayMode } r.2.1 (by
          rw [hkept]
          intro c hc
          have := hcommits c hc
          have hheight : r.2.2.height = n.height + 1 := hsame.height.trans hnumber
          show c.height ≠ r.2.2.height
          omega)
      refine ⟨l', ?_, fun c hc => ?_, ?_⟩
      · rw [RpcNode.receiptCommits, htrieCommits]
        exact hl'.trans (congrArg (· ++ l') hkept)
      · have hc' := hnew c hc
        rw [htrie] at hc'
        exact ⟨hc'.1.trans (hsame.height.trans hnumber), hc'.2⟩
      · rw [htrie] at hne
        exact hne

end Extend

/-! ## The invariant -/

/-- Every transaction of the chain has its receipt and a key of its own, a block with transactions
has a hash of its own, and the commits of receipts are those of the blocks. -/
structure ReceiptsOk (cfg : Config) (n : RpcNode) : Prop where
  entry : ∀ b ∈ n.blocks, ∀ i tx, b.transactions[i]? = some tx →
    ∃ r, n.receipts.get? (toLower tx.hash) = some r ∧ ReceiptFor cfg b i tx r
  distinct : n.receiptKeys.Nodup
  named : ∀ b ∈ n.blocks, ∀ tx ∈ b.transactions, tx.hash ≠ ""
  hashes : n.blocks.Pairwise fun b b' => b'.transactions ≠ [] → toLower b.hash ≠ toLower b'.hash
  root : ∀ b ∈ n.blocks, b.transactions ≠ [] →
    b.receiptRoot = hexString (Platform.trieRoot (receiptTrie cfg b.transactions))
  recorded : ∀ k b, n.blockAt k = some b → b.transactions ≠ [] →
    (Platform.trieNodes (receiptTrie cfg b.transactions)).isSome = true →
      ∃ c ∈ n.receiptCommits, c.height = k ∧ Commits c (receiptTrie cfg b.transactions)
  commits : ∀ c ∈ n.receiptCommits, ∃ b, n.blockAt c.height = some b ∧
    c.root = b.receiptRoot ∧ Commits c (receiptTrie cfg b.transactions)

namespace ReceiptsOk
variable {cfg : Config} {n n' : RpcNode}

theorem of_eq (h : ReceiptsOk cfg n) (hblocks : n'.blocks = n.blocks)
    (hreceipts : n'.receipts = n.receipts) (hcommits : n'.trieCommits = n.trieCommits) :
    ReceiptsOk cfg n' := by
  have hat : n'.blockAt = n.blockAt := by
    funext k
    rw [RpcNode.blockAt, RpcNode.blockAt, hblocks]
  have hkeys : n'.receiptKeys = n.receiptKeys := by
    rw [RpcNode.receiptKeys, RpcNode.receiptKeys, hblocks]
  have hof : n'.receiptCommits = n.receiptCommits := by
    rw [RpcNode.receiptCommits, RpcNode.receiptCommits, hcommits]
  constructor
  · rw [hblocks, hreceipts]; exact h.entry
  · rw [hkeys]; exact h.distinct
  · rw [hblocks]; exact h.named
  · rw [hblocks]; exact h.hashes
  · rw [hblocks]; exact h.root
  · rw [hat, hof]; exact h.recorded
  · rw [hat, hof]; exact h.commits

/-- A receipt that is read back from its file proves what it did. -/
theorem reread (h : ReceiptsOk cfg n) (hblocks : n'.blocks = n.blocks)
    (hreceipts : n'.receipts = n.receipts.mapValues ReceiptRecord.reread)
    (hcommits : n'.trieCommits = n.trieCommits) : ReceiptsOk cfg n' := by
  have hsame : ReceiptsOk cfg { n' with receipts := n.receipts } := h.of_eq hblocks rfl hcommits
  refine ⟨fun b hb i tx htx => ?_, hsame.distinct, hsame.named, hsame.hashes, hsame.root,
    hsame.recorded, hsame.commits⟩
  obtain ⟨r, hr, hfor⟩ := hsame.entry b hb i tx htx
  refine ⟨r.reread, ?_, hfor.blockHash, hfor.transactionIndex, hfor.transactionHash,
    r.toGethReceipt_reread.trans hfor.consensus⟩
  rw [hreceipts, FinMap.get?_mapValues, hr]
  rfl

theorem height_le (h : ReceiptsOk cfg n) (hchain : ChainOk n) {c : TrieCommitRecord}
    (hc : c ∈ n.receiptCommits) : c.height ≤ n.height := by
  obtain ⟨b, hb, -⟩ := h.commits c hc
  by_contra hlt
  rw [(hchain.blockAt_eq_none_iff _).mpr (by omega)] at hb
  cases hb

/-- A block whose hashes are new keeps the invariant. -/
theorem extended (h : ReceiptsOk cfg n) (hchain : ChainOk n) {block : BlockRecord}
    (hext : Extended cfg n n' block)
    (hnodup : (block.transactions.map fun tx => toLower tx.hash).Nodup)
    (hfresh : ∀ tx ∈ block.transactions, toLower tx.hash ∉ n.receiptKeys)
    (hnamed : ∀ tx ∈ block.transactions, tx.hash ≠ "")
    (hhash : block.transactions ≠ [] → toLower block.hash ∉ n.blocks.map fun b => toLower b.hash) :
    ReceiptsOk cfg n' := by
  obtain ⟨receipts, hreceipts, hfor⟩ := hext.receipts
  obtain ⟨l, hl, hnew, hne⟩ := hext.commits
  have hat := hchain.blockAt_append hext.blocks
  have hkeys : n'.receiptKeys = n.receiptKeys ++ block.transactions.map fun tx => toLower tx.hash := by
    rw [RpcNode.receiptKeys, hext.blocks, List.flatMap_append, List.flatMap_singleton]
    rfl
  have hmem : ∀ b ∈ n'.blocks, b ∈ n.blocks ∨ b = block := by
    intro b hb
    rw [hext.blocks, List.mem_append, List.mem_singleton] at hb
    exact hb
  constructor
  · intro b hb i tx htx
    rcases hmem b hb with hb | rfl
    · obtain ⟨r, hr, hrfor⟩ := h.entry b hb i tx htx
      refine ⟨r, ?_, hrfor⟩
      rw [hreceipts, RpcNode.get?_recordReceipts_of_not_mem, hr]
      intro hin
      obtain ⟨tx', htx', heq⟩ := List.mem_map.mp hin
      refine hfresh tx' htx' ?_
      rw [heq]
      exact List.mem_flatMap.mpr ⟨b, hb, List.mem_map.mpr ⟨tx, List.mem_of_getElem? htx, rfl⟩⟩
    · obtain ⟨r, hr, hrfor⟩ := hfor i tx htx
      exact ⟨r, by rw [hreceipts, RpcNode.get?_recordReceipts hnodup htx hr], hrfor⟩
  · rw [hkeys, List.nodup_append']
    refine ⟨h.distinct, hnodup, fun key hkey hkey' => ?_⟩
    obtain ⟨tx, htx, rfl⟩ := List.mem_map.mp hkey'
    exact hfresh tx htx hkey
  · intro b hb
    rcases hmem b hb with hb | rfl
    · exact h.named b hb
    · exact hnamed
  · rw [hext.blocks, List.pairwise_append]
    refine ⟨h.hashes, List.pairwise_singleton _ _, fun b hb b' hb' hsome heq => ?_⟩
    rw [List.mem_singleton.mp hb'] at hsome heq
    exact hhash hsome (heq ▸ List.mem_map_of_mem hb)
  · intro b hb hsome
    rcases hmem b hb with hb | rfl
    · exact h.root b hb hsome
    · exact hext.root
  · intro k b hb hsome hnodes
    rw [hat] at hb
    rw [hl]
    split at hb
    · next hk =>
        cases hb
        obtain ⟨c, hc⟩ := List.exists_mem_of_ne_nil l (hne hnodes)
        exact ⟨c, List.mem_append_right _ hc, (hnew c hc).1.trans hk.symm, (hnew c hc).2⟩
    · obtain ⟨c, hc, hcommits⟩ := h.recorded k b hb hsome hnodes
      exact ⟨c, List.mem_append_left _ hc, hcommits⟩
  · intro c hc
    rw [hl, List.mem_append] at hc
    rcases hc with hc | hc
    · obtain ⟨b, hb, hroot, hcommits⟩ := h.commits c hc
      have hle := h.height_le hchain hc
      refine ⟨b, ?_, hroot, hcommits⟩
      rw [hat, if_neg (by omega), hb]
    · obtain ⟨hheight, hcommits⟩ := hnew c hc
      exact ⟨block, by rw [hat, if_pos hheight], hcommits.root.trans hext.root.symm, hcommits⟩

/-- A rollback takes the receipts and commits of the removed blocks with it. -/
theorem rollback (h : ReceiptsOk cfg n) (hchain : ChainOk n) (ω : Choices) (height : ℕ)
    (s : StateSnapshotRecord) : ReceiptsOk cfg (n.rollback ω height s) := by
  have hblocks := hchain.blocks_rollback ω height s
  have hat := hchain.blockAt_rollback ω height s
  have hkept : ∀ b ∈ (n.rollback ω height s).blocks, b ∈ n.blocks := by
    intro b hb
    rw [hblocks] at hb
    exact List.mem_of_mem_take hb
  have hremoved : n.removedTxHashes height =
      (n.blocks.drop (height - 1)).flatMap fun b => b.transactions.map fun tx => toLower tx.hash := by
    rw [RpcNode.removedTxHashes, RpcNode.removedTxs, List.map_flatMap, RpcNode.blocksFrom,
      filter_le_eq_drop hchain.numbers]
    congr 1
    funext b
    rw [List.map_map]
    rfl
  have hsplit : n.receiptKeys = (n.rollback ω height s).receiptKeys ++ n.removedTxHashes height := by
    rw [hremoved, RpcNode.receiptKeys, RpcNode.receiptKeys, hblocks, ← List.flatMap_append,
      List.take_append_drop]
  obtain ⟨hnodup, -, hdisjoint⟩ := List.nodup_append'.mp (hsplit ▸ h.distinct)
  have hcommits : ∀ c, c ∈ (n.rollback ω height s).receiptCommits ↔
      c ∈ n.receiptCommits ∧ c.height < height := by
    intro c
    rw [RpcNode.receiptCommits, RpcNode.receiptCommits, List.mem_filter, List.mem_filter]
    show c ∈ n.trieCommits.filter _ ∧ _ ↔ _
    rw [List.mem_filter, decide_eq_true_eq]
    tauto
  constructor
  · intro b hb i tx htx
    obtain ⟨r, hr, hfor⟩ := h.entry b (hkept b hb) i tx htx
    refine ⟨r, ?_, hfor⟩
    refine (FinMap.get?_foldl_erase id (n.removedTxHashes height) n.receipts _).trans ?_
    rw [List.map_id, if_neg, hr]
    intro hin
    exact hdisjoint (List.mem_flatMap.mpr
      ⟨b, hb, List.mem_map.mpr ⟨tx, List.mem_of_getElem? htx, rfl⟩⟩) hin
  · exact hnodup
  · exact fun b hb => h.named b (hkept b hb)
  · rw [hblocks]
    exact h.hashes.sublist (List.take_sublist _ _)
  · exact fun b hb => h.root b (hkept b hb)
  · intro k b hb hsome hnodes
    rw [hat] at hb
    split at hb
    · next hk =>
        obtain ⟨c, hc, hheight, hof⟩ := h.recorded k b hb hsome hnodes
        exact ⟨c, (hcommits c).mpr ⟨hc, hheight.trans_lt hk⟩, hheight, hof⟩
    · cases hb
  · intro c hc
    obtain ⟨hmem, hlt⟩ := (hcommits c).mp hc
    obtain ⟨b, hb, hroot, hof⟩ := h.commits c hmem
    exact ⟨b, by rw [hat, if_pos hlt, hb], hroot, hof⟩

end ReceiptsOk

/-! ## Runs -/

/-- The transactions that the call executes have keys that are not on the chain and differ from
each other, none has the empty hash, and a block of them has a hash of its own. -/
structure ReceiptStep (cfg : Config) (n : RpcNode) (ω : Choices) (e : Event) : Prop where
  distinct : ((n.executed cfg ω e).map fun tx => toLower tx.hash).Nodup
  fresh : ∀ tx ∈ n.executed cfg ω e, toLower tx.hash ∉ n.receiptKeys
  named : ∀ tx ∈ n.executed cfg ω e, tx.hash ≠ ""
  mined : ∀ ω', n.minesWith cfg ω e = some ω' → n.executed cfg ω e ≠ [] →
    toLower (RpcNode.nextBlockHash { n with pendingTxs := n.executed cfg ω e } (ω'.call 0)) ∉
      n.blocks.map fun b => toLower b.hash
  imported : ∀ block, e = .syncBlock block → n.executed cfg ω e ≠ [] →
    toLower block.record.hash ∉ n.blocks.map fun b => toLower b.hash

/-- The hashes are all that the condition reads of the transactions. -/
theorem ReceiptsOk.extended_of_hashes {cfg : Config} {n n' : RpcNode} (h : ReceiptsOk cfg n)
    (hchain : ChainOk n) {block : BlockRecord} (hext : Extended cfg n n' block)
    {txs : List TxRecord} (htxs : block.transactions.map (·.hash) = txs.map (·.hash))
    (hnodup : (txs.map fun tx => toLower tx.hash).Nodup)
    (hfresh : ∀ tx ∈ txs, toLower tx.hash ∉ n.receiptKeys) (hnamed : ∀ tx ∈ txs, tx.hash ≠ "")
    (hhash : txs ≠ [] → toLower block.hash ∉ n.blocks.map fun b => toLower b.hash) :
    ReceiptsOk cfg n' := by
  have hlower : (block.transactions.map fun tx => toLower tx.hash) =
      txs.map fun tx => toLower tx.hash := by
    have hmap := congrArg (List.map toLower) htxs
    rwa [List.map_map, List.map_map] at hmap
  have hmem : ∀ tx ∈ block.transactions, ∃ tx' ∈ txs, tx'.hash = tx.hash := by
    intro tx htx
    have hin : tx.hash ∈ block.transactions.map (·.hash) := List.mem_map_of_mem htx
    rw [htxs] at hin
    exact List.mem_map.mp hin
  refine h.extended hchain hext (hlower ▸ hnodup) (fun tx htx => ?_) (fun tx htx => ?_)
    fun hsome => hhash ?_
  · obtain ⟨tx', htx', heq⟩ := hmem tx htx
    rw [← heq]
    exact hfresh tx' htx'
  · obtain ⟨tx', htx', heq⟩ := hmem tx htx
    rw [← heq]
    exact hnamed tx' htx'
  · rintro rfl
    exact hsome (List.map_eq_nil_iff.mp htxs)

theorem ReceiptsOk.minePendingBlock {cfg : Config} {n : RpcNode} (h : ReceiptsOk cfg n)
    (hchain : ChainOk n) {ω : Choices}
    (hnodup : (n.pendingTxs.map fun tx => toLower tx.hash).Nodup)
    (hfresh : ∀ tx ∈ n.pendingTxs, toLower tx.hash ∉ n.receiptKeys)
    (hnamed : ∀ tx ∈ n.pendingTxs, tx.hash ≠ "")
    (hhash : n.pendingTxs ≠ [] →
      toLower (n.nextBlockHash (ω.call 0)) ∉ n.blocks.map fun b => toLower b.hash) :
    ReceiptsOk cfg (n.minePendingBlock cfg ω).2 := by
  have hext : Extended cfg n (n.minePendingBlock cfg ω).2 (n.minePendingBlock cfg ω).1 :=
    minePendingBlock_extended hchain fun c => h.height_le hchain
  have htxs := n.minePendingBlock_transactions cfg ω
  refine h.extended_of_hashes hchain hext ?_ hnodup hfresh hnamed hhash
  rw [htxs]
  exact map_mapIdx_eq _ _ _ fun i tx => rfl

theorem ReceiptsOk.syncBlock {cfg : Config} {n : RpcNode} (h : ReceiptsOk cfg n)
    (hchain : ChainOk n) {ω : Choices} {block : PeerBlock}
    (hstep : ReceiptStep cfg n ω (.syncBlock block)) :
    ReceiptsOk cfg (n.next cfg ω (.syncBlock block)) := by
  rw [RpcNode.next]
  by_cases hok : (n.syncBlock cfg ω (n.height + 1) block).1 = .ok true
  · obtain ⟨hnodup, hfresh, hnamed, -, hhash⟩ := hstep
    rw [RpcNode.executed_of_imported hok] at hnodup hfresh hnamed hhash
    rw [RpcNode.syncBlock] at hok ⊢
    split at hok
    · cases hok
    · next hvalid =>
        obtain ⟨stored, hstored, htxs, hext⟩ := importPeerBlock_extended
          (RpcNode.validatePeerBlock_ok hvalid).number (fun c => h.height_le hchain) hok
        refine h.extended_of_hashes hchain hext htxs hnodup hfresh hnamed ?_
        rw [hstored]
        exact hhash block rfl
  · rcases n.syncBlock_cases cfg ω (n.height + 1) block with ⟨heq, -⟩ |
      ⟨e, ω₁, ω₂, disk, heq⟩ | ⟨ω₂, l, heq, -⟩
    · rw [heq]; exact h
    · rw [heq]; exact h.of_eq rfl rfl rfl
    · rw [heq] at hok
      exact absurd rfl hok

theorem ReceiptsOk.next {cfg : Config} {n : RpcNode} (h : ReceiptsOk cfg n) (hchain : ChainOk n)
    {ω : Choices} {e : Event} (hstep : ReceiptStep cfg n ω e) :
    ReceiptsOk cfg (n.next cfg ω e) := by
  rcases n.syncBlock_or_localCall hchain cfg ω e with ⟨block, rfl⟩ | hcall
  · exact h.syncBlock hchain hstep
  · obtain ⟨hnodup, hfresh, hnamed, hmined, -⟩ := hstep
    generalize n.next cfg ω e = n' at hcall ⊢
    cases hcall with
    | quiet hquiet => exact h.of_eq hquiet.blocks hquiet.receipts hquiet.trieCommits
    | recopied ω₁ ω₂ disk => exact h.of_eq rfl rfl rfl
    | mined hmines =>
        have hchain' : ChainOk { n with pendingTxs := n.executed cfg ω e } :=
          hchain.of_eq rfl rfl rfl rfl rfl
        have h' : ReceiptsOk cfg { n with pendingTxs := n.executed cfg ω e } := h.of_eq rfl rfl rfl
        exact h'.minePendingBlock hchain' hnodup hfresh hnamed (hmined _ hmines)
    | @rolledBack ω' height s hone hle hs =>
        exact (h.rollback hchain ω' height s).of_eq rfl rfl rfl
    | restarted =>
        obtain ⟨index, disk, heq, -⟩ := hchain.restart cfg ω
        rw [heq]
        exact h.reread rfl rfl rfl

theorem receiptsOk_fresh (cfg : Config) (ω : Choices) : ReceiptsOk cfg (newRPCNode cfg ω {}) := by
  obtain ⟨ω₁, l, timestamp, heq, hl⟩ := newRPCNode_fresh cfg ω
  rw [heq]
  have hblocks : ∀ b ∈ [freshGenesis ω], b.transactions = [] := by
    intro b hb
    rw [List.mem_singleton.mp hb]
    rfl
  have hcommits : ∀ c, c ∉ l.filter fun c => c.kind = "receipts" := by
    intro c hc
    obtain ⟨hmem, hkind⟩ := List.mem_filter.mp hc
    rw [(hl c hmem).2.2] at hkind
    exact absurd hkind (by decide)
  constructor
  · intro b hb i tx htx
    rw [hblocks b hb] at htx
    cases htx
  · exact List.nodup_nil
  · intro b hb tx htx
    rw [hblocks b hb] at htx
    cases htx
  · exact List.pairwise_singleton _ _
  · exact fun b hb hsome => absurd (hblocks b hb) hsome
  · exact fun k b hb hsome => absurd (hblocks b (ChainOk.mem_of_blockAt hb)) hsome
  · exact fun c hc => absurd hc (hcommits c)

theorem ReachableBy.receiptsOk {cfg : Config} {n : RpcNode}
    (h : ReachableBy cfg (ReceiptStep cfg) n) : ChainOk n ∧ ReceiptsOk cfg n :=
  h.induct (P := fun n => ChainOk n ∧ ReceiptsOk cfg n)
    (fun ω => ⟨chainOk_fresh cfg ω, receiptsOk_fresh cfg ω⟩)
    fun _ _ _ hn hok hlen => ⟨hn.1.next hlen, hn.2.next hn.1 hok⟩

/-! ## Proofs of receipts -/

/-- No collision of roots: a commit with the root of a block's receipts is a commit of receipts,
and blocks with one root have the same receipts. -/
structure RpcNode.NoCollision (cfg : Config) (n : RpcNode) : Prop where
  kinds : ∀ c ∈ n.trieCommits, ∀ b ∈ n.blocks, b.transactions ≠ [] →
    toLower c.root = toLower b.receiptRoot → c.kind = "receipts"
  receipts : ∀ b ∈ n.blocks, ∀ b' ∈ n.blocks, b.receiptRoot = b'.receiptRoot →
    b.transactions.map (consensusReceipt cfg) = b'.transactions.map (consensusReceipt cfg)

namespace ReceiptsOk
variable {cfg : Config} {n : RpcNode}

/-- The receipts of a block can be put together from the map. -/
theorem receiptsForBlock (h : ReceiptsOk cfg n) {b : BlockRecord} (hb : b ∈ n.blocks) :
    (n.receiptsForBlock b).map (·.toGethReceipt) = b.transactions.map (consensusReceipt cfg) := by
  have hentry : ∀ tx ∈ b.transactions, ∃ r, n.receipts.get? (toLower tx.hash) = some r ∧
      r.toGethReceipt = consensusReceipt cfg tx := by
    intro tx htx
    obtain ⟨i, hi⟩ := List.getElem?_of_mem htx
    obtain ⟨r, hr, hfor⟩ := h.entry b hb i tx hi
    exact ⟨r, hr, hfor.consensus⟩
  rw [RpcNode.receiptsForBlock]
  generalize b.transactions = txs at hentry
  induction txs with
  | nil => rfl
  | cons tx txs ih =>
      obtain ⟨r, hr, hconsensus⟩ := hentry tx List.mem_cons_self
      rw [List.filterMap_cons, hr]
      dsimp only
      rw [List.map_cons, List.map_cons, hconsensus,
        ih fun tx' htx' => hentry tx' (List.mem_cons_of_mem _ htx')]

/-- A block with transactions is found under its hash. -/
theorem blockByHash (h : ReceiptsOk cfg n) {b : BlockRecord} (hb : b ∈ n.blocks)
    (hsome : b.transactions ≠ []) : n.blockByHash b.hash = some b := by
  rw [RpcNode.blockByHash]
  have hpairs := h.hashes
  generalize n.blocks = blocks at hb hpairs
  induction blocks with
  | nil => cases hb
  | cons b' blocks ih =>
      rw [List.pairwise_cons] at hpairs
      rcases List.mem_cons.mp hb with rfl | hb
      · rw [List.find?_cons_of_pos (by simp)]
      · rw [List.find?_cons_of_neg (by simpa using hpairs.1 b hb hsome), ih hb hpairs.2]

end ReceiptsOk

omit [Platform] in
/-- A key with one value has that value. -/
theorem lookupLast_of_mem {t : Trie} {key value : Bytes} (hmem : (key, value) ∈ t)
    (hunique : ∀ v, (key, v) ∈ t → v = value) : lookupLast t key = value := by
  rw [lookupLast]
  cases hfind : t.reverse.find? fun e => e.1 = key with
  | none =>
      have hnone := List.find?_eq_none.mp hfind _ (List.mem_reverse.mpr hmem)
      simp at hnone
  | some e =>
      have hkey : e.1 = key := by simpa using List.find?_some hfind
      have he : (key, e.2) ∈ t := hkey ▸ List.mem_reverse.mp (List.mem_of_find?_eq_some hfind)
      exact hunique e.2 he

/-- The trie of a block's receipts has the receipt of each transaction under its index. -/
theorem lookupLast_receiptTrie (huint : Function.Injective (Platform.rlpUint)) (cfg : Config)
    {txs : List TxRecord} {i : ℕ} {tx : TxRecord} (htx : txs[i]? = some tx) :
    lookupLast (receiptTrie cfg txs) (Platform.rlpUint i) =
      Platform.rlpReceipt (consensusReceipt cfg tx) := by
  have hreceipt : (txs.map (consensusReceipt cfg))[i]? = some (consensusReceipt cfg tx) := by
    rw [List.getElem?_map, htx]
    rfl
  obtain ⟨hi, hget⟩ := List.getElem?_eq_some_iff.mp hreceipt
  refine lookupLast_of_mem (List.mem_mapIdx.mpr ⟨i, hi, by rw [hget]⟩) fun v hv => ?_
  obtain ⟨j, hj, heq⟩ := List.mem_mapIdx.mp hv
  obtain ⟨hkey, rfl⟩ := Prod.mk.inj heq
  have hij := huint hkey
  subst hij
  rw [hget]

section Verify
variable [TrieProofs] {cfg : Config} {n : RpcNode} {b : BlockRecord} {i : ℕ} {tx : TxRecord}
  {r : ReceiptRecord}

/-- The proof that the node gives of a receipt. -/
theorem receiptProof_eq (hproofs : TrieProofs.Complete) (h : ReceiptsOk cfg n) (hb : b ∈ n.blocks)
    (htx : b.transactions[i]? = some tx) (hi : i < 2 ^ 64)
    (hr : n.receipts.get? (toLower tx.hash) = some r) (hfor : ReceiptFor cfg b i tx r) :
    ∃ proof, TrieProofs.prove (receiptTrie cfg b.transactions) (Platform.rlpUint i) = .ok proof ∧
      n.receiptProof tx.hash = .ok
        { transactionHash := tx.hash
          transactionIndex := toHex i
          blockHash := b.hash
          blockNumber := b.number
          receiptRoot := b.receiptRoot
          proof := proofHexList proof
          receipt := r } := by
  have hsome : b.transactions ≠ [] := List.ne_nil_of_mem (List.mem_of_getElem? htx)
  have hindex : quantity64 r.transactionIndex = i := by
    rw [hfor.transactionIndex, quantity64_toHex hi]
  have htrie := buildReceiptTrie_eq (h.receiptsForBlock hb)
  have hlength : i < (n.receiptsForBlock b).length := by
    have hmap := congrArg List.length (h.receiptsForBlock hb)
    rw [List.length_map, List.length_map] at hmap
    rw [hmap]
    exact (List.getElem?_eq_some_iff.mp htx).1
  have hlookup := lookupLast_receiptTrie hproofs.uint cfg htx
  obtain ⟨proof, hprove, -⟩ := hproofs.prove (receiptTrie cfg b.transactions) (Platform.rlpUint i)
    (by rw [hlookup]; exact hproofs.receipt _)
  refine ⟨proof, hprove, ?_⟩
  rw [RpcNode.receiptProof, hr]
  dsimp only
  rw [hfor.blockHash, h.blockByHash hb hsome]
  dsimp only
  rw [hindex, if_neg (by omega), htrie, hprove]
  dsimp only
  rw [← h.root b hb hsome, hfor.transactionHash, hfor.transactionIndex]

omit [TrieProofs] in
/-- The set of a proof that was written out in hexadecimal. -/
theorem proofSetFromHex_proofHexList {proof : List Bytes} (h : ∀ blob ∈ proof, blob ≠ []) :
    proofSetFromHex (proofHexList proof) = some (proofSet proof) := by
  have hmap : (proofHexList proof).map fromHex = proof := by
    simp only [proofHexList, List.map_map, Function.comp_def, fromHex_hexString, List.map_id']
  have hany : ((proofHexList proof).any fun node => (fromHex node).isEmpty) = false := by
    rw [List.any_eq_false]
    intro node hnode
    obtain ⟨blob, hblob, rfl⟩ := List.mem_map.mp hnode
    rw [fromHex_hexString, List.isEmpty_iff]
    exact h blob hblob
  rw [proofSetFromHex, hany, if_neg Bool.false_ne_true, hmap]

/-- The check of the proof accepts it. -/
theorem verifyReceiptProof_valid (hproofs : TrieProofs.Complete) (h : ReceiptsOk cfg n)
    (hb : b ∈ n.blocks) (htx : b.transactions[i]? = some tx) (hi : i < 2 ^ 64)
    (hfor : ReceiptFor cfg b i tx r) {request : ReceiptRequest} {proof : List Bytes}
    (hprove : TrieProofs.prove (receiptTrie cfg b.transactions) (Platform.rlpUint i) = .ok proof)
    (hroot : request.receiptRoot = .str b.receiptRoot)
    (hindex : request.transactionIndex = .str (toHex i))
    (hproof : request.proof = proofHexList proof) (hreceipt : request.receipt = .object (.ok r)) :
    (verifyReceiptProof request).valid = true := by
  have hsome : b.transactions ≠ [] := List.ne_nil_of_mem (List.mem_of_getElem? htx)
  have hlookup := lookupLast_receiptTrie hproofs.uint cfg htx
  have hvalue := hproofs.receipt (consensusReceipt cfg tx)
  obtain ⟨proof', hprove', hblobs, hverify⟩ := hproofs.prove (receiptTrie cfg b.transactions)
    (Platform.rlpUint i) (by rw [hlookup]; exact hvalue)
  rw [hprove] at hprove'
  cases hprove'
  have hhash : hexToHash (Value.str b.receiptRoot).sprint =
      Platform.trieRoot (receiptTrie cfg b.transactions) := by
    rw [Value.sprint, h.root b hb hsome, hexToHash_hexString (hproofs.root _)]
  have hquantity : quantityFromInterface (.str (toHex i)) = i := quantity64_toHex hi
  rw [verifyReceiptProof, hroot, hindex, hproof, hreceipt, hhash, hquantity,
    proofSetFromHex_proofHexList hblobs]
  dsimp only
  rw [provenReceipt, hverify, hlookup]
  dsimp only
  rw [if_neg hvalue]
  dsimp only
  rw [hfor.consensus, decide_eq_true_eq]

/-- The commit that is found under the root of a block is one of its receipts. -/
theorem trieCommitByRoot_receipts (hproofs : TrieProofs.Complete) (h : ReceiptsOk cfg n)
    (hcollision : n.NoCollision cfg) (hb : b ∈ n.blocks) (htx : b.transactions[i]? = some tx) :
    ∃ c, n.trieCommitByRoot (hexString (Platform.trieRoot (receiptTrie cfg b.transactions))) = some c ∧
      Commits c (receiptTrie cfg b.transactions) := by
  have hsome : b.transactions ≠ [] := List.ne_nil_of_mem (List.mem_of_getElem? htx)
  have hlookup := lookupLast_receiptTrie hproofs.uint cfg htx
  have hroot := h.root b hb hsome
  obtain ⟨hnodes, -⟩ := hproofs.nodes (receiptTrie cfg b.transactions) (Platform.rlpUint i)
    (by rw [hlookup]; exact hproofs.receipt _)
  obtain ⟨k, hk⟩ := List.getElem?_of_mem hb
  have hat : n.blockAt (k + 1) = some b := by
    rw [RpcNode.blockAt, if_neg (Nat.succ_ne_zero k), Nat.add_sub_cancel, hk]
  obtain ⟨recorded, hrecorded, -, hof⟩ := h.recorded (k + 1) b hat hsome hnodes
  rw [RpcNode.trieCommitByRoot]
  cases hfind : n.trieCommits.reverse.find? fun commit => toLower commit.root =
      toLower (hexString (Platform.trieRoot (receiptTrie cfg b.transactions))) with
  | none =>
      have hnone := List.find?_eq_none.mp hfind recorded
        (List.mem_reverse.mpr (List.mem_of_mem_filter hrecorded))
      rw [hof.root] at hnone
      simp at hnone
  | some c =>
      have hmem := List.mem_reverse.mp (List.mem_of_find?_eq_some hfind)
      have hlower : toLower c.root = toLower b.receiptRoot := by
        rw [hroot]
        simpa using List.find?_some hfind
      have hkind := hcollision.kinds c hmem b hb hsome hlower
      obtain ⟨b', hb', hroot', hof'⟩ := h.commits c (List.mem_filter.mpr ⟨hmem, by simpa using hkind⟩)
      have hsame : b.receiptRoot = b'.receiptRoot := by
        rw [hof'.root, toLower_hexString, hroot, toLower_hexString] at hlower
        rw [← hroot', hof'.root, hlower, hroot]
      have hreceipts := hcollision.receipts b hb b' (ChainOk.mem_of_blockAt hb') hsame
      refine ⟨c, rfl, ?_⟩
      rw [receiptTrie, hreceipts]
      exact hof'

/-- The check against the recorded trie accepts the receipt. -/
theorem verifyReceiptInTrie_valid (hproofs : TrieProofs.Complete) (h : ReceiptsOk cfg n)
    (hcollision : n.NoCollision cfg) (hb : b ∈ n.blocks) (htx : b.transactions[i]? = some tx)
    (hi : i < 2 ^ 64) (hfor : ReceiptFor cfg b i tx r) {request : ReceiptRequest}
    (hroot : request.receiptRoot = .str b.receiptRoot)
    (hindex : request.transactionIndex = .str (toHex i))
    (hreceipt : request.receipt = .object (.ok r)) :
    (n.verifyReceiptInTrie request).valid = true := by
  have hmem := List.mem_of_getElem? htx
  have hlookup := lookupLast_receiptTrie hproofs.uint cfg htx
  have hvalue := hproofs.receipt (consensusReceipt cfg tx)
  obtain ⟨c, hc, hof⟩ := trieCommitByRoot_receipts hproofs h hcollision hb htx
  obtain ⟨db, hdb, hverify⟩ := (hproofs.nodes (receiptTrie cfg b.transactions) (Platform.rlpUint i)
    (by rw [hlookup]; exact hvalue)).2 c hof
  have hhash : hexToHash (Value.str b.receiptRoot).sprint =
      Platform.trieRoot (receiptTrie cfg b.transactions) := by
    rw [Value.sprint, h.root b hb (List.ne_nil_of_mem hmem), hexToHash_hexString (hproofs.root _)]
  have hquantity : quantityFromInterface (.str (toHex i)) = i := quantity64_toHex hi
  have hname : r.transactionHash ≠ "" := by
    rw [hfor.transactionHash]
    exact h.named b hb tx hmem
  rw [RpcNode.verifyReceiptInTrie, hroot, hindex, hreceipt, hhash, hquantity, hc]
  dsimp only
  rw [hdb]
  dsimp only
  rw [provenReceipt, hverify, hlookup]
  dsimp only
  rw [if_neg hvalue, receiptFromInterface, if_neg hname]
  dsimp only
  rw [hfor.consensus, decide_eq_true_eq]

/-- **Receipts are proved.** In a run whose transactions and blocks have hashes of their own, each
transaction of the chain has its receipt in the map, the receipt proof gives the root of its
block, and both checks accept it.  An index is below `2 ^ 63`, as the length of a slice is. -/
theorem receiptProof_of_receiptStep (hproofs : TrieProofs.Complete)
    (h : ReachableBy cfg (ReceiptStep cfg) n) (hcollision : n.NoCollision cfg) {k : ℕ}
    (hb : n.blockAt k = some b) (htx : b.transactions[i]? = some tx) (hi : i < 2 ^ 63) :
    ∃ r p, n.receipts.get? (toLower tx.hash) = some r ∧ r.blockHash = b.hash ∧
      r.transactionIndex = toHex i ∧ n.receiptProof tx.hash = .ok p ∧ p.receipt = r ∧
      p.receiptRoot = b.receiptRoot ∧ (verifyReceiptProof p.toRequest).valid = true ∧
      (n.verifyReceiptInTrie p.toRequest).valid = true := by
  obtain ⟨-, hreceipts⟩ := h.receiptsOk
  have hmem := ChainOk.mem_of_blockAt hb
  obtain ⟨r, hr, hfor⟩ := hreceipts.entry b hmem i tx htx
  obtain ⟨proof, hprove, hproof⟩ := receiptProof_eq hproofs hreceipts hmem htx (by omega) hr hfor
  refine ⟨r, _, hr, hfor.blockHash, hfor.transactionIndex, hproof, rfl, rfl, ?_, ?_⟩
  · exact verifyReceiptProof_valid hproofs hreceipts hmem htx (by omega) hfor hprove rfl rfl rfl rfl
  · exact verifyReceiptInTrie_valid hproofs hreceipts hcollision hmem htx (by omega) hfor rfl rfl rfl

end Verify

/-! ## A raw transaction sent once -/

section Once
variable {fresh n : RpcNode} {ω : Choices} {rawTx : String}

/-- A fresh node that mines a raw transaction: the node before it is mined. -/
theorem next_sendRaw (hfresh : fresh = newRPCNode {} ω {})
    (hn : n = fresh.next {} ω (.sendRawTransaction rawTx)) :
    n = (RpcNode.minePendingBlock { fresh with pendingTxs := [RpcNode.txOfRaw (ω.call 0) rawTx] } {}
      (ω.call 1)).2 := by
  obtain ⟨ω₁, l, timestamp, heq, -⟩ := newRPCNode_fresh {} ω
  have hempty : fresh.pendingTxs = [] := by rw [hfresh, heq]
  rw [hn, RpcNode.next, RpcNode.addRawTransaction, RpcNode.enqueue_of_empty rfl hempty]

theorem receiptStep_sendRaw (h : ∀ b : Bytes, (Platform.sha256 b).headD 0 = b.headD 0)
    (hfresh : fresh = newRPCNode {} ω {}) (rawTx : String) :
    ReachableBy {} (ReceiptStep {}) (fresh.next {} ω (.sendRawTransaction rawTx)) := by
  have hchain : ChainOk fresh := hfresh ▸ chainOk_fresh {} ω
  have hreach : ReachableBy {} (ReceiptStep {}) fresh := hfresh ▸ ⟨ω, .refl⟩
  have hnext := @next_sendRaw _ fresh _ ω rawTx hfresh rfl
  obtain ⟨ω₁, l, timestamp, heq, -⟩ := newRPCNode_fresh {} ω
  rw [heq] at hfresh
  have hempty : fresh.pendingTxs = [] := by rw [hfresh]
  have hblocks : fresh.blocks = [freshGenesis ω] := by rw [hfresh]
  have hkeys : fresh.receiptKeys = [] := by
    rw [RpcNode.receiptKeys, hblocks]
    rfl
  have hexecuted : fresh.executed {} ω (.sendRawTransaction rawTx) =
      [RpcNode.txOfRaw (ω.call 0) rawTx] := by
    rw [RpcNode.executed, if_pos rfl, hempty]
    rfl
  refine hreach.next ⟨?_, ?_, ?_, fun ω' _ _ => ?_, fun block hblock => by cases hblock⟩ ?_
  · rw [hexecuted]
    exact List.nodup_singleton _
  · intro tx _
    rw [hkeys]
    exact List.not_mem_nil
  · intro tx htx
    rw [hexecuted, List.mem_singleton] at htx
    rw [htx]
    exact hashHex_ne_empty _
  · rw [hblocks, List.map_singleton, List.mem_singleton, RpcNode.nextBlockHash, blockHash,
      toLower_hashHex]
    show _ ≠ toLower (hashHex _)
    rw [toLower_hashHex]
    exact blockHash_ne_genesis h _ _ _ _
  · have hqueued : ChainOk { fresh with pendingTxs := [RpcNode.txOfRaw (ω.call 0) rawTx] } :=
      hchain.of_eq rfl rfl rfl rfl rfl
    have hheight : fresh.height = 1 := by rw [hfresh]
    have hlt : fresh.height + 1 < 2 ^ 63 := by rw [hheight]; decide
    rw [hnext]
    exact (mined_of_height_lt hqueued hlt {} (ω.call 1)).1

/-- The tries that are committed are those of the receipts and of some states. -/
theorem commits_sendRaw (hfresh : fresh = newRPCNode {} ω {})
    (hn : n = fresh.next {} ω (.sendRawTransaction rawTx)) {c : TrieCommitRecord}
    (hc : c ∈ n.trieCommits) : c.kind = "receipts" ∨ ∃ w, c.root = stateTrieRoot w := by
  obtain ⟨tx, htx⟩ : ∃ tx, tx = RpcNode.txOfRaw (ω.call 0) rawTx := ⟨_, rfl⟩
  obtain ⟨queued, hqueued⟩ : ∃ q : RpcNode, q = { fresh with pendingTxs := [tx] } := ⟨_, rfl⟩
  rw [next_sendRaw hfresh hn, ← htx, ← hqueued] at hc
  obtain ⟨ω₁, l, timestamp, heq, hl⟩ := newRPCNode_fresh {} ω
  rw [hfresh, heq] at hqueued
  have hmined : (queued.minePendingTxs {} (ω.call 1)).2.2.trieCommits = l ∧
      (queued.minePendingTxs {} (ω.call 1)).2.2.world.storage = ∅ := by
    rw [hqueued, htx]
    exact ⟨rfl, rfl⟩
  obtain ⟨mined, hmined'⟩ : ∃ m : RpcNode, m =
      { (queued.minePendingTxs {} (ω.call 1)).2.2 with height := u64 (queued.height + 1) } := ⟨_, rfl⟩
  have hcommits : (queued.minePendingBlock {} (ω.call 1)).2.trieCommits =
      (RpcNode.computeReceiptTrieRoot (mined.computeStateTrieRoot ((ω.call 1).call 2)).2
        ((ω.call 1).call 3) (queued.minePendingTxs {} (ω.call 1)).2.1).2.trieCommits := by
    rw [hmined']
    rfl
  rw [hcommits] at hc
  rcases RpcNode.root_of_mem_persistTrieNodes hc with hc | hc
  · rw [mined.computeStateTrieRoot_of_empty (by rw [hmined']; exact hmined.2)] at hc
    rcases RpcNode.root_of_mem_persistTrieNodes hc with hc | hc
    · have hmem : c ∈ l := by
        rw [← hmined.1]
        rw [hmined'] at hc
        exact hc
      exact .inr ⟨_, (hl c hmem).2.1.trans (stateRoot_freshGenesis ω)⟩
    · exact .inr ⟨_, hc.1⟩
  · exact .inl hc.2

/-- A fresh node that mines one transaction: the two blocks and the receipt. -/
theorem blocks_mineOne (hfresh : fresh = newRPCNode {} ω {}) (tx : TxRecord) (ω₁ : Choices) :
    let mined := RpcNode.minePendingBlock { fresh with pendingTxs := [tx] } {} ω₁
    ∃ hash number r, mined.2.blocks = [freshGenesis ω, mined.1] ∧
      mined.1.transactions = [RpcNode.minedTx tx hash number 0] ∧
      mined.1.receiptRoot = hexString (Platform.trieRoot (receiptTrie {} mined.1.transactions)) ∧
      mined.2.receipts.get? (toLower tx.hash) = some r ∧
      ReceiptFor {} mined.1 0 (RpcNode.minedTx tx hash number 0) r := by
  intro mined
  have hchain : ChainOk fresh := hfresh ▸ chainOk_fresh {} ω
  have hreceipts : ReceiptsOk {} fresh := hfresh ▸ receiptsOk_fresh {} ω
  obtain ⟨ω₂, l, timestamp, heq, -⟩ := newRPCNode_fresh {} ω
  rw [heq] at hfresh
  have hblocks : fresh.blocks = [freshGenesis ω] := by rw [hfresh]
  obtain ⟨queued, hqueued⟩ : ∃ q : RpcNode, q = { fresh with pendingTxs := [tx] } := ⟨_, rfl⟩
  have hmined : mined = queued.minePendingBlock {} ω₁ := by rw [hqueued]
  have hqchain : ChainOk queued := hqueued ▸ hchain.of_eq rfl rfl rfl rfl rfl
  have hqreceipts : ReceiptsOk {} queued := hqueued ▸ hreceipts.of_eq rfl rfl rfl
  have hqblocks : queued.blocks = [freshGenesis ω] := by rw [hqueued]; exact hblocks
  have hqpending : queued.pendingTxs = [tx] := by rw [hqueued]
  clear_value mined
  obtain ⟨hext, ⟨receipts, hrecorded, hfor⟩, hroot, -⟩ : Extended {} queued _ _ :=
    minePendingBlock_extended (ω := ω₁) hqchain fun c => hqreceipts.height_le hqchain
  have htxs := queued.minePendingBlock_transactions {} ω₁
  rw [← hmined] at hext hrecorded hfor hroot htxs
  rw [hqpending] at htxs
  obtain ⟨r, hr, hrfor⟩ := hfor 0 _ (by rw [htxs]; rfl)
  refine ⟨_, _, r, by rw [hext, hqblocks]; rfl, htxs, hroot, ?_, hrfor⟩
  rw [hrecorded]
  rw [htxs]
  exact @RpcNode.get?_recordReceipts _ _ [_] receipts (List.nodup_singleton _) 0
    (RpcNode.minedTx tx _ _ 0) r rfl hr

/-- The two blocks of the node. -/
theorem blocks_sendRaw (hfresh : fresh = newRPCNode {} ω {})
    (hn : n = fresh.next {} ω (.sendRawTransaction rawTx)) :
    ∃ b tx, n.blocks = [freshGenesis ω, b] ∧ b.transactions = [tx] ∧ tx.hash = hashHex (utf8 rawTx) ∧
      b.receiptRoot = hexString (Platform.trieRoot (receiptTrie {} [tx])) := by
  have hnext := next_sendRaw hfresh hn
  obtain ⟨hash, number, -, hblocks, htxs, hroot, -⟩ := blocks_mineOne hfresh
    (RpcNode.txOfRaw (ω.call 0) rawTx) (ω.call 1)
  rw [← hnext] at hblocks
  exact ⟨_, _, hblocks, htxs, rfl, htxs ▸ hroot⟩

theorem noCollision_sendRaw
    (hstate : ∀ w tx, Platform.trieRoot (buildStateTrieFromSnapshot w) ≠
      Platform.trieRoot (receiptTrie {} [tx]))
    (hzero : ∀ tx, hexString (Platform.trieRoot (receiptTrie {} [tx])) ≠ zeroHash)
    (hfresh : fresh = newRPCNode {} ω {})
    (hn : n = fresh.next {} ω (.sendRawTransaction rawTx)) : n.NoCollision {} := by
  obtain ⟨block, tx, hblocks, htxs, -, hroot⟩ := blocks_sendRaw hfresh hn
  constructor
  · intro c hc b hb hsome hlower
    rw [hblocks] at hb
    rcases List.mem_cons.mp hb with rfl | hb
    · exact absurd rfl hsome
    · rw [List.mem_singleton.mp hb, hroot] at hlower
      rcases commits_sendRaw hfresh hn hc with hkind | ⟨w, hw⟩
      · exact hkind
      · rw [hw, stateTrieRoot, toLower_hexString, toLower_hexString] at hlower
        exact absurd (hexString_injective hlower) (hstate w tx)
  · have hne : (freshGenesis ω).receiptRoot ≠ block.receiptRoot := by
      rw [hroot]
      exact (hzero tx).symm
    intro b hb b' hb' heq
    rw [hblocks, List.mem_cons, List.mem_singleton] at hb hb'
    rcases hb with rfl | rfl <;> rcases hb' with rfl | rfl
    · rfl
    · exact absurd heq hne
    · exact absurd heq.symm hne
    · rfl

end Once

omit [Platform] in
theorem firstHash_listUpdates_ne {key value b : Bytes} {t : Trie} (h : key.length = 32) :
    firstHash (listUpdates ((key, value) :: t)) ≠ 1 :: 1 :: 0 :: b := by
  match key, h with
  | x :: y :: key, _ =>
      intro heq
      have htail : (1 : UInt8) :: _ = 0 :: b := (List.cons.inj (List.cons.inj heq).2).2
      exact absurd (List.cons.inj htail).1 (by decide)

omit [Platform] in
/-- The roots of the one blob tell the tries of states and of receipts apart: a key of the first
has 32 bytes, the first key of the second has one. -/
theorem trieRoot_oneBlob (tx : TxRecord) :
    letI := Platform.oneBlob
    (∃ b, Platform.trieRoot (receiptTrie {} [tx]) = 1 :: b) ∧
      ∀ w, Platform.trieRoot (buildStateTrieFromSnapshot w) ≠
        Platform.trieRoot (receiptTrie {} [tx]) := by
  refine ⟨⟨_, rfl⟩, fun w heq => ?_⟩
  obtain ⟨b, hb⟩ : ∃ b, firstHash (listUpdates (@receiptTrie Platform.oneBlob {} [tx])) =
      1 :: 1 :: 0 :: b := ⟨_, rfl⟩
  have hroot := heq.trans hb
  rw [@buildStateTrieFromSnapshot.eq_def Platform.oneBlob] at hroot
  cases haccounts : @sortedSnapshotAccounts Platform.oneBlob w with
  | nil =>
      rw [haccounts] at hroot
      exact absurd (List.cons.inj hroot).1 (by decide)
  | cons a accounts =>
      rw [haccounts] at hroot
      exact firstHash_listUpdates_ne (length_firstHash (hexToAddress a)) hroot

omit [Platform] in
theorem receiptProof_of_sendRaw :
    letI := Platform.oneBlob
    letI := TrieProofs.oneBlob
    let n := (newRPCNode {} default {}).next {} default (.sendRawTransaction "0x01")
    ∃ b r p, n.blockAt 2 = some b ∧ n.receipts.get? (toLower (hashHex (utf8 "0x01"))) = some r ∧
      n.receiptProof (hashHex (utf8 "0x01")) = .ok p ∧ p.receiptRoot = b.receiptRoot ∧
      (verifyReceiptProof p.toRequest).valid = true ∧
      (n.verifyReceiptInTrie p.toRequest).valid = true := by
  obtain ⟨b, tx, hblocks, htxs, hhash, -⟩ := @blocks_sendRaw Platform.oneBlob _ _ default "0x01" rfl rfl
  have hcollision := @noCollision_sendRaw Platform.oneBlob _ _ default "0x01"
    (fun w tx => (trieRoot_oneBlob tx).2 w) (fun tx => by
      obtain ⟨b, hb⟩ := (trieRoot_oneBlob tx).1
      rw [hb]
      exact hexString_one_ne_zeroHash b) rfl rfl
  have hstep := @receiptStep_sendRaw Platform.oneBlob _ default (fun _ => rfl) rfl "0x01"
  obtain ⟨r, p, hr, -, -, hproof, -, hroot, hvalid, hvalid'⟩ := @receiptProof_of_receiptStep
    Platform.oneBlob TrieProofs.oneBlob _ _ b 0 tx complete_oneBlob hstep hcollision 2
    (by rw [RpcNode.blockAt, hblocks]; rfl) (by rw [htxs]; rfl) (by decide)
  rw [hhash] at hr hproof
  exact ⟨b, r, p, by rw [RpcNode.blockAt, hblocks]; rfl, hr, hproof, hroot, hvalid, hvalid'⟩

/-! ## A raw transaction sent twice -/

section Twice
variable {n : RpcNode} {ω : Choices}

/-- Two transactions of one hash in a block leave the receipt of the second. -/
theorem get?_receipts_of_two {cfg : Config} (hchain : ChainOk n)
    (hcommits : ∀ c ∈ n.receiptCommits, c.height ≤ n.height) {tx tx' : TxRecord}
    (hpending : n.pendingTxs = [tx, tx']) (hhash : tx.hash = tx'.hash) :
    ∃ block r, (n.minePendingBlock cfg ω).2.blocks = n.blocks ++ [block] ∧
      block.transactions.map (·.hash) = [tx.hash, tx.hash] ∧
      (n.minePendingBlock cfg ω).2.receipts.get? (toLower tx.hash) = some r ∧
      r.transactionIndex = toHex 1 := by
  have hext : Extended cfg n (n.minePendingBlock cfg ω).2 (n.minePendingBlock cfg ω).1 :=
    minePendingBlock_extended hchain hcommits
  have htxs := n.minePendingBlock_transactions cfg ω
  rw [hpending] at htxs
  obtain ⟨receipts, hreceipts, hfor⟩ := hext.receipts
  obtain ⟨r, hr, -⟩ := hfor 0 _ (by rw [htxs]; rfl)
  obtain ⟨r', hr', hrfor⟩ := hfor 1 _ (by rw [htxs]; rfl)
  obtain ⟨rest, hrest⟩ : ∃ rest, receipts = r :: r' :: rest := by
    match receipts, hr, hr' with
    | _ :: _ :: rest, rfl, rfl => exact ⟨rest, rfl⟩
  refine ⟨_, r', hext.blocks, ?_, ?_, hrfor.transactionIndex⟩
  · rw [htxs, hhash]
    exact congrArg (fun h => [h, tx'.hash]) hhash
  · rw [hreceipts, htxs, hrest, hhash]
    exact FinMap.get?_insert_self _ _ _

theorem queue_sendRaw_twice {fresh n₁ n₂ : RpcNode} {rawTx : String}
    (hfresh : fresh = newRPCNode manualMining ω {})
    (hn₁ : n₁ = fresh.next manualMining ω (.sendRawTransaction rawTx))
    (hn₂ : n₂ = n₁.next manualMining ω (.sendRawTransaction rawTx)) :
    Reachable manualMining (n₂.next manualMining ω .mineBlock) ∧
    ∃ b tx r, (n₂.next manualMining ω .mineBlock).blockAt 2 = some b ∧
      b.transactions[0]? = some tx ∧
      (n₂.next manualMining ω .mineBlock).receipts.get? (toLower tx.hash) = some r ∧
      r.transactionIndex = toHex 1 := by
  have hreach : Reachable manualMining fresh := ⟨ω, hfresh ▸ .refl⟩
  have hreceipts : ReceiptsOk manualMining fresh := hfresh ▸ receiptsOk_fresh manualMining ω
  have hchain : ChainOk fresh := hfresh ▸ chainOk_fresh manualMining ω
  obtain ⟨ω₁, l, timestamp, heq, -⟩ := newRPCNode_fresh manualMining ω
  rw [heq] at hfresh
  have hempty : fresh.pendingTxs = [] := by rw [hfresh]
  have hblocks : fresh.blocks = [freshGenesis ω] := by rw [hfresh]
  have heq₁ := hn₁.trans (queue_sendRaw fresh ω rawTx)
  have heq₂ := hn₂.trans (queue_sendRaw n₁ ω rawTx)
  have hblocks₁ : n₁.blocks = [freshGenesis ω] := by rw [heq₁]; exact hblocks
  have hblocks₂ : n₂.blocks = [freshGenesis ω] := by rw [heq₂]; exact hblocks₁
  have hchain₁ : ChainOk n₁ := heq₁ ▸ hchain.of_eq rfl rfl rfl rfl rfl
  have hchain₂ : ChainOk n₂ := heq₂ ▸ hchain₁.of_eq rfl rfl rfl rfl rfl
  have hreceipts₁ : ReceiptsOk manualMining n₁ := heq₁ ▸ hreceipts.of_eq rfl rfl rfl
  have hreceipts₂ : ReceiptsOk manualMining n₂ := heq₂ ▸ hreceipts₁.of_eq rfl rfl rfl
  have hpending₁ : n₁.pendingTxs = [RpcNode.txOfRaw (ω.call 0) rawTx] := by
    rw [heq₁]
    exact congrArg (· ++ [RpcNode.txOfRaw (ω.call 0) rawTx]) hempty
  have hpending₂ : n₂.pendingTxs =
      [RpcNode.txOfRaw (ω.call 0) rawTx, RpcNode.txOfRaw (ω.call 0) rawTx] := by
    rw [heq₂]
    exact congrArg (· ++ [RpcNode.txOfRaw (ω.call 0) rawTx]) hpending₁
  obtain ⟨block, r, hmined, hhashes, hr, hindex⟩ := @get?_receipts_of_two _ n₂ ω manualMining
    hchain₂ (fun c => hreceipts₂.height_le hchain₂) _ _ hpending₂ rfl
  have hlen : ∀ m : RpcNode, m.blocks = [freshGenesis ω] → m.blocks.length < 2 ^ 63 := by
    intro m hm
    rw [hm, List.length_singleton]
    decide
  have hreach₁ : Reachable manualMining n₁ := hn₁ ▸ hreach.next trivial (hn₁ ▸ hlen n₁ hblocks₁)
  have hreach₂ : Reachable manualMining n₂ := hn₂ ▸ hreach₁.next trivial (hn₂ ▸ hlen n₂ hblocks₂)
  refine ⟨hreach₂.next trivial ?_, ?_⟩
  · show (n₂.minePendingBlock manualMining ω).2.blocks.length < 2 ^ 63
    rw [hmined, hblocks₂, List.length_append, List.length_singleton, List.length_singleton]
    decide
  · match htxs : block.transactions with
    | [] => rw [htxs] at hhashes; cases hhashes
    | tx :: txs =>
        rw [htxs] at hhashes
        have htx : tx.hash = (RpcNode.txOfRaw (ω.call 0) rawTx).hash := (List.cons.inj hhashes).1
        refine ⟨block, tx, r, ?_, by rw [htxs]; rfl, by rw [htx]; exact hr, hindex⟩
        show RpcNode.blockAt (n₂.minePendingBlock manualMining ω).2 2 = _
        rw [RpcNode.blockAt, hmined, hblocks₂]
        rfl

end Twice

omit [Platform] in
/-- **A receipt replaced.** A raw transaction that waits twice for one block gets one receipt, that
of the second: the first transaction of the block has the receipt of the other index. -/
theorem rawTransaction_replaces_receipt :
    letI := Platform.oneBlob
    letI := TrieProofs.oneBlob
    let n₁ := (newRPCNode manualMining default {}).next manualMining default
      (.sendRawTransaction "0x01")
    let n₂ := n₁.next manualMining default (.sendRawTransaction "0x01")
    let n := n₂.next manualMining default .mineBlock
    TrieProofs.Complete ∧ Reachable manualMining n ∧
      ∃ b tx r, n.blockAt 2 = some b ∧ b.transactions[0]? = some tx ∧
        n.receipts.get? (toLower tx.hash) = some r ∧ r.transactionIndex ≠ toHex 0 := by
  obtain ⟨hreach, b, tx, r, hb, htx, hr, hindex⟩ := @queue_sendRaw_twice Platform.oneBlob default _ _ _
    "0x01" rfl rfl rfl
  refine ⟨complete_oneBlob, hreach, b, tx, r, hb, htx, hr, ?_⟩
  rw [hindex]
  intro heq
  have hquantity := congrArg quantity64 heq
  rw [quantity64_toHex (by decide), quantity64_toHex (by decide)] at hquantity
  exact one_ne_zero hquantity

end BhtBhte.Node
