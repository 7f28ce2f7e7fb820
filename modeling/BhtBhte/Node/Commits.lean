import BhtBhte.Node.Receipts
import BhtBhte.Node.Validators

/-!
# The commits of the chain's roots

Mining commits the state trie and the receipt trie at the height of the new block.  An import
commits the receipt trie only: it hashes the state trie without a commit.  A state commit at the
height of an imported block is left by an anchor call in it, at the root of the accounts so far.
`committed_of_commitStep`: in runs whose imported blocks have one, every block after genesis is
committed.
-/
namespace BhtBhte.Node
open BhtBhte.Lib
variable [Platform]

/-! ## Tries with nodes -/

/-- What the trie and RLP packages promise of commits: encodings are not empty, and a trie that
holds a value has nodes to commit. -/
structure CommitsNodes : Prop where
  account : ∀ a, Platform.rlpAccount a ≠ []
  receipt : ∀ r, Platform.rlpReceipt r ≠ []
  nodes : ∀ t key, lookupLast t key ≠ [] → (Platform.trieNodes t).isSome = true

/-- Updates with values leave a trie with nodes. -/
theorem CommitsNodes.of_values (h : CommitsNodes) {t : Trie} (hne : t ≠ [])
    (hvalues : ∀ e ∈ t, e.2 ≠ []) : (Platform.trieNodes t).isSome = true := by
  obtain ⟨e, rest, ht⟩ := List.exists_cons_of_ne_nil (List.reverse_ne_nil_iff.mpr hne)
  have hlast : lookupLast t e.1 = e.2 := by
    rw [lookupLast, ht, List.find?_cons, decide_eq_true rfl]
    rfl
  refine h.nodes t e.1 (hlast ▸ hvalues e (List.mem_reverse.mp ?_))
  rw [ht]
  exact List.mem_cons_self

/-- Some account is listed under an address. -/
def World.HasAccount (w : World) : Prop :=
  ∃ k ∈ w.balances.keys, isHexAddress (normalizeAddress k) = true

namespace World.HasAccount
variable {w : World}

theorem copy (h : w.HasAccount) (ω : Choices) : (w.copy ω).HasAccount := by
  obtain ⟨k, hk, hhex⟩ := h
  refine ⟨normalizeAddress k, FinMap.mem_keys_rekey normalizeAddress (FinMap.range_perm _ _) hk, ?_⟩
  rwa [normalizeAddress_normalizeAddress]

theorem transfer (h : w.HasAccount) (tx : TxRecord) : (w.transfer tx).HasAccount := by
  obtain ⟨k, hk, hhex⟩ := h
  refine ⟨k, ?_, hhex⟩
  rw [World.transfer]
  split
  · refine FinMap.mem_keys_insert.mpr (.inr ?_)
    show k ∈ (w.debit tx.sender (parseQuantity tx.value)).balances.keys
    rw [World.debit]
    split
    · exact FinMap.mem_keys_insert.mpr (.inr hk)
    · exact hk
  · exact hk

theorem apply (h : w.HasAccount) (bridgeAddress : String) (tx : TxRecord) :
    (w.apply bridgeAddress tx).HasAccount := by
  have hbalances : (w.apply bridgeAddress tx).balances = (w.transfer tx).balances := by
    rw [World.apply, World.execute]
    split
    · rfl
    · split
      · rfl
      · split
        · rw [World.executeSimpleStorageCall]
          split <;> rfl
        · rfl
  rw [World.HasAccount, hbalances]
  exact h.transfer tx

theorem foldl (h : w.HasAccount) (bridgeAddress : String) (txs : List TxRecord) :
    (txs.foldl (World.apply · bridgeAddress ·) w).HasAccount := by
  induction txs generalizing w with
  | nil => exact h
  | cons tx txs ih => exact ih (h.apply bridgeAddress tx)

theorem nodes (h : w.HasAccount) (hnodes : CommitsNodes) :
    (Platform.trieNodes (buildStateTrieFromSnapshot w)).isSome = true := by
  obtain ⟨k, hk, hhex⟩ := h
  have hlisted : normalizeAddress k ∈ sortedSnapshotAccounts w := by
    refine mem_sortedAddresses.mpr ⟨hhex, k, ?_, rfl⟩
    simp only [List.mem_append]
    exact .inl (.inl (.inl hk))
  refine hnodes.of_values ?_ fun e he => ?_
  · rw [buildStateTrieFromSnapshot]
    exact List.ne_nil_of_mem (List.mem_map_of_mem hlisted)
  · rw [buildStateTrieFromSnapshot] at he
    obtain ⟨a, -, rfl⟩ := List.mem_map.mp he
    exact hnodes.account _

end World.HasAccount

theorem hasAccount_freshWorld (cfg : Config) : (freshWorld cfg).HasAccount := by
  refine ⟨defaultAccount, mem_keys_freshWorld.mpr (.inr rfl), ?_⟩
  rw [normalizeAddress_defaultAccount]
  exact isHexAddress_defaultAccount

/-! ## What execution commits -/

/-- Every recorded root is a hash in hexadecimal. -/
def HexRoots (n : RpcNode) : Prop := ∀ c ∈ n.trieCommits, ∃ b : Bytes, c.root = hexString b

/-- Commits are only added, under hashes in hexadecimal. -/
structure MoreCommits (n n' : RpcNode) : Prop where
  kept : ∀ c ∈ n.trieCommits, c ∈ n'.trieCommits
  hex : ∀ c ∈ n'.trieCommits, c ∈ n.trieCommits ∨ ∃ b : Bytes, c.root = hexString b

namespace MoreCommits
variable {n n' n'' : RpcNode}

omit [Platform] in
theorem of_eq (h : n'.trieCommits = n.trieCommits) : MoreCommits n n' :=
  ⟨fun _ hc => h ▸ hc, fun _ hc => .inl (h ▸ hc)⟩

omit [Platform] in
theorem trans (h : MoreCommits n n') (h' : MoreCommits n' n'') : MoreCommits n n'' :=
  ⟨fun c hc => h'.kept c (h.kept c hc), fun c hc => (h'.hex c hc).elim (h.hex c) .inr⟩

omit [Platform] in
theorem hexRoots (h : MoreCommits n n') (hroots : HexRoots n) : HexRoots n' :=
  fun c hc => (h.hex c hc).elim (hroots c) id

end MoreCommits

/-- A commit of this kind, root and height is recorded. -/
def RpcNode.HasCommit (n : RpcNode) (kind root : String) (height : ℕ) : Prop :=
  ∃ c ∈ n.trieCommits, c.kind = kind ∧ c.root = root ∧ c.height = height

omit [Platform] in
theorem RpcNode.HasCommit.more {n n' : RpcNode} {kind root : String} {height : ℕ}
    (h : n.HasCommit kind root height) (hmore : MoreCommits n n') :
    n'.HasCommit kind root height := by
  obtain ⟨c, hc, hcommit⟩ := h
  exact ⟨c, hmore.kept c hc, hcommit⟩

namespace RpcNode
variable {cfg : Config} {ω : Choices} {n : RpcNode} {tx : TxRecord} {blockHash : String}
  {blockNumber index : ℕ}

theorem persistTrieNodes_more (n : RpcNode) (ω : Choices) (b : Bytes) (kind : String) (height : ℕ)
    (nodes : Option (List TrieNode)) :
    MoreCommits n (n.persistTrieNodes ω (hexString b) kind height nodes) := by
  refine ⟨fun c hc => ?_, fun c hc => ?_⟩
  · rw [persistTrieNodes.eq_def]
    split
    · exact hc
    · split
      · exact hc
      · exact List.mem_append_left _ hc
  · exact (root_of_mem_persistTrieNodes hc).imp id fun hnew => ⟨b, hnew.1⟩

/-- Committing a trie with nodes leaves a commit of its root, a new one or an old one. -/
theorem hasCommit_persistTrieNodes (hroots : HexRoots n) {nodes : Option (List TrieNode)}
    (hnodes : nodes.isSome = true) (ω : Choices) (b : Bytes) (kind : String) (height : ℕ) :
    (n.persistTrieNodes ω (hexString b) kind height nodes).HasCommit kind (hexString b) height := by
  obtain ⟨nodes, rfl⟩ := Option.isSome_iff_exists.mp hnodes
  rw [persistTrieNodes]
  split
  · next hold =>
      obtain ⟨c, hc, heq⟩ := List.any_eq_true.mp hold
      simp only [Bool.and_eq_true, decide_eq_true_eq] at heq
      obtain ⟨⟨hfold, hkind⟩, hheight⟩ := heq
      obtain ⟨b', hb'⟩ := hroots c hc
      rw [hb'] at hfold
      exact ⟨c, hc, hkind, by rw [hb', eq_of_equalFold_hexString hfold], hheight⟩
  · exact ⟨_, List.mem_append_right _ (List.mem_singleton_self _), rfl, rfl, rfl⟩

theorem persistStorageTries_more (ω : Choices) (accounts : List String) :
    MoreCommits n (n.persistStorageTries ω accounts) := by
  induction accounts generalizing n ω with
  | nil => exact .of_eq rfl
  | cons account accounts ih =>
      rw [persistStorageTries]
      split
      · exact ih _
      · exact (persistTrieNodes_more n _ _ _ _ _).trans (ih _)

theorem computeStateTrieRoot_more (n : RpcNode) (ω : Choices) :
    MoreCommits n (n.computeStateTrieRoot ω).2 :=
  (persistStorageTries_more (ω.call 0) n.sortedAccounts).trans (persistTrieNodes_more _ _ _ _ _ _)

/-- Computing the state root commits it at the height of the node. -/
theorem hasCommit_computeStateTrieRoot (hroots : HexRoots n) (hnodes : CommitsNodes)
    (haccount : n.world.HasAccount) (ω : Choices) :
    (n.computeStateTrieRoot ω).2.HasCommit "state" (n.computeStateTrieRoot ω).1 n.height := by
  have hmore := persistStorageTries_more (n := n) (ω.call 0) n.sortedAccounts
  obtain ⟨l, hl, -⟩ := n.persistStorageTries_eq (ω.call 0) n.sortedAccounts
  rw [computeStateTrieRoot]
  rw [hl] at hmore ⊢
  exact hasCommit_persistTrieNodes (hmore.hexRoots hroots) ((haccount.copy _).nodes hnodes) _ _ _ _

theorem computeReceiptTrieRoot_more (n : RpcNode) (ω : Choices) (receipts : List ReceiptRecord) :
    MoreCommits n (n.computeReceiptTrieRoot ω receipts).2 :=
  persistTrieNodes_more _ _ _ _ _ _

theorem hasCommit_computeReceiptTrieRoot (hroots : HexRoots n) (hnodes : CommitsNodes)
    {receipts : List ReceiptRecord} (hne : receipts ≠ []) (ω : Choices) :
    (n.computeReceiptTrieRoot ω receipts).2.HasCommit "receipts" (receiptTrieRoot receipts)
      n.height := by
  refine hasCommit_persistTrieNodes hroots (hnodes.of_values ?_ fun e he => ?_) _ _ _ _
  · rw [buildReceiptTrie, Ne, List.mapIdx_eq_nil_iff]
    exact hne
  · rw [buildReceiptTrie] at he
    obtain ⟨i, hi, rfl⟩ := List.mem_mapIdx.mp he
    exact hnodes.receipt _

theorem bridgeWithdrawal_trieCommits :
    (n.bridgeWithdrawal cfg ω tx).trieCommits = n.trieCommits := by
  rw [bridgeWithdrawal]
  split
  · exact initiateWithdrawal_trieCommits _
  · rfl

theorem bridgeAnchor_more : MoreCommits n (n.bridgeAnchor ω tx blockHash blockNumber) := by
  rw [bridgeAnchor]
  split
  · exact (n.computeStateTrieRoot_more (ω.call 0)).trans (.of_eq (submitAnchor_trieCommits _))
  · exact .of_eq rfl

theorem applyMinedTransaction_more :
    MoreCommits n (n.applyMinedTransaction cfg ω tx blockHash blockNumber index).2.2 := by
  let m : RpcNode := { n with world := n.world.transfer tx }
  have hexec : MoreCommits m (m.executeTransaction cfg ω (minedTx tx blockHash blockNumber index)
      blockHash blockNumber index).2.2 := by
    rcases m.executeTransaction_cases cfg ω (minedTx tx blockHash blockNumber index) blockHash
      blockNumber index with ⟨-, -, heq⟩ | ⟨-, heq⟩
    · rw [heq]
      exact (MoreCommits.of_eq bridgeWithdrawal_trieCommits).trans bridgeAnchor_more
    · rw [heq]
      exact .of_eq rfl
  have hworld : MoreCommits n m := .of_eq rfl
  exact hworld.trans hexec

theorem applyTxs_more (txs : List TxRecord) :
    MoreCommits n (applyTxs cfg blockHash blockNumber n ω index txs).2.2 := by
  induction txs generalizing n ω index with
  | nil => exact .of_eq rfl
  | cons tx txs ih => exact applyMinedTransaction_more.trans ih

theorem mineTxs_more (txs : List TxRecord) :
    MoreCommits n (mineTxs cfg blockHash blockNumber n ω index txs).2.2 := by
  induction txs generalizing n ω index with
  | nil => exact .of_eq rfl
  | cons tx txs ih =>
      have hrecord : ∀ (m : RpcNode) mined receipt, MoreCommits m (m.recordTx mined receipt) :=
        fun _ _ _ => .of_eq rfl
      exact applyMinedTransaction_more.trans ((hrecord _ _ _).trans ih)

/-- Transactions that are executed leave receipts. -/
theorem receipts_ne_nil {receipts : List ReceiptRecord} {txs : List TxRecord}
    (h : receipts.map (·.toGethReceipt) = txs.map (consensusReceipt cfg)) (hne : txs ≠ []) :
    receipts ≠ [] := by
  rintro rfl
  exact hne (List.map_eq_nil_iff.mp h.symm)

/-- An anchor call commits the root of the accounts after its transfer. -/
theorem hasCommit_applyMinedTransaction (hroots : HexRoots n) (hnodes : CommitsNodes)
    (haccount : n.world.HasAccount) (htx : callsAnchor cfg tx = true) :
    ∃ ω', (n.applyMinedTransaction cfg ω tx blockHash blockNumber index).2.2.HasCommit "state"
      (stateTrieRoot ((n.world.apply cfg.bridgeAddress tx).copy ω')) n.height := by
  let m : RpcNode := { n with world := n.world.transfer tx }
  let mined := minedTx tx blockHash blockNumber index
  simp only [callsAnchor, Bool.and_eq_true, decide_eq_true_eq] at htx
  obtain ⟨⟨hne, hbridge⟩, hanchor⟩ := htx
  have happly : n.world.apply cfg.bridgeAddress tx = n.world.transfer tx := by
    rw [World.apply, World.execute, if_neg hne, if_pos hbridge]
  have hanchor' : isAnchorCall mined = true := hanchor
  rcases m.executeTransaction_cases cfg ω mined blockHash blockNumber index with
    ⟨-, -, heq⟩ | ⟨hnot, -⟩
  · let w : RpcNode := m.bridgeWithdrawal cfg (ω.call 0) mined
    have hsame : SameChain m w := bridgeWithdrawal_sameChain
    have hworld : w.world = n.world.transfer tx := bridgeWithdrawal_world
    have hwroots : HexRoots w := (MoreCommits.of_eq bridgeWithdrawal_trieCommits).hexRoots hroots
    have hcommit := hasCommit_computeStateTrieRoot hwroots hnodes
      (hworld ▸ haccount.transfer tx) ((ω.call 1).call 0)
    rw [computeStateTrieRoot_root, hworld, hsame.height] at hcommit
    refine ⟨((((ω.call 1).call 0).call 1).call 0), ?_⟩
    have hexec : (n.applyMinedTransaction cfg ω tx blockHash blockNumber index).2.2 =
        w.bridgeAnchor (ω.call 1) mined blockHash blockNumber := heq
    rw [hexec, happly, bridgeAnchor, if_pos hanchor']
    exact hcommit.more (.of_eq (submitAnchor_trieCommits _))
  · exact absurd ⟨hne, hbridge⟩ hnot

/-- So does one among the transactions of a block. -/
theorem hasCommit_applyTxs (hroots : HexRoots n) (hnodes : CommitsNodes)
    (haccount : n.world.HasAccount) (htx : callsAnchor cfg tx = true) (txs txs' : List TxRecord) :
    ∃ ω', (applyTxs cfg blockHash blockNumber n ω index (txs ++ tx :: txs')).2.2.HasCommit "state"
      (stateTrieRoot (((txs ++ [tx]).foldl (World.apply · cfg.bridgeAddress ·) n.world).copy ω'))
      n.height := by
  induction txs generalizing n ω index with
  | nil =>
      obtain ⟨ω', hcommit⟩ : ∃ ω', (n.applyMinedTransaction cfg (ω.call 0) tx blockHash
          blockNumber index).2.2.HasCommit "state"
            (stateTrieRoot ((n.world.apply cfg.bridgeAddress tx).copy ω')) n.height :=
        hasCommit_applyMinedTransaction hroots hnodes haccount htx
      exact ⟨ω', hcommit.more (applyTxs_more txs')⟩
  | cons tx₀ txs ih =>
      let m := (n.applyMinedTransaction cfg (ω.call 0) tx₀ blockHash blockNumber index).2.2
      have hmore : MoreCommits n m := applyMinedTransaction_more
      have hsame : SameChain n m := applyMinedTransaction_sameChain
      have hworld : m.world = n.world.apply cfg.bridgeAddress tx₀ := applyMinedTransaction_world
      obtain ⟨ω', hcommit⟩ := @ih (ω.call 1) m (index + 1) (hmore.hexRoots hroots)
        (hworld ▸ haccount.apply cfg.bridgeAddress tx₀)
      rw [hworld, hsame.height] at hcommit
      exact ⟨ω', hcommit⟩

end RpcNode

/-! ## Committed blocks -/

namespace RpcNode

/-- `bhte_getTrieCommit`. -/
def getTrieCommit (n : RpcNode) (root : String) : Option TrieCommitRecord := n.trieCommitByRoot root

theorem HasCommit.answered {n : RpcNode} {kind root : String} {height : ℕ}
    (h : n.HasCommit kind root height) : (n.getTrieCommit root).isSome = true := by
  obtain ⟨c, hc, -, rfl, -⟩ := h
  rw [getTrieCommit, trieCommitByRoot, List.find?_isSome]
  exact ⟨c, List.mem_reverse.mpr hc, decide_eq_true rfl⟩

end RpcNode

/-- The roots of a block are committed at its height, that of the receipts when it has any, and
asking for them is answered. -/
structure Committed (n : RpcNode) (k : ℕ) (b : BlockRecord) : Prop where
  state : n.HasCommit "state" b.stateRoot k
  receipts : b.transactions ≠ [] → n.HasCommit "receipts" b.receiptRoot k
  stateAnswered : (n.getTrieCommit b.stateRoot).isSome = true
  receiptsAnswered : b.transactions ≠ [] → (n.getTrieCommit b.receiptRoot).isSome = true

def AllCommitted (n : RpcNode) : Prop := ∀ k b, 2 ≤ k → n.blockAt k = some b → Committed n k b

/-- A transaction of the block calls the anchor of the bridge, and the accounts after it have the
state root of the block. -/
def CommitsOwnRoot (cfg : Config) (w : World) (block : BlockRecord) : Prop :=
  ∃ txs tx txs', block.transactions = txs ++ tx :: txs' ∧ callsAnchor cfg tx = true ∧
    ∀ ω, block.stateRoot =
      stateTrieRoot (((txs ++ [tx]).foldl (World.apply · cfg.bridgeAddress ·) w).copy ω)

/-- The call imports no block, or one that commits its own state root. -/
def CommitStep (cfg : Config) (n : RpcNode) (ω : Choices) (e : Event) : Prop :=
  ∀ block, e = .syncBlock block → (n.syncBlock cfg ω (n.height + 1) block).1 = .ok true →
    CommitsOwnRoot cfg n.world block.record

section Blocks
variable {cfg : Config} {ω : Choices} {n n' : RpcNode} {k : ℕ} {b : BlockRecord}

theorem Committed.of_hasCommit (hstate : n.HasCommit "state" b.stateRoot k)
    (hreceipts : b.transactions ≠ [] → n.HasCommit "receipts" b.receiptRoot k) : Committed n k b :=
  ⟨hstate, hreceipts, hstate.answered, fun hne => (hreceipts hne).answered⟩

theorem Committed.more (h : Committed n k b) (hmore : MoreCommits n n') : Committed n' k b :=
  .of_hasCommit (h.state.more hmore) fun hne => (h.receipts hne).more hmore

/-- More commits and one block more, which is committed. -/
theorem AllCommitted.append (h : AllCommitted n) (hlength : n.blocks.length = n.height)
    (hmore : MoreCommits n n') (hblocks : n'.blocks = n.blocks ++ [b])
    (hb : Committed n' (n.height + 1) b) : AllCommitted n' := by
  intro k b' hk hb'
  rw [RpcNode.blockAt, if_neg (by omega), hblocks] at hb'
  rcases Nat.lt_trichotomy (k - 1) n.blocks.length with hlt | heq | hgt
  · rw [List.getElem?_append_left hlt] at hb'
    exact (h k b' hk ((if_neg (by omega)).trans hb')).more hmore
  · rw [heq, List.getElem?_append_right le_rfl, Nat.sub_self] at hb'
    cases hb'
    have hnumber : k = n.height + 1 := by omega
    exact hnumber ▸ hb
  · rw [List.getElem?_append_right hgt.le, List.getElem?_eq_none (by simp; omega)] at hb'
    cases hb'

/-- A mined block is committed. -/
theorem committed_minePendingBlock (hroots : HexRoots n) (hnodes : CommitsNodes)
    (haccount : n.world.HasAccount) :
    MoreCommits n (n.minePendingBlock cfg ω).2 ∧
      Committed (n.minePendingBlock cfg ω).2 (u64 (n.height + 1)) (n.minePendingBlock cfg ω).1 := by
  let mined : RpcNode := { (n.minePendingTxs cfg ω).2.2 with height := u64 (n.height + 1) }
  let stated := (mined.computeStateTrieRoot (ω.call 2)).2
  let receipts := (n.minePendingTxs cfg ω).2.1
  have hstart : MoreCommits n { n with pendingTxs := [] } := .of_eq rfl
  have hmined : MoreCommits n mined :=
    (hstart.trans (RpcNode.mineTxs_more n.pendingTxs)).trans (.of_eq rfl)
  have hworld : mined.world.HasAccount := by
    have heq : mined.world = n.pendingTxs.foldl (World.apply · cfg.bridgeAddress ·) n.world :=
      RpcNode.mineTxs_world n.pendingTxs
    rw [heq]
    exact haccount.foldl _ _
  have hstated : MoreCommits mined stated := mined.computeStateTrieRoot_more (ω.call 2)
  have hheight : stated.height = u64 (n.height + 1) := by
    obtain ⟨l, hl, -⟩ := mined.computeStateTrieRoot_eq (ω.call 2)
    show (mined.computeStateTrieRoot (ω.call 2)).2.height = _
    rw [hl]
    rfl
  have hstate := RpcNode.hasCommit_computeStateTrieRoot (hmined.hexRoots hroots) hnodes hworld
    (ω.call 2)
  have hlast : (n.minePendingBlock cfg ω).2.trieCommits =
      (stated.computeReceiptTrieRoot (ω.call 3) receipts).2.trieCommits := rfl
  have hreceipted : MoreCommits stated (n.minePendingBlock cfg ω).2 :=
    (stated.computeReceiptTrieRoot_more (ω.call 3) receipts).trans (.of_eq hlast)
  refine ⟨hmined.trans (hstated.trans hreceipted), .of_hasCommit (hstate.more hreceipted) ?_⟩
  intro hne
  have hsome : receipts ≠ [] := by
    refine RpcNode.receipts_ne_nil (RpcNode.mineTxs_receipts n.pendingTxs) fun hempty => hne ?_
    rw [n.minePendingBlock_transactions, hempty]
    rfl
  have hreceipt := RpcNode.hasCommit_computeReceiptTrieRoot
    (hstated.hexRoots (hmined.hexRoots hroots)) hnodes hsome (ω.call 3)
  rw [hheight] at hreceipt
  exact hreceipt.more (.of_eq hlast)

/-- An imported block has its receipts committed; with an anchor call at its own root, it is
committed. -/
theorem committed_importPeerBlock (hroots : HexRoots n) (hnodes : CommitsNodes)
    (haccount : n.world.HasAccount) {block : BlockRecord}
    (hok : (n.importPeerBlock cfg ω block).1 = .ok true)
    (hown : CommitsOwnRoot cfg n.world block) :
    MoreCommits n (n.importPeerBlock cfg ω block).2 ∧ ∃ stored,
      (n.importPeerBlock cfg ω block).2.blocks = n.blocks ++ [stored] ∧
      Committed (n.importPeerBlock cfg ω block).2 (quantity64 block.number) stored := by
  have hcommits := importPeerBlock_trieCommits hok
  obtain ⟨txs, tx, txs', htxs, hanchor, hroot⟩ := hown
  let start : RpcNode := { n with height := quantity64 block.number, replayMode := true }
  have hstart : MoreCommits n start := .of_eq rfl
  have hsame := n.applyPeerBlock_sameChain cfg ((ω.call 0).call 1) block
  have hreplayed : MoreCommits start (n.applyPeerBlock cfg ((ω.call 0).call 1) block).2.2 :=
    RpcNode.applyTxs_more block.transactions
  have hmore := hstart.trans hreplayed
  obtain ⟨ω', hstate⟩ : ∃ ω', (n.applyPeerBlock cfg ((ω.call 0).call 1) block).2.2.HasCommit
      "state" (stateTrieRoot (((txs ++ [tx]).foldl (World.apply · cfg.bridgeAddress ·)
        n.world).copy ω')) (quantity64 block.number) := by
    rw [RpcNode.applyPeerBlock, htxs]
    exact RpcNode.hasCommit_applyTxs (hstart.hexRoots hroots) hnodes haccount hanchor txs txs'
  rw [← hroot ω'] at hstate
  have hreceipts : block.transactions ≠ [] →
      (n.applyPeerBlock cfg ((ω.call 0).call 1) block).2.1 ≠ [] :=
    RpcNode.receipts_ne_nil (RpcNode.applyTxs_receipts block.transactions)
  have hmined : (n.applyPeerBlock cfg ((ω.call 0).call 1) block).1 =
      block.transactions.mapIdx fun i tx => RpcNode.minedTx tx block.hash
        (quantity64 block.number) (0 + i) := RpcNode.applyTxs_mined _
  rcases n.importPeerBlock_cases cfg ω block with ⟨heq, -⟩ | ⟨e, ω₁, ω₂, disk, heq⟩ |
    ⟨ω₂, l, heq, -⟩
  · rw [heq] at hok
    cases hok
  · rw [heq] at hok
    cases hok
  · rw [heq] at hcommits ⊢
    generalize n.applyPeerBlock cfg ((ω.call 0).call 1) block = r at *
    let replayed : RpcNode := { r.2.2 with replayMode := n.replayMode }
    have hkept : MoreCommits r.2.2 replayed := .of_eq rfl
    have hreceipted : MoreCommits replayed
        (n.afterImport (ω.call 2) block l r) :=
      (replayed.computeReceiptTrieRoot_more (ω.call 1) r.2.1).trans (.of_eq hcommits)
    refine ⟨hmore.trans (hkept.trans hreceipted), RpcNode.importedBlock block r.1 r.2.1, ?_,
      .of_hasCommit ((hstate.more hkept).more hreceipted) fun hne => ?_⟩
    · rw [RpcNode.afterImport_blocks, hsame.blocks]
    · have hsome : r.2.1 ≠ [] := hreceipts fun hempty => hne (by
        show r.1 = []
        rw [hmined, hempty]
        rfl)
      have hreceipt := RpcNode.hasCommit_computeReceiptTrieRoot
        (hkept.hexRoots (hmore.hexRoots hroots)) hnodes hsome (ω.call 1)
      have hheight : replayed.height = quantity64 block.number := hsame.height
      rw [hheight] at hreceipt
      exact hreceipt.more (.of_eq hcommits)

/-! ## Runs -/

/-- Roots in hexadecimal, and every block after genesis committed. -/
structure CommitsOk (n : RpcNode) : Prop where
  hex : HexRoots n
  all : AllCommitted n

theorem CommitsOk.of_eq (h : CommitsOk n) (hblocks : n'.blocks = n.blocks)
    (hcommits : n'.trieCommits = n.trieCommits) : CommitsOk n' := by
  have hmore : MoreCommits n n' := .of_eq hcommits
  refine ⟨hmore.hexRoots h.hex, fun k b hk hb => (h.all k b hk ?_).more hmore⟩
  rwa [RpcNode.blockAt, ← hblocks]

theorem CommitsOk.minePendingBlock (h : CommitsOk n) (hnodes : CommitsNodes) (hchain : ChainOk n)
    (haccount : n.world.HasAccount) : CommitsOk (n.minePendingBlock cfg ω).2 := by
  have hbound := hchain.bound
  have hnumber : u64 ((n.height : ℤ) + 1) = n.height + 1 := u64_of_lt (k := n.height + 1) (by omega)
  obtain ⟨hmore, hcommitted⟩ : MoreCommits n (n.minePendingBlock cfg ω).2 ∧ _ :=
    committed_minePendingBlock h.hex hnodes haccount
  rw [hnumber] at hcommitted
  exact ⟨hmore.hexRoots h.hex,
    h.all.append hchain.length hmore (n.minePendingBlock_fst cfg ω) hcommitted⟩

theorem CommitsOk.syncBlock (h : CommitsOk n) (hnodes : CommitsNodes) (hchain : ChainOk n)
    (haccount : n.world.HasAccount) {block : PeerBlock}
    (hown : (n.syncBlock cfg ω (n.height + 1) block).1 = .ok true →
      CommitsOwnRoot cfg n.world block.record) :
    CommitsOk (n.syncBlock cfg ω (n.height + 1) block).2 := by
  rw [RpcNode.syncBlock] at hown ⊢
  split
  · exact h
  · next hvalid =>
      rw [hvalid] at hown
      have hnumber := (RpcNode.validatePeerBlock_ok hvalid).number
      by_cases hok : (n.importPeerBlock cfg ω block.record).1 = .ok true
      · obtain ⟨hmore, stored, hblocks, hcommitted⟩ :=
          committed_importPeerBlock h.hex hnodes haccount hok (hown hok)
        rw [hnumber] at hcommitted
        exact ⟨hmore.hexRoots h.hex, h.all.append hchain.length hmore hblocks hcommitted⟩
      · rcases n.importPeerBlock_cases cfg ω block.record with ⟨heq, -⟩ | ⟨e, ω₁, ω₂, disk, heq⟩ |
          ⟨ω₂, l, heq, -⟩
        · rw [heq]; exact h
        · rw [heq]; exact h.of_eq rfl rfl
        · rw [heq] at hok
          exact absurd rfl hok

/-- A rollback keeps the commits below its height, and the blocks they are of. -/
theorem CommitsOk.rollback (h : CommitsOk n) (hchain : ChainOk n) (ω : Choices) (height : ℕ)
    (s : StateSnapshotRecord) : CommitsOk (n.rollback ω height s) := by
  have hcommits : (n.rollback ω height s).trieCommits =
      n.trieCommits.filter fun c => decide (c.height < height) := rfl
  have hkept : ∀ {kind root k}, k < height → n.HasCommit kind root k →
      (n.rollback ω height s).HasCommit kind root k := by
    rintro kind root k hk ⟨c, hc, hkind, hroot, rfl⟩
    exact ⟨c, hcommits ▸ List.mem_filter.mpr ⟨hc, decide_eq_true hk⟩, hkind, hroot, rfl⟩
  refine ⟨fun c hc => h.hex c (List.mem_of_mem_filter (hcommits ▸ hc)), fun k b hk hb => ?_⟩
  rw [RpcNode.blockAt, if_neg (by omega), hchain.blocks_rollback, List.getElem?_take] at hb
  split at hb
  · next hlt =>
      have hcommitted := h.all k b hk ((if_neg (by omega)).trans hb)
      exact .of_hasCommit (hkept (by omega) hcommitted.state) fun hne =>
        hkept (by omega) (hcommitted.receipts hne)
  · cases hb

theorem CommitsOk.next (h : CommitsOk n) (hnodes : CommitsNodes) (hchain : ChainOk n)
    (haccount : n.world.HasAccount) {e : Event} (hstep : CommitStep cfg n ω e) :
    CommitsOk (n.next cfg ω e) := by
  rcases n.syncBlock_or_localCall hchain cfg ω e with ⟨block, rfl⟩ | hcall
  · exact h.syncBlock hnodes hchain haccount (hstep block rfl)
  · generalize n.next cfg ω e = n' at hcall ⊢
    cases hcall with
    | quiet hquiet => exact h.of_eq hquiet.blocks hquiet.trieCommits
    | recopied ω₁ ω₂ disk => exact h.of_eq rfl rfl
    | mined hmines =>
        have hpending : CommitsOk { n with pendingTxs := n.executed cfg ω e } := h.of_eq rfl rfl
        exact hpending.minePendingBlock hnodes (hchain.of_eq rfl rfl rfl rfl rfl) haccount
    | @rolledBack ω' height s hone hle hs =>
        exact (h.rollback hchain ω' height s).of_eq rfl rfl
    | restarted =>
        obtain ⟨index, disk, heq, -⟩ := hchain.restart cfg ω
        rw [heq]
        exact h.of_eq rfl rfl

theorem commitsOk_fresh (cfg : Config) (ω : Choices) : CommitsOk (newRPCNode cfg ω {}) := by
  obtain ⟨ω₁, l, timestamp, heq, hl⟩ := newRPCNode_fresh cfg ω
  rw [heq]
  refine ⟨fun c hc => ⟨_, (hl c hc).2.1⟩, fun k b hk hb => ?_⟩
  match k, hk, hb with
  | k + 2, _, hb => cases hb

theorem ReachableBy.commitsOk (h : ReachableBy cfg (CommitStep cfg) n) (hnodes : CommitsNodes) :
    CommitsOk n := by
  have hcopy : ∀ (w : World) (ω : Choices), w.HasAccount → (w.copy ω).HasAccount :=
    fun w ω hw => hw.copy ω
  refine (h.induct (P := fun n => ChainOk n ∧ FundedOk n ∧ Everywhere World.HasAccount n ∧
    CommitsOk n) (fun ω => ⟨chainOk_fresh cfg ω, fundedOk_fresh cfg ω,
      everywhere_fresh hcopy (hasAccount_freshWorld cfg) ω, commitsOk_fresh cfg ω⟩) ?_).2.2.2
  intro n ω e ⟨hchain, hfunded, haccounts, hcommits⟩ hstep hlen
  have hmove := RpcNode.next_move hchain hlen
  exact ⟨hchain.next hlen, hfunded.move hchain hmove,
    haccounts.move hchain hfunded hcopy (haccounts.world.foldl _ _) hmove,
    hcommits.next hnodes hchain haccounts.world hstep⟩

/-- **Committed roots.** In every run whose imported blocks commit their own state root, every
block after genesis has its roots committed at its height, and asking for them is answered. -/
theorem committed_of_commitStep (hnodes : CommitsNodes) (h : ReachableBy cfg (CommitStep cfg) n)
    (k : ℕ) (b : BlockRecord) (hk : 2 ≤ k) (hb : n.blockAt k = some b) : Committed n k b :=
  (h.commitsOk hnodes).all k b hk hb

/-! ## Imported blocks without an anchor call -/

theorem RpcNode.applyTxs_trieCommits {blockHash : String} {blockNumber index : ℕ}
    {txs : List TxRecord} (h : ∀ tx ∈ txs, callsAnchor cfg tx = false) :
    (RpcNode.applyTxs cfg blockHash blockNumber n ω index txs).2.2.trieCommits = n.trieCommits := by
  induction txs generalizing n ω index with
  | nil => rfl
  | cons tx txs ih =>
      obtain ⟨htx, htxs⟩ := List.forall_mem_cons.mp h
      let m : RpcNode := { n with world := n.world.transfer tx }
      let mined := RpcNode.minedTx tx blockHash blockNumber index
      have hexec : (m.executeTransaction cfg (ω.call 0) mined blockHash blockNumber
          index).2.2.trieCommits = n.trieCommits := by
        rcases m.executeTransaction_cases cfg (ω.call 0) mined blockHash blockNumber index with
          ⟨hne, hbridge, heq⟩ | ⟨-, heq⟩
        · have hanchor : isAnchorCall mined = false := by
            have hrecipient : tx.recipient ≠ "" ∧ tx.recipient = cfg.bridgeAddress := ⟨hne, hbridge⟩
            rw [callsAnchor, decide_eq_true hrecipient.1, decide_eq_true hrecipient.2] at htx
            exact htx
          rw [heq, RpcNode.bridgeAnchor, if_neg (by rw [hanchor]; exact Bool.false_ne_true)]
          exact RpcNode.bridgeWithdrawal_trieCommits
        · rw [heq]
      exact (ih htxs).trans hexec

/-- A block that is imported is the new head, with as many transactions as it was sent with. -/
theorem blocks_of_import (hchain : ChainOk n) {block : PeerBlock}
    (hok : (n.syncBlock cfg ω (n.height + 1) block).1 = .ok true) :
    ∃ b, (n.next cfg ω (.syncBlock block)).blocks = n.blocks ++ [b] ∧
      (n.next cfg ω (.syncBlock block)).blockAt (n.height + 1) = some b ∧
      b.transactions.length = block.record.transactions.length := by
  have hnew : (n.canonical.get? (n.height + 1)).getD "" = "" :=
    (hchain.canonical_eq_empty_iff _).mpr (by omega)
  rw [RpcNode.next]
  rcases n.syncBlock_cases cfg ω (n.height + 1) block with ⟨-, hfail⟩ | ⟨e, ω₁, ω₂, disk, heq⟩ |
    ⟨ω₂, l, heq, -⟩
  · obtain ⟨e, he⟩ := hfail hnew
    rw [he] at hok
    cases hok
  · rw [heq] at hok
    cases hok
  · have hblocks := n.afterImport_blocks (ω.call 2) block.record l
      (n.applyPeerBlock cfg ((ω.call 0).call 1) block.record)
    rw [(n.applyPeerBlock_sameIndex cfg _ _).blocks] at hblocks
    refine ⟨_, by rw [heq, hblocks], ?_, ?_⟩
    · rw [heq, RpcNode.blockAt, if_neg (Nat.succ_ne_zero _), hblocks, Nat.add_sub_cancel,
        List.getElem?_append_right hchain.length.le, hchain.length, Nat.sub_self]
      rfl
    · show (n.applyPeerBlock cfg ((ω.call 0).call 1) block.record).1.length = _
      rw [RpcNode.applyPeerBlock, RpcNode.applyTxs_mined, List.length_mapIdx]

/-- Such a block is imported without a state commit at its height. -/
theorem not_committed_of_no_anchor (h : Reachable cfg n) {block : PeerBlock}
    (hok : (n.syncBlock cfg ω (n.height + 1) block).1 = .ok true)
    (hanchor : ∀ tx ∈ block.record.transactions, callsAnchor cfg tx = false) :
    ∃ b, (n.next cfg ω (.syncBlock block)).blockAt (n.height + 1) = some b ∧
      ¬ Committed (n.next cfg ω (.syncBlock block)) (n.height + 1) b := by
  have hstamps := h.stampsOk
  obtain ⟨b, -, hb, -⟩ := blocks_of_import h.chainOk hok
  refine ⟨b, hb, fun hcommitted => ?_⟩
  obtain ⟨c, hc, hkind, -, hheight⟩ := hcommitted.state
  rw [RpcNode.next] at hc
  rw [RpcNode.syncBlock] at hok hc
  split at hok
  · cases hok
  · next hvalid =>
      have hsame : (n.applyPeerBlock cfg ((ω.call 0).call 1) block.record).2.2.trieCommits =
          n.trieCommits := RpcNode.applyTxs_trieCommits hanchor
      rw [hvalid] at hc
      dsimp only at hc
      rw [importPeerBlock_trieCommits hok] at hc
      rcases RpcNode.root_of_mem_persistTrieNodes hc with hold | ⟨-, hreceipts⟩
      · have hle := hstamps.commits c (hsame ▸ hold)
        omega
      · rw [hkind] at hreceipts
        exact absurd hreceipts (by decide)

end Blocks

/-! ## A block without transactions -/

/-- A fresh node imports it. -/
theorem imports_twinBlock (hgenesis : hashHex (utf8 "bhte-genesis") ≠ zeroHash)
    (ω : Choices) (hroot : (freshGenesis ω).stateRoot ≠ zeroHash) (ω' : Choices) :
    (newRPCNode {} ω {}).height = 1 ∧
      ((newRPCNode {} ω {}).syncBlock {} ω' ((newRPCNode {} ω {}).height + 1) (twinBlock ω)).1 =
        .ok true := by
  obtain ⟨-, hreach, hhashes⟩ := syncBlock_twinBlock hgenesis rfl hroot ω'
  obtain ⟨ω₁, l, timestamp, heq, -⟩ := newRPCNode_fresh {} ω
  have hheight : (newRPCNode {} ω {}).height = 1 := by rw [heq]
  have hblocks : (newRPCNode {} ω {}).blocks = [freshGenesis ω] := by rw [heq]
  refine ⟨hheight, ?_⟩
  rw [RpcNode.next] at hhashes
  generalize newRPCNode {} ω {} = n at *
  rcases n.syncBlock_cases {} ω' (n.height + 1) (twinBlock ω) with ⟨hsame, -⟩ |
    ⟨e, ω₂, ω₃, disk, hfail⟩ | ⟨ω₂, l, himport, -⟩
  · rw [hsame, hblocks] at hhashes
    cases hhashes
  · rw [hfail] at hhashes
    have hlength := congrArg List.length hhashes
    rw [RpcNode.recopied, hblocks] at hlength
    cases hlength
  · rw [himport]

/-- It has no state commit at its height. -/
theorem not_committed_of_twinBlock (hgenesis : hashHex (utf8 "bhte-genesis") ≠ zeroHash)
    (ω : Choices) (hroot : (freshGenesis ω).stateRoot ≠ zeroHash) (ω' : Choices) :
    Reachable {} ((newRPCNode {} ω {}).next {} ω' (.syncBlock (twinBlock ω))) ∧
      ∃ b, ((newRPCNode {} ω {}).next {} ω' (.syncBlock (twinBlock ω))).blockAt 2 = some b ∧
        ¬ Committed ((newRPCNode {} ω {}).next {} ω' (.syncBlock (twinBlock ω))) 2 b := by
  obtain ⟨hheight, hok⟩ := imports_twinBlock hgenesis ω hroot ω'
  have hfresh : Reachable {} (newRPCNode {} ω {}) := ⟨ω, .refl⟩
  have hnone : ∀ tx ∈ (twinBlock ω).record.transactions, callsAnchor {} tx = false :=
    fun _ => List.not_mem_nil.elim
  obtain ⟨b, hb, hnot⟩ := not_committed_of_no_anchor hfresh hok hnone
  rw [hheight] at hb hnot
  exact ⟨(syncBlock_twinBlock hgenesis rfl hroot ω').2.1, b, hb, hnot⟩

omit [Platform] in
/-- A fresh node imports a block without transactions and commits no root of it. -/
theorem not_committed_twinBlock :
    letI := Platform.checksums
    let n := (newRPCNode {} default {}).next {} default (.syncBlock (twinBlock default))
    Reachable {} n ∧ ∃ b, n.blockAt 2 = some b ∧ ¬ Committed n 2 b := by
  exact @not_committed_of_twinBlock Platform.checksums
    (@genesis_ne_zeroHash Platform.checksums fun _ => rfl) default
    (checksums_stateRoot_ne_zeroHash default) default

omit [Platform] in
theorem commitsNodes_checksums : @CommitsNodes Platform.checksums := by
  refine @CommitsNodes.mk Platform.checksums (fun a hnil => ?_) (fun r hnil => ?_)
    fun t key hvalue => ?_
  · exact List.cons_ne_nil _ _ hnil
  · exact List.cons_ne_nil _ _ hnil
  · show (if t = [] then none else some []).isSome = true
    have hne : t ≠ [] := by
      rintro rfl
      exact hvalue rfl
    rw [if_neg hne]
    rfl

/-! ## A block with an anchor call -/

/-- An anchor call of the account that the transfer goes to. -/
def anchorByPayee : TxRecord where
  hash := "0x02"
  sender := "0x00000000000000000000000000000000000000aa"
  recipient := bridge
  value := "0x0"
  nonce := "0x0"
  input := "0x3de90c0b"

theorem normal_anchorByPayee : anchorByPayee.Normal :=
  ⟨normalizeAddress_aa, normalizeAddress_bridge⟩

/-- A node with normal keys imports the next block with this call, and the call commits the state
root of the block. -/
theorem commitStep_anchorByPayee {n : RpcNode}
    (hsha : ∀ b : Bytes, (Platform.sha256 b).headD 0 = b.headD 0)
    (hroot : ∀ w : World, stateTrieRoot w ≠ zeroHash) (hchain : ChainOk n) (hworld : n.world.Normal)
    (ω : Choices) :
    let block := nextBlock manualMining n [anchorByPayee] false
    (n.syncBlock manualMining ω (n.height + 1) block).1 = .ok true ∧
      CommitStep manualMining n ω (.syncBlock block) := by
  intro block
  have hafter : (n.world.applyAll manualMining [anchorByPayee]).Normal :=
    hworld.applyAll ⟨writesNormal_of_transfer normal_anchorByPayee (by decide), trivial⟩
  have hlinked := @linked_nextBlock _ _ _ _ false hsha (hroot _) hafter hchain
  have hok : (n.syncBlock manualMining ω (n.height + 1) block).1.isOk = true := by
    rw [syncBlock_isOk_iff hchain (number_nextBlock hchain)]
    exact ⟨⟨(hlinked ω).1, commitsAsSent_nextBlock⟩, (hlinked _).2⟩
  have hown : CommitsOwnRoot manualMining n.world block.record := by
    refine ⟨[], RpcNode.minedTx anchorByPayee (hashHex (utf8 "block")) (n.height + 1) 0, [], rfl, ?_,
      fun ω' => congrArg stateTrieRoot (hafter.copy_eq ω').symm⟩
    rw [callsAnchor, Bool.and_eq_true, Bool.and_eq_true]
    exact ⟨⟨rfl, rfl⟩, (isAnchorCall_record rfl).1⟩
  refine ⟨?_, fun block' heq _ => Event.syncBlock.inj heq ▸ hown⟩
  have hnew : (n.canonical.get? (n.height + 1)).getD "" = "" :=
    (hchain.canonical_eq_empty_iff _).mpr (by omega)
  rcases n.syncBlock_cases manualMining ω (n.height + 1) block with ⟨-, hfail⟩ |
    ⟨e, ω₁, ω₂, disk, heq⟩ | ⟨ω₂, l, heq, -⟩
  · obtain ⟨e, he⟩ := hfail hnew
    rw [he] at hok
    cases hok
  · rw [heq] at hok
    cases hok
  · rw [heq]

/-- A run of two blocks and the import of such a third one. -/
theorem reachable_anchorByPayee {n m : RpcNode} {ω : Choices}
    (hsha : ∀ b : Bytes, (Platform.sha256 b).headD 0 = b.headD 0)
    (hroot : ∀ w : World, stateTrieRoot w ≠ zeroHash)
    (h : ReachableBy manualMining (CommitStep manualMining) n) (hworld : n.world.Normal)
    (hlength : n.blocks.length = 2)
    (hm : m = n.next manualMining ω (.syncBlock (nextBlock manualMining n [anchorByPayee] false))) :
    ReachableBy manualMining (CommitStep manualMining) m ∧ ∃ b b', m.blockAt 2 = some b ∧
      m.blockAt 3 = some b' ∧ b'.transactions.length = 1 := by
  have hchain := h.reachable.chainOk
  obtain ⟨hok, hstep⟩ := commitStep_anchorByPayee hsha hroot hchain hworld ω
  obtain ⟨b', hblocks, hb', htxs⟩ := blocks_of_import hchain hok
  rw [← hm] at hblocks hb'
  rw [← hchain.length, hlength] at hb'
  have hlen : m.blocks.length = 3 := by rw [hblocks, List.length_append, hlength]; rfl
  refine ⟨?_, ?_⟩
  · rw [hm] at hlen ⊢
    exact h.next hstep (by rw [hlen]; decide)
  · obtain ⟨b, hb⟩ : ∃ b, m.blocks[1]? = some b :=
      ⟨_, List.getElem?_eq_getElem (by rw [hlen]; decide)⟩
    exact ⟨b, b', hb, hb', htxs⟩

/-- Sending a transfer and mining it imports nothing. -/
theorem commitStep_wholeTransfer (ω : Choices) :
    ReachableBy manualMining (CommitStep manualMining)
      (((newRPCNode manualMining ω {}).next manualMining ω (.sendTransaction wholeTransfer)).next
        manualMining ω .mineBlock) :=
  run_wholeTransfer ω (fun block hblock => by cases hblock) fun block hblock => by cases hblock

omit [Platform] in
/-- A mined block with a transfer and an imported block with an anchor call are committed. -/
theorem committed_anchorByPayee :
    letI := Platform.checksums
    let n := ((newRPCNode manualMining default {}).next manualMining default
      (.sendTransaction wholeTransfer)).next manualMining default .mineBlock
    let m := n.next manualMining default
      (.syncBlock (nextBlock manualMining n [anchorByPayee] false))
    ∃ b b', m.blockAt 2 = some b ∧ m.blockAt 3 = some b' ∧ b'.transactions.length = 1 ∧
      Committed m 2 b ∧ Committed m 3 b' := by
  let _ := Platform.checksums
  intro n m
  have hlength : n.blocks.length = 2 := @length_wholeTransfer Platform.checksums default
  have hn : ReachableBy manualMining (CommitStep manualMining) n :=
    @commitStep_wholeTransfer Platform.checksums default
  have hworld : n.world.Normal := @world_wholeTransfer Platform.checksums default
  have hm : m = n.next manualMining default
      (.syncBlock (nextBlock manualMining n [anchorByPayee] false)) := rfl
  clear_value m n
  obtain ⟨hreach, b, b', hb, hb', htxs⟩ := reachable_anchorByPayee (fun _ => rfl)
    checksums_stateTrieRoot_ne_zeroHash hn hworld hlength hm
  have hcommitted := committed_of_commitStep commitsNodes_checksums hreach
  exact ⟨b, b', hb, hb', htxs, hcommitted 2 b le_rfl hb, hcommitted 3 b' (by decide) hb'⟩

end BhtBhte.Node
