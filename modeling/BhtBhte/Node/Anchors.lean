import BhtBhte.Node.Queries
import BhtBhte.Node.Stamps

/-!
# Anchors and the blocks they stand for

Mining and importing record an anchor for the new block, a bridge transaction records one for the
block it is in, and a reorganisation drops those of the blocks it removes.  Only a submitted anchor
can say something else.  So `verifyStateRoot_iff` says what is accepted at a height for which none
was submitted.
-/
namespace BhtBhte.Node
open BhtBhte.Lib
variable [Platform]

/-! ## What execution records -/

/-- The anchors are the same at every height but one. -/
def SameAnchors (height : ℕ) (n n' : RpcNode) : Prop :=
  ∀ k, k ≠ height → n'.anchors.get? k = n.anchors.get? k

namespace SameAnchors
variable {height : ℕ} {n n' n'' : RpcNode}

omit [Platform] in
theorem of_eq (h : n'.anchors = n.anchors) : SameAnchors height n n' := fun k _ => by rw [h]

omit [Platform] in
theorem refl (n : RpcNode) : SameAnchors height n n := of_eq rfl

omit [Platform] in
theorem trans (h : SameAnchors height n n') (h' : SameAnchors height n' n'') :
    SameAnchors height n n'' := fun k hk => (h' k hk).trans (h k hk)

end SameAnchors

namespace RpcNode
variable {n : RpcNode} {cfg : Config} {ω : Choices} {tx : TxRecord} {blockHash : String}
  {blockNumber index : ℕ}

theorem initiateWithdrawal_anchors (request : Object) :
    (n.initiateWithdrawal cfg ω request).2.anchors = n.anchors := by
  rw [initiateWithdrawal]
  split <;> rfl

theorem bridgeWithdrawal_anchors : (n.bridgeWithdrawal cfg ω tx).anchors = n.anchors := by
  rw [bridgeWithdrawal]
  split
  · exact initiateWithdrawal_anchors _
  · rfl

theorem bridgeAnchor_sameAnchors (hne : blockNumber ≠ 0) (hbound : blockNumber < 2 ^ 64) :
    SameAnchors blockNumber n (n.bridgeAnchor ω tx blockHash blockNumber) := by
  rw [bridgeAnchor]
  split
  · obtain ⟨l, hl, -⟩ := n.computeStateTrieRoot_eq (ω.call 0)
    intro k hk
    dsimp only
    rw [hl, submitAnchor_anchors, FinMap.get?_insert_of_ne]
    · rfl
    · rwa [anchorHeight hne hbound]
  · exact .refl n

theorem applyMinedTransaction_sameAnchors (hne : blockNumber ≠ 0) (hbound : blockNumber < 2 ^ 64) :
    SameAnchors blockNumber n
      (n.applyMinedTransaction cfg ω tx blockHash blockNumber index).2.2 := by
  rw [applyMinedTransaction]
  dsimp only
  rcases executeTransaction_cases { n with world := n.world.transfer tx } cfg ω
    (minedTx tx blockHash blockNumber index) blockHash blockNumber index with
    ⟨-, -, heq⟩ | ⟨-, heq⟩
  · rw [heq]
    exact SameAnchors.trans (.of_eq (bridgeWithdrawal_anchors (n := { n with
      world := n.world.transfer tx }))) (bridgeAnchor_sameAnchors hne hbound)
  · rw [heq]
    exact .of_eq rfl

theorem applyTxs_sameAnchors (hne : blockNumber ≠ 0) (hbound : blockNumber < 2 ^ 64)
    (txs : List TxRecord) :
    SameAnchors blockNumber n (applyTxs cfg blockHash blockNumber n ω index txs).2.2 := by
  induction txs generalizing n ω index with
  | nil => exact .refl n
  | cons tx txs ih =>
      rw [applyTxs]
      exact (applyMinedTransaction_sameAnchors hne hbound).trans ih

theorem mineTxs_sameAnchors (hne : blockNumber ≠ 0) (hbound : blockNumber < 2 ^ 64)
    (txs : List TxRecord) :
    SameAnchors blockNumber n (mineTxs cfg blockHash blockNumber n ω index txs).2.2 := by
  induction txs generalizing n ω index with
  | nil => exact .refl n
  | cons tx txs ih =>
      have hmined : SameAnchors blockNumber n
          (n.applyMinedTransaction cfg (ω.call 0) tx blockHash blockNumber index).2.2 :=
        applyMinedTransaction_sameAnchors hne hbound
      rw [mineTxs]
      generalize n.applyMinedTransaction cfg (ω.call 0) tx blockHash blockNumber index = r at *
      have hrecord : SameAnchors blockNumber r.2.2 (r.2.2.recordTx r.1 r.2.1) := .of_eq rfl
      exact hmined.trans (hrecord.trans ih)

theorem recordImported_anchors (n : RpcNode) (txs : List TxRecord) (receipts : List ReceiptRecord) :
    (n.recordImported txs receipts).anchors = n.anchors := by
  induction txs generalizing n receipts with
  | nil => rfl
  | cons tx txs ih =>
      cases receipts with
      | nil => rfl
      | cons receipt receipts =>
          rw [recordImported]
          refine (ih _ _).trans ?_
          split <;> rfl

end RpcNode

/-! ## Anchored heights -/

/-- The root and the block that an anchor names. -/
def AnchorRecord.named (a : AnchorRecord) : String × String := (a.stateRoot, a.blockHash)

/-- The anchor at a height is that of the block there; there is none for the genesis block. -/
def AnchoredAt (k : ℕ) (n : RpcNode) : Prop :=
  (n.anchors.get? k).map AnchorRecord.named =
    if k ≤ 1 then none else (n.blockAt k).map fun b => (b.stateRoot, b.hash)

/-- The height that a submitted anchor is recorded at. -/
def RpcNode.anchoredHeight (n : RpcNode) (anchor : Object) : ℕ :=
  let height := quantityFromInterface (field anchor "height")
  if height = 0 then n.height else height

/-- The call submits no anchor for the height. -/
def SparesHeight (k : ℕ) (n : RpcNode) (e : Event) : Prop :=
  ∀ anchor, e = .submitAnchor anchor → n.anchoredHeight anchor ≠ k

namespace AnchoredAt
variable {n n' m : RpcNode} {k : ℕ}

omit [Platform] in
theorem of_eq (h : AnchoredAt k n) (hanchors : n'.anchors = n.anchors)
    (hblocks : n'.blocks = n.blocks) : AnchoredAt k n' := by
  rw [AnchoredAt, RpcNode.blockAt, hanchors, hblocks]
  exact h

/-- A block appended with its anchor. -/
theorem appendBlock (h : AnchoredAt k n) (hchain : ChainOk n) {ω : Choices} {block : BlockRecord}
    {source anchorTxHash : String} (hsame : SameAnchors (n.height + 1) n m)
    (hblocks : m.blocks = n.blocks) :
    AnchoredAt k (m.appendBlock ω block (n.height + 1) source anchorTxHash) := by
  have hpos := hchain.pos
  have hanchors : (m.appendBlock ω block (n.height + 1) source anchorTxHash).anchors =
      m.anchors.insert (n.height + 1)
        ⟨n.height + 1, block.stateRoot, block.hash, anchorTxHash, (ω.call 1).unix, true⟩ := rfl
  have hat := hchain.blockAt_append
    ((m.appendBlock_fields ω block (n.height + 1) source anchorTxHash).2.1.trans
      (congrArg (· ++ [block]) hblocks)) k
  rw [AnchoredAt, hanchors, hat]
  by_cases hk : k = n.height + 1
  · rw [hk, FinMap.get?_insert_self, if_neg (by omega), if_pos rfl]
    rfl
  · rw [FinMap.get?_insert_of_ne _ _ hk, hsame k hk, if_neg hk]
    exact h

theorem minePendingBlock (h : AnchoredAt k n) (hchain : ChainOk n) {cfg : Config} {ω : Choices}
    (hlen : (n.minePendingBlock cfg ω).2.blocks.length < 2 ^ 63) :
    AnchoredAt k (n.minePendingBlock cfg ω).2 := by
  obtain ⟨block, l, heq, -⟩ := n.minePendingBlock_eq cfg ω
  have hbound : n.height + 1 < 2 ^ 63 := by
    obtain ⟨_, hblocks⟩ := n.minePendingBlock_blocks cfg ω
    rwa [hblocks, List.length_append, hchain.length] at hlen
  have hnum : u64 ((n.height : ℤ) + 1) = n.height + 1 := u64_of_lt (k := n.height + 1) (by omega)
  have hmined : SameAnchors (n.height + 1) n (n.minePendingTxs cfg ω).2.2 := by
    have hstart : SameAnchors (n.height + 1) n { n with pendingTxs := [] } := .of_eq rfl
    rw [RpcNode.minePendingTxs, hnum]
    exact hstart.trans (RpcNode.mineTxs_sameAnchors (by omega) (by omega) n.pendingTxs)
  have hsame : SameBlocks { n with pendingTxs := [] } (n.minePendingTxs cfg ω).2.2 :=
    RpcNode.mineTxs_sameBlocks n.pendingTxs
  rw [heq, hnum]
  refine of_eq (h.appendBlock hchain (m := RpcNode.addCommits _ l) ?_ hsame.blocks) rfl rfl
  exact hmined.trans (.of_eq rfl)

theorem enqueue (h : AnchoredAt k n) (hchain : ChainOk n) {cfg : Config} {ω : Choices}
    {record : TxRecord} (hlen : (n.enqueue cfg ω record).blocks.length < 2 ^ 63) :
    AnchoredAt k (n.enqueue cfg ω record) := by
  have hpending : ChainOk { n with pendingTxs := n.pendingTxs ++ [record] } :=
    hchain.of_eq rfl rfl rfl rfl rfl
  have hanchored : AnchoredAt k { n with pendingTxs := n.pendingTxs ++ [record] } :=
    h.of_eq rfl rfl
  rw [RpcNode.enqueue] at hlen ⊢
  by_cases hauto : cfg.autoMine = true
  · rw [if_pos hauto] at hlen ⊢
    exact hanchored.minePendingBlock hpending hlen
  · rw [if_neg hauto]
    exact hanchored.of_eq rfl rfl

theorem rollback (h : AnchoredAt k n) (hchain : ChainOk n) (ω : Choices) (height : ℕ)
    (snapshot : StateSnapshotRecord) : AnchoredAt k (n.rollback ω height snapshot) := by
  have hanchors : (n.rollback ω height snapshot).anchors =
      n.anchors.filter fun anchorHeight _ => anchorHeight < height := rfl
  rw [AnchoredAt, hanchors, FinMap.get?_filter, hchain.blockAt_rollback]
  by_cases hk : k < height
  · rw [if_pos hk, ← h]
    cases n.anchors.get? k <;> simp [Option.filter, hk]
  · rw [if_neg hk]
    cases n.anchors.get? k <;> simp [Option.filter, hk]

theorem syncBlock (h : AnchoredAt k n) (hchain : ChainOk n) {cfg : Config} {ω : Choices}
    {block : PeerBlock} (hlen : (n.syncBlock cfg ω (n.height + 1) block).2.blocks.length < 2 ^ 63) :
    AnchoredAt k (n.syncBlock cfg ω (n.height + 1) block).2 := by
  rcases n.syncBlock_cases cfg ω (n.height + 1) block with ⟨heq, -⟩ | ⟨e, ω₁, ω₂, disk, heq⟩ |
    ⟨ω₂, l, heq, -, hok, -⟩
  · rw [heq]; exact h
  · rw [heq]; exact h.of_eq rfl rfl
  · rw [heq] at hlen ⊢
    dsimp only at hlen ⊢
    have hindex := n.applyPeerBlock_sameIndex cfg ((ω.call 0).call 1) block.record
    have hbound : n.height + 1 < 2 ^ 63 := by
      rwa [RpcNode.afterImport_blocks, hindex.blocks, List.length_append, hchain.length] at hlen
    have happly : SameAnchors (n.height + 1) n
        (n.applyPeerBlock cfg ((ω.call 0).call 1) block.record).2.2 := by
      rw [RpcNode.applyPeerBlock, hok.number]
      exact SameAnchors.trans (.of_eq rfl)
        (RpcNode.applyTxs_sameAnchors (by omega) (by omega) block.record.transactions)
    rw [RpcNode.afterImport, hok.number]
    refine of_eq (h.appendBlock hchain (m := RpcNode.addCommits _ l) ?_ hindex.blocks)
      (RpcNode.recordImported_anchors _ _ _) (RpcNode.recordImported_sameBlocks _ _ _).blocks
    exact happly.trans (.of_eq rfl)

theorem submitAnchor (h : AnchoredAt k n) {ω : Choices} {anchor : Object}
    (hk : n.anchoredHeight anchor ≠ k) : AnchoredAt k (n.submitAnchor ω anchor).2 := by
  have hat : (n.submitAnchor ω anchor).2.blockAt k = n.blockAt k := by
    rw [RpcNode.blockAt, RpcNode.blockAt, (RpcNode.submitAnchor_sameChain anchor).blocks]
  have hheight : (n.submitAnchor ω anchor).1.height = n.anchoredHeight anchor := rfl
  rw [AnchoredAt, RpcNode.submitAnchor_anchors, hheight, FinMap.get?_insert_of_ne _ _ hk.symm, hat]
  exact h

/-- Only an anchor submitted for a height changes what is recorded for it. -/
theorem next (h : AnchoredAt k n) (hchain : ChainOk n) {cfg : Config} {ω : Choices} {e : Event}
    (hspares : SparesHeight k n e) (hlen : (n.next cfg ω e).blocks.length < 2 ^ 63) :
    AnchoredAt k (n.next cfg ω e) := by
  cases e with
  | sendTransaction tx =>
      rw [RpcNode.next] at hlen ⊢
      rcases n.sendTransaction_cases cfg ω tx with heq | ⟨-, heq⟩
      · rw [heq]; exact h
      · rw [heq] at hlen ⊢; exact h.enqueue hchain hlen
  | sendRawTransaction rawTx => exact h.enqueue hchain hlen
  | mineBlock => exact h.minePendingBlock hchain hlen
  | handleReorg height newHash =>
      rw [RpcNode.next]
      rcases n.handleReorg_cases ω height newHash with heq | ⟨snapshot, -, -, heq⟩
      · rw [heq]; exact h
      · rw [heq]; exact (h.rollback hchain ω height snapshot).of_eq rfl rfl
  | syncBlock block => exact h.syncBlock hchain hlen
  | setPeer peer => exact h.of_eq rfl rfl
  | submitBridgeEvent event => exact h.of_eq rfl rfl
  | initiateWithdrawal request =>
      exact h.of_eq (RpcNode.initiateWithdrawal_anchors request)
        (RpcNode.initiateWithdrawal_sameChain request).blocks
  | processWithdrawal id answer =>
      rw [RpcNode.next, RpcNode.processWithdrawal]
      split
      · exact h
      · exact h
      · split
        · exact h
        · exact h.of_eq rfl rfl
  | submitAnchor anchor => exact h.submitAnchor (hspares anchor rfl)
  | replayChain =>
      rw [RpcNode.next]
      rcases n.replayChain_cases cfg ω with heq | ⟨ω₁, ω₂, disk, heq⟩
      · rw [heq]; exact h
      · rw [heq]; exact h.of_eq rfl rfl
  | validateBlock block =>
      rw [RpcNode.next]
      rcases n.validateBlockRecord_cases cfg ω block with heq | ⟨ω₁, ω₂, disk, heq⟩
      · rw [heq]; exact h
      · rw [heq]; exact h.of_eq rfl rfl
  | restart =>
      obtain ⟨index, disk, heq, -⟩ := hchain.restart cfg ω
      rw [RpcNode.next, heq]
      exact h.of_eq rfl rfl

theorem fresh (k : ℕ) (cfg : Config) (ω : Choices) : AnchoredAt k (newRPCNode cfg ω {}) := by
  have hchain := chainOk_fresh cfg ω
  obtain ⟨ω₁, l, timestamp, heq, -⟩ := newRPCNode_fresh cfg ω
  have hanchors : (newRPCNode cfg ω {}).anchors = ∅ := by rw [heq]
  have hheight : (newRPCNode cfg ω {}).height = 1 := by rw [heq]
  rw [AnchoredAt, hanchors]
  split
  · rfl
  · rw [(hchain.blockAt_eq_none_iff k).mpr (by omega)]
    rfl

end AnchoredAt

/-! ## Every run -/

theorem ReachableBy.anchoredAt {cfg : Config} {n : RpcNode} {k : ℕ}
    (h : ReachableBy cfg (fun n _ e => SparesHeight k n e) n) : AnchoredAt k n := by
  have hboth : ChainOk n ∧ AnchoredAt k n := h.induct (P := fun n => ChainOk n ∧ AnchoredAt k n)
    (fun ω => ⟨chainOk_fresh cfg ω, .fresh k cfg ω⟩)
    fun _ _ _ hm hspares hlen => ⟨hm.1.next hlen, hm.2.next hm.1 hspares hlen⟩
  exact hboth.2

/-- **State roots.** In every run that submits no anchor for a height, the node knows of an anchor
there exactly when the chain has a block there after the genesis block, reports that block, and
verifies its root and no other: under a proof, the first item of which has to be the root as
well. -/
theorem verifyStateRoot_iff {cfg : Config} {n : RpcNode} {k : ℕ}
    (h : ReachableBy cfg (fun n _ e => SparesHeight k n e) n) (root : String) (proof : List String) :
    ((n.verifyStateRoot k root proof).blockHash =
      if k ≤ 1 then none else (n.blockAt k).map (·.hash)) ∧
    ((n.verifyStateRoot k root proof).valid = true ↔
      2 ≤ k ∧ ∃ b, n.blockAt k = some b ∧ equalFold b.stateRoot root = true ∧
        ∀ first ∈ proof.head?, equalFold first root = true) := by
  have hanchor := h.anchoredAt
  rw [AnchoredAt] at hanchor
  rw [RpcNode.verifyStateRoot]
  by_cases hk : k ≤ 1
  · rw [if_pos hk, Option.map_eq_none_iff] at hanchor
    rw [hanchor, if_pos hk]
    dsimp only
    refine ⟨rfl, ?_⟩
    simp [show ¬ 2 ≤ k by omega]
  · rw [if_neg hk] at hanchor
    cases hat : n.blockAt k with
    | none =>
        rw [hat, Option.map_none, Option.map_eq_none_iff] at hanchor
        rw [hanchor, if_neg hk]
        dsimp only
        refine ⟨rfl, ?_⟩
        simp
    | some b =>
        rw [hat] at hanchor
        obtain ⟨anchor, hget, hnamed⟩ := Option.map_eq_some_iff.mp hanchor
        obtain ⟨hroot, hhash⟩ := Prod.mk.inj hnamed
        rw [hget, if_neg hk]
        dsimp only
        rw [hroot, hhash, Bool.and_eq_true, Option.all_eq_true]
        refine ⟨rfl, ?_⟩
        simp [show 2 ≤ k by omega]

omit [Platform] in
/-- The root of a block that was just mined. -/
theorem verifyStateRoot_mined :
    letI := Platform.checksums
    let n := (newRPCNode {} default {}).next {} default .mineBlock
    (n.verifyStateRoot 2 n.lastBlock.stateRoot []).valid = true := by
  let _ := Platform.checksums
  obtain ⟨hreach, hheight⟩ := reachable_mined {} default
  have hchain := hreach.chainOk
  have hlen : ((newRPCNode {} default {}).next {} default .mineBlock).blocks.length < 2 ^ 63 := by
    rw [hchain.length, hheight]
    decide
  have hrun : ReachableBy {} (fun n _ e => SparesHeight 2 n e)
      ((newRPCNode {} default {}).next {} default .mineBlock) :=
    ⟨default, .single ⟨default, .mineBlock, fun _ heq => (nomatch heq), rfl, hlen⟩⟩
  have hlast := hchain.blockAt_height
  rw [hheight] at hlast
  exact (verifyStateRoot_iff hrun _ []).2.mpr
    ⟨le_rfl, _, hlast, equalFold_refl _, fun _ hfirst => (nomatch hfirst)⟩

end BhtBhte.Node
