import BhtBhte.Node.Undo
import BhtBhte.Node.Duplicates
import BhtBhte.Node.Supply

/-!
# What is on disk

A node that crashes comes back with what `save` wrote last.  Most calls save once, when they are
done.  Mining is different: a transaction that calls the bridge saves from inside the block, when
the pending list is empty and the block is not yet there.  In runs that mine no such transaction
whatever is written is consistent, and a crash loses nothing (`written_consistent`).
-/
namespace BhtBhte.Node
open BhtBhte.Lib
variable [Platform]

/-! ## What is written -/

namespace RpcNode

/-- What `save` writes. -/
def files (n : RpcNode) : Files where
  state := some n.toNodeState
  chain := some ⟨n.blocks, n.canonical, n.blockIndex⟩
  stateDB := some ⟨n.accounts, n.world, n.stateSnapshots⟩
  history := some ⟨n.pendingTxs, n.txs, n.receipts, n.logs, n.withdrawals, n.anchors⟩
  trie := some n.trieCommits

/-- What a call writes, the last write first: what it adds to the writes so far.  A restart
writes once, before the new process begins. -/
def written (n : RpcNode) (cfg : Config) (ω : Choices) : Event → List Files
  | .restart => [n.files]
  | e => (n.next cfg ω e).disk.take ((n.next cfg ω e).disk.length - n.disk.length)

/-- The hash that the caller of an accepted transaction is given. -/
def accepts (n : RpcNode) (cfg : Config) (ω : Choices) : Event → List String
  | .sendTransaction tx =>
      if n.validateTransaction cfg tx = .ok () then [(n.txOfObject (ω.call 0) tx "").hash] else []
  | .sendRawTransaction rawTx => [(txOfRaw (ω.call 0) rawTx).hash]
  | _ => []

end RpcNode

/-- The accounts are those of the snapshot of the head, and every accepted transaction is
pending or in a block. -/
structure NodeState.Consistent (s : NodeState) (accepted : List String) : Prop where
  accounts : ∃ head, s.stateSnapshots.get? (quantity64 (s.blocks.getLastD {}).number) = some head ∧
    s.world.Agree head.world
  transactions : ∀ hash ∈ accepted, hash ∈ s.pendingTxs.map (·.hash) ∨
    ∃ b ∈ s.blocks, hash ∈ b.transactions.map (·.hash)

/-- The files hold one state, and it is consistent. -/
def Files.Consistent (f : Files) (accepted : List String) : Prop :=
  ∃ s : NodeState, s.Consistent accepted ∧ f.state = some s ∧
    f.chain = some ⟨s.blocks, s.canonical, s.blockIndex⟩ ∧
    f.stateDB = some ⟨s.accounts, s.world, s.stateSnapshots⟩ ∧
    f.history = some ⟨s.pendingTxs, s.txs, s.receipts, s.logs, s.withdrawals, s.anchors⟩

/-- Executing the transaction saves: it calls the bridge to start a withdrawal or to submit an
anchor. -/
def SavesInside (cfg : Config) (tx : TxRecord) : Prop :=
  RpcNode.startsWithdrawal cfg tx = true ∨ callsAnchor cfg tx = true

/-! ## When execution does not save -/

namespace RpcNode
variable {cfg : Config} {ω : Choices} {n : RpcNode} {tx : TxRecord} {blockHash : String}
  {blockNumber index : ℕ}

theorem initiateWithdrawal_disk (request : Object) :
    (n.initiateWithdrawal cfg ω request).2.disk = n.disk ∨
      (n.initiateWithdrawal cfg ω request).2.disk =
        (n.initiateWithdrawal cfg ω request).2.files :: n.disk := by
  rw [initiateWithdrawal]
  split
  · exact .inl rfl
  · exact .inr rfl

theorem submitAnchor_disk (anchor : Object) :
    (n.submitAnchor ω anchor).2.disk = n.disk ∨
      (n.submitAnchor ω anchor).2.disk = (n.submitAnchor ω anchor).2.files :: n.disk := by
  rw [submitAnchor]
  dsimp only
  split
  · exact .inl rfl
  · exact .inr rfl

theorem bridgeWithdrawal_disk
    (h : n.replayMode = true ∨ ¬ (isWithdrawalCall tx = true ∧ tx.sender ≠ "")) :
    (n.bridgeWithdrawal cfg ω tx).disk = n.disk := by
  rw [bridgeWithdrawal]
  split
  · next hcall =>
      have hreplay : n.replayMode = true := h.resolve_right (not_not_intro hcall)
      simp only [initiateWithdrawal, hreplay, if_true]
  · rfl

theorem bridgeAnchor_disk (h : n.replayMode = true ∨ ¬ isAnchorCall tx = true) :
    (n.bridgeAnchor ω tx blockHash blockNumber).disk = n.disk := by
  rw [bridgeAnchor]
  split
  · next hcall =>
      have hreplay : n.replayMode = true := h.resolve_right (not_not_intro hcall)
      obtain ⟨l, hl, -⟩ := n.computeStateTrieRoot_eq (ω.call 0)
      dsimp only
      rw [hl, submitAnchor]
      have hmode : (n.addCommits l).replayMode = true := hreplay
      simp only [hmode, if_true]
      rfl
  · rfl

theorem saves_of_bridgeCall (hne : tx.recipient ≠ "") (hbridge : tx.recipient = cfg.bridgeAddress)
    (h : (isWithdrawalCall tx = true ∧ tx.sender ≠ "") ∨ isAnchorCall tx = true) :
    SavesInside cfg tx := by
  rcases h with ⟨hcall, hsender⟩ | hcall
  · refine .inl ?_
    rw [startsWithdrawal, hcall, decide_eq_true hne, decide_eq_true hbridge, decide_eq_true hsender]
    rfl
  · refine .inr ?_
    rw [callsAnchor, hcall, decide_eq_true hne, decide_eq_true hbridge]
    rfl

/-- A replay does not save, and neither does a transaction that leaves the bridge alone. -/
theorem applyMinedTransaction_disk (h : n.replayMode = true ∨ ¬ SavesInside cfg tx) :
    (n.applyMinedTransaction cfg ω tx blockHash blockNumber index).2.2.disk = n.disk := by
  let m : RpcNode := { n with world := n.world.transfer tx }
  let mined := minedTx tx blockHash blockNumber index
  show (m.executeTransaction cfg ω mined blockHash blockNumber index).2.2.disk = m.disk
  rcases m.executeTransaction_cases cfg ω mined blockHash blockNumber index with
    ⟨hne, hbridge, heq⟩ | ⟨-, heq⟩
  · have hquiet : m.replayMode = true ∨
        ¬ ((isWithdrawalCall mined = true ∧ mined.sender ≠ "") ∨ isAnchorCall mined = true) :=
      h.imp_right fun hnot hcall => hnot (saves_of_bridgeCall hne hbridge hcall)
    have hmode : (m.bridgeWithdrawal cfg (ω.call 0) mined).replayMode = m.replayMode :=
      bridgeWithdrawal_sameChain.replayMode
    rw [heq, bridgeAnchor_disk, bridgeWithdrawal_disk]
    · exact hquiet.imp_right fun hnot hcall => hnot (.inl hcall)
    · rw [hmode]
      exact hquiet.imp_right fun hnot hcall => hnot (.inr hcall)
  · rw [heq]

theorem applyTxs_disk (h : n.replayMode = true) (txs : List TxRecord) :
    (applyTxs cfg blockHash blockNumber n ω index txs).2.2.disk = n.disk := by
  induction txs generalizing n ω index with
  | nil => rfl
  | cons tx txs ih =>
      rw [applyTxs]
      have hmode : (n.applyMinedTransaction cfg (ω.call 0) tx blockHash blockNumber
          index).2.2.replayMode = n.replayMode := applyMinedTransaction_sameChain.replayMode
      exact (ih (hmode.trans h)).trans (applyMinedTransaction_disk (.inl h))

theorem mineTxs_disk {txs : List TxRecord} (h : ∀ tx ∈ txs, ¬ SavesInside cfg tx) :
    (mineTxs cfg blockHash blockNumber n ω index txs).2.2.disk = n.disk := by
  induction txs generalizing n ω index with
  | nil => rfl
  | cons tx txs ih =>
      rw [mineTxs]
      refine (ih fun tx' htx' => h tx' (List.mem_cons_of_mem _ htx')).trans ?_
      exact applyMinedTransaction_disk (.inr (h tx List.mem_cons_self))

/-! ## What a call writes -/

theorem recordImported_disk (txs : List TxRecord) (receipts : List ReceiptRecord) :
    (n.recordImported txs receipts).disk = n.disk := by
  induction txs generalizing n receipts with
  | nil => rfl
  | cons tx txs ih =>
      cases receipts with
      | nil => rfl
      | cons receipt receipts =>
          rw [recordImported, ih]
          split <;> rfl

theorem applyPeerBlock_disk (block : BlockRecord) :
    (n.applyPeerBlock cfg ω block).2.2.disk = n.disk :=
  applyTxs_disk rfl block.transactions

theorem replayPeerBlock_disk (block : BlockRecord) :
    (n.replayPeerBlock cfg ω block).2.disk = n.disk := by
  have hdisk : (n.applyPeerBlock cfg (ω.call 1) block).2.2.disk = n.disk :=
    applyPeerBlock_disk block
  rw [replayPeerBlock]
  dsimp only
  split
  · exact hdisk
  · split
    · exact hdisk
    · split
      · exact hdisk
      · split <;> exact hdisk

/-- A sync saves when it is done, not at each block. -/
theorem syncBlock_disk (height : ℕ) (block : PeerBlock) :
    (n.syncBlock cfg ω height block).2.disk = n.disk := by
  have hdisk : (n.replayPeerBlock cfg (ω.call 0) block.record).2.disk = n.disk :=
    replayPeerBlock_disk block.record
  rw [syncBlock]
  split
  · rfl
  · rw [importPeerBlock]
    dsimp only
    split
    · rfl
    · split
      · exact hdisk
      · next mined receipts _ =>
          obtain ⟨l, hl, -⟩ := computeReceiptTrieRoot_eq
            (n.replayPeerBlock cfg (ω.call 0) block.record).2 (ω.call 1) receipts
          rw [recordImported_disk, hl]
          exact hdisk

theorem recordTxs_frame (mined : List TxRecord) (receipts : List ReceiptRecord) :
    (n.recordTxs mined receipts).disk = n.disk ∧
      (n.recordTxs mined receipts).replayMode = n.replayMode := by
  rw [recordTxs]
  induction mined.zip receipts generalizing n with
  | nil => exact ⟨rfl, rfl⟩
  | cons e l ih => exact @ih (n.recordTx e.1 e.2)

theorem replayBlock_frame (h : n.replayMode = true) (block : BlockRecord) (height : ℕ) :
    (n.replayBlock cfg ω block height).2.2.2.disk = n.disk ∧
      (n.replayBlock cfg ω block height).2.2.2.replayMode = true := by
  have hsame : SameChain { n with height := height } (n.replayBlock cfg ω block height).2.2.2 :=
    applyTxs_sameChain _
  refine ⟨?_, hsame.replayMode.trans h⟩
  have hreplay : ({ n with height := height } : RpcNode).replayMode = true := h
  exact applyTxs_disk hreplay block.transactions

theorem replayBlocks_disk (genesisHeight : ℕ) (blocks : List BlockRecord) (checked : ℕ)
    (parentHash : String) (h : n.replayMode = true) :
    (replayBlocks cfg genesisHeight n ω checked parentHash blocks).2.disk = n.disk := by
  induction blocks generalizing n ω checked parentHash with
  | nil => rfl
  | cons block blocks ih =>
      obtain ⟨hdisk, hmode⟩ := @replayBlock_frame _ cfg (ω.call 0) n h block
        (quantity64 block.number)
      rw [replayBlocks]
      split
      · rfl
      · split
        · rfl
        · dsimp only
          split
          · exact hdisk
          · obtain ⟨hdisk', hmode'⟩ := recordTxs_frame
              (n := (n.replayBlock cfg (ω.call 0) block (quantity64 block.number)).2.2.2)
              (n.replayBlock cfg (ω.call 0) block (quantity64 block.number)).2.1
              (n.replayBlock cfg (ω.call 0) block (quantity64 block.number)).2.2.1
            exact (ih _ _ (hmode'.trans hmode)).trans (hdisk'.trans hdisk)

theorem replayChain_disk : (n.replayChain cfg ω).2.disk = n.disk := by
  rw [replayChain]
  split
  · rfl
  · next genesis blocks _ =>
      show (n.replayFromGenesis cfg (ω.call 1) genesis blocks).2.disk = n.disk
      rw [replayFromGenesis]
      dsimp only
      split
      · rfl
      · split
        · rfl
        · exact replayBlocks_disk _ _ _ _ rfl

theorem validateBlockRecord_disk (block : BlockRecord) :
    (n.validateBlockRecord cfg ω block).2.disk = n.disk := by
  have hreplay : (n.replayBlockForValidation cfg ω block).2.disk = n.disk := by
    rw [replayBlockForValidation]
    dsimp only
    split
    · rfl
    · exact (replayBlock_frame rfl block _).1
  rcases n.validateBlockRecord_snd cfg ω block with heq | heq
  · rw [heq]
  · rw [heq, hreplay]

theorem minePendingBlock_disk (h : ∀ tx ∈ n.pendingTxs, ¬ SavesInside cfg tx) :
    (n.minePendingBlock cfg ω).2.disk = (n.minePendingBlock cfg ω).2.files :: n.disk := by
  obtain ⟨block, l, heq, -⟩ := n.minePendingBlock_eq cfg ω
  have hdisk : (n.minePendingTxs cfg ω).2.2.disk = n.disk :=
    mineTxs_disk (n := { n with pendingTxs := [] }) h
  rw [heq]
  exact congrArg (List.cons _) hdisk

theorem enqueue_disk {record : TxRecord} (h : cfg.autoMine = true →
      ∀ tx ∈ n.pendingTxs ++ [record], ¬ SavesInside cfg tx) :
    (n.enqueue cfg ω record).disk = (n.enqueue cfg ω record).files :: n.disk := by
  rw [enqueue]
  by_cases hauto : cfg.autoMine = true
  · rw [if_pos hauto]
    exact minePendingBlock_disk (h hauto)
  · rw [if_neg hauto]
    rfl

/-- **One write.** A call that mines no transaction that saves writes at most once, when it is
done. -/
theorem next_disk {e : Event} (he : e ≠ .restart)
    (h : n.minesWith cfg ω e ≠ none → ∀ tx ∈ n.executed cfg ω e, ¬ SavesInside cfg tx) :
    (n.next cfg ω e).disk = n.disk ∨
      (n.next cfg ω e).disk = (n.next cfg ω e).files :: n.disk := by
  cases e with
  | sendTransaction tx =>
      rw [next]
      rcases n.sendTransaction_cases cfg ω tx with heq | ⟨hvalid, heq⟩
      · exact .inl (by rw [heq])
      · rw [heq]
        refine .inr (enqueue_disk fun hauto => ?_)
        simpa [minesWith, executed, hvalid, hauto] using h
  | sendRawTransaction rawTx =>
      refine .inr (enqueue_disk fun hauto => ?_)
      simpa [minesWith, executed, hauto] using h
  | mineBlock =>
      refine .inr (minePendingBlock_disk ?_)
      simpa [minesWith, executed] using h
  | handleReorg height newHash =>
      rw [next]
      rcases n.handleReorg_cases ω height newHash with heq | ⟨s, -, -, heq⟩
      · exact .inl (by rw [heq])
      · rw [heq]
        exact .inr rfl
  | syncBlock block => exact .inl (syncBlock_disk _ block)
  | setPeer peer => exact .inr rfl
  | submitBridgeEvent event => exact .inr rfl
  | initiateWithdrawal request => exact initiateWithdrawal_disk request
  | processWithdrawal id answer =>
      rw [next, processWithdrawal]
      split
      · exact .inl rfl
      · exact .inl rfl
      · split
        · exact .inl rfl
        · exact .inr rfl
  | submitAnchor anchor => exact submitAnchor_disk anchor
  | replayChain => exact .inl replayChain_disk
  | validateBlock block => exact .inl (validateBlockRecord_disk block)
  | restart => exact absurd rfl he

/-! ## Where the accepted transactions are -/

/-- The hashes that are pending or on the chain. -/
def knownHashes (n : RpcNode) : List String := n.pendingHashes ++ n.canonicalHashes

omit [Platform] in
theorem knownHashes_subset {n' : RpcNode} (hblocks : n'.blocks = n.blocks)
    (hpending : n'.pendingTxs = n.pendingTxs) : n.knownHashes ⊆ n'.knownHashes := by
  rw [knownHashes, knownHashes, pendingHashes, pendingHashes, canonicalHashes, canonicalHashes,
    hblocks, hpending]
  exact List.Subset.refl _

theorem knownHashes_minePendingBlock :
    n.knownHashes ⊆ (n.minePendingBlock cfg ω).2.knownHashes := by
  obtain ⟨hcanonical, hpending⟩ := n.hashes_minePendingBlock cfg ω
  rw [knownHashes, knownHashes, hcanonical, hpending, List.nil_append]
  intro hash hhash
  rw [List.mem_append] at hhash ⊢
  exact hhash.symm

/-- What is enqueued is known from then on. -/
theorem knownHashes_enqueue (record : TxRecord) :
    record.hash :: n.knownHashes ⊆ (n.enqueue cfg ω record).knownHashes := by
  have hqueued : record.hash :: n.knownHashes ⊆
      ({ n with pendingTxs := n.pendingTxs ++ [record] } : RpcNode).knownHashes := by
    intro hash hhash
    show hash ∈ (n.pendingTxs ++ [record]).map TxRecord.hash ++ n.canonicalHashes
    rw [List.map_append]
    rcases List.mem_cons.mp hhash with rfl | hhash
    · simp
    · rcases List.mem_append.mp hhash with hhash | hhash
      · exact List.mem_append_left _ (List.mem_append_left _ hhash)
      · exact List.mem_append_right _ hhash
  rw [enqueue]
  by_cases hauto : cfg.autoMine = true
  · rw [if_pos hauto]
    exact List.Subset.trans hqueued knownHashes_minePendingBlock
  · rw [if_neg hauto]
    exact hqueued

theorem knownHashes_rollback (height : ℕ) (s : StateSnapshotRecord) :
    n.knownHashes ⊆ (n.rollback ω height s).knownHashes := by
  have hperm := n.canonicalHashes_perm ω height s
  have hpending : (n.rollback ω height s).pendingHashes =
      n.pendingHashes ++ (n.removedTxs height).map (·.hash) := List.map_append
  intro hash hhash
  rw [knownHashes, hpending]
  rcases List.mem_append.mp hhash with hhash | hhash
  · exact List.mem_append_left _ (List.mem_append_left _ hhash)
  · rcases List.mem_append.mp (hperm.symm.subset hhash) with hkept | hremoved
    · exact List.mem_append_right _ hkept
    · exact List.mem_append_left _ (List.mem_append_right _ hremoved)

theorem knownHashes_syncBlock (height : ℕ) (block : PeerBlock) :
    n.knownHashes ⊆ (n.syncBlock cfg ω height block).2.knownHashes := by
  rcases n.syncBlock_cases cfg ω height block with ⟨heq, -⟩ | ⟨e, ω₁, ω₂, disk, heq⟩ | ⟨ω₂, l, heq, -⟩
  · rw [heq]
    exact List.Subset.refl _
  · rw [heq]
    exact List.Subset.refl _
  · obtain ⟨stored, timestamp, hblocks, -, -, -, hpending⟩ :=
      n.afterImport_chain cfg (ω.call 2) ((ω.call 0).call 1) block.record l
    rw [heq]
    intro hash hhash
    rw [knownHashes, pendingHashes, canonicalHashes, hpending, hblocks, List.flatMap_append,
      ← List.append_assoc]
    exact List.mem_append_left _ hhash

/-- **Nothing accepted is dropped.** After a call, what was pending or on the chain still is, and
so is what the call accepted. -/
theorem knownHashes_next (hchain : ChainOk n) (e : Event) :
    n.accepts cfg ω e ++ n.knownHashes ⊆ (n.next cfg ω e).knownHashes := by
  cases e with
  | sendTransaction tx =>
      rw [next, accepts]
      by_cases hvalid : n.validateTransaction cfg tx = .ok ()
      · have hsend : (n.sendTransaction cfg ω tx).2 =
            n.enqueue cfg (ω.call 1) (n.txOfObject (ω.call 0) tx "") := by
          rw [sendTransaction, hvalid]
          rfl
        rw [if_pos hvalid, hsend]
        exact knownHashes_enqueue _
      · rw [if_neg hvalid]
        rcases n.sendTransaction_cases cfg ω tx with heq | ⟨hok, -⟩
        · rw [heq]
          exact List.Subset.refl _
        · exact absurd hok hvalid
  | sendRawTransaction rawTx => exact knownHashes_enqueue _
  | mineBlock => exact knownHashes_minePendingBlock
  | handleReorg height newHash =>
      rw [next]
      rcases n.handleReorg_cases ω height newHash with heq | ⟨s, -, -, heq⟩
      · rw [heq]
        exact List.Subset.refl _
      · rw [heq]
        exact knownHashes_rollback height s
  | syncBlock block => exact knownHashes_syncBlock _ block
  | setPeer peer => exact List.Subset.refl _
  | submitBridgeEvent event => exact List.Subset.refl _
  | initiateWithdrawal request =>
      have hsame : SameChain n (n.initiateWithdrawal cfg ω request).2 :=
        initiateWithdrawal_sameChain request
      exact knownHashes_subset hsame.blocks hsame.pendingTxs
  | processWithdrawal id answer =>
      rw [next, processWithdrawal]
      split
      · exact List.Subset.refl _
      · exact List.Subset.refl _
      · split <;> exact List.Subset.refl _
  | submitAnchor anchor =>
      have hsame : SameChain n (n.submitAnchor ω anchor).2 := submitAnchor_sameChain anchor
      exact knownHashes_subset hsame.blocks hsame.pendingTxs
  | replayChain =>
      rw [next]
      rcases n.replayChain_cases cfg ω with heq | ⟨ω₁, ω₂, disk, heq⟩ <;>
        · rw [heq]
          exact List.Subset.refl _
  | validateBlock block =>
      rw [next]
      rcases n.validateBlockRecord_cases cfg ω block with heq | ⟨ω₁, ω₂, disk, heq⟩ <;>
        · rw [heq]
          exact List.Subset.refl _
  | restart =>
      obtain ⟨index, disk, heq, -⟩ := hchain.restart cfg ω
      rw [next, heq]
      exact List.Subset.refl _

end RpcNode

/-! ## Runs -/

/-- A run of calls that meet `ok`, with all that `out` says of its calls. -/
inductive Collected {α : Type} (cfg : Config) (ok : RpcNode → Choices → Event → Prop)
    (out : RpcNode → Choices → Event → List α) : RpcNode → List α → Prop
  | fresh (ω : Choices) : Collected cfg ok out (newRPCNode cfg ω {}) []
  | next {n items ω e} (h : Collected cfg ok out n items) (hok : ok n ω e)
      (hlen : (n.next cfg ω e).blocks.length < 2 ^ 63) :
      Collected cfg ok out (n.next cfg ω e) (out n ω e ++ items)

theorem Collected.reachableBy {α : Type} {cfg : Config} {ok : RpcNode → Choices → Event → Prop}
    {out : RpcNode → Choices → Event → List α} {n : RpcNode} {items : List α}
    (h : Collected cfg ok out n items) : ReachableBy cfg ok n := by
  induction h with
  | fresh ω => exact ⟨ω, .refl⟩
  | next h hok hlen ih => exact ih.next hok hlen

/-- Whatever a run has accepted is pending or on the chain. -/
theorem Collected.known {cfg : Config} {ok : RpcNode → Choices → Event → Prop} {n : RpcNode}
    {accepted : List String} (h : Collected cfg ok (fun n => n.accepts cfg) n accepted) :
    accepted ⊆ n.knownHashes := by
  induction h with
  | fresh ω => exact List.nil_subset _
  | @next n accepted ω e h hok hlen ih =>
      have hsubset : n.accepts cfg ω e ++ accepted ⊆ n.accepts cfg ω e ++ n.knownHashes := by
        intro hash hhash
        rw [List.mem_append] at hhash ⊢
        exact hhash.imp_right (ih ·)
      exact List.Subset.trans hsubset (RpcNode.knownHashes_next h.reachableBy.chainOk e)

/-- A node started on the files has their accounts, and every accepted transaction is pending or
on its chain. -/
def Files.Recovers (cfg : Config) (f : Files) (accepted : List String) : Prop :=
  ∀ ω, (∀ db, f.stateDB = some db → (newRPCNode cfg ω f).world = db.world) ∧
    accepted ⊆ (newRPCNode cfg ω f).knownHashes

theorem RpcNode.files_consistent {n : RpcNode} (hchain : ChainOk n) (hspell : SpellOk n)
    {accepted : List String} (h : accepted ⊆ n.knownHashes) : n.files.Consistent accepted := by
  refine ⟨n.toNodeState, ⟨?_, fun hash hhash => ?_⟩, rfl, rfl, rfl, rfl⟩
  · obtain ⟨head, hhead, -⟩ := hchain.snapshot _ _ hchain.blockAt_height
    have hnumber : quantity64 (n.blocks.getLastD {}).number = n.height :=
      hchain.number_of_blockAt hchain.blockAt_height
    rw [hnumber]
    exact ⟨head, hhead, hspell.head head hhead⟩
  · rcases List.mem_append.mp (h hhash) with hpending | hcanonical
    · exact .inl hpending
    · exact .inr (List.mem_flatMap.mp hcanonical)

theorem RpcNode.files_recovers {n : RpcNode} (hchain : ChainOk n) (hfunded : FundedOk n)
    (cfg : Config) {accepted : List String} (h : accepted ⊆ n.knownHashes) :
    n.files.Recovers cfg accepted := by
  intro ω
  obtain ⟨index, disk, heq, -⟩ := hchain.restart cfg ω
  have hrestart : newRPCNode cfg ω n.files = n.restarted index disk := heq
  rw [hrestart]
  refine ⟨fun db hdb => ?_, h⟩
  cases hdb
  exact hfunded.restarted_world hchain index disk

/-- Only known transactions can have been accepted, for files that are consistent. -/
theorem RpcNode.subset_of_consistent {n : RpcNode} {accepted : List String}
    (h : n.files.Consistent accepted) : accepted ⊆ n.knownHashes := by
  obtain ⟨s, hs, hstate, -⟩ := h
  cases hstate
  intro hash hhash
  rcases hs.transactions hash hhash with hpending | hblock
  · exact List.mem_append_left _ hpending
  · exact List.mem_append_right _ (List.mem_flatMap.mpr hblock)

/-- And for files that a node recovers from. -/
theorem RpcNode.subset_of_recovers {n : RpcNode} (hchain : ChainOk n) {cfg : Config}
    {accepted : List String} (h : n.files.Recovers cfg accepted) (ω : Choices) :
    accepted ⊆ n.knownHashes := by
  obtain ⟨index, disk, heq, -⟩ := hchain.restart cfg ω
  have hrestart : newRPCNode cfg ω n.files = n.restarted index disk := heq
  have hall := (h ω).2
  rw [hrestart] at hall
  exact hall

/-- A call that executes only transactions that are spelled alike, and mines none that saves. -/
def DurableStep (cfg : Config) (n : RpcNode) (ω : Choices) (e : Event) : Prop :=
  AlikeStep cfg n ω e ∧
    (n.minesWith cfg ω e ≠ none → ∀ tx ∈ n.executed cfg ω e, ¬ SavesInside cfg tx)

/-- Such a call writes the node before it, for a restart, or the node after it. -/
theorem DurableStep.written {cfg : Config} {n : RpcNode} {ω : Choices} {e : Event}
    (h : DurableStep cfg n ω e) {f : Files} (hf : f ∈ n.written cfg ω e) :
    (e = .restart ∧ f = n.files) ∨ f = (n.next cfg ω e).files := by
  by_cases he : e = .restart
  · subst he
    exact .inl ⟨rfl, List.mem_singleton.mp hf⟩
  · have hwritten : n.written cfg ω e =
        (n.next cfg ω e).disk.take ((n.next cfg ω e).disk.length - n.disk.length) := by
      cases e <;> first | rfl | exact absurd rfl he
    rw [hwritten] at hf
    rcases RpcNode.next_disk he h.2 with hdisk | hdisk
    · rw [hdisk, Nat.sub_self, List.take_zero] at hf
      cases hf
    · rw [hdisk, List.length_cons, Nat.add_sub_cancel_left, List.take_succ_cons,
        List.take_zero] at hf
      exact .inr (List.mem_singleton.mp hf)

/-- **What is on disk.** In a run that mines no transaction that saves, and whose transactions are
spelled alike, every state that a call writes is consistent, and a crash right after the write
loses no accepted transaction and no account. -/
theorem written_consistent {cfg : Config} {n : RpcNode} {accepted : List String}
    (h : Collected cfg (DurableStep cfg) (fun n => n.accepts cfg) n accepted) {ω : Choices}
    {e : Event} (hok : DurableStep cfg n ω e) (hlen : (n.next cfg ω e).blocks.length < 2 ^ 63) {f : Files}
    (hf : f ∈ n.written cfg ω e) :
    f.Consistent (n.accepts cfg ω e ++ accepted) ∧
      f.Recovers cfg (n.accepts cfg ω e ++ accepted) := by
  obtain ⟨hchain, hfunded, hspell⟩ := h.reachableBy.spellOk fun _ _ _ hstep => hstep.1
  rcases hok.written hf with ⟨rfl, rfl⟩ | rfl
  · exact ⟨RpcNode.files_consistent hchain hspell h.known,
      RpcNode.files_recovers hchain hfunded cfg h.known⟩
  · have hnext := h.next hok hlen
    obtain ⟨hchain', hfunded', hspell'⟩ := hnext.reachableBy.spellOk fun _ _ _ hstep => hstep.1
    exact ⟨RpcNode.files_consistent hchain' hspell' hnext.known,
      RpcNode.files_recovers hchain' hfunded' cfg hnext.known⟩

/-! ## A raw transaction -/

/-- A raw transaction sent to a fresh node is written with its block. -/
theorem durable_sendRaw {n : RpcNode} {ω : Choices} (hn : n = newRPCNode {} ω {}) (rawTx : String) :
    DurableStep {} n ω (.sendRawTransaction rawTx) ∧
    (n.next {} ω (.sendRawTransaction rawTx)).blocks.length < 2 ^ 63 ∧
    (n.next {} ω (.sendRawTransaction rawTx)).files ∈ n.written {} ω (.sendRawTransaction rawTx) := by
  obtain ⟨-, hlen, -, -⟩ := fresh_sendRaw hn rfl
  obtain ⟨ω₁, l, timestamp, hfresh, -⟩ := newRPCNode_fresh {} ω
  have hworld : n.world = freshWorld {} := by rw [hn, hfresh]
  have htxs : n.executed {} ω (.sendRawTransaction rawTx) =
      [RpcNode.txOfRaw (ω.call 0) rawTx] := by
    rw [hn, hfresh]
    rfl
  have hsaves : ∀ tx ∈ n.executed {} ω (.sendRawTransaction rawTx), ¬ SavesInside {} tx := by
    rw [htxs]
    intro tx htx
    rw [List.mem_singleton.mp htx]
    simp [SavesInside, RpcNode.startsWithdrawal, callsAnchor, RpcNode.txOfRaw]
  have hstep : DurableStep {} n ω (.sendRawTransaction rawTx) := by
    refine ⟨?_, fun _ => hsaves⟩
    rw [AlikeStep, htxs, hworld]
    refine ⟨⟨fun hsender => absurd rfl hsender, fun hsender => absurd rfl hsender,
      fun hrecipient => absurd rfl hrecipient, fun _ k v hk => ?_⟩, trivial⟩
    cases hk
  refine ⟨hstep, hlen, ?_⟩
  have hdisk : (n.next {} ω (.sendRawTransaction rawTx)).disk =
      (n.next {} ω (.sendRawTransaction rawTx)).files :: n.disk :=
    RpcNode.enqueue_disk fun _ => hsaves
  rw [RpcNode.written, hdisk, List.length_cons, Nat.add_sub_cancel_left, List.take_succ_cons]
  · exact List.mem_cons_self
  · rintro ⟨⟩

omit [Platform] in
theorem written_sendRaw :
    letI := Platform.checksums
    let n := newRPCNode {} default {}
    ∃ f ∈ n.written {} default (.sendRawTransaction "0x01"),
      f.Consistent [hashHex (utf8 "0x01")] ∧ f.Recovers {} [hashHex (utf8 "0x01")] := by
  let _ := Platform.checksums
  intro n
  have hn : n = newRPCNode {} default {} := rfl
  have hrun : Collected {} (DurableStep {}) (fun n => n.accepts {}) n [] := .fresh default
  clear_value n
  obtain ⟨hstep, hlen, hf⟩ := durable_sendRaw hn "0x01"
  exact ⟨_, hf, written_consistent hrun hstep hlen hf⟩

/-! ## An anchor call -/

/-- Executing an anchor call writes the node as it stands in the middle of the block. -/
theorem RpcNode.applyMinedTransaction_disk_of_anchor {cfg : Config} {ω : Choices} {n : RpcNode}
    {tx : TxRecord} {blockHash : String} {blockNumber index : ℕ} (hmode : n.replayMode = false)
    (hcall : callsAnchor cfg tx = true) (hnot : isWithdrawalCall tx = false) :
    (n.applyMinedTransaction cfg ω tx blockHash blockNumber index).2.2.disk =
      (n.applyMinedTransaction cfg ω tx blockHash blockNumber index).2.2.files :: n.disk := by
  let m : RpcNode := { n with world := n.world.transfer tx }
  let mined := minedTx tx blockHash blockNumber index
  have hanchor : isAnchorCall mined = true := by
    simp only [callsAnchor, Bool.and_eq_true] at hcall
    exact hcall.2
  have hwithdrawal : isWithdrawalCall mined = false := hnot
  have hbridge : mined.recipient ≠ "" ∧ mined.recipient = cfg.bridgeAddress := by
    simp only [callsAnchor, Bool.and_eq_true, decide_eq_true_eq] at hcall
    exact hcall.1
  have hexec : (n.applyMinedTransaction cfg ω tx blockHash blockNumber index).2.2 =
      m.bridgeAnchor (ω.call 1) mined blockHash blockNumber := by
    rcases m.executeTransaction_cases cfg ω mined blockHash blockNumber index with
      ⟨-, -, heq⟩ | ⟨hother, -⟩
    · refine heq.trans ?_
      rw [bridgeWithdrawal, if_neg (by rw [hwithdrawal]; simp)]
    · exact absurd hbridge hother
  obtain ⟨l, hl, -⟩ := m.computeStateTrieRoot_eq ((ω.call 1).call 0)
  have hmode' : (m.addCommits l).replayMode = false := hmode
  rw [hexec, bridgeAnchor, if_pos hanchor]
  dsimp only
  rw [hl, submitAnchor]
  simp only [hmode', Bool.false_eq_true, if_false]
  rfl

/-- Mining an anchor call alone writes a state without the call. -/
theorem RpcNode.written_anchorCall {cfg : Config} {ω : Choices} {n : RpcNode} {tx : TxRecord}
    (hchain : ChainOk n) (hpending : n.pendingTxs = [tx]) (hmode : n.replayMode = false)
    (hcall : callsAnchor cfg tx = true) (hnot : isWithdrawalCall tx = false) :
    ∃ m : RpcNode, m.files ∈ n.written cfg ω .mineBlock ∧ ChainOk m ∧ m.pendingTxs = [] ∧
      m.blocks = n.blocks := by
  let start : RpcNode := { n with pendingTxs := [] }
  let m := (start.applyMinedTransaction cfg ((ω.call 1).call 0) tx (n.nextBlockHash (ω.call 0))
    (u64 (n.height + 1)) 0).2.2
  have hsame : SameChain start m := applyMinedTransaction_sameChain
  have hstart : ChainOk start := hchain.of_eq rfl rfl rfl rfl rfl
  have hdisk : m.disk = m.files :: n.disk :=
    applyMinedTransaction_disk_of_anchor hmode hcall hnot
  refine ⟨m, ?_, hstart.of_sameBlocks hsame.toSameBlocks, hsame.pendingTxs, hsame.blocks⟩
  obtain ⟨block, l, heq, -⟩ := n.minePendingBlock_eq cfg ω
  have hmined : (n.minePendingTxs cfg ω).2.2.disk = m.disk := by
    rw [minePendingTxs, hpending]
    rfl
  have hall : (n.next cfg ω .mineBlock).disk =
      (n.next cfg ω .mineBlock).files :: m.files :: n.disk := by
    rw [next, heq, ← hdisk, ← hmined]
    rfl
  have htake : (n.next cfg ω .mineBlock).disk.length - n.disk.length = 2 := by
    rw [hall, List.length_cons, List.length_cons]
    omega
  rw [written, htake, hall]
  · simp
  · rintro ⟨⟩

/-- Accepted by a fresh node that mines on demand, an anchor call is lost by the write in the
middle of its block. -/
theorem lost_anchorCall {fresh n : RpcNode} {ω : Choices} (hfresh : fresh = newRPCNode manualMining ω {})
    (hn : n = fresh.next manualMining ω (.sendTransaction anchorCall)) :
    ∃ hash, Collected manualMining (fun _ _ _ => True) (fun n => n.accepts manualMining) n [hash] ∧
      (n.next manualMining ω .mineBlock).blocks.length < 2 ^ 63 ∧
      ∃ f ∈ n.written manualMining ω .mineBlock,
        ¬ f.Consistent [hash] ∧ ¬ f.Recovers manualMining [hash] := by
  obtain ⟨hworld, hempty, hlength⟩ := fresh_manualMining ω
  rw [← hfresh] at hworld hempty hlength
  have hchain : ChainOk fresh := hfresh ▸ chainOk_fresh manualMining ω
  have hblocks : fresh.canonicalHashes = [] ∧ fresh.replayMode = false := by
    obtain ⟨ω₁, l, timestamp, heq, -⟩ := newRPCNode_fresh manualMining ω
    rw [hfresh, heq]
    exact ⟨rfl, rfl⟩
  have hvalid : fresh.validateTransaction manualMining anchorCall = .ok () :=
    validate_anchorCall hworld
  obtain ⟨-, hrecipient, -, hinput⟩ := anchorCall_record fresh (ω.call 0)
  have haccepts : fresh.accepts manualMining ω (.sendTransaction anchorCall) =
      [(fresh.txOfObject (ω.call 0) anchorCall "").hash] := if_pos hvalid
  have hsend : n = RpcNode.save { fresh with
      pendingTxs := fresh.pendingTxs ++ [fresh.txOfObject (ω.call 0) anchorCall ""] } := by
    rw [hn]
    show (fresh.sendTransaction manualMining ω anchorCall).2 = _
    rw [RpcNode.sendTransaction, hvalid]
    rfl
  have hrun : Collected manualMining (fun _ _ _ => True) (fun n => n.accepts manualMining) n
      [(fresh.txOfObject (ω.call 0) anchorCall "").hash] := by
    have hlen : n.blocks.length < 2 ^ 63 := by
      rw [hsend]
      show fresh.blocks.length < 2 ^ 63
      omega
    have hstart : Collected manualMining (fun _ _ _ => True)
        (fun n => n.accepts manualMining) fresh [] := hfresh ▸ .fresh ω
    have hnext := hstart.next (ω := ω) (e := .sendTransaction anchorCall) trivial (hn ▸ hlen)
    rwa [haccepts, ← hn] at hnext
  generalize fresh.txOfObject (ω.call 0) anchorCall "" = tx at *
  obtain ⟨hanchor, hwithdrawal⟩ := isAnchorCall_record hinput
  have hcall : callsAnchor manualMining tx = true := by
    simp only [callsAnchor, hanchor, hrecipient]
    decide
  have hpending : n.pendingTxs = [tx] := by
    rw [hsend]
    show fresh.pendingTxs ++ [tx] = [tx]
    rw [hempty]
    rfl
  have hnchain : ChainOk n := hrun.reachableBy.chainOk
  have hnblocks : n.blocks = fresh.blocks := by rw [hsend]; rfl
  have hmode : n.replayMode = false := by rw [hsend]; exact hblocks.2
  have hheight : n.height = 1 := by rw [← hnchain.length, hnblocks, hlength]
  obtain ⟨m, hm, hmchain, hmpending, hmblocks⟩ :=
    RpcNode.written_anchorCall (ω := ω) hnchain hpending hmode hcall hwithdrawal
  -- nothing is pending in what was written, and its chain is the genesis block
  have hunknown : m.knownHashes = [] := by
    rw [RpcNode.knownHashes, RpcNode.pendingHashes, hmpending, RpcNode.canonicalHashes, hmblocks,
      hnblocks]
    exact hblocks.1
  have hlost : ¬ [tx.hash] ⊆ m.knownHashes := by
    rw [hunknown]
    exact fun hall => absurd (hall List.mem_cons_self) List.not_mem_nil
  refine ⟨tx.hash, hrun, ?_, m.files, hm, fun hconsistent => ?_, fun hrecovers => ?_⟩
  · exact (mined_of_height_lt hnchain (by rw [hheight]; decide) manualMining ω).1
  · exact hlost (RpcNode.subset_of_consistent hconsistent)
  · exact hlost (RpcNode.subset_of_recovers hmchain hrecovers ω)

omit [Platform] in
/-- **A lost transaction.** A fresh node accepts an anchor call and mines it.  The save inside the
block writes neither the pending call nor its block, and a node started on it has lost the
call. -/
theorem save_inside_loses :
    letI := Platform.checksums
    let n := (newRPCNode manualMining default {}).next manualMining default
      (.sendTransaction anchorCall)
    ∃ hash, Collected manualMining (fun _ _ _ => True) (fun n => n.accepts manualMining) n [hash] ∧
      (n.next manualMining default .mineBlock).blocks.length < 2 ^ 63 ∧
      ∃ f ∈ n.written manualMining default .mineBlock,
        ¬ f.Consistent [hash] ∧ ¬ f.Recovers manualMining [hash] :=
  @lost_anchorCall Platform.checksums _ _ default rfl rfl

end BhtBhte.Node
