import BhtBhte.Node.Spelling
import BhtBhte.Node.Stamps

/-!
# Reorganisation undoes mining

Sending and mining on top of a state `S` only adds records, and each record above `S` is found again
by its height or by the hash of a mined transaction.  `handleReorg` selects by exactly these, so it
gives `S` back, unless a record was written under the height of `S` or under a hash that `S` already
holds.  `handleReorg_undoes` is this for the calls that write neither.
-/
namespace BhtBhte.Node
open BhtBhte.Lib
variable [Platform]

/-! ## Steps on top of a state -/

/-- No record of the state carries the hash. -/
structure RpcNode.Unknown (S : RpcNode) (hash : String) : Prop where
  txs : ∀ tx ∈ S.txs, toLower tx.hash ≠ hash
  receipts : hash ∉ S.receipts.keys
  logs : ∀ lg ∈ S.logs, toLower lg.transactionHash ≠ hash
  withdrawals : hash ∉ S.withdrawals.keys

/-- Mining the pending list of `m` can be taken back to `S`: the transactions and the block
are unknown to `S`, a withdrawal goes by the hash of its transaction, and the first block
has no anchor call. -/
structure MineUndoable (cfg : Config) (S m : RpcNode) (ω : Choices) : Prop where
  hashes : ∀ tx ∈ m.pendingTxs, S.Unknown (toLower tx.hash)
  withdrawals : ∀ tx ∈ m.pendingTxs, RpcNode.startsWithdrawal cfg tx = true →
    tx.hash ≠ "" ∧ tx.hash ≠ "<nil>"
  anchors : m.height = S.height → ∀ tx ∈ m.pendingTxs, callsAnchor cfg tx = false
  block : toLower (m.nextBlockHash (ω.call 0)) ∉ S.blockIndex.keys

/-- A send, or a block mined on top of `S` that can be taken back. -/
def UndoableStep (cfg : Config) (S n : RpcNode) (ω : Choices) : Event → Prop
  | .sendTransaction tx => cfg.autoMine = true → n.validateTransaction cfg tx = .ok () →
      MineUndoable cfg S { n with pendingTxs := n.pendingTxs ++ [n.txOfObject (ω.call 0) tx ""] }
        (ω.call 1)
  | .sendRawTransaction rawTx => cfg.autoMine = true →
      MineUndoable cfg S { n with pendingTxs := n.pendingTxs ++ [RpcNode.txOfRaw (ω.call 0) rawTx] }
        (ω.call 1)
  | .mineBlock => MineUndoable cfg S n ω
  | _ => False

/-! ## States on top -/

/-- Only the pending list and the files have changed. -/
def Idle (S T : RpcNode) : Prop :=
  ∃ pending disk, T = { S with pendingTxs := pending, disk := disk }

/-- A state on top of `S`: its chain extends that of `S`, and what it holds in addition is
marked by a hash of the blocks above `S` or by a height above `S`. -/
structure Above (S T : RpcNode) : Prop where
  height : S.height ≤ T.height
  blocks : ∃ bs, T.blocks = S.blocks ++ bs
  snapshots : ∀ k ≤ S.height, T.stateSnapshots.get? k = S.stateSnapshots.get? k
  grows : Grows (· ∈ T.removedTxHashes (S.height + 1)) (S.height + 1) T.height S T
  unknown : ∀ hash ∈ T.removedTxHashes (S.height + 1), S.Unknown hash
  indexKept : ∀ key i, S.blockIndex.get? key = some i → T.blockIndex.get? key = some i
  indexNew : ∀ key i, T.blockIndex.get? key = some i →
    S.blockIndex.get? key = some i ∨ (i.canonical = true ∧ S.height + 1 ≤ i.height)
  idle : T.height = S.height → Idle S T

theorem blocksFrom_succ_height {S : RpcNode} (h : ChainOk S) : S.blocksFrom (S.height + 1) = [] := by
  rw [RpcNode.blocksFrom, List.filter_eq_nil_iff]
  intro b hb
  have := h.number_le hb
  simp only [decide_eq_true_eq]
  omega

theorem Above.refl {S : RpcNode} (h : ChainOk S) : Above S S := by
  have hremoved : S.removedTxHashes (S.height + 1) = [] := by
    rw [RpcNode.removedTxHashes, RpcNode.removedTxs, blocksFrom_succ_height h]
    rfl
  refine ⟨le_rfl, ⟨[], (List.append_nil _).symm⟩, fun _ _ => rfl, .refl S, ?_, fun _ _ hi => hi,
    fun _ _ hi => .inl hi, fun _ => ⟨S.pendingTxs, S.disk, rfl⟩⟩
  rw [hremoved]
  intro hash hmem
  cases hmem

/-- Putting transactions on the pending list stays above. -/
theorem Above.pending {S T : RpcNode} (h : Above S T) (txs : List TxRecord) (disk : List Files) :
    Above S { T with pendingTxs := txs, disk := disk } := by
  refine ⟨h.height, h.blocks, h.snapshots, ?_, h.unknown, h.indexKept, h.indexNew, fun hheight => ?_⟩
  · exact h.grows.trans (.of_eq rfl rfl rfl rfl rfl rfl)
  · obtain ⟨pending, disk', hidle⟩ := h.idle hheight
    exact ⟨txs, disk, by rw [hidle]⟩

/-- The withdrawal of a transaction with a hash goes by that hash. -/
theorem withdrawalOf_id {cfg : Config} {tx : TxRecord} (h : tx.hash ≠ "" ∧ tx.hash ≠ "<nil>")
    (ω : Choices) :
    (RpcNode.withdrawalOf cfg ω (RpcNode.withdrawalRequest tx)).id = toLower tx.hash := by
  have htext : text (RpcNode.withdrawalRequest tx) "l2TxHash" = tx.hash := by
    simp only [RpcNode.withdrawalRequest, object, List.foldl_cons, List.foldl_nil, text, field]
    rw [FinMap.get?_insert_self]
    rfl
  show toLower (stringOrDefault (text (RpcNode.withdrawalRequest tx) "l2TxHash") _) = _
  rw [htext, stringOrDefault, if_neg (by tauto)]

/-- The hashes above `S` after a block is mined. -/
theorem removedTxHashes_minePendingBlock {n : RpcNode} (h : ChainOk n) {cfg : Config} {ω : Choices}
    (hlen : (n.minePendingBlock cfg ω).2.blocks.length < 2 ^ 63) (height : ℕ)
    (hle : height ≤ n.height + 1) :
    (n.minePendingBlock cfg ω).2.removedTxHashes height =
      n.removedTxHashes height ++ n.pendingTxs.map fun tx => toLower tx.hash := by
  have happ := minePendingBlock_appended h hlen
  have hnext := h.minePendingBlock hlen
  obtain ⟨block, hash, hblocks, htxs⟩ := happ.blocks
  have hnumber : quantity64 block.number = n.height + 1 := by
    refine hnext.number_of_blockAt (k := n.height + 1) ?_
    rw [RpcNode.blockAt, if_neg (by omega), hblocks, List.getElem?_append_right (by
      rw [h.length]; omega), Nat.add_sub_cancel, h.length, Nat.sub_self]
    rfl
  have hfrom : (n.minePendingBlock cfg ω).2.blocksFrom height = n.blocksFrom height ++ [block] := by
    rw [RpcNode.blocksFrom, hblocks, List.filter_append, RpcNode.blocksFrom,
      List.filter_singleton, hnumber]
    simp [hle]
  rw [RpcNode.removedTxHashes, RpcNode.removedTxHashes, RpcNode.removedTxs, RpcNode.removedTxs,
    hfrom, List.flatMap_append, List.map_append, List.flatMap_singleton, htxs]
  congr 1
  apply List.ext_getElem (by simp)
  intro i h₁ h₂
  simp [RpcNode.requeuedTx, RpcNode.minedTx]

/-- **Mining on top.** A block that can be taken back stays above. -/
theorem Above.minePendingBlock {S T : RpcNode} (h : Above S T) (hchain : ChainOk T) {cfg : Config}
    {ω : Choices} (hok : MineUndoable cfg S T ω)
    (hlen : (T.minePendingBlock cfg ω).2.blocks.length < 2 ^ 63) :
    Above S (T.minePendingBlock cfg ω).2 := by
  have happ := minePendingBlock_appended hchain hlen
  have hheight := happ.height
  have hbound := (hchain.minePendingBlock hlen).bound
  have hle := h.height
  rw [hheight] at hbound
  have hremoved := removedTxHashes_minePendingBlock hchain hlen (S.height + 1) (by omega)
  obtain ⟨record, hindex, hcanonical, hrecord⟩ := T.minePendingBlock_index cfg ω (by omega)
  obtain ⟨bs, hbs⟩ := h.blocks
  obtain ⟨block, _, hblocks, -⟩ := happ.blocks
  obtain ⟨s, _, hsnapshots, -⟩ := happ.stateSnapshots
  refine ⟨by omega, ⟨bs ++ [block], by rw [hblocks, hbs, List.append_assoc]⟩, fun k hk => ?_, ?_, ?_,
    fun key i hi => ?_, fun key i hi => ?_, by omega⟩
  · rw [hsnapshots, FinMap.get?_insert_of_ne _ _ (by omega), h.snapshots k hk]
  · have hmono : Grows (· ∈ (T.minePendingBlock cfg ω).2.removedTxHashes (S.height + 1))
        (S.height + 1) (T.minePendingBlock cfg ω).2.height S T :=
      h.grows.mono (fun hash hmem => by rw [hremoved]; exact List.mem_append_left _ hmem)
        (by omega)
    refine hmono.trans (RpcNode.minePendingBlock_grows (fun tx htx => ?_) (by omega)
      hheight.ge (by omega))
    have hmem : toLower tx.hash ∈ (T.minePendingBlock cfg ω).2.removedTxHashes (S.height + 1) := by
      rw [hremoved]
      exact List.mem_append_right _ (List.mem_map.mpr ⟨tx, htx, rfl⟩)
    refine ⟨hmem, fun ω hstarts => ?_, fun hcalls => ?_⟩
    · rwa [withdrawalOf_id (hok.withdrawals tx htx hstarts)]
    · by_contra hlt
      have hanchor := hok.anchors (by omega) tx htx
      rw [hcalls] at hanchor
      cases hanchor
  · rw [hremoved]
    intro hash hmem
    rcases List.mem_append.mp hmem with hmem | hmem
    · exact h.unknown hash hmem
    · obtain ⟨tx, htx, rfl⟩ := List.mem_map.mp hmem
      exact hok.hashes tx htx
  · rw [hindex, FinMap.get?_insert_of_ne]
    · exact h.indexKept key i hi
    · rintro rfl
      exact hok.block (FinMap.mem_keys.mpr ⟨i, hi⟩)
  · rw [hindex, FinMap.get?_insert] at hi
    split at hi
    · cases hi
      exact .inr ⟨hcanonical, by omega⟩
    · exact h.indexNew key i hi

theorem Above.next {S T : RpcNode} (h : Above S T) (hchain : ChainOk T) {cfg : Config} {ω : Choices}
    {e : Event} (hok : UndoableStep cfg S T ω e) (hlen : (T.next cfg ω e).blocks.length < 2 ^ 63) :
    Above S (T.next cfg ω e) := by
  have henqueue : ∀ (ω : Choices) (record : TxRecord), (T.enqueue cfg ω record).blocks.length < 2 ^ 63 →
      (cfg.autoMine = true →
        MineUndoable cfg S { T with pendingTxs := T.pendingTxs ++ [record] } ω) →
      Above S (T.enqueue cfg ω record) := by
    intro ω record hlen hmine
    have hpending : Above S { T with pendingTxs := T.pendingTxs ++ [record] } :=
      h.pending (T.pendingTxs ++ [record]) T.disk
    rw [RpcNode.enqueue] at hlen ⊢
    by_cases hauto : cfg.autoMine = true
    · rw [if_pos hauto] at hlen ⊢
      exact hpending.minePendingBlock (hchain.of_eq rfl rfl rfl rfl rfl) (hmine hauto) hlen
    · rw [if_neg hauto]
      exact h.pending _ _
  cases e with
  | sendTransaction tx =>
      rw [RpcNode.next] at hlen ⊢
      rcases T.sendTransaction_cases cfg ω tx with heq | ⟨hvalid, heq⟩
      · rw [heq]; exact h
      · rw [heq] at hlen ⊢
        exact henqueue _ _ hlen fun hauto => hok hauto hvalid
  | sendRawTransaction rawTx => exact henqueue _ _ hlen hok
  | mineBlock => exact h.minePendingBlock hchain hok hlen
  | _ => exact hok.elim

/-! ## Taking it back -/

/-- The result agrees with `S` in every record, and what was mined is pending again. -/
structure Undone (S T n : RpcNode) : Prop where
  height : n.height = S.height
  blocks : n.blocks = S.blocks
  canonical : n.canonical = S.canonical
  world : S.world.Agree n.world
  txs : n.txs = S.txs
  receipts : n.receipts = S.receipts
  logs : n.logs = S.logs
  withdrawals : n.withdrawals = S.withdrawals
  anchors : n.anchors = S.anchors
  stateSnapshots : n.stateSnapshots = S.stateSnapshots
  blockIndex : n.blockIndex = S.blockIndex
  trieCommits : n.trieCommits = S.trieCommits
  pendingTxs : n.pendingTxs = T.pendingTxs ++
    (T.blocks.drop S.height).flatMap fun b => b.transactions.map RpcNode.requeuedTx

omit [Platform] in
/-- Filtering keeps the old part of a list and drops the new one. -/
theorem filter_append_eq_left {α : Type} {p : α → Bool} {l l' : List α} (h : ∀ a ∈ l, p a = true)
    (h' : ∀ a ∈ l', p a = false) : (l ++ l').filter p = l := by
  rw [List.filter_append, List.filter_eq_self.mpr h, List.filter_eq_nil_iff.mpr fun a ha => by
    rw [h' a ha]; exact Bool.false_ne_true, List.append_nil]

section Rollback
variable {S T : RpcNode} {ω : Choices} {snapshot : StateSnapshotRecord}

theorem Above.txs_rollback (h : Above S T) :
    (T.rollback ω (S.height + 1) snapshot).txs = S.txs := by
  obtain ⟨l, hl, hmem⟩ := h.grows.txs
  show T.txs.filter (fun tx => decide (toLower tx.hash ∉ T.removedTxHashes (S.height + 1))) = S.txs
  rw [hl]
  apply filter_append_eq_left
  · intro tx htx
    exact decide_eq_true fun hremoved => (h.unknown _ hremoved).txs tx htx rfl
  · intro tx htx
    exact decide_eq_false (not_not_intro (hmem tx htx))

theorem Above.receipts_rollback (h : Above S T) :
    (T.rollback ω (S.height + 1) snapshot).receipts = S.receipts := by
  ext1 key
  refine (FinMap.get?_foldl_erase id (T.removedTxHashes (S.height + 1)) T.receipts key).trans ?_
  rw [List.map_id]
  split
  · next hmem => exact (FinMap.get?_eq_none.mpr (h.unknown key hmem).receipts).symm
  · next hmem => exact h.grows.receipts key hmem

theorem Above.logs_rollback (h : Above S T) (hS : StampsOk S) :
    (T.rollback ω (S.height + 1) snapshot).logs = S.logs := by
  obtain ⟨l, hl, hmem⟩ := h.grows.logs
  show T.logs.filter (fun lg => !T.isRemovedLog (S.height + 1) lg) = S.logs
  rw [hl]
  apply filter_append_eq_left
  · intro lg hlg
    have hnumber := hS.logs lg hlg
    rw [RpcNode.isRemovedLog, Bool.not_eq_true', Bool.or_eq_false_iff]
    refine ⟨decide_eq_false (by omega), decide_eq_false fun hremoved => ?_⟩
    exact (h.unknown _ hremoved).logs lg hlg rfl
  · intro lg hlg
    rw [RpcNode.isRemovedLog, decide_eq_true (hmem lg hlg).1, Bool.or_true]
    rfl

theorem Above.withdrawals_rollback (h : Above S T) (hT : StampsOk T) :
    (T.rollback ω (S.height + 1) snapshot).withdrawals = S.withdrawals := by
  ext1 key
  by_cases hmem : key ∈ T.removedTxHashes (S.height + 1)
  · rw [FinMap.get?_eq_none.mpr (h.unknown key hmem).withdrawals]
    refine FinMap.get?_filter_of_drop fun w hw => ?_
    rw [hT.withdrawals key w hw]
    exact decide_eq_false (not_not_intro hmem)
  · rw [← h.grows.withdrawals key hmem]
    refine FinMap.get?_filter_of_keep fun w hw => ?_
    rw [hT.withdrawals key w hw]
    exact decide_eq_true hmem

theorem Above.anchors_rollback (h : Above S T) (hS : ∀ k ∈ S.anchors.keys, k ≤ S.height) :
    (T.rollback ω (S.height + 1) snapshot).anchors = S.anchors := by
  ext1 k
  by_cases hk : k < S.height + 1
  · rw [← h.grows.anchors k hk]
    exact FinMap.get?_filter_of_keep fun _ _ => decide_eq_true hk
  · have hnone : S.anchors.get? k = none := by
      rw [FinMap.get?_eq_none]
      intro hmem
      have := hS k hmem
      omega
    rw [hnone]
    exact FinMap.get?_filter_of_drop fun _ _ => decide_eq_false hk

theorem Above.snapshots_rollback (h : Above S T) (hS : ChainOk S) :
    (T.rollback ω (S.height + 1) snapshot).stateSnapshots = S.stateSnapshots := by
  ext1 k
  by_cases hk : k < S.height + 1
  · rw [← h.snapshots k (by omega)]
    exact FinMap.get?_filter_of_keep fun _ _ => decide_eq_true hk
  · have hnone : S.stateSnapshots.get? k = none :=
      hS.noSnapshot k ((hS.blockAt_eq_none_iff k).mpr (by omega))
    rw [hnone]
    exact FinMap.get?_filter_of_drop fun _ _ => decide_eq_false hk

theorem Above.index_rollback (h : Above S T) (hS : StampsOk S) :
    (T.rollback ω (S.height + 1) snapshot).blockIndex = S.blockIndex := by
  ext1 key
  cases hi : S.blockIndex.get? key with
  | some i =>
      have hT := h.indexKept key i hi
      rw [← hT]
      refine FinMap.get?_filter_of_keep fun i' hi' => ?_
      rw [hT] at hi'
      cases hi'
      rw [Bool.not_eq_true', Bool.and_eq_false_iff]
      by_cases hcanonical : i.canonical = true
      · have := hS.index key i hi hcanonical
        exact .inr (decide_eq_false (by omega))
      · exact .inl (Bool.eq_false_iff.mpr hcanonical)
  | none =>
      refine FinMap.get?_filter_of_drop fun i hT => ?_
      rcases h.indexNew key i hT with hi' | ⟨hcanonical, hle⟩
      · rw [hi] at hi'
        cases hi'
      · simp [hcanonical, hle]

theorem Above.commits_rollback (h : Above S T) (hS : StampsOk S) :
    (T.rollback ω (S.height + 1) snapshot).trieCommits = S.trieCommits := by
  obtain ⟨l, hl, hmem⟩ := h.grows.commits
  show T.trieCommits.filter (fun c => decide (c.height < S.height + 1)) = S.trieCommits
  rw [hl]
  apply filter_append_eq_left
  · intro c hc
    have := hS.commits c hc
    exact decide_eq_true (by omega)
  · intro c hc
    have := (hmem c hc).1
    exact decide_eq_false (by omega)

/-- Rolling back to `S` undoes everything above it. -/
theorem Above.rollback (h : Above S T) (hS : ChainOk S) (hT : ChainOk T) (hstamps : StampsOk S)
    (hstamps' : StampsOk T) (hspell : SpellOk S) (hanchors : ∀ k ∈ S.anchors.keys, k ≤ S.height)
    (hlt : S.height < T.height) (hs : T.stateSnapshots.get? S.height = some snapshot) :
    Undone S T (T.rollback ω (S.height + 1) snapshot).save := by
  have hpos := hS.pos
  have hsnapshot : S.stateSnapshots.get? S.height = some snapshot := by
    rw [← h.snapshots S.height le_rfl, hs]
  have hrolled : ChainOk (T.rollback ω (S.height + 1) snapshot) :=
    hT.rollback (by omega) (by omega) (by rwa [Nat.add_sub_cancel])
  obtain ⟨bs, hbs⟩ := h.blocks
  have hblocks : (T.rollback ω (S.height + 1) snapshot).blocks = S.blocks := by
    refine (filter_lt_eq_take hT.numbers (S.height + 1)).trans ?_
    rw [Nat.add_sub_cancel, hbs, List.take_left' hS.length]
  have hheight : (T.rollback ω (S.height + 1) snapshot).height = S.height := by
    rw [← hrolled.length, hblocks, hS.length]
  have hpending : T.removedTxs (S.height + 1) = (T.blocks.drop S.height).flatMap fun b =>
      b.transactions.map RpcNode.requeuedTx := by
    rw [RpcNode.removedTxs, RpcNode.blocksFrom, filter_le_eq_drop hT.numbers, Nat.add_sub_cancel]
  refine ⟨hheight, hblocks, ?_, ?_, h.txs_rollback, h.receipts_rollback, h.logs_rollback hstamps,
    h.withdrawals_rollback hstamps', h.anchors_rollback hanchors, h.snapshots_rollback hS,
    h.index_rollback hstamps, ?_, ?_⟩
  · ext1 k
    refine (hrolled.canonical k).trans ?_
    rw [hS.canonical, RpcNode.blockAt, RpcNode.blockAt, hblocks]
  · show S.world.Agree (snapshot.world.copy ω)
    rw [(hspell.snapshots _ _ hsnapshot).copy_eq]
    exact hspell.head snapshot hsnapshot
  · show (T.rollback ω (S.height + 1) snapshot).trieCommits = _
    exact h.commits_rollback hstamps
  · show T.pendingTxs ++ T.removedTxs (S.height + 1) = _
    rw [hpending]

end Rollback

theorem Idle.undone {S T : RpcNode} (h : Idle S T) (hS : ChainOk S) : Undone S T T := by
  obtain ⟨pending, disk, rfl⟩ := h
  refine ⟨rfl, rfl, rfl, .refl _, rfl, rfl, rfl, rfl, rfl, rfl, rfl, rfl, ?_⟩
  rw [show S.blocks.drop S.height = [] from List.drop_of_length_le hS.length.le]
  exact (List.append_nil _).symm

theorem ReachableBy.stampsOk {cfg : Config} {ok : RpcNode → Choices → Event → Prop} {n : RpcNode}
    (h : ReachableBy cfg ok n) : StampsOk n := by
  have hinv : ChainOk n ∧ StampsOk n := by
    refine h.induct (P := fun n => ChainOk n ∧ StampsOk n) (fun ω => ⟨chainOk_fresh cfg ω, ?_⟩)
      fun _ _ _ hn _ hlen => ⟨hn.1.next hlen, hn.2.next hn.1 hlen⟩
    obtain ⟨ω₁, l, timestamp, heq, hl⟩ := newRPCNode_fresh cfg ω
    rw [heq]
    refine ⟨fun lg hlg => ?_, fun c hc => (hl c hc).1.le, fun key i hi _ => ?_, fun key w hw => ?_⟩
    · cases hlg
    · rw [FinMap.get?_insert] at hi
      split at hi
      · cases hi
        exact le_rfl
      · cases hi
    · cases hw
  exact hinv.2

theorem Above.of_run {cfg : Config} {S T : RpcNode} (hchain : ChainOk S) (hstamps : StampsOk S)
    (hrun : Relation.ReflTransGen (Step cfg (UndoableStep cfg S)) S T) :
    ChainOk T ∧ StampsOk T ∧ Above S T := by
  induction hrun with
  | refl => exact ⟨hchain, hstamps, .refl hchain⟩
  | tail _ hstep ih =>
      obtain ⟨ω, e, hok, rfl, hlen⟩ := hstep
      exact ⟨ih.1.next hlen, ih.2.1.next ih.1 hlen, ih.2.2.next ih.1 hok hlen⟩

/-- **Reorganisation undoes mining.** On top of a reachable state without anchors above its
head, sends and undoable blocks are taken back by a reorganisation at the next height. -/
theorem handleReorg_undoes {cfg : Config} {S T : RpcNode} (hS : ReachableBy cfg (AlikeStep cfg) S)
    (hanchors : ∀ k ∈ S.anchors.keys, k ≤ S.height)
    (hrun : Relation.ReflTransGen (Step cfg (UndoableStep cfg S)) S T) {ω : Choices} {x : String}
    (hx : equalFold ((T.canonical.get? (S.height + 1)).getD "") x = false) :
    Undone S T (T.handleReorg ω (S.height + 1) x).2 := by
  obtain ⟨hchain, -, hspell⟩ := hS.spellOk fun _ _ _ h => h
  have hstamps := hS.stampsOk
  obtain ⟨hT, hstamps', habove⟩ := Above.of_run hchain hstamps hrun
  have hpos := hchain.pos
  have hcanonical := hT.canonical_eq_empty_iff (S.height + 1)
  rw [RpcNode.handleReorg, if_neg (by omega)]
  dsimp only
  by_cases hmined : S.height < T.height
  · obtain ⟨s, hs, -⟩ := hchain.snapshot _ _ hchain.blockAt_height
    rw [← habove.snapshots S.height le_rfl] at hs
    rw [if_neg, Nat.add_sub_cancel, hs]
    · exact habove.rollback hchain hT hstamps hstamps' hspell hanchors hmined hs
    · rintro (hempty | hfold)
      · exact hcanonical.mp hempty ⟨by omega, by omega⟩
      · rw [hx] at hfold
        cases hfold
  · rw [if_pos (.inl (hcanonical.mpr (by omega)))]
    have hheight := habove.height
    exact (habove.idle (by omega)).undone hchain

/-! ## A raw transaction taken back -/

/-- A raw transaction sent to a fresh node is mined into a block that can be taken back. -/
theorem undoable_sendRaw (hgenesis : ∀ parent height unixNano txs,
      blockHash parent height unixNano txs ≠ hashHex (utf8 "bhte-genesis"))
    {S : RpcNode} {ω : Choices} (hS : S = newRPCNode {} ω {}) (rawTx : String) (ω₁ : Choices) :
    UndoableStep {} S S ω₁ (.sendRawTransaction rawTx) := by
  obtain ⟨ω₂, l, timestamp, hfresh, -⟩ := newRPCNode_fresh {} ω
  rw [hfresh] at hS
  intro _
  have hpending : S.pendingTxs ++ [RpcNode.txOfRaw (ω₁.call 0) rawTx] =
      [RpcNode.txOfRaw (ω₁.call 0) rawTx] := by rw [hS]; rfl
  refine ⟨fun tx _ => ⟨?_, ?_, ?_, ?_⟩, ?_, ?_, ?_⟩
  · rw [hS]; exact fun _ h => nomatch h
  · rw [hS]; exact List.not_mem_nil
  · rw [hS]; exact fun _ h => nomatch h
  · rw [hS]; exact List.not_mem_nil
  · rw [hpending]
    intro tx htx
    cases List.mem_singleton.mp htx
    intro h
    simp [RpcNode.startsWithdrawal, RpcNode.txOfRaw] at h
  · rw [hpending]
    intro _ tx htx
    cases List.mem_singleton.mp htx
    simp [callsAnchor, RpcNode.txOfRaw]
  · have hkeys : ∀ key ∈ S.blockIndex.keys, key = toLower (hashHex (utf8 "bhte-genesis")) := by
      rw [hS]
      intro key hkey
      rcases FinMap.mem_keys_insert.mp hkey with rfl | hkey
      · rfl
      · cases hkey
    intro hmem
    have hlower := hkeys _ hmem
    rw [RpcNode.nextBlockHash, blockHash, toLower_hashHex, toLower_hashHex] at hlower
    exact hgenesis _ _ _ _ hlower

/-- What a fresh node is after a raw transaction. -/
theorem fresh_sendRaw {S T : RpcNode} {ω ω₁ : Choices} (hS : S = newRPCNode {} ω {}) {rawTx : String}
    (hnext : T = S.next {} ω₁ (.sendRawTransaction rawTx)) :
    (∀ k ∈ S.anchors.keys, k ≤ S.height) ∧ T.blocks.length < 2 ^ 63 ∧ T.height = S.height + 1 ∧
      equalFold ((T.canonical.get? (S.height + 1)).getD "") "" = false := by
  have hchain : ChainOk S := hS ▸ chainOk_fresh {} ω
  obtain ⟨ω₂, l, timestamp, hfresh, -⟩ := newRPCNode_fresh {} ω
  rw [hfresh] at hS
  have hheight : S.height = 1 := by rw [hS]
  obtain ⟨queued, hqueued⟩ : ∃ q : RpcNode, q =
      { S with pendingTxs := S.pendingTxs ++ [RpcNode.txOfRaw (ω₁.call 0) rawTx] } := ⟨_, rfl⟩
  have hmined : T = (queued.minePendingBlock {} (ω₁.call 1)).2 := by
    rw [hnext, hqueued]
    rfl
  have hqchain : ChainOk queued := hqueued ▸ hchain.of_eq rfl rfl rfl rfl rfl
  have hqheight : queued.height = 1 := by rw [hqueued]; exact hheight
  have hT := mined_of_height_lt hqchain (by rw [hqheight]; decide) {} (ω₁.call 1)
  rw [← hmined, hqheight] at hT
  obtain ⟨hlen, hTchain, hTheight⟩ := hT
  refine ⟨?_, hlen, by omega, ?_⟩
  · rw [hS]
    intro k hk
    cases hk
  · exact equalFold_canonical_empty hTchain (by omega)

omit [Platform] in
/-- A fresh node that mines a raw transaction is taken back to where it was. -/
theorem handleReorg_undoes_sendRaw :
    letI := Platform.checksums
    let S := newRPCNode {} default {}
    let T := S.next {} default (.sendRawTransaction "0x01")
    T.height = S.height + 1 ∧ Undone S T (T.handleReorg default (S.height + 1) "").2 := by
  let _ := Platform.checksums
  intro S T
  have hS : S = newRPCNode {} default {} := rfl
  have hT : T = S.next {} default (.sendRawTransaction "0x01") := rfl
  clear_value S T
  obtain ⟨hanchors, hlen, hheight, hfold⟩ := fresh_sendRaw hS hT
  have hreach : ReachableBy {} (AlikeStep {}) S := hS ▸ ⟨default, .refl⟩
  have hundoable := undoable_sendRaw (blockHash_ne_genesis fun _ => rfl) hS "0x01" default
  have hstep : Step {} (UndoableStep {} S) S T := ⟨default, _, hundoable, hT, hlen⟩
  exact ⟨hheight, handleReorg_undoes hreach hanchors (.single hstep) hfold⟩

/-! ## A commit that stays -/

/-- A root that is not recorded yet is recorded. -/
theorem exists_mem_persistTrieNodes {n : RpcNode} {ω : Choices} {root kind : String} {height : ℕ}
    {nodes : Option (List TrieNode)} (hnodes : nodes.isSome = true)
    (hnew : ∀ c ∈ n.trieCommits, equalFold c.root root = false) :
    ∃ c ∈ (n.persistTrieNodes ω root kind height nodes).trieCommits,
      c.root = root ∧ c.height = height := by
  obtain ⟨l, rfl⟩ := Option.isSome_iff_exists.mp hnodes
  rw [RpcNode.persistTrieNodes, if_neg]
  · exact ⟨_, List.mem_append_right _ List.mem_cons_self, rfl, rfl⟩
  · rw [Bool.not_eq_true, List.any_eq_false]
    intro c hc
    simp [hnew c hc]

def bridge : String := "0x0000000000000000000000000000000000000200"

/-- A call of the bridge that submits an anchor. -/
def anchorCall : Object :=
  object [("from", .str defaultAccount), ("to", .str bridge), ("data", .str "0x3de90c0b")]

theorem normalizeAddress_bridge : normalizeAddress bridge = bridge := by
  rw [normalizeAddress, toLower_of_ascii (by decide)]
  decide

omit [Platform] in
theorem isHexAddress_bridge : isHexAddress bridge = true := by
  decide +kernel

theorem text_anchorCall : text anchorCall "from" = defaultAccount ∧ text anchorCall "to" = bridge ∧
    text anchorCall "value" = "<nil>" ∧ text anchorCall "data" = "0x3de90c0b" :=
  ⟨text_of_str rfl, text_of_str rfl, text_of_null rfl, text_of_str rfl⟩

/-- A call of the bridge by the default account is accepted by a fresh node. -/
theorem validate_bridgeCall {n : RpcNode} {tx : Object} (htext : text tx "from" = defaultAccount ∧
      text tx "to" = bridge ∧ text tx "value" = "<nil>")
    (hgas : field tx "gas" = .null) (hnonce : tx.get? "nonce" = none)
    (h : n.world = freshWorld {}) : n.validateTransaction {} tx = .ok () := by
  obtain ⟨hfrom, hto, hvalue⟩ := htext
  have hbalance : (freshWorld {}).balance defaultAccount = 1000 * 10 ^ 18 := by
    rw [freshWorld_default]
    decide +kernel
  refine RpcNode.validateTransaction_of_covered (hfrom ▸ normalizeAddress_defaultAccount)
    (hto ▸ normalizeAddress_bridge) (hvalue ▸ parseQuantity_nil) hgas (by decide) hnonce
    isHexAddress_defaultAccount (.inr isHexAddress_bridge) ?_
  rw [h, hbalance]
  decide

theorem validate_anchorCall {n : RpcNode} (h : n.world = freshWorld {}) :
    n.validateTransaction {} anchorCall = .ok () := by
  obtain ⟨hfrom, hto, hvalue, -⟩ := text_anchorCall
  exact validate_bridgeCall ⟨hfrom, hto, hvalue⟩ rfl rfl h

/-- The record of such a call, whatever the node and the clock. -/
theorem bridgeCall_record {tx : Object} {data : String} (htext : text tx "from" = defaultAccount ∧
      text tx "to" = bridge ∧ text tx "value" = "<nil>" ∧ text tx "data" = data)
    (hdata : ∀ s, stringOrDefault data s = data) (n : RpcNode) (ω : Choices) :
    (n.txOfObject ω tx "").sender = defaultAccount ∧
    (n.txOfObject ω tx "").recipient = bridge ∧
    (n.txOfObject ω tx "").value = hexText 0 ∧
    (n.txOfObject ω tx "").input = data := by
  obtain ⟨hfrom, hto, hvalue, htext⟩ := htext
  rw [RpcNode.txOfObject, hfrom, hto, hvalue, htext, normalizeAddress_defaultAccount,
    normalizeAddress_bridge, parseQuantity_nil, hdata]
  exact ⟨rfl, rfl, rfl, rfl⟩

theorem anchorCall_record (n : RpcNode) (ω : Choices) :
    (n.txOfObject ω anchorCall "").sender = defaultAccount ∧
    (n.txOfObject ω anchorCall "").recipient = bridge ∧
    (n.txOfObject ω anchorCall "").value = hexText 0 ∧
    (n.txOfObject ω anchorCall "").input = "0x3de90c0b" :=
  bridgeCall_record text_anchorCall (fun _ => rfl) n ω

theorem isAnchorCall_record {tx : TxRecord} (h : tx.input = "0x3de90c0b") :
    isAnchorCall tx = true ∧ isWithdrawalCall tx = false := by
  have hlower : toLower "0x3de90c0b" = "0x3de90c0b" := by
    rw [toLower_of_ascii (by decide)]
    decide
  have htrim : trimSpace "0x3de90c0b" = "0x3de90c0b" := by decide
  have hselector : abiSelector "0x3de90c0b" = "0x3de90c0b" :=
    abiSelector_eq_self (by rw [htrim, hlower]) (by decide)
  rw [isAnchorCall, isWithdrawalCall, h, hselector, hlower]
  decide

/-- Executing an anchor call on a node without storage records the root of the accounts after
its transfer, at the height of the parent. -/
theorem commit_of_anchorCall {n : RpcNode} {tx : TxRecord} {blockHash : String} {blockNumber : ℕ}
    (hrecipient : tx.recipient = bridge) (hinput : tx.input = "0x3de90c0b")
    (hstorage : n.world.storage = ∅) {root : String} {ω : Choices}
    (hroot : root = stateTrieRoot ((n.world.transfer tx).copy (((ω.call 1).call 0).call 1 |>.call 0)))
    (hnodes : (Platform.trieNodes (buildStateTrieFromSnapshot
      ((n.world.transfer tx).copy (((ω.call 1).call 0).call 1 |>.call 0)))).isSome = true)
    (hnew : ∀ c ∈ n.trieCommits, equalFold c.root root = false) (index : ℕ) :
    ∃ c ∈ (n.applyMinedTransaction {} ω tx blockHash blockNumber index).2.2.trieCommits,
      c.root = root ∧ c.height = n.height := by
  let m : RpcNode := { n with world := n.world.transfer tx }
  let mined := RpcNode.minedTx tx blockHash blockNumber index
  obtain ⟨hanchor, hwithdrawal⟩ := @isAnchorCall_record _ mined hinput
  have hexec : (n.applyMinedTransaction {} ω tx blockHash blockNumber index).2.2 =
      (m.bridgeWithdrawal {} (ω.call 0) mined).bridgeAnchor (ω.call 1) mined blockHash
        blockNumber := by
    rcases m.executeTransaction_cases {} ω mined blockHash blockNumber index with
      ⟨-, -, heq⟩ | ⟨hnot, -⟩
    · exact heq
    · exact absurd ⟨by rw [show mined.recipient = bridge from hrecipient]; decide, hrecipient⟩ hnot
  have hcompute := m.computeStateTrieRoot_of_empty ((World.transfer_frame _ _).2.trans hstorage)
    ((ω.call 1).call 0)
  rw [hexec, RpcNode.bridgeWithdrawal, if_neg (by rw [hwithdrawal]; simp), RpcNode.bridgeAnchor,
    if_pos hanchor]
  dsimp only
  rw [(RpcNode.submitAnchor_frame _ _ _).2.2, hcompute]
  obtain ⟨c, hc, hcroot, hcheight⟩ := exists_mem_persistTrieNodes (n := m) hnodes (hroot ▸ hnew)
  exact ⟨c, hc, hcroot.trans hroot.symm, hcheight⟩

/-- What executing the only pending transaction commits is among the commits of the block. -/
theorem mem_commits_minePendingBlock {n : RpcNode} {cfg : Config} {ω : Choices} {tx : TxRecord}
    (h : n.pendingTxs = [tx]) {c : TrieCommitRecord}
    (hc : c ∈ (RpcNode.applyMinedTransaction { n with pendingTxs := [] } cfg ((ω.call 1).call 0) tx
      (n.nextBlockHash (ω.call 0)) (u64 (n.height + 1)) 0).2.2.trieCommits) :
    c ∈ (n.minePendingBlock cfg ω).2.trieCommits := by
  obtain ⟨block, l, heq, -⟩ := n.minePendingBlock_eq cfg ω
  have htxs : c ∈ (n.minePendingTxs cfg ω).2.2.trieCommits := by
    rw [RpcNode.minePendingTxs, h]
    exact hc
  rw [heq]
  exact List.mem_append_left l htxs

/-- A reorganisation at the second height keeps the commits below it. -/
theorem commits_handleReorg {n : RpcNode} (h : ChainOk n) (hheight : 2 ≤ n.height) (ω : Choices) :
    (n.handleReorg ω 2 "").2.trieCommits = n.trieCommits.filter fun c => c.height < 2 := by
  have hfold := equalFold_canonical_empty h (k := 2) ⟨by omega, hheight⟩
  have hsnapshot : ∃ s, n.stateSnapshots.get? 1 = some s := by
    cases hb : n.blockAt 1 with
    | none => exact absurd ⟨le_rfl, by omega⟩ ((h.blockAt_eq_none_iff 1).mp hb)
    | some b =>
        obtain ⟨s, hs, -⟩ := h.snapshot 1 b hb
        exact ⟨s, hs⟩
  obtain ⟨s, hs⟩ := hsnapshot
  rw [RpcNode.handleReorg, if_neg (by omega)]
  dsimp only
  rw [if_neg, hs]
  · rfl
  · rintro (hempty | hfold')
    · rw [hempty, equalFold_refl] at hfold
      cases hfold
    · rw [hfold] at hfold'
      cases hfold'

/-- Sent to a fresh node and mined at once, the call leaves its commit under the height of the
genesis block, and a reorganisation keeps it. -/
theorem reorg_anchorCall {n : RpcNode} (hchain : ChainOk n) (hheight : n.height = 1)
    (hworld : n.world = freshWorld {}) (hempty : n.pendingTxs = []) (root : String) {ω ω₁ : Choices}
    (hcommits : ∀ c ∈ n.trieCommits, c.root = root)
    (hω₁ : ω₁ = ((((((ω.call 1).call 1).call 0).call 1).call 0).call 1).call 0)
    (hnodes : (Platform.trieNodes (buildStateTrieFromSnapshot ((World.transfer (freshWorld {})
      (n.txOfObject (ω.call 0) anchorCall "")).copy ω₁))).isSome = true)
    (hroots : equalFold root (stateTrieRoot ((World.transfer (freshWorld {})
      (n.txOfObject (ω.call 0) anchorCall "")).copy ω₁)) = false) :
    let T := n.next {} ω (.sendTransaction anchorCall)
    T.height = 2 ∧ equalFold ((T.canonical.get? 2).getD "") "" = false ∧
      (T.handleReorg ω 2 "").2.trieCommits ≠ n.trieCommits := by
  intro T
  obtain ⟨-, hrecipient, -, hinput⟩ := anchorCall_record n (ω.call 0)
  generalize htx : n.txOfObject (ω.call 0) anchorCall "" = tx at *
  obtain ⟨queued, hqueued⟩ : ∃ q : RpcNode, q = { n with pendingTxs := n.pendingTxs ++ [tx] } :=
    ⟨_, rfl⟩
  have hT : T = (queued.minePendingBlock {} (ω.call 1)).2 := by
    show (n.sendTransaction {} ω anchorCall).2 = _
    rw [RpcNode.sendTransaction, validate_anchorCall hworld, RpcNode.addChecked,
      RpcNode.addPendingTransaction, RpcNode.enqueue, htx, hqueued]
    rfl
  have hqchain : ChainOk queued := hqueued ▸ hchain.of_eq rfl rfl rfl rfl rfl
  have hqheight : queued.height = 1 := by rw [hqueued]; exact hheight
  have hqworld : queued.world = freshWorld {} := by rw [hqueued]; exact hworld
  have hqcommits : queued.trieCommits = n.trieCommits := by rw [hqueued]
  have hqpending : queued.pendingTxs = [tx] := by
    rw [hqueued]
    show n.pendingTxs ++ [tx] = _
    rw [hempty]
    rfl
  have hmined := mined_of_height_lt hqchain (by rw [hqheight]; decide) {} (ω.call 1)
  rw [← hT, hqheight] at hmined
  obtain ⟨-, hTchain, hTheight⟩ := hmined
  have hreorg := commits_handleReorg hTchain hTheight.ge ω
  refine ⟨hTheight, equalFold_canonical_empty hTchain (by omega), fun heq => ?_⟩
  obtain ⟨c, hc, hroot, hcheight⟩ : ∃ c ∈ T.trieCommits, c.root = stateTrieRoot ((World.transfer
      (freshWorld {}) tx).copy ω₁) ∧ c.height = 1 := by
    rw [hT]
    obtain ⟨c, hc, hroot, hcheight⟩ := commit_of_anchorCall (n := { queued with pendingTxs := [] })
      hrecipient hinput (by rw [hqworld]; rfl) rfl (by rw [hqworld, ← hω₁]; exact hnodes)
      (fun c hc => by
        rw [hcommits c (hqcommits ▸ hc), hqworld, ← hω₁]
        exact hroots) 0
    refine ⟨c, mem_commits_minePendingBlock hqpending hc, ?_, hcheight.trans hqheight⟩
    rw [hroot, hqworld, ← hω₁]
  -- the commit is kept, but its root is not one of a fresh node
  have hkept : c ∈ (T.handleReorg ω 2 "").2.trieCommits := by
    rw [hreorg, List.mem_filter, hcheight]
    exact ⟨hc, by decide⟩
  rw [heq] at hkept
  rw [← hroot, hcommits c hkept, equalFold_refl] at hroots
  cases hroots

/-- The accounts before and after the call. -/
def singleAccount : World :=
  { balances := (∅ : FinMap String String).insert defaultAccount initialBalance }

def afterAnchorCall : World :=
  ((singleAccount.debit defaultAccount 0).credit bridge 0).bumpNonce defaultAccount

theorem transfer_anchorCall (n : RpcNode) (ω : Choices) :
    World.transfer (freshWorld {}) (n.txOfObject ω anchorCall "") = afterAnchorCall := by
  obtain ⟨hsender, hrecipient, hvalue, -⟩ := anchorCall_record n ω
  rw [World.transfer, hsender, hrecipient, hvalue, parseQuantity_hexText, freshWorld_default,
    if_pos ⟨by decide, by decide⟩]
  rfl

/-- The trie of the default account alone has one update. -/
theorem length_trie_le (ω : Choices) :
    (buildStateTrieFromSnapshot (singleAccount.copy ω)).length ≤ 1 := by
  have hnormal := freshWorld_normal {}
  rw [freshWorld_default] at hnormal
  have hcopy : singleAccount.copy ω = singleAccount := hnormal.copy_eq ω
  rw [hcopy, buildStateTrieFromSnapshot, List.length_map]
  have hsubset : sortedSnapshotAccounts singleAccount ⊆ [defaultAccount] := by
    intro a ha
    obtain ⟨-, k, hk, rfl⟩ := mem_sortedAddresses.mp ha
    simp only [List.mem_append] at hk
    have hk : k ∈ ((∅ : FinMap String String).insert defaultAccount initialBalance).keys := by
      rcases hk with ((hk | hk) | hk) | hk
      · exact hk
      · cases hk
      · cases hk
      · cases hk
    rcases FinMap.mem_keys_insert.mp hk with rfl | hk
    · rw [normalizeAddress_defaultAccount]
      exact List.mem_cons_self
    · cases hk
  exact (List.subperm_of_subset (nodup_sortedAddresses _) hsubset).length_le

/-- After the call the trie has an update for the bridge as well. -/
theorem two_le_length_trie (ω : Choices) :
    2 ≤ (buildStateTrieFromSnapshot (afterAnchorCall.copy ω)).length := by
  have hkeys : defaultAccount ∈ (afterAnchorCall.copy ω).balances.keys ∧
      bridge ∈ (afterAnchorCall.copy ω).balances.keys := by
    have hmem : ∀ a ∈ afterAnchorCall.balances.keys,
        normalizeAddress a ∈ (afterAnchorCall.copy ω).balances.keys :=
      fun a ha => FinMap.mem_keys_rekey _ (FinMap.range_perm _ _) ha
    have h₁ := hmem defaultAccount (FinMap.mem_keys_insert.mpr (.inr ?_))
    have h₂ := hmem bridge (FinMap.mem_keys_insert.mpr (.inl rfl))
    · rw [normalizeAddress_defaultAccount] at h₁
      rw [normalizeAddress_bridge] at h₂
      exact ⟨h₁, h₂⟩
    · rw [World.debit]
      split <;> exact FinMap.mem_keys_insert.mpr (.inl rfl)
  have hsubset : [defaultAccount, bridge] ⊆ sortedSnapshotAccounts (afterAnchorCall.copy ω) := by
    intro a ha
    have hsorted : ∀ a ∈ (afterAnchorCall.copy ω).balances.keys, isHexAddress a = true →
        normalizeAddress a = a → a ∈ sortedSnapshotAccounts (afterAnchorCall.copy ω) := by
      intro a ha hhex hnormal
      refine mem_sortedAddresses.mpr ⟨hhex, a, ?_, hnormal⟩
      simp only [List.mem_append]
      exact .inl (.inl (.inl ha))
    rcases List.mem_cons.mp ha with rfl | ha
    · exact hsorted _ hkeys.1 isHexAddress_defaultAccount normalizeAddress_defaultAccount
    · rw [List.mem_singleton.mp ha]
      exact hsorted _ hkeys.2 isHexAddress_bridge normalizeAddress_bridge
  rw [buildStateTrieFromSnapshot, List.length_map]
  exact (List.subperm_of_subset (by decide) hsubset).length_le

/-- Where roots determine tries, the commit of the call stays. -/
theorem anchor_commit_stays (hinjective : Function.Injective (Platform.trieRoot : Trie → Bytes))
    (hnodes : ∀ t : Trie, t ≠ [] → (Platform.trieNodes t).isSome = true) (ω : Choices) :
    let S := newRPCNode {} ω {}
    let T := S.next {} ω (.sendTransaction anchorCall)
    T.height = 2 ∧ equalFold ((T.canonical.get? 2).getD "") "" = false ∧
      (T.handleReorg ω 2 "").2.trieCommits ≠ S.trieCommits := by
  obtain ⟨ω₁, l, timestamp, hfresh, hl⟩ := newRPCNode_fresh {} ω
  have hchain := chainOk_fresh {} ω
  have hheight : (newRPCNode {} ω {}).height = 1 := by rw [hfresh]
  have hworld : (newRPCNode {} ω {}).world = freshWorld {} := by rw [hfresh]
  have hempty : (newRPCNode {} ω {}).pendingTxs = [] := by rw [hfresh]
  have hcommits : (newRPCNode {} ω {}).trieCommits = l := by rw [hfresh]
  have hroot : (freshGenesis ω).stateRoot = stateTrieRoot (singleAccount.copy
      ((((ω.call 0).call 0).call 1).call 0)) := rfl
  generalize newRPCNode {} ω {} = S at hchain hheight hworld hempty hcommits ⊢
  refine reorg_anchorCall hchain hheight hworld hempty (freshGenesis ω).stateRoot
    (fun c hc => (hl c (hcommits ▸ hc)).2.1) rfl ?_ ?_
  · rw [transfer_anchorCall]
    refine hnodes _ fun hnil => ?_
    have hlength := two_le_length_trie (((((((ω.call 1).call 1).call 0).call 1).call 0).call 1).call 0)
    rw [hnil] at hlength
    cases hlength
  · rw [transfer_anchorCall, hroot, Bool.eq_false_iff]
    intro hfold
    -- the tries have different lengths, so their roots differ
    have htries := hinjective (eq_of_equalFold_hexString hfold)
    have hone := length_trie_le ((((ω.call 0).call 0).call 1).call 0)
    have htwo := two_le_length_trie (((((((ω.call 1).call 1).call 0).call 1).call 0).call 1).call 0)
    rw [← htries] at htwo
    omega

omit [Platform] in
/-- **A commit stays.** A node that mines an anchor call and reorganises keeps the commit that
the call made under the height of the parent block. -/
theorem reorg_keeps_anchor_commit :
    letI := Platform.checksums
    let S := newRPCNode {} default {}
    let T := S.next {} default (.sendTransaction anchorCall)
    Reachable {} S ∧ T.height = 2 ∧ equalFold ((T.canonical.get? 2).getD "") "" = false ∧
      (T.handleReorg default 2 "").2.trieCommits ≠ S.trieCommits := by
  have hnodes : ∀ t : Trie, t ≠ [] → (Platform.checksums.trieNodes t).isSome = true := by
    intro t ht
    show (if t = [] then none else some []).isSome = true
    rw [if_neg ht]
    rfl
  exact ⟨⟨default, .refl⟩,
    @anchor_commit_stays Platform.checksums listUpdates_injective hnodes default⟩

end BhtBhte.Node
