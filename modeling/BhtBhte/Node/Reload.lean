import BhtBhte.Node.Durable
import BhtBhte.Node.ForkChoice
import BhtBhte.Node.Padding
import BhtBhte.Node.Requests

/-!
# Saving and starting again

A node that is saved and started again runs its state through the repairs of `ensureState`,
which are there for old data directories.  On a state of its own they must change nothing: the
accounts have their balances, the snapshots are complete, the peers have scores, and indexing
the chain again finds every entry as it would write it.  Two things come back differently: an
entry stamped with second zero, which the index takes for one without a stamp, and a topic that
`paddedTopic` cut inside a rune.  `reload_iff` is that there is nothing else.
-/
namespace BhtBhte.Node
open BhtBhte.Lib
variable [Platform]

/-! ## Topics that are read back -/

/-- A topic stands among those of the list of logs, or of the log of a receipt. -/
def NodeState.Keeps (s : NodeState) (t : Topic) : Prop :=
  (∃ lg ∈ s.logs, t ∈ lg.topics) ∨ ∃ key r, s.receipts.get? key = some r ∧ ∃ lg ∈ r.logs, t ∈ lg.topics

omit [Platform] in
theorem LogRecord.reread_eq_self_iff {lg : LogRecord} :
    lg.reread = lg ↔ ∀ t ∈ lg.topics, t.IsText := by
  have htopics : lg.reread = lg ↔ lg.topics.map Topic.reread = lg.topics.map id := by
    rw [List.map_id]
    constructor
    · exact congrArg LogRecord.topics
    · intro h
      rw [reread, h]
  rw [htopics, List.map_inj_left]
  exact forall₂_congr fun t _ => Topic.reread_eq_self_iff

omit [Platform] in
theorem ReceiptRecord.reread_eq_self_iff {r : ReceiptRecord} :
    r.reread = r ↔ ∀ lg ∈ r.logs, ∀ t ∈ lg.topics, t.IsText := by
  have hlogs : r.reread = r ↔ r.logs.map LogRecord.reread = r.logs.map id := by
    rw [List.map_id]
    constructor
    · exact congrArg ReceiptRecord.logs
    · intro h
      rw [reread, h]
  rw [hlogs, List.map_inj_left]
  exact forall₂_congr fun lg _ => LogRecord.reread_eq_self_iff

omit [Platform] in
/-- A state is read back as it was exactly when every topic in it is a text. -/
theorem NodeState.reread_eq_self_iff {s : NodeState} :
    s.reread.logs = s.logs ∧ s.reread.receipts = s.receipts ↔ ∀ t, s.Keeps t → t.IsText := by
  have hlogs : s.reread.logs = s.logs ↔ ∀ lg ∈ s.logs, ∀ t ∈ lg.topics, t.IsText := by
    have hid : s.reread.logs = s.logs ↔ s.logs.map LogRecord.reread = s.logs.map id := by
      rw [List.map_id]
      rfl
    rw [hid, List.map_inj_left]
    exact forall₂_congr fun lg _ => LogRecord.reread_eq_self_iff
  have hreceipts : s.reread.receipts = s.receipts ↔
      ∀ key r, s.receipts.get? key = some r → ∀ lg ∈ r.logs, ∀ t ∈ lg.topics, t.IsText := by
    show s.receipts.mapValues ReceiptRecord.reread = s.receipts ↔ _
    rw [FinMap.mapValues_eq_self_iff]
    exact forall₃_congr fun key r _ => ReceiptRecord.reread_eq_self_iff
  rw [hlogs, hreceipts]
  constructor
  · rintro ⟨hl, hr⟩ t (⟨lg, hlg, ht⟩ | ⟨key, r, hget, lg, hlg, ht⟩)
    · exact hl lg hlg t ht
    · exact hr key r hget lg hlg t ht
  · intro h
    exact ⟨fun lg hlg t ht => h t (.inl ⟨lg, hlg, ht⟩),
      fun key r hget lg hlg t ht => h t (.inr ⟨key, r, hget, lg, hlg, ht⟩)⟩

/-- The topics that a node keeps are texts when the addresses among them were padded whole. -/
theorem WordedOk.texts_iff {n : RpcNode} (h : WordedOk n) :
    (∀ t, n.Keeps t → t.IsText) ↔ ∀ addr, n.Keeps (paddedTopic addr) → CutBetweenRunes addr := by
  constructor
  · intro htexts addr hkept
    exact (isText_paddedTopic_iff addr).mp (htexts _ hkept)
  · intro hcut t hkept
    have hworded : t.IsText ∨ ∃ addr, t = paddedTopic addr := by
      rcases hkept with ⟨lg, hlg, ht⟩ | ⟨key, r, hget, lg, hlg, ht⟩
      · exact h.logs lg hlg t ht
      · exact h.receipts key r hget lg hlg t ht
    rcases hworded with htext | ⟨addr, rfl⟩
    · exact htext
    · exact (isText_paddedTopic_iff addr).mpr (hcut addr hkept)

/-! ## Indexing the chain again -/

/-- Every entry names where it comes from. -/
def Sourced (index : FinMap String BlockIndexRecord) : Prop :=
  ∀ key i, index.get? key = some i → i.source ≠ ""

/-- An entry that was stamped at some second other than zero stands under the key. -/
def Stamped (index : FinMap String BlockIndexRecord) (key : String) : Prop :=
  ∃ i, index.get? key = some i ∧ i.receivedAt ≠ 0

theorem Sourced.indexBlock {n : RpcNode} (h : Sourced n.blockIndex) {source : String}
    (hsource : source ≠ "") (ω : Choices) (block : BlockRecord) :
    Sourced (n.indexBlock ω block true true source "").blockIndex := by
  intro key i hi
  cases hold : n.blockIndex.get? (toLower block.hash) with
  | none =>
      simp only [RpcNode.indexBlock, hold, FinMap.get?_insert] at hi
      split at hi
      · cases hi
        exact hsource
      · exact h key i hi
  | some existing =>
      have hsome := h _ existing hold
      simp only [RpcNode.indexBlock, hold, FinMap.get?_insert] at hi
      split at hi
      · cases hi
        exact hsome
      · exact h key i hi

theorem Sourced.indexBlocks {n : RpcNode} (h : Sourced n.blockIndex) (ω : Choices)
    (l : List BlockRecord) : Sourced (n.indexBlocks ω l).blockIndex := by
  induction l generalizing n ω with
  | nil => exact h
  | cons block l ih =>
      rw [RpcNode.indexBlocks]
      exact ih (Sourced.indexBlock
        (n := { n with canonical := n.canonical.insert (quantity64 block.number) block.hash }) h
        (by decide) _ _) _

/-- Indexing a block again changes nothing once its entry is complete. -/
theorem indexBlock_blockIndex_of_indexed {n : RpcNode} {block : BlockRecord} {r : BlockIndexRecord}
    (hr : n.blockIndex.get? (toLower block.hash) = some r) (hof : IndexOf block r)
    (hsource : r.source ≠ "") (hstamp : r.receivedAt ≠ 0)
    (hweight : ((n.blockIndex.get? (toLower block.parentHash)).map (·.totalWeight)).getD 0 + 1 ≤
      r.totalWeight) (hbound : r.totalWeight < 2 ^ 64) (ω : Choices) (source : String) :
    (n.indexBlock ω block true true source "").blockIndex = n.blockIndex := by
  generalize hw : ((n.blockIndex.get? (toLower block.parentHash)).map (·.totalWeight)).getD 0 = w
    at hweight
  have hu64 : u64 ((w : ℤ) + 1) = w + 1 := u64_of_lt (k := w + 1) (by omega)
  have hkept : ¬ (r.totalWeight = 0 ∨ r.totalWeight < w + 1) := by omega
  have hpeer : (if r.peerId = "" then "" else r.peerId) = r.peerId := by
    split
    · next hempty => exact hempty.symm
    · rfl
  obtain ⟨hhash, hparent, hheight, -, hcanonical, hvalidated⟩ := hof
  simp only [RpcNode.indexBlock, hr, hw, hu64, hkept, hsource, hstamp, hpeer, if_false]
  refine FinMap.insert_eq_self ?_
  rw [hr]
  cases r
  simp_all

/-- The same for any part of the chain. -/
theorem indexBlocks_blockIndex_of_indexed {n : RpcNode} (h : IndexOk n)
    (hnumbers : n.blocks.map (fun b => quantity64 b.number) = List.range' 1 n.blocks.length)
    (hbound : n.blocks.length < 2 ^ 63) (hsourced : Sourced n.blockIndex)
    (hstamped : ∀ key i, n.blockIndex.get? key = some i → i.receivedAt ≠ 0) (ω : Choices)
    {l : List BlockRecord} (hl : ∀ b ∈ l, b ∈ n.blocks) :
    (n.indexBlocks ω l).blockIndex = n.blockIndex := by
  induction l generalizing n ω with
  | nil => rfl
  | cons b l ih =>
      have hb := hl b List.mem_cons_self
      obtain ⟨r, hr, hof⟩ := h.indexed b hb
      have hweight := h.parentWeight hnumbers hb
      have hlt : quantity64 b.number < 2 ^ 63 + 1 := by
        obtain ⟨i, hi, rfl⟩ := List.mem_iff_getElem.mp hb
        rw [number_getElem hnumbers]
        omega
      have hsame := indexBlock_blockIndex_of_indexed
        (n := { n with canonical := n.canonical.insert (quantity64 b.number) b.hash }) hr hof
        (hsourced _ r hr) (hstamped _ r hr) (by rw [hof.totalWeight]; exact hweight.le)
        (by rw [hof.totalWeight]; omega) (ω.call 0) "local"
      rw [RpcNode.indexBlocks]
      generalize hm : RpcNode.indexBlock
        { n with canonical := n.canonical.insert (quantity64 b.number) b.hash } (ω.call 0) b true true
          "local" "" = m at hsame ⊢
      have hblocks : m.blocks = n.blocks := by
        rw [← hm]
        rfl
      have hindex : m.blockIndex = n.blockIndex := hsame
      refine (ih (h.of_eq hblocks hindex) ?_ ?_ ?_ ?_ (ω.call 1) fun b' hb' => ?_).trans hindex
      · rw [hblocks]
        exact hnumbers
      · rw [hblocks]
        exact hbound
      · rw [hindex]
        exact hsourced
      · rw [hindex]
        exact hstamped
      · rw [hblocks]
        exact hl b' (List.mem_cons_of_mem _ hb')

/-- A clock that has left second zero behind. -/
def secondOne : Choices := fun _ => ⟨1000000000, fun _ => Equiv.refl _⟩

theorem Stamped.indexBlock {n : RpcNode} {key : String} (block : BlockRecord) (source : String)
    (h : key = toLower block.hash ∨ Stamped n.blockIndex key) :
    Stamped (n.indexBlock secondOne block true true source "").blockIndex key := by
  have hclock : secondOne.unix ≠ 0 := by decide
  by_cases hkey : key = toLower block.hash
  · subst hkey
    cases hold : n.blockIndex.get? (toLower block.hash) with
    | none =>
        simp only [RpcNode.indexBlock, hold]
        exact ⟨_, FinMap.get?_insert_self _ _ _, hclock⟩
    | some existing =>
        simp only [RpcNode.indexBlock, hold]
        refine ⟨_, FinMap.get?_insert_self _ _ _, ?_⟩
        dsimp only
        split
        · exact hclock
        · assumption
  · obtain ⟨i, hi, hstamp⟩ := h.resolve_left hkey
    obtain ⟨record, heq, -⟩ := n.indexBlock_eq secondOne block source ""
    rw [heq]
    exact ⟨i, (FinMap.get?_insert_of_ne _ _ hkey).trans hi, hstamp⟩

/-- With such a clock, indexing stamps every entry. -/
theorem Stamped.indexBlocks {n : RpcNode} {key : String} (l : List BlockRecord)
    (h : (∃ b ∈ l, toLower b.hash = key) ∨ Stamped n.blockIndex key) :
    Stamped (n.indexBlocks secondOne l).blockIndex key := by
  induction l generalizing n with
  | nil => exact h.resolve_left fun ⟨b, hb, _⟩ => absurd hb List.not_mem_nil
  | cons block l ih =>
      rw [RpcNode.indexBlocks]
      refine ih ?_
      rcases h with ⟨b, hb, hkey⟩ | hstamped
      · rcases List.mem_cons.mp hb with rfl | hb
        · exact .inr (Stamped.indexBlock _ _ (.inl hkey.symm))
        · exact .inl ⟨b, hb, hkey⟩
      · exact .inr (Stamped.indexBlock
          (n := { n with canonical := n.canonical.insert (quantity64 block.number) block.hash }) _ _
          (.inr hstamped))

/-- The index of a node that is started on saved files. -/
theorem newRPCNode_blockIndex {n : RpcNode} (h : ChainOk n) (cfg : Config) (ω : Choices) :
    ∃ m : RpcNode, m.blockIndex = n.blockIndex ∧ m.blocks = n.blocks ∧
      (newRPCNode cfg ω n.files).blockIndex = (m.indexBlocks (ω.call 1) n.blocks).blockIndex := by
  have hstart := RpcNode.newRPCNode_save h.accounts h.ne_nil cfg ω
  refine ⟨RpcNode.repairRecords { n with
    toNodeState := n.toNodeState.reread, replayMode := false, disk := [n.files] }, rfl, rfl, ?_⟩
  have hfiles : newRPCNode cfg ω n.files = RpcNode.ensureState { n with
    toNodeState := n.toNodeState.reread, replayMode := false, disk := [n.files] } ω := hstart
  rw [hfiles]
  generalize hm : RpcNode.repairRecords { n with
    toNodeState := n.toNodeState.reread, replayMode := false, disk := [n.files] } = m
  have hblocks : m.blocks = n.blocks := by rw [← hm]; rfl
  have hne : m.blocks ≠ [] := by rw [hblocks]; exact h.ne_nil
  rw [RpcNode.ensureState, hm, RpcNode.ensureGenesis, if_neg hne, RpcNode.ensureIndex, hblocks,
    RpcNode.ensureSnapshot]
  split <;> rfl

/-! ## Runs -/

/-- A peer is recorded as `addPeer` and `syncPeer` leave it. -/
def SoundPeer : Event → Prop
  | .setPeer peer => PeerOk peer.id peer
  | _ => True

/-- A call that appends no block under an old hash and records peers as the peer calls do. -/
def ReloadStep (cfg : Config) (n : RpcNode) (ω : Choices) (e : Event) : Prop :=
  IndexStep cfg n ω e ∧ SoundPeer e

/-- The same state and the same trie commits. -/
structure Reloaded (n m : RpcNode) : Prop where
  state : m.toNodeState = n.toNodeState
  trieCommits : m.trieCommits = n.trieCommits

/-- What the repairs leave alone, but for the stamps. -/
structure ReloadOk (n : RpcNode) : Prop where
  chain : ChainOk n
  funded : FundedOk n
  index : IndexOk n
  sourced : Sourced n.blockIndex
  peers : PeersOk n
  accounts : RpcNode.ensureAccounts n.accounts = n.accounts

theorem ensureAccounts_ensureAccounts (accounts : List String) :
    RpcNode.ensureAccounts (RpcNode.ensureAccounts accounts) = RpcNode.ensureAccounts accounts := by
  have hne : RpcNode.ensureAccounts accounts ≠ [] := by
    rw [RpcNode.ensureAccounts]
    split <;> simp_all
  rw [RpcNode.ensureAccounts, if_neg hne, RpcNode.ensureAccounts, List.map_map]
  refine List.map_congr_left fun a _ => ?_
  exact normalizeAddress_normalizeAddress a

theorem reloadOk_fresh (hgenesis : hashHex (utf8 "bhte-genesis") ≠ zeroHash) (cfg : Config)
    (ω : Choices) : ReloadOk (newRPCNode cfg ω {}) := by
  refine ⟨chainOk_fresh cfg ω, fundedOk_fresh cfg ω, indexOk_fresh hgenesis cfg ω, ?_,
    peersOk_fresh cfg ω, ?_⟩
  · obtain ⟨ω₁, l, timestamp, heq, -⟩ := newRPCNode_fresh cfg ω
    rw [heq]
    intro key i hi
    rw [FinMap.get?_insert] at hi
    split at hi
    · cases hi
      exact (by decide : "local" ≠ "")
    · cases hi
  · obtain ⟨ω₁, l, timestamp, heq, -⟩ := newRPCNode_fresh cfg ω
    rw [heq]
    exact ensureAccounts_ensureAccounts cfg.accounts

theorem Sourced.appendBlock {n : RpcNode} (h : Sourced n.blockIndex) {source : String}
    (hsource : source ≠ "") {ω : Choices} {block : BlockRecord} {height : ℕ}
    {anchorTxHash : String} :
    Sourced (n.appendBlock ω block height source anchorTxHash).blockIndex :=
  Sourced.indexBlock
    (n := { n with
      height := height
      blocks := n.blocks ++ [block]
      canonical := n.canonical.insert height block.hash })
    h hsource (ω.call 0) block

theorem Sourced.minePendingBlock {n : RpcNode} (h : Sourced n.blockIndex) (cfg : Config)
    (ω : Choices) : Sourced (n.minePendingBlock cfg ω).2.blockIndex := by
  obtain ⟨block, l, heq, -⟩ := n.minePendingBlock_eq cfg ω
  have hsame : SameBlocks { n with pendingTxs := [] } (n.minePendingTxs cfg ω).2.2 :=
    RpcNode.mineTxs_sameBlocks n.pendingTxs
  have hindex : Sourced (n.minePendingTxs cfg ω).2.2.blockIndex := hsame.blockIndex.symm ▸ h
  rw [heq]
  exact Sourced.appendBlock
    (n := RpcNode.addCommits { (n.minePendingTxs cfg ω).2.2 with height := u64 (n.height + 1) } l)
    hindex (by decide)

theorem Sourced.next {n : RpcNode} (h : Sourced n.blockIndex) (hchain : ChainOk n) {cfg : Config}
    {ω : Choices} {e : Event} : Sourced (n.next cfg ω e).blockIndex := by
  rcases n.syncBlock_or_localCall hchain cfg ω e with ⟨block, rfl⟩ | hcall
  · rw [RpcNode.next]
    rcases n.syncBlock_cases cfg ω (n.height + 1) block with ⟨heq, -⟩ | ⟨e, ω₁, ω₂, disk, heq⟩ |
      ⟨ω₂, l, heq, -⟩
    · rw [heq]
      exact h
    · rw [heq]
      exact h
    · have hsame := n.applyPeerBlock_sameIndex cfg ((ω.call 0).call 1) block.record
      rw [heq, RpcNode.afterImport, (RpcNode.recordImported_sameBlocks _ _ _).blockIndex]
      refine Sourced.appendBlock ?_ (by decide)
      exact hsame.blockIndex.symm ▸ h
  · generalize n.next cfg ω e = n' at hcall ⊢
    cases hcall with
    | quiet hquiet =>
        rw [hquiet.blockIndex]
        exact h
    | recopied ω₁ ω₂ disk => exact h
    | @mined ω' hmines =>
        exact Sourced.minePendingBlock (n := { n with pendingTxs := n.executed cfg ω e }) h cfg ω'
    | @rolledBack ω' height s hone hle hs =>
        intro key i hi
        have hfilter : (n.blockIndex.filter fun _ index =>
            !(index.canonical && height ≤ index.height)).get? key = some i := hi
        rw [FinMap.get?_filter, Option.filter_eq_some_iff] at hfilter
        exact h key i hfilter.1
    | restarted =>
        obtain ⟨m, hindex, -, hnew⟩ := newRPCNode_blockIndex hchain cfg ω
        show Sourced (newRPCNode cfg ω n.files).blockIndex
        rw [hnew]
        exact Sourced.indexBlocks (hindex ▸ h) _ _

theorem PeersOk.next {n : RpcNode} (h : PeersOk n) (hchain : ChainOk n) {cfg : Config} {ω : Choices}
    {e : Event} (he : SoundPeer e) : PeersOk (n.next cfg ω e) := by
  by_cases hsync : e.partOfSync = false
  · intro key peer hget
    rw [RpcNode.next_peers hchain h cfg ω hsync] at hget
    exact h key peer hget
  · cases e with
    | syncBlock block =>
        intro key peer hget
        rw [RpcNode.next, n.syncBlock_peers] at hget
        exact h key peer hget
    | setPeer peer => exact h.insert rfl he
    | _ => exact absurd rfl hsync

theorem ReloadOk.next {n : RpcNode} (h : ReloadOk n) {cfg : Config} {ω : Choices} {e : Event}
    (hok : ReloadStep cfg n ω e) (hlen : (n.next cfg ω e).blocks.length < 2 ^ 63) :
    ReloadOk (n.next cfg ω e) := by
  have hmove := RpcNode.next_move h.chain hlen
  refine ⟨h.chain.next hlen, h.funded.move h.chain hmove, h.index.next h.chain hok.1 hlen,
    h.sourced.next h.chain, h.peers.next h.chain hok.2, ?_⟩
  have haccounts := h.accounts
  generalize n.next cfg ω e = n' at hmove ⊢
  cases hmove with
  | kept hkept => rw [hkept.accounts, haccounts]
  | recopied ω₁ ω₂ disk => exact haccounts
  | appended happ => rw [happ.accounts, haccounts]
  | rolledBack hone hle hs => exact haccounts
  | restarted index disk => exact ensureAccounts_ensureAccounts n.accounts

theorem ReachableBy.reloadOk (hgenesis : hashHex (utf8 "bhte-genesis") ≠ zeroHash) {cfg : Config}
    {n : RpcNode} (h : ReachableBy cfg (ReloadStep cfg) n) : ReloadOk n :=
  h.induct (reloadOk_fresh hgenesis cfg) fun _ _ _ hn hok hlen => hn.next hok hlen

/-! ## What comes back -/

section Reload
variable {n : RpcNode}

/-- With every entry stamped, the repairs change nothing but the topics. -/
theorem ReloadOk.state_newRPCNode (h : ReloadOk n)
    (hstamps : ∀ key i, n.blockIndex.get? key = some i → i.receivedAt ≠ 0) (cfg : Config)
    (ω : Choices) : (newRPCNode cfg ω n.files).toNodeState = n.toNodeState.reread ∧
      (newRPCNode cfg ω n.files).trieCommits = n.trieCommits := by
  obtain ⟨index, disk, heq, -⟩ := h.chain.restart cfg ω
  have hrestart : newRPCNode cfg ω n.files = n.restarted index disk := heq
  obtain ⟨m, hmindex, hmblocks, hnew⟩ := newRPCNode_blockIndex h.chain cfg ω
  have hlen := h.chain.length
  have hbound := h.chain.bound
  have hkept : (m.indexBlocks (ω.call 1) n.blocks).blockIndex = m.blockIndex := by
    refine indexBlocks_blockIndex_of_indexed (h.index.of_eq hmblocks hmindex) ?_ ?_ ?_ ?_ _
      fun b hb => hmblocks.symm ▸ hb
    · rw [hmblocks]
      exact h.chain.numbers
    · rw [hmblocks]
      omega
    · rw [hmindex]
      exact h.sourced
    · rw [hmindex]
      exact hstamps
  have hindex : index = n.blockIndex := by
    rw [hrestart, hkept, hmindex] at hnew
    exact hnew
  have hworld := h.funded.restarted_world h.chain index disk
  rw [RpcNode.restarted, h.accounts] at hworld
  rw [hrestart]
  refine ⟨?_, rfl⟩
  rw [RpcNode.restarted, h.accounts, RpcNode.mapValues_initialScore h.peers, hindex]
  exact congrArg (fun w => { n.toNodeState.reread with world := w }) hworld

/-- A state that comes back at every second has no entry stamped with second zero. -/
theorem ReloadOk.stamped (h : ReloadOk n) {cfg : Config}
    (hreload : ∀ ω, Reloaded n (newRPCNode cfg ω n.files)) :
    ∀ key i, n.blockIndex.get? key = some i → i.receivedAt ≠ 0 := by
  intro key i hi
  obtain ⟨b, hb, hkey, -⟩ := h.index.indexOf hi
  obtain ⟨m, -, -, hnew⟩ := newRPCNode_blockIndex h.chain cfg secondOne
  obtain ⟨i', hi', hstamp⟩ : Stamped (newRPCNode cfg secondOne n.files).blockIndex key := by
    rw [hnew]
    exact Stamped.indexBlocks n.blocks (.inl ⟨b, hb, hkey⟩)
  have hsame : (newRPCNode cfg secondOne n.files).blockIndex = n.blockIndex :=
    congrArg NodeState.blockIndex (hreload secondOne).state
  rw [hsame, hi] at hi'
  cases hi'
  exact hstamp

/-- A state that comes back keeps texts only. -/
theorem ReloadOk.texts (h : ReloadOk n) {cfg : Config} {ω : Choices}
    (hreload : Reloaded n (newRPCNode cfg ω n.files)) : ∀ t, n.Keeps t → t.IsText := by
  obtain ⟨index, disk, heq, -⟩ := h.chain.restart cfg ω
  have hrestart : newRPCNode cfg ω n.files = n.restarted index disk := heq
  have hstate := hreload.state
  rw [hrestart] at hstate
  have hlogs : (n.restarted index disk).logs = n.logs := congrArg NodeState.logs hstate
  have hreceipts : (n.restarted index disk).receipts = n.receipts :=
    congrArg NodeState.receipts hstate
  exact NodeState.reread_eq_self_iff.mp ⟨hlogs, hreceipts⟩

/-- **Saving and starting again.** In a run whose appended blocks have hashes of their own, a state
comes back from its files as it was exactly when no index entry is stamped with second zero and no
padded address among its topics was cut inside a rune. -/
theorem reload_iff (hgenesis : hashHex (utf8 "bhte-genesis") ≠ zeroHash) {cfg : Config}
    (h : ReachableBy cfg (ReloadStep cfg) n) :
    (∀ ω, Reloaded n (newRPCNode cfg ω n.files)) ↔
      (∀ key i, n.blockIndex.get? key = some i → i.receivedAt ≠ 0) ∧
        ∀ addr, n.Keeps (paddedTopic addr) → CutBetweenRunes addr := by
  have hok := h.reloadOk hgenesis
  have hworded : WordedOk n := h.reachable.wordedOk
  rw [← hworded.texts_iff]
  constructor
  · intro hreload
    exact ⟨hok.stamped hreload, hok.texts (hreload default)⟩
  · rintro ⟨hstamps, htexts⟩ ω
    obtain ⟨hstate, hcommits⟩ := hok.state_newRPCNode hstamps cfg ω
    obtain ⟨hlogs, hreceipts⟩ := NodeState.reread_eq_self_iff.mpr htexts
    refine ⟨hstate.trans ?_, hcommits⟩
    show { n.toNodeState with
      receipts := n.toNodeState.reread.receipts, logs := n.toNodeState.reread.logs } = n.toNodeState
    rw [hlogs, hreceipts]

end Reload

/-! ## What does not come back -/

/-- A node started at second zero is changed by the next start. -/
theorem not_reloaded_fresh (hgenesis : hashHex (utf8 "bhte-genesis") ≠ zeroHash) {n : RpcNode}
    {ω : Choices} (hn : n = newRPCNode {} ω {}) (hclock : ((ω.call 1).call 0).unix = 0) :
    ¬ ∀ ω', Reloaded n (newRPCNode {} ω' n.files) := by
  have hok : ReloadOk n := hn ▸ reloadOk_fresh hgenesis {} ω
  intro hreload
  have hentry : n.blockIndex.get? (toLower (freshGenesis ω).hash) = some (freshIndex ω) := by
    obtain ⟨ω₁, l, timestamp, heq, -⟩ := newRPCNode_fresh {} ω
    rw [hn, heq]
    exact FinMap.get?_insert_self _ _ _
  exact hok.stamped hreload _ _ hentry hclock

/-- A recipient of 22 runes of three bytes each. -/
def longRecipient : String := "0x中中中中中中中中中中中中中中中中中中中中中中"

/-- The request of a withdrawal to it. -/
def longRequest : Object := object [("recipient", .str longRecipient)]

/-- Its topic begins inside a rune. -/
theorem not_cutBetweenRunes {addr : String}
    (h : trimPrefix (normalizeAddress addr) "0x" = String.ofList (List.replicate 22 '中')) :
    ¬ CutBetweenRunes addr := by
  have hlen : ∀ k, (encode (List.replicate k '中')).length = 3 * k := by
    intro k
    induction k with
    | zero => rfl
    | succ k ih =>
        have hsize : '中'.utf8Size = 3 := by decide
        rw [List.replicate_succ, encode_cons, List.length_append, String.length_utf8EncodeChar, ih,
          hsize]
        omega
  rw [CutBetweenRunes, h]
  rintro (hshort | ⟨r, hr, hlength⟩)
  · rw [← length_utf8, utf8, String.toList_ofList, ← encode, hlen] at hshort
    omega
  · rw [String.toList_ofList] at hr
    have hreplicate := List.eq_replicate_iff.mpr ⟨rfl, fun c hc =>
      List.eq_of_mem_replicate (hr.subset hc)⟩
    rw [hreplicate, hlen] at hlength
    omega

/-- A withdrawal can be asked for at any node of a run. -/
theorem reloadStep_initiateWithdrawal {n : RpcNode} {cfg : Config}
    (h : ReachableBy cfg (ReloadStep cfg) n) (ω : Choices) (request : Object) :
    ReachableBy cfg (ReloadStep cfg) (n.next cfg ω (.initiateWithdrawal request)) := by
  have hchain := h.reachable.chainOk
  have hlength := hchain.length
  have hbound := hchain.bound
  have hsame : (n.initiateWithdrawal cfg ω request).2.blocks = n.blocks :=
    (RpcNode.initiateWithdrawal_sameChain request).blocks
  refine h.next ⟨⟨fun ω' hmines => ?_, fun block hblock => ?_⟩, trivial⟩ ?_
  · cases hmines
  · cases hblock
  · rw [RpcNode.next, hsame]
    omega

/-- Its topic is kept by a node that is asked for a withdrawal. -/
theorem keeps_initiateWithdrawal {n : RpcNode} {cfg : Config} (hmode : n.replayMode = false)
    (ω : Choices) (request : Object) :
    (n.next cfg ω (.initiateWithdrawal request)).Keeps
      (paddedTopic (RpcNode.withdrawalOf cfg ω request).recipient) := by
  refine .inl ?_
  rw [RpcNode.next, RpcNode.initiateWithdrawal]
  dsimp only
  rw [if_neg (by rw [hmode]; decide)]
  exact ⟨_, List.mem_append_right _ List.mem_cons_self, List.mem_cons_of_mem _ List.mem_cons_self⟩

/-- A node that was started at second one, asked for a withdrawal. -/
def askedForWithdrawal (request : Object) : RpcNode :=
  (newRPCNode {} secondOne {}).next {} secondOne (.initiateWithdrawal request)

/-- It keeps the topic of the recipient, and no other that is padded; its index is stamped. -/
theorem keeps_askedForWithdrawal (request : Object) :
    ReachableBy {} (ReloadStep {}) (askedForWithdrawal request) ∧
    (askedForWithdrawal request).Keeps
      (paddedTopic (RpcNode.withdrawalOf {} secondOne request).recipient) ∧
    (∀ t, (askedForWithdrawal request).Keeps t → t.IsText ∨
      t = paddedTopic (RpcNode.withdrawalOf {} secondOne request).recipient) ∧
    ∀ key i, (askedForWithdrawal request).blockIndex.get? key = some i → i.receivedAt ≠ 0 := by
  have hreach : ReachableBy {} (ReloadStep {}) (newRPCNode {} secondOne {}) := ⟨secondOne, .refl⟩
  have hstep := reloadStep_initiateWithdrawal hreach secondOne request
  obtain ⟨ω₁, l, timestamp, heq, -⟩ := newRPCNode_fresh {} secondOne
  rw [askedForWithdrawal]
  rw [heq] at hstep ⊢
  refine ⟨hstep, keeps_initiateWithdrawal rfl secondOne request, ?_, ?_⟩
  · rintro t (⟨lg, hlg, ht⟩ | ⟨key, r, hget, -⟩)
    · rw [RpcNode.next, RpcNode.initiateWithdrawal] at hlg
      have hone : lg ∈ ([] ++ [_] : List LogRecord) := hlg
      rw [List.nil_append, List.mem_singleton] at hone
      rw [hone] at ht
      simp only [List.mem_cons, List.not_mem_nil, or_false] at ht
      rcases ht with rfl | rfl
      · exact .inl ⟨_, rfl⟩
      · exact .inr rfl
    · cases hget
  · intro key i hi
    have hentry : ((∅ : FinMap String BlockIndexRecord).insert (toLower (freshGenesis secondOne).hash)
        (freshIndex secondOne)).get? key = some i := hi
    rw [FinMap.get?_insert] at hentry
    split at hentry
    · cases hentry
      exact (by decide : secondOne.unix ≠ 0)
    · cases hentry

/-- The request of a withdrawal to the default account. -/
def shortRequest : Object := object [("recipient", .str defaultAccount)]

omit [Platform] in
/-- A log of a withdrawal to an account of ordinary length comes back as it was. -/
theorem reload_shortRequest :
    letI := Platform.checksums
    let n := askedForWithdrawal shortRequest
    n.Keeps (paddedTopic defaultAccount) ∧ ∀ ω, Reloaded n (newRPCNode {} ω n.files) := by
  let _ := Platform.checksums
  intro n
  have hrecipient : (RpcNode.withdrawalOf {} secondOne shortRequest).recipient = defaultAccount := by
    show normalizeAddress (text shortRequest "recipient") = defaultAccount
    rw [text_of_str (s := defaultAccount) rfl, normalizeAddress_defaultAccount]
  obtain ⟨hreach, hkept, honly, hstamps⟩ := keeps_askedForWithdrawal shortRequest
  rw [hrecipient] at hkept honly
  have hshort : CutBetweenRunes defaultAccount := by
    refine .inl ?_
    rw [normalizeAddress_defaultAccount]
    decide +kernel
  refine ⟨hkept, (reload_iff (genesis_ne_zeroHash fun _ => rfl) hreach).mpr ⟨hstamps, ?_⟩⟩
  refine hreach.reachable.wordedOk.texts_iff.mp fun t ht => ?_
  rcases honly t ht with htext | rfl
  · exact htext
  · exact (isText_paddedTopic_iff defaultAccount).mpr hshort

omit [Platform] in
/-- **Two changes.** A node started at second zero is stamped anew by the next start, and a
withdrawal to a long recipient leaves a topic that its files do not give back. -/
theorem reload_changes :
    letI := Platform.checksums
    (ReachableBy {} (ReloadStep {}) (newRPCNode {} default {}) ∧
      ¬ ∀ ω, Reloaded (newRPCNode {} default {}) (newRPCNode {} ω (newRPCNode {} default {}).files)) ∧
    ReachableBy {} (ReloadStep {}) (askedForWithdrawal longRequest) ∧
      ¬ ∀ ω, Reloaded (askedForWithdrawal longRequest)
        (newRPCNode {} ω (askedForWithdrawal longRequest).files) := by
  let _ := Platform.checksums
  have hgenesis := genesis_ne_zeroHash fun _ => rfl
  obtain ⟨hreach, hkept, -⟩ := keeps_askedForWithdrawal longRequest
  refine ⟨⟨⟨default, .refl⟩, not_reloaded_fresh hgenesis rfl (by decide)⟩, hreach, fun hreload => ?_⟩
  refine not_cutBetweenRunes ?_ ((isText_paddedTopic_iff _).mp
    ((hreach.reloadOk hgenesis).texts (hreload default) _ hkept))
  have hrecipient : (RpcNode.withdrawalOf {} secondOne longRequest).recipient =
      normalizeAddress longRecipient := congrArg normalizeAddress (text_of_str rfl)
  rw [hrecipient, normalizeAddress_normalizeAddress]
  decide +kernel

end BhtBhte.Node
