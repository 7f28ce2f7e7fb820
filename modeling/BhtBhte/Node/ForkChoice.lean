import BhtBhte.Node.Roots

/-!
# The block index and the fork choice

Every block that extends the chain is entered in the index under its lower-case hash, with one more
than the weight of the entry under its parent's.  Nothing recomputes the hash that a peer gives a
block, so the index follows the chain exactly as long as each appended block has a hash of its own
and names the head as its parent.  In runs of such blocks the index, the best head and the tips are
those of the chain (`forkChoice_of_indexStep`).
-/
namespace BhtBhte.Node
open BhtBhte.Lib
variable [Platform]

/-! ## Reading the index -/

/-- What is reported of an index entry. -/
structure HeadInfo where
  hash : String
  parentHash : String
  height : String
  totalWeight : String
  canonical : Bool
  validated : Bool
  source : String
  peerId : String
deriving DecidableEq

/-- `none` for the empty record. -/
def forkChoiceHeadInfo (record : BlockIndexRecord) : Option HeadInfo :=
  if record.hash = "" then none
  else some
    { hash := record.hash
      parentHash := record.parentHash
      height := toHex record.height
      totalWeight := toHex record.totalWeight
      canonical := record.canonical
      validated := record.validated
      source := record.source
      peerId := record.peerId }

/-- The record is preferred to the best one so far. -/
def betterHead (best record : BlockIndexRecord) : Bool :=
  best.hash = "" || best.totalWeight < record.totalWeight ||
    (record.totalWeight = best.totalWeight && best.height < record.height)

/-- The loop of `bestIndexedHead` over the entries. -/
def bestOf (best : BlockIndexRecord) (entries : List (String × BlockIndexRecord)) :
    BlockIndexRecord :=
  entries.foldl (fun best e => if e.2.validated && betterHead best e.2 then e.2 else best) best

namespace RpcNode

/-- The canonical entry with the most weight. -/
def bestIndexedHead (n : RpcNode) (ω : Choices) : BlockIndexRecord :=
  bestOf ⟨"", "", 0, 0, false, false, "", "", 0⟩ (n.blockIndex.range ω.order)

/-- Some entry names this key as its parent. -/
def hasChild (n : RpcNode) (key : String) : Bool :=
  n.blockIndex.entries.any fun e =>
    e.2.parentHash ≠ "" && e.2.parentHash ≠ zeroHash && toLower e.2.parentHash = key

/-- The validated entries without a child, by weight and height; entries that tie in both stand
in the order of the range. -/
def forkChoiceTips (n : RpcNode) (ω : Choices) : List (Option HeadInfo) :=
  let before (a b : BlockIndexRecord) : Bool :=
    if a.totalWeight = b.totalWeight then b.height < a.height else b.totalWeight < a.totalWeight
  let tips := (n.blockIndex.range ω.order).filter fun e => e.2.validated && !n.hasChild e.1
  ((tips.map Prod.snd).mergeSort fun a b => !before b a).map forkChoiceHeadInfo

/-- A block with these hashes gets an index entry of its own, on top of that of the head. -/
structure Extends (n : RpcNode) (hash parentHash : String) : Prop where
  fresh : toLower hash ∉ n.blockIndex.keys
  nonzero : toLower hash ≠ zeroHash
  parent : toLower parentHash = toLower n.lastBlock.hash

end RpcNode

/-! ## The invariant -/

/-- The entry of a canonical block. -/
structure IndexOf (b : BlockRecord) (r : BlockIndexRecord) : Prop where
  hash : r.hash = b.hash
  parentHash : r.parentHash = b.parentHash
  height : r.height = quantity64 b.number
  totalWeight : r.totalWeight = quantity64 b.number
  canonical : r.canonical = true
  validated : r.validated = true

/-- The index holds exactly one entry for each block of the chain. -/
structure IndexOk (n : RpcNode) : Prop where
  distinct : (n.blocks.map fun b => toLower b.hash).Nodup
  indexed : ∀ b ∈ n.blocks, ∃ r, n.blockIndex.get? (toLower b.hash) = some r ∧ IndexOf b r
  only : ∀ key ∈ n.blockIndex.keys, ∃ b ∈ n.blocks, toLower b.hash = key
  nonzero : ∀ b ∈ n.blocks, toLower b.hash ≠ zeroHash
  linked : n.blocks.IsChain fun b b' => toLower b'.parentHash = toLower b.hash
  genesis : ∀ b ∈ n.blocks.head?, b.parentHash = zeroHash

namespace IndexOk
variable {n n' : RpcNode}

theorem of_eq (h : IndexOk n) (hblocks : n'.blocks = n.blocks)
    (hindex : n'.blockIndex = n.blockIndex) : IndexOk n' := by
  constructor
  · rw [hblocks]; exact h.distinct
  · rw [hblocks, hindex]; exact h.indexed
  · rw [hblocks, hindex]; exact h.only
  · rw [hblocks]; exact h.nonzero
  · rw [hblocks]; exact h.linked
  · rw [hblocks]; exact h.genesis

theorem indexOf (h : IndexOk n) {key : String} {r : BlockIndexRecord}
    (hr : n.blockIndex.get? key = some r) : ∃ b ∈ n.blocks, toLower b.hash = key ∧ IndexOf b r := by
  obtain ⟨b, hb, rfl⟩ := h.only key (FinMap.mem_keys.mpr ⟨r, hr⟩)
  obtain ⟨r', hr', hof⟩ := h.indexed b hb
  rw [hr] at hr'
  cases hr'
  exact ⟨b, hb, rfl, hof⟩

end IndexOk

/-! ## Appending a block -/

/-- Indexing a block with a new hash writes the weight of its parent's entry plus one. -/
theorem indexBlock_of_fresh {n : RpcNode} {block : BlockRecord}
    (h : n.blockIndex.get? (toLower block.hash) = none) {parent : BlockIndexRecord}
    (hparent : n.blockIndex.get? (toLower block.parentHash) = some parent) {k : ℕ}
    (hnumber : quantity64 block.number = k + 1) (hweight : parent.totalWeight = k)
    (hbound : k + 1 < 2 ^ 64) (ω : Choices) (source peerId : String) :
    ∃ record, (n.indexBlock ω block true true source peerId).blockIndex =
      n.blockIndex.insert (toLower block.hash) record ∧ IndexOf block record := by
  have hu64 : u64 ((k : ℤ) + 1) = k + 1 := u64_of_lt (k := k + 1) hbound
  simp only [RpcNode.indexBlock, h, hparent, Option.map_some, Option.getD_some, hweight, hu64]
  exact ⟨_, rfl, rfl, rfl, rfl, hnumber.symm, rfl, rfl⟩

/-- One more block, and its record in the index. -/
theorem IndexOk.extend {n m : RpcNode} (h : IndexOk n) (hne : n.blocks ≠ []) {block : BlockRecord}
    {record : BlockIndexRecord} (hextends : n.Extends block.hash block.parentHash)
    (hof : IndexOf block record) (hblocks : m.blocks = n.blocks ++ [block])
    (hindex : m.blockIndex = n.blockIndex.insert (toLower block.hash) record) : IndexOk m := by
  have hnew : ∀ b ∈ n.blocks, toLower b.hash ≠ toLower block.hash := by
    intro b hb heq
    obtain ⟨r, hr, -⟩ := h.indexed b hb
    exact hextends.fresh (heq ▸ FinMap.mem_keys.mpr ⟨r, hr⟩)
  constructor
  · rw [hblocks, List.map_append, List.nodup_append']
    refine ⟨h.distinct, List.nodup_singleton _, fun key hkey hkey' => ?_⟩
    obtain ⟨b, hb, rfl⟩ := List.mem_map.mp hkey
    exact hnew b hb (List.mem_singleton.mp hkey')
  · intro b hb
    rw [hblocks] at hb
    rw [hindex]
    rcases List.mem_append.mp hb with hb | hb
    · rw [FinMap.get?_insert_of_ne _ _ (hnew b hb)]
      exact h.indexed b hb
    · rw [List.mem_singleton.mp hb, FinMap.get?_insert_self]
      exact ⟨record, rfl, hof⟩
  · intro key hkey
    rw [hindex] at hkey
    rw [hblocks]
    rcases FinMap.mem_keys_insert.mp hkey with rfl | hkey
    · exact ⟨block, by simp, rfl⟩
    · obtain ⟨b, hb, hb'⟩ := h.only key hkey
      exact ⟨b, List.mem_append_left _ hb, hb'⟩
  · intro b hb
    rw [hblocks] at hb
    rcases List.mem_append.mp hb with hb | hb
    · exact h.nonzero b hb
    · rw [List.mem_singleton.mp hb]
      exact hextends.nonzero
  · rw [hblocks, List.isChain_append]
    refine ⟨h.linked, List.isChain_singleton _, fun b hb b' hb' => ?_⟩
    cases hb'
    have hlast : b = n.lastBlock := by
      rw [RpcNode.lastBlock, List.getLastD_eq_getLast?, hb]
      rfl
    rw [hlast]
    exact hextends.parent
  · rw [hblocks, List.head?_append_of_ne_nil _ hne]
    exact h.genesis

/-- A block that extends the index keeps it true to the chain. -/
theorem IndexOk.appendBlock {n m : RpcNode} (h : IndexOk n) (hchain : ChainOk n)
    (hblocks : m.blocks = n.blocks) (hindex : m.blockIndex = n.blockIndex) {ω : Choices}
    {block : BlockRecord} {source anchorTxHash : String}
    (hextends : n.Extends block.hash block.parentHash)
    (hnumber : quantity64 block.number = n.height + 1) (hbound : n.height + 1 < 2 ^ 63) :
    IndexOk (m.appendBlock ω block (n.height + 1) source anchorTxHash) := by
  have hhead := hchain.blockAt_height
  have hmem := ChainOk.mem_of_blockAt hhead
  obtain ⟨parent, hparent, hparentOf⟩ := h.indexed _ hmem
  have hweight : parent.totalWeight = n.height := by
    rw [hparentOf.totalWeight, hchain.number_of_blockAt hhead]
  have hfresh : m.blockIndex.get? (toLower block.hash) = none := by
    rw [hindex]
    exact FinMap.get?_eq_none.mpr hextends.fresh
  have hparent' : m.blockIndex.get? (toLower block.parentHash) = some parent := by
    rw [hindex, hextends.parent]
    exact hparent
  obtain ⟨record, hrecord, hof⟩ := indexBlock_of_fresh
    (n := { m with
      height := n.height + 1
      blocks := m.blocks ++ [block]
      canonical := m.canonical.insert (n.height + 1) block.hash })
    hfresh hparent' hnumber hweight (by omega) (ω.call 0) source ""
  refine h.extend hchain.ne_nil hextends hof ?_ ?_
  · rw [← hblocks]
    rfl
  · rw [← hindex]
    exact hrecord

/-! ## Rolling back -/

/-- A rollback removes the entries of the blocks it removes. -/
theorem IndexOk.rollback {n : RpcNode} (h : IndexOk n) (hchain : ChainOk n) {ω : Choices}
    {height : ℕ} {s : StateSnapshotRecord} (hone : 1 < height) :
    IndexOk (n.rollback ω height s) := by
  have htake := hchain.blocks_rollback ω height s
  have hmem : ∀ b, b ∈ (n.rollback ω height s).blocks ↔
      b ∈ n.blocks ∧ quantity64 b.number < height := by
    intro b
    show b ∈ n.blocks.filter (fun block => decide (quantity64 block.number < height)) ↔ _
    rw [List.mem_filter, decide_eq_true_eq]
  have hindex : ∀ key r, (n.rollback ω height s).blockIndex.get? key = some r ↔
      n.blockIndex.get? key = some r ∧ ¬ (r.canonical = true ∧ height ≤ r.height) := by
    intro key r
    show (n.blockIndex.filter fun _ index => !(index.canonical && height ≤ index.height)).get? key =
      some r ↔ _
    rw [FinMap.get?_filter, Option.filter_eq_some_iff]
    cases r.canonical <;> simp
  constructor
  · rw [htake, List.map_take]
    exact h.distinct.sublist (List.take_sublist _ _)
  · intro b hb
    obtain ⟨hb, hlt⟩ := (hmem b).mp hb
    obtain ⟨r, hr, hof⟩ := h.indexed b hb
    refine ⟨r, (hindex _ r).mpr ⟨hr, ?_⟩, hof⟩
    rw [hof.height]
    omega
  · intro key hkey
    obtain ⟨r, hr⟩ := FinMap.mem_keys.mp hkey
    obtain ⟨hr, hkept⟩ := (hindex key r).mp hr
    obtain ⟨b, hb, hkey, hof⟩ := h.indexOf hr
    refine ⟨b, (hmem b).mpr ⟨hb, ?_⟩, hkey⟩
    rw [hof.canonical, hof.height] at hkept
    by_contra hge
    exact hkept ⟨rfl, by omega⟩
  · intro b hb
    exact h.nonzero b ((hmem b).mp hb).1
  · rw [htake]
    exact h.linked.take _
  · rw [htake, List.head?_take, if_neg (by omega)]
    exact h.genesis

/-! ## Restarting -/

/-- Indexing a block again keeps its entry when its parent's weight is one below. -/
theorem indexBlock_of_indexed {n : RpcNode} {block : BlockRecord} {r : BlockIndexRecord}
    (hr : n.blockIndex.get? (toLower block.hash) = some r) (hof : IndexOf block r)
    (hweight : ((n.blockIndex.get? (toLower block.parentHash)).map (·.totalWeight)).getD 0 + 1 ≤
      r.totalWeight) (hbound : r.totalWeight < 2 ^ 64) (ω : Choices) (source peerId : String) :
    ∃ record, (n.indexBlock ω block true true source peerId).blockIndex =
      n.blockIndex.insert (toLower block.hash) record ∧ IndexOf block record := by
  generalize hw : ((n.blockIndex.get? (toLower block.parentHash)).map (·.totalWeight)).getD 0 = w
    at hweight
  have hu64 : u64 ((w : ℤ) + 1) = w + 1 := u64_of_lt (k := w + 1) (by omega)
  have hkept : ¬ (r.totalWeight = 0 ∨ r.totalWeight < w + 1) := by omega
  simp only [RpcNode.indexBlock, hr, hw, hu64, hkept, if_false]
  exact ⟨_, rfl, rfl, rfl, rfl, hof.totalWeight, Bool.or_true _, Bool.or_true _⟩

omit [Platform] in
theorem number_getElem {blocks : List BlockRecord}
    (h : blocks.map (fun b => quantity64 b.number) = List.range' 1 blocks.length) {i : ℕ}
    (hi : i < blocks.length) : quantity64 blocks[i].number = i + 1 := by
  have hat := List.getElem_of_eq h (i := i) (by rwa [List.length_map])
  rw [List.getElem_map, List.getElem_range'] at hat
  omega

/-- The weight below a block of the chain. -/
theorem IndexOk.parentWeight {n : RpcNode} (h : IndexOk n)
    (hnumbers : n.blocks.map (fun b => quantity64 b.number) = List.range' 1 n.blocks.length)
    {b : BlockRecord} (hb : b ∈ n.blocks) :
    ((n.blockIndex.get? (toLower b.parentHash)).map (·.totalWeight)).getD 0 + 1 =
      quantity64 b.number := by
  obtain ⟨i, hi, rfl⟩ := List.mem_iff_getElem.mp hb
  cases i with
  | zero =>
      -- no entry stands under the zero hash
      have hzero : n.blocks[0].parentHash = zeroHash := by
        refine h.genesis _ ?_
        rw [List.head?_eq_getElem?, List.getElem?_eq_getElem hi]
        rfl
      have hnone : n.blockIndex.get? zeroHash = none := by
        refine FinMap.get?_eq_none.mpr fun hkey => ?_
        obtain ⟨b, hb, hb'⟩ := h.only _ hkey
        exact h.nonzero b hb hb'
      rw [hzero, toLower_zeroHash, hnone, number_getElem hnumbers]
      rfl
  | succ i =>
      have hlink := List.isChain_iff_getElem.mp h.linked i hi
      obtain ⟨r, hr, hof⟩ := h.indexed n.blocks[i] (List.getElem_mem _)
      rw [hlink, hr, number_getElem hnumbers, Option.map_some, Option.getD_some, hof.totalWeight,
        number_getElem hnumbers]

/-- A block of the chain may get another entry of its own. -/
theorem IndexOk.insert {n n' : RpcNode} (h : IndexOk n) {b : BlockRecord} (hb : b ∈ n.blocks)
    {record : BlockIndexRecord} (hof : IndexOf b record) (hblocks : n'.blocks = n.blocks)
    (hindex : n'.blockIndex = n.blockIndex.insert (toLower b.hash) record) : IndexOk n' := by
  constructor
  · rw [hblocks]; exact h.distinct
  · intro b' hb'
    rw [hblocks] at hb'
    rw [hindex, FinMap.get?_insert]
    split
    · next heq =>
        have hsame : b' = b := List.inj_on_of_nodup_map h.distinct hb' hb heq
        exact ⟨record, rfl, hsame ▸ hof⟩
    · exact h.indexed b' hb'
  · intro key hkey
    rw [hindex] at hkey
    rw [hblocks]
    rcases FinMap.mem_keys_insert.mp hkey with rfl | hkey
    · exact ⟨b, hb, rfl⟩
    · exact h.only key hkey
  · rw [hblocks]; exact h.nonzero
  · rw [hblocks]; exact h.linked
  · rw [hblocks]; exact h.genesis

/-- Indexing blocks of the chain again keeps the index true to it. -/
theorem IndexOk.indexBlocks {n : RpcNode} (h : IndexOk n)
    (hnumbers : n.blocks.map (fun b => quantity64 b.number) = List.range' 1 n.blocks.length)
    (hbound : n.blocks.length < 2 ^ 63) (ω : Choices) {l : List BlockRecord}
    (hl : ∀ b ∈ l, b ∈ n.blocks) :
    IndexOk (n.indexBlocks ω l) ∧ (n.indexBlocks ω l).blocks = n.blocks := by
  induction l generalizing n ω with
  | nil => exact ⟨h, rfl⟩
  | cons b l ih =>
      have hb := hl b List.mem_cons_self
      obtain ⟨r, hr, hof⟩ := h.indexed b hb
      have hweight := h.parentWeight hnumbers hb
      have hlt : quantity64 b.number < 2 ^ 63 + 1 := by
        obtain ⟨i, hi, rfl⟩ := List.mem_iff_getElem.mp hb
        rw [number_getElem hnumbers]
        omega
      obtain ⟨record, hrecord, hof'⟩ := indexBlock_of_indexed
        (n := { n with canonical := n.canonical.insert (quantity64 b.number) b.hash }) hr hof
        (by rw [hof.totalWeight]; exact hweight.le) (by rw [hof.totalWeight]; omega) (ω.call 0)
        "local" ""
      rw [RpcNode.indexBlocks]
      generalize hm : RpcNode.indexBlock
        { n with canonical := n.canonical.insert (quantity64 b.number) b.hash } (ω.call 0) b true true
          "local" "" = m at hrecord ⊢
      have hblocks : m.blocks = n.blocks := by
        rw [← hm]
        rfl
      have hok : IndexOk m := h.insert hb hof' hblocks hrecord
      obtain ⟨hok', hblocks'⟩ := ih hok (by rw [hblocks]; exact hnumbers)
        (by rw [hblocks]; exact hbound) (ω.call 1)
        (fun b' hb' => by rw [hblocks]; exact hl b' (List.mem_cons_of_mem _ hb'))
      exact ⟨hok', hblocks'.trans hblocks⟩

/-- **Restart.** Indexing every block again leaves one entry for each. -/
theorem IndexOk.restart {n : RpcNode} (h : IndexOk n) (hchain : ChainOk n) (cfg : Config)
    (ω : Choices) : IndexOk (newRPCNode cfg ω (n.save.disk.headD {})) := by
  rw [RpcNode.newRPCNode_save hchain.accounts hchain.ne_nil]
  generalize n.save.disk.headD {} = files
  generalize hm : RpcNode.repairRecords
    { n with toNodeState := n.toNodeState.reread, replayMode := false, disk := [files] } = m
  have hblocks : m.blocks = n.blocks := by rw [← hm]; rfl
  have hindex : m.blockIndex = n.blockIndex := by rw [← hm]; rfl
  have hok : IndexOk m := h.of_eq hblocks hindex
  have hlen := hchain.length
  have hbound := hchain.bound
  obtain ⟨hindexed, hsame⟩ := hok.indexBlocks (by rw [hblocks]; exact hchain.numbers)
    (by rw [hblocks]; omega) (ω.call 1) (l := m.blocks) fun b hb => hb
  have hne : m.blocks ≠ [] := by rw [hblocks]; exact hchain.ne_nil
  rw [RpcNode.ensureState, hm, RpcNode.ensureGenesis, if_neg hne, RpcNode.ensureIndex,
    RpcNode.ensureSnapshot]
  split
  · exact hindexed.of_eq rfl rfl
  · exact hindexed.of_eq rfl rfl

/-! ## Runs -/

/-- A call that appends a block appends one that extends the index. -/
structure IndexStep (cfg : Config) (n : RpcNode) (ω : Choices) (e : Event) : Prop where
  mined : ∀ ω', n.minesWith cfg ω e = some ω' →
    n.Extends (RpcNode.nextBlockHash { n with pendingTxs := n.executed cfg ω e } (ω'.call 0))
      n.lastBlock.hash
  imported : ∀ block, e = .syncBlock block → (n.syncBlock cfg ω (n.height + 1) block).1 = .ok true →
    n.Extends block.record.hash block.record.parentHash

theorem IndexOk.minePendingBlock {n : RpcNode} (h : IndexOk n) (hchain : ChainOk n) {cfg : Config}
    {ω : Choices} (hextends : n.Extends (n.nextBlockHash (ω.call 0)) n.lastBlock.hash)
    (hlen : (n.minePendingBlock cfg ω).2.blocks.length < 2 ^ 63) :
    IndexOk (n.minePendingBlock cfg ω).2 := by
  obtain ⟨block, l, heq, -, hnumber, hhash, hparent, -⟩ := n.minePendingBlock_eq cfg ω
  have hsame : SameBlocks { n with pendingTxs := [] } (n.minePendingTxs cfg ω).2.2 :=
    RpcNode.mineTxs_sameBlocks n.pendingTxs
  have hbound : n.height + 1 < 2 ^ 63 := by
    obtain ⟨_, hblocks⟩ := n.minePendingBlock_blocks cfg ω
    rwa [hblocks, List.length_append, hchain.length] at hlen
  have hnum : u64 ((n.height : ℤ) + 1) = n.height + 1 := u64_of_lt (k := n.height + 1) (by omega)
  rw [hnum] at heq hnumber
  rw [heq]
  have happend : IndexOk ((RpcNode.addCommits
      { (n.minePendingTxs cfg ω).2.2 with height := n.height + 1 } l).appendBlock (ω.call 5) block
        (n.height + 1) "local" block.txRoot) := by
    refine h.appendBlock (m := RpcNode.addCommits _ l) hchain hsame.blocks hsame.blockIndex ?_ ?_
      hbound
    · rw [hhash, hparent]
      exact hextends
    · rw [hnumber, quantity64_toHex (by omega)]
  exact happend.of_eq rfl rfl

theorem IndexOk.syncBlock {n : RpcNode} (h : IndexOk n) (hchain : ChainOk n) {cfg : Config}
    {ω : Choices} {block : PeerBlock}
    (hextends : (n.syncBlock cfg ω (n.height + 1) block).1 = .ok true →
      n.Extends block.record.hash block.record.parentHash)
    (hlen : (n.syncBlock cfg ω (n.height + 1) block).2.blocks.length < 2 ^ 63) :
    IndexOk (n.syncBlock cfg ω (n.height + 1) block).2 := by
  rcases n.syncBlock_cases cfg ω (n.height + 1) block with ⟨heq, -⟩ | ⟨e, ω₁, ω₂, disk, heq⟩ |
    ⟨ω₂, l, heq, -, hok, -⟩
  · rw [heq]; exact h
  · rw [heq]; exact h.of_eq rfl rfl
  · have hextends' := hextends (by rw [heq])
    rw [heq] at hlen ⊢
    have hsame := n.applyPeerBlock_sameIndex cfg ((ω.call 0).call 1) block.record
    have hbound : n.height + 1 < 2 ^ 63 := by
      rwa [RpcNode.afterImport_blocks, hsame.blocks, List.length_append, hchain.length] at hlen
    have hrecord := RpcNode.recordImported_sameBlocks
    rw [RpcNode.afterImport, hok.number]
    refine IndexOk.of_eq ?_ (hrecord _ _ _).blocks (hrecord _ _ _).blockIndex
    refine h.appendBlock hchain ?_ ?_ hextends' hok.number hbound
    · exact hsame.blocks
    · exact hsame.blockIndex

theorem IndexOk.next {n : RpcNode} (h : IndexOk n) (hchain : ChainOk n) {cfg : Config} {ω : Choices}
    {e : Event} (hstep : IndexStep cfg n ω e) (hlen : (n.next cfg ω e).blocks.length < 2 ^ 63) :
    IndexOk (n.next cfg ω e) := by
  rcases n.syncBlock_or_localCall hchain cfg ω e with ⟨block, rfl⟩ | hcall
  · exact h.syncBlock hchain (hstep.imported block rfl) hlen
  · generalize n.next cfg ω e = n' at hcall hlen ⊢
    cases hcall with
    | quiet hquiet => exact h.of_eq hquiet.blocks hquiet.blockIndex
    | recopied ω₁ ω₂ disk => exact h.of_eq rfl rfl
    | mined hmines =>
        have hqueued : IndexOk { n with pendingTxs := n.executed cfg ω e } := h.of_eq rfl rfl
        have hchain' : ChainOk { n with pendingTxs := n.executed cfg ω e } :=
          hchain.of_eq rfl rfl rfl rfl rfl
        have hextends := hstep.mined _ hmines
        exact hqueued.minePendingBlock hchain'
          ⟨hextends.fresh, hextends.nonzero, hextends.parent⟩ hlen
    | rolledBack hone hle hs => exact (h.rollback hchain hone).of_eq rfl rfl
    | restarted => exact h.restart hchain cfg ω

theorem indexOk_fresh (hgenesis : hashHex (utf8 "bhte-genesis") ≠ zeroHash) (cfg : Config)
    (ω : Choices) : IndexOk (newRPCNode cfg ω {}) := by
  obtain ⟨ω₁, l, timestamp, heq, -⟩ := newRPCNode_fresh cfg ω
  have hblocks : (newRPCNode cfg ω {}).blocks = [freshGenesis ω] := by rw [heq]
  have hindex : (newRPCNode cfg ω {}).blockIndex =
      (∅ : FinMap String BlockIndexRecord).insert (toLower (freshGenesis ω).hash) (freshIndex ω) := by
    rw [heq]
  constructor
  · rw [hblocks]
    exact List.nodup_singleton _
  · intro b hb
    rw [hblocks, List.mem_singleton] at hb
    rw [hindex, hb, FinMap.get?_insert_self]
    exact ⟨_, rfl, rfl, rfl, quantity64_one.symm, quantity64_one.symm, rfl, rfl⟩
  · intro key hkey
    rw [hindex] at hkey
    rw [hblocks]
    rcases FinMap.mem_keys_insert.mp hkey with rfl | hkey
    · exact ⟨_, List.mem_singleton.mpr rfl, rfl⟩
    · cases hkey
  · intro b hb
    rw [hblocks, List.mem_singleton] at hb
    rw [hb]
    show toLower (hashHex (utf8 "bhte-genesis")) ≠ zeroHash
    rw [toLower_hashHex]
    exact hgenesis
  · rw [hblocks]
    exact List.isChain_singleton _
  · rw [hblocks]
    rintro b ⟨rfl⟩
    rfl

theorem ReachableBy.indexOk (hgenesis : hashHex (utf8 "bhte-genesis") ≠ zeroHash) {cfg : Config}
    {n : RpcNode} (h : ReachableBy cfg (IndexStep cfg) n) : ChainOk n ∧ IndexOk n := by
  refine h.induct (P := fun n => ChainOk n ∧ IndexOk n)
    (fun ω => ⟨chainOk_fresh cfg ω, indexOk_fresh hgenesis cfg ω⟩) ?_
  intro n ω e ⟨hchain, hindex⟩ hok hlen
  exact ⟨hchain.next hlen, hindex.next hchain hok hlen⟩

/-! ## The best head and the tips -/

omit [Platform] in
/-- The loop ends with the entry that outweighs every other. -/
theorem bestOf_eq {head : BlockIndexRecord} (hvalidated : head.validated = true) (key : String) :
    ∀ (l : List (String × BlockIndexRecord)) (best : BlockIndexRecord),
      (∀ e ∈ l, e = (key, head) ∨ e.2.totalWeight < head.totalWeight) →
      (best = head ∨ ((key, head) ∈ l ∧ (best.hash = "" ∨ best.totalWeight < head.totalWeight))) →
      head.hash ≠ "" → bestOf best l = head := by
  intro l
  induction l with
  | nil =>
      intro best _ hbest _
      rcases hbest with rfl | ⟨hmem, -⟩
      · rfl
      · cases hmem
  | cons e l ih =>
      intro best hl hbest hhash
      have hrest : ∀ e' ∈ l, e' = (key, head) ∨ e'.2.totalWeight < head.totalWeight :=
        fun e' he' => hl e' (List.mem_cons_of_mem _ he')
      rw [bestOf, List.foldl_cons]
      refine ih _ hrest ?_ hhash
      rcases hbest with rfl | ⟨hmem, hlighter⟩
      · -- the head has been met: nothing that follows is better
        have hkeep : betterHead best e.2 = false ∨ e.2 = best := by
          rcases hl e List.mem_cons_self with rfl | hlt
          · exact .inr rfl
          · left
            rw [betterHead]
            simp only [Bool.or_eq_false_iff, Bool.and_eq_false_iff, decide_eq_false_iff_not]
            exact ⟨⟨hhash, by omega⟩, .inl (by omega)⟩
        rcases hkeep with hkeep | hkeep
        · rw [hkeep, Bool.and_false, if_neg Bool.false_ne_true]
          exact .inl rfl
        · rw [hkeep]
          split <;> exact .inl rfl
      · rcases List.mem_cons.mp hmem with rfl | hmem
        · have hbetter : betterHead best head = true := by
            rw [betterHead]
            rcases hlighter with hempty | hlt
            · simp [hempty]
            · simp [hlt]
          rw [hvalidated, hbetter, Bool.and_self, if_pos rfl]
          exact .inl rfl
        · split
          · rcases hl e List.mem_cons_self with rfl | hlt
            · exact .inl rfl
            · exact .inr ⟨hmem, .inr hlt⟩
          · exact .inr ⟨hmem, hlighter⟩

section Reads
variable {n : RpcNode}

/-- The entry of the head outweighs every other. -/
theorem IndexOk.head_heaviest (h : IndexOk n) (hchain : ChainOk n) {head : BlockIndexRecord}
    (hhead : n.blockIndex.get? (toLower n.lastBlock.hash) = some head) (hof : IndexOf n.lastBlock head) :
    ∀ e ∈ n.blockIndex.entries,
      e = (toLower n.lastBlock.hash, head) ∨ e.2.totalWeight < head.totalWeight := by
  intro e he
  have hget : n.blockIndex.get? e.1 = some e.2 := FinMap.get?_eq_some.mpr he
  obtain ⟨b, hb, hkey, hofb⟩ := h.indexOf hget
  have hnumber := hchain.number_of_blockAt hchain.blockAt_height
  rw [hofb.totalWeight, hof.totalWeight, hnumber]
  have hle := hchain.number_le hb
  rcases hle.lt_or_eq with hlt | heq
  · exact .inr hlt
  · left
    have hsame : b = n.lastBlock := by
      have hmem := ChainOk.mem_of_blockAt hchain.blockAt_height
      have hnodup : (n.blocks.map fun b => quantity64 b.number).Nodup := by
        rw [hchain.numbers]
        exact List.nodup_range' ..
      exact List.inj_on_of_nodup_map hnodup hb hmem (heq.trans hnumber.symm)
    subst hsame
    rw [hkey] at hhead
    rw [hget] at hhead
    cases hhead
    exact Prod.ext hkey.symm rfl

theorem IndexOk.bestIndexedHead (h : IndexOk n) (hchain : ChainOk n) {head : BlockIndexRecord}
    (hhead : n.blockIndex.get? (toLower n.lastBlock.hash) = some head) (hof : IndexOf n.lastBlock head)
    (ω : Choices) : n.bestIndexedHead ω = head := by
  have hmem : (toLower n.lastBlock.hash, head) ∈ n.blockIndex.range ω.order :=
    (n.blockIndex.range_perm _).mem_iff.mpr (FinMap.get?_eq_some.mp hhead)
  refine bestOf_eq hof.validated _ _ _ (fun e he => ?_) (.inr ⟨hmem, .inl rfl⟩) ?_
  · exact h.head_heaviest hchain hhead hof e ((n.blockIndex.range_perm _).mem_iff.mp he)
  · rw [hof.hash]
    exact hchain.hashes _ (ChainOk.mem_of_blockAt hchain.blockAt_height)

theorem toLower_ne_empty {s : String} (h : s ≠ "") : toLower s ≠ "" := by
  intro hlower
  rw [toLower, ← String.toList_inj, String.toList_ofList] at hlower
  exact h (String.toList_eq_nil_iff.mp (List.map_eq_nil_iff.mp hlower))

/-- The head is the one block without a child. -/
theorem IndexOk.hasChild_iff (h : IndexOk n) (hchain : ChainOk n) {b : BlockRecord}
    (hb : b ∈ n.blocks) : n.hasChild (toLower b.hash) = true ↔ b ≠ n.lastBlock := by
  have hlen := hchain.length
  have hnumber := hchain.number_of_blockAt hchain.blockAt_height
  rw [RpcNode.hasChild, List.any_eq_true]
  simp only [Bool.and_eq_true, decide_eq_true_eq]
  constructor
  · rintro ⟨e, he, ⟨-, hzero⟩, hparent⟩ rfl
    obtain ⟨b', hb', -, hof⟩ := h.indexOf (FinMap.get?_eq_some.mpr he)
    rw [hof.parentHash] at hzero hparent
    obtain ⟨j, hj, rfl⟩ := List.mem_iff_getElem.mp hb'
    cases j with
    | zero =>
        refine hzero (h.genesis _ ?_)
        rw [List.head?_eq_getElem?, List.getElem?_eq_getElem hj]
        rfl
    | succ j =>
        -- the parent of a block stands below the last place
        have hlink := List.isChain_iff_getElem.mp h.linked j hj
        have hsame : n.blocks[j] = n.lastBlock := List.inj_on_of_nodup_map h.distinct
          (List.getElem_mem _) hb (hlink.symm.trans hparent)
        have hat := number_getElem hchain.numbers (show j < n.blocks.length by omega)
        rw [hsame, hnumber] at hat
        omega
  · intro hne
    obtain ⟨i, hi, rfl⟩ := List.mem_iff_getElem.mp hb
    have hi' : i + 1 < n.blocks.length := by
      by_contra hge
      have hat := hchain.blockAt_height
      rw [RpcNode.blockAt, if_neg (by omega), show n.height - 1 = i by omega,
        List.getElem?_eq_getElem hi] at hat
      exact hne (Option.some.inj hat)
    have hlink := List.isChain_iff_getElem.mp h.linked i hi'
    obtain ⟨r, hr, hof⟩ := h.indexed n.blocks[i + 1] (List.getElem_mem _)
    refine ⟨_, FinMap.get?_eq_some.mp hr, ⟨?_, ?_⟩, ?_⟩
    · rw [hof.parentHash]
      intro hempty
      have hne' := toLower_ne_empty (hchain.hashes _ hb)
      rw [← hlink, hempty, toLower_of_ascii (by decide)] at hne'
      exact hne' rfl
    · rw [hof.parentHash]
      intro hzero
      refine h.nonzero _ hb ?_
      rw [← hlink, hzero, toLower_zeroHash]
    · rw [hof.parentHash]
      exact hlink

theorem IndexOk.forkChoiceTips (h : IndexOk n) (hchain : ChainOk n) {head : BlockIndexRecord}
    (hhead : n.blockIndex.get? (toLower n.lastBlock.hash) = some head)
    (ω : Choices) : n.forkChoiceTips ω = [forkChoiceHeadInfo head] := by
  have hperm := n.blockIndex.range_perm ω.order
  have hnodup : (n.blockIndex.range ω.order).Nodup :=
    hperm.nodup_iff.mpr (List.Nodup.of_map _ n.blockIndex.nodup_keys)
  have htips : (n.blockIndex.range ω.order).filter (fun e => e.2.validated && !n.hasChild e.1) =
      [(toLower n.lastBlock.hash, head)] := by
    refine List.perm_singleton.mp ((List.perm_ext_iff_of_nodup (hnodup.filter _)
      (List.nodup_singleton _)).mpr fun e => ?_)
    rw [List.mem_filter, hperm.mem_iff, List.mem_singleton, Bool.and_eq_true, Bool.not_eq_true']
    have hlast := ChainOk.mem_of_blockAt hchain.blockAt_height
    constructor
    · rintro ⟨he, -, htip⟩
      have hget : n.blockIndex.get? e.1 = some e.2 := FinMap.get?_eq_some.mpr he
      obtain ⟨b, hb, hkey, -⟩ := h.indexOf hget
      rw [← hkey] at htip hget
      have hsame : b = n.lastBlock := by
        by_contra hne
        rw [(h.hasChild_iff hchain hb).mpr hne] at htip
        cases htip
      rw [hsame, hhead] at hget
      refine Prod.ext ?_ (Option.some.inj hget).symm
      rw [← hkey, hsame]
    · rintro rfl
      obtain ⟨r, hr, hof⟩ := h.indexed _ hlast
      rw [hhead] at hr
      cases hr
      refine ⟨FinMap.get?_eq_some.mp hhead, hof.validated, ?_⟩
      rw [Bool.eq_false_iff, Ne, h.hasChild_iff hchain hlast]
      exact fun hne => hne rfl
  rw [RpcNode.forkChoiceTips, htips, List.map_singleton, List.mergeSort_singleton,
    List.map_singleton]

end Reads

/-- **The index follows the chain.** In a run whose appended blocks all extend the index, the
canonical hashes are distinct, the index holds one entry for each canonical block with its
number as height and weight, and the head of the chain is the best head and the only tip. -/
theorem forkChoice_of_indexStep (hgenesis : hashHex (utf8 "bhte-genesis") ≠ zeroHash) {cfg : Config}
    {n : RpcNode} (h : ReachableBy cfg (IndexStep cfg) n) :
    (n.blocks.map (·.hash)).Nodup ∧
    n.blockIndex.keys.Perm (n.blocks.map fun b => toLower b.hash) ∧
    (∀ k b, n.blockAt k = some b → ∃ r, n.blockIndex.get? (toLower b.hash) = some r ∧
      r.hash = b.hash ∧ r.height = k ∧ r.totalWeight = k) ∧
    ∀ ω, n.blockIndex.get? (toLower n.lastBlock.hash) = some (n.bestIndexedHead ω) ∧
      (n.bestIndexedHead ω).hash = n.lastBlock.hash ∧
      n.forkChoiceTips ω = [forkChoiceHeadInfo (n.bestIndexedHead ω)] := by
  obtain ⟨hchain, hindex⟩ := h.indexOk hgenesis
  have hlast := ChainOk.mem_of_blockAt hchain.blockAt_height
  obtain ⟨head, hhead, hof⟩ := hindex.indexed _ hlast
  refine ⟨?_, ?_, fun k b hb => ?_, fun ω => ?_⟩
  · have hlower : (n.blocks.map fun b => toLower b.hash) = (n.blocks.map (·.hash)).map toLower := by
      rw [List.map_map]
      rfl
    have hdistinct := hindex.distinct
    rw [hlower] at hdistinct
    exact hdistinct.of_map
  · refine (List.perm_ext_iff_of_nodup n.blockIndex.nodup_keys hindex.distinct).mpr fun key => ?_
    rw [List.mem_map]
    constructor
    · exact hindex.only key
    · rintro ⟨b, hb, rfl⟩
      obtain ⟨r, hr, -⟩ := hindex.indexed b hb
      exact FinMap.mem_keys.mpr ⟨r, hr⟩
  · obtain ⟨r, hr, hofb⟩ := hindex.indexed b (ChainOk.mem_of_blockAt hb)
    have hnumber := hchain.number_of_blockAt hb
    exact ⟨r, hr, hofb.hash, hofb.height.trans hnumber, hofb.totalWeight.trans hnumber⟩
  · rw [hindex.bestIndexedHead hchain hhead hof]
    exact ⟨hhead, hof.hash, hindex.forkChoiceTips hchain hhead ω⟩

/-! ## A mined block -/

omit [Platform] in
theorem hexString_zeros : hexString (List.replicate 32 0) = zeroHash := by decide

/-- Where a digest begins with the first byte of its input, it is not the zero hash. -/
theorem hashHex_ne_zeroHash (h : ∀ b : Bytes, (Platform.sha256 b).headD 0 = b.headD 0) {b : Bytes}
    (hb : b.headD 0 ≠ 0) : hashHex b ≠ zeroHash := by
  intro heq
  rw [hashHex, ← hexString_zeros] at heq
  have hhead := h b
  rw [hexString_injective heq] at hhead
  exact hb hhead.symm

theorem genesis_ne_zeroHash (h : ∀ b : Bytes, (Platform.sha256 b).headD 0 = b.headD 0) :
    hashHex (utf8 "bhte-genesis") ≠ zeroHash :=
  hashHex_ne_zeroHash h (by decide)

/-- A fresh node mines a block that extends the index. -/
theorem indexStep_mineBlock (h : ∀ b : Bytes, (Platform.sha256 b).headD 0 = b.headD 0) {n : RpcNode}
    {ω : Choices} (hn : n = newRPCNode {} ω {}) :
    ReachableBy {} (IndexStep {}) (n.next {} ω .mineBlock) := by
  have hchain : ChainOk n := hn ▸ chainOk_fresh {} ω
  have hreach : ReachableBy {} (IndexStep {}) n := hn ▸ ⟨ω, .refl⟩
  obtain ⟨ω₁, l, timestamp, hfresh, -⟩ := newRPCNode_fresh {} ω
  rw [hfresh] at hn
  have hheight : n.height = 1 := by rw [hn]
  have hkeys : ∀ key ∈ n.blockIndex.keys, key = toLower (hashHex (utf8 "bhte-genesis")) := by
    rw [hn]
    intro key hkey
    rcases FinMap.mem_keys_insert.mp hkey with rfl | hkey
    · rfl
    · cases hkey
  have hlt : n.height + 1 < 2 ^ 63 := by
    rw [hheight]
    decide
  refine hreach.next ⟨fun ω' _ => ⟨fun hmem => ?_, ?_, rfl⟩, fun block hblock => by cases hblock⟩
    (mined_of_height_lt hchain hlt {} ω).1
  · have hlower := hkeys _ hmem
    rw [RpcNode.nextBlockHash, blockHash, toLower_hashHex, toLower_hashHex] at hlower
    exact blockHash_ne_genesis h _ _ _ _ hlower
  · rw [RpcNode.nextBlockHash, blockHash, toLower_hashHex]
    refine hashHex_ne_zeroHash h ?_
    rw [headD_utf8_jsonObject]
    decide

omit [Platform] in
theorem forkChoice_of_mined :
    letI := Platform.checksums
    let n := (newRPCNode {} default {}).next {} default .mineBlock
    (n.blocks.map (·.hash)).Nodup ∧ (n.bestIndexedHead default).hash = n.lastBlock.hash := by
  have hstep := @indexStep_mineBlock Platform.checksums (fun _ => rfl) _ default rfl
  obtain ⟨hnodup, -, -, hhead⟩ := @forkChoice_of_indexStep Platform.checksums
    (@genesis_ne_zeroHash Platform.checksums fun _ => rfl) _ _ hstep
  exact ⟨hnodup, (hhead default).2.1⟩

/-! ## A hash twice on the chain -/

/-- A block without transactions on top of a fresh node, under the hash of the genesis block. -/
def twinBlock (ω : Choices) : PeerBlock where
  record :=
    { number := "0x2"
      hash := (freshGenesis ω).hash
      parentHash := (freshGenesis ω).hash
      stateRoot := (freshGenesis ω).stateRoot
      receiptRoot := receiptTrieRoot []
      logsBloom := zeroHash
      timestamp := "0x1" }

omit [Platform] in
theorem quantity64_two : quantity64 "0x2" = 2 := by decide +kernel

/-- A fresh node accepts it. -/
theorem validate_twinBlock (hgenesis : hashHex (utf8 "bhte-genesis") ≠ zeroHash) {n : RpcNode}
    {ω : Choices} (hn : n = newRPCNode {} ω {}) (hroot : (freshGenesis ω).stateRoot ≠ zeroHash) :
    n.validatePeerBlock (twinBlock ω) 2 = .ok () := by
  obtain ⟨ω₁, l, timestamp, hfresh, -⟩ := newRPCNode_fresh {} ω
  rw [hfresh] at hn
  have hnone : (n.canonical.get? 2).getD "" = "" := by rw [hn]; rfl
  have hone : (n.canonical.get? (u64 ((2 : ℕ) - 1))).getD "" = (freshGenesis ω).hash := by
    rw [hn]
    rfl
  have hhash : (freshGenesis ω).hash ≠ "" := hashHex_ne_empty _
  have hzero : (freshGenesis ω).hash ≠ zeroHash := hgenesis
  have hreceipts : receiptTrieRoot [] ≠ "" := hexPrefix_ne (by decide)
  have hempty : (freshGenesis ω).stateRoot ≠ "" := hexPrefix_ne (by decide)
  rw [RpcNode.validatePeerBlock, hone, hnone]
  refine (if_neg (not_or.mpr ⟨hhash, hzero⟩)).trans ?_
  refine (if_neg (not_or.mpr ⟨hempty, hroot⟩)).trans ?_
  refine (if_neg hreceipts).trans ?_
  refine (if_neg (not_not_intro quantity64_two)).trans ?_
  refine (if_neg fun hold => hold.1 rfl).trans ?_
  refine (if_neg fun hparent => hparent.2 ?_).trans ?_
  · exact if_neg (not_not_intro rfl)
  · rw [if_neg hhash]
    exact equalFold_refl _

/-- Importing it puts the genesis hash twice on the chain. -/
theorem syncBlock_twinBlock (hgenesis : hashHex (utf8 "bhte-genesis") ≠ zeroHash) {n : RpcNode}
    {ω : Choices} (hn : n = newRPCNode {} ω {}) (hroot : (freshGenesis ω).stateRoot ≠ zeroHash)
    (ω' : Choices) :
    n.validatePeerBlock (twinBlock ω) 2 = .ok () ∧
    Reachable {} (n.next {} ω' (.syncBlock (twinBlock ω))) ∧
    (n.next {} ω' (.syncBlock (twinBlock ω))).blocks.map (·.hash) =
      [(freshGenesis ω).hash, (freshGenesis ω).hash] := by
  have hvalid := validate_twinBlock hgenesis hn hroot
  have hreach : Reachable {} n := hn ▸ ⟨ω, .refl⟩
  obtain ⟨ω₁, l, timestamp, hfresh, -⟩ := newRPCNode_fresh {} ω
  rw [hfresh] at hn
  have hheight : n.height = 1 := by rw [hn]
  have hworld : n.world = freshWorld {} := by rw [hn]
  have hblocks : n.blocks = [freshGenesis ω] := by rw [hn]
  have hnew : (n.canonical.get? (quantity64 (twinBlock ω).record.number)).getD "" = "" := by
    show (n.canonical.get? (quantity64 "0x2")).getD "" = ""
    rw [quantity64_two, hn]
    rfl
  have hmatch : RpcNode.RootsMatch (twinBlock ω).record
      (n.applyPeerBlock {} ((ω'.call 0).call 1) (twinBlock ω).record) (((ω'.call 0).call 2).call 0) := by
    refine ⟨?_, rfl, ?_, rfl⟩
    · show equalFold (freshGenesis ω).stateRoot (stateTrieRoot (n.world.copy _)) = true
      rw [hworld, (freshWorld_normal {}).copy_eq, stateRoot_freshGenesis, equalFold_refl]
    · show RpcNode.rootMatches (receiptTrieRoot []) (receiptTrieRoot []) = true
      rw [RpcNode.rootMatches, equalFold_refl, Bool.or_true]
  obtain ⟨commits, himport⟩ := RpcNode.importPeerBlock_of_match hnew hmatch
  have hnext : n.next {} ω' (.syncBlock (twinBlock ω)) = n.afterImport (ω'.call 2)
      (twinBlock ω).record commits
        (n.applyPeerBlock {} ((ω'.call 0).call 1) (twinBlock ω).record) := by
    rw [RpcNode.next, hheight, RpcNode.syncBlock, hvalid]
    exact congrArg Prod.snd himport
  have hafter : (n.next {} ω' (.syncBlock (twinBlock ω))).blocks =
      [freshGenesis ω, RpcNode.importedBlock (twinBlock ω).record [] []] := by
    rw [hnext, RpcNode.afterImport_blocks, (n.applyPeerBlock_sameIndex {} _ _).blocks, hblocks]
    rfl
  refine ⟨hvalid, hreach.next trivial ?_, ?_⟩
  · rw [hafter]
    show 2 < 2 ^ 63
    decide
  · rw [hafter]
    rfl

omit [Platform] in
/-- **A hash twice.** A peer's block under the hash of the genesis block is accepted, and the
chain then holds two blocks of one hash. -/
theorem importPeerBlock_repeats_hash :
    letI := Platform.checksums
    let fresh := newRPCNode {} default {}
    let n := fresh.next {} default (.syncBlock (twinBlock default))
    fresh.validatePeerBlock (twinBlock default) 2 = .ok () ∧ Reachable {} n ∧
      ¬ (n.blocks.map (·.hash)).Nodup := by
  obtain ⟨hvalid, hreach, hhashes⟩ := @syncBlock_twinBlock Platform.checksums
    (@genesis_ne_zeroHash Platform.checksums fun _ => rfl) _ default rfl
      (checksums_stateRoot_ne_zeroHash default) default
  refine ⟨hvalid, hreach, fun hnodup => ?_⟩
  rw [hhashes] at hnodup
  exact (List.nodup_cons.mp hnodup).1 (List.mem_singleton_self _)

end BhtBhte.Node
