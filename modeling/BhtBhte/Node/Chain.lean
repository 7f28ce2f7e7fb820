import BhtBhte.Node.Start
import Mathlib.Data.List.Chain

/-!
# The chain and what indexes it

One invariant over the block list, the height, the canonical map and the snapshots.  Every call that
moves the head does so by `appendBlock` or by `rollback`, so the invariant is kept by these two and
by whatever leaves the four structures alone.  A whole `syncPeer` call is a run of block imports
(`syncPeer_run`), so it is among these.
-/
namespace BhtBhte.Node
open BhtBhte.Lib

/-! ## Lists numbered in order -/

section Numbered
variable {α : Type} {f : α → ℕ}

theorem filter_lt_eq_take {l : List α} {s : ℕ} (h : l.map f = List.range' s l.length) (k : ℕ) :
    l.filter (fun a => f a < k) = l.take (k - s) := by
  induction l generalizing s with
  | nil => simp
  | cons a l ih =>
      rw [List.map_cons, List.length_cons, List.range'_succ, List.cons.injEq] at h
      by_cases hk : f a < k
      · rw [List.filter_cons_of_pos (by simpa using hk), ih h.2,
          show k - s = (k - (s + 1)) + 1 by omega, List.take_succ_cons]
      · rw [List.filter_cons_of_neg (by simpa using hk), ih h.2, show k - s = 0 by omega,
          show k - (s + 1) = 0 by omega, List.take_zero, List.take_zero]

theorem filter_le_eq_drop {l : List α} {s : ℕ} (h : l.map f = List.range' s l.length) (k : ℕ) :
    l.filter (fun a => k ≤ f a) = l.drop (k - s) := by
  induction l generalizing s with
  | nil => simp
  | cons a l ih =>
      rw [List.map_cons, List.length_cons, List.range'_succ, List.cons.injEq] at h
      by_cases hk : k ≤ f a
      · rw [List.filter_cons_of_pos (by simpa using hk), ih h.2, show k - s = 0 by omega,
          show k - (s + 1) = 0 by omega, List.drop_zero, List.drop_zero]
      · rw [List.filter_cons_of_neg (by simpa using hk), ih h.2,
          show k - s = (k - (s + 1)) + 1 by omega, List.drop_succ_cons]

end Numbered

variable [Platform]

/-! ## The invariant -/

/-- The block at a height, counting from one. -/
def RpcNode.blockAt (n : RpcNode) (k : ℕ) : Option BlockRecord :=
  if k = 0 then none else n.blocks[k - 1]?

/-- The snapshot that belongs to a block. -/
def SnapshotOf (k : ℕ) (b : BlockRecord) (s : StateSnapshotRecord) : Prop :=
  s.complete = true ∧ s.height = k ∧ s.blockHash = b.hash ∧ s.stateRoot = b.stateRoot

structure ChainOk (n : RpcNode) : Prop where
  pos : 0 < n.height
  length : n.blocks.length = n.height
  bound : n.height < 2 ^ 63
  numbers : n.blocks.map (fun b => quantity64 b.number) = List.range' 1 n.blocks.length
  parents : n.blocks.IsChain fun b b' => equalFold b'.parentHash b.hash = true
  hashes : ∀ b ∈ n.blocks, b.hash ≠ ""
  canonical : ∀ k, n.canonical.get? k = (n.blockAt k).map (·.hash)
  noSnapshot : ∀ k, n.blockAt k = none → n.stateSnapshots.get? k = none
  snapshot : ∀ k b, n.blockAt k = some b → ∃ s, n.stateSnapshots.get? k = some s ∧ SnapshotOf k b s
  accounts : n.accounts ≠ []

namespace ChainOk
variable {n n' : RpcNode}

theorem ne_nil (h : ChainOk n) : n.blocks ≠ [] := by
  have := h.pos
  rw [← h.length] at this
  exact List.ne_nil_of_length_pos this

/-- The invariant reads five fields. -/
theorem of_eq (h : ChainOk n) (hheight : n'.height = n.height) (hblocks : n'.blocks = n.blocks)
    (hcanonical : n'.canonical = n.canonical)
    (hsnapshots : n'.stateSnapshots = n.stateSnapshots) (haccounts : n'.accounts = n.accounts) :
    ChainOk n' := by
  have hat : ∀ k, n'.blockAt k = n.blockAt k := by
    intro k
    rw [RpcNode.blockAt, RpcNode.blockAt, hblocks]
  constructor
  · rw [hheight]; exact h.pos
  · rw [hheight, hblocks]; exact h.length
  · rw [hheight]; exact h.bound
  · rw [hblocks]; exact h.numbers
  · rw [hblocks]; exact h.parents
  · rw [hblocks]; exact h.hashes
  · intro k; rw [hcanonical, hat]; exact h.canonical k
  · intro k hk; rw [hsnapshots]; exact h.noSnapshot k (hat k ▸ hk)
  · intro k b hb; rw [hsnapshots]; exact h.snapshot k b (hat k ▸ hb)
  · rw [haccounts]; exact h.accounts

theorem of_sameBlocks (h : ChainOk n) (hs : SameBlocks n n') : ChainOk n' :=
  h.of_eq hs.height hs.blocks hs.canonical hs.stateSnapshots hs.accounts

theorem save (h : ChainOk n) : ChainOk n.save := h.of_eq rfl rfl rfl rfl rfl

theorem blockAt_height (h : ChainOk n) : n.blockAt n.height = some n.lastBlock := by
  have hpos := h.pos
  rw [RpcNode.blockAt, if_neg (by omega), RpcNode.lastBlock, ← h.length,
    ← List.getLast?_eq_getElem?, List.getLast?_eq_getLast_of_ne_nil h.ne_nil,
    List.getLastD_eq_getLast?, List.getLast?_eq_getLast_of_ne_nil h.ne_nil]
  rfl

theorem blockAt_eq_none_iff (h : ChainOk n) (k : ℕ) :
    n.blockAt k = none ↔ ¬ (1 ≤ k ∧ k ≤ n.height) := by
  rw [RpcNode.blockAt, ← h.length]
  split
  · simp; omega
  · rw [List.getElem?_eq_none_iff]; omega

theorem range_of_blockAt (h : ChainOk n) {k : ℕ} {b : BlockRecord} (hb : n.blockAt k = some b) :
    1 ≤ k ∧ k ≤ n.height := by
  by_contra hnot
  cases hb.symm.trans ((h.blockAt_eq_none_iff k).mpr hnot)

theorem le_of_snapshot (h : ChainOk n) {k : ℕ} {s : StateSnapshotRecord}
    (hs : n.stateSnapshots.get? k = some s) : k ≤ n.height := by
  by_contra hgt
  rw [h.noSnapshot k ((h.blockAt_eq_none_iff k).mpr (by omega))] at hs
  cases hs

theorem number_of_blockAt (h : ChainOk n) {k : ℕ} {b : BlockRecord} (hb : n.blockAt k = some b) :
    quantity64 b.number = k := by
  rw [RpcNode.blockAt] at hb
  split at hb
  · cases hb
  · next hk =>
      have hmap := congrArg (fun l : List ℕ => l[k - 1]?) h.numbers
      obtain ⟨hlt, -⟩ := List.getElem?_eq_some_iff.mp hb
      simp only [List.getElem?_map, hb, Option.map_some, List.getElem?_range', hlt,
        Option.some.injEq] at hmap
      omega

omit [Platform] in
theorem mem_of_blockAt {k : ℕ} {b : BlockRecord} (hb : n.blockAt k = some b) : b ∈ n.blocks := by
  rw [RpcNode.blockAt] at hb
  split at hb
  · cases hb
  · exact List.mem_of_getElem? hb

/-- The canonical map holds a hash exactly where there is a block. -/
theorem canonical_eq_empty_iff (h : ChainOk n) (k : ℕ) :
    (n.canonical.get? k).getD "" = "" ↔ ¬ (1 ≤ k ∧ k ≤ n.height) := by
  rw [← h.blockAt_eq_none_iff, h.canonical]
  cases hb : n.blockAt k with
  | none => simp
  | some b => simpa using h.hashes b (mem_of_blockAt hb)

/-- There is a block at a height that the canonical map has. -/
theorem height_of_canonical (h : ChainOk n) {k : ℕ} (hk : (n.canonical.get? k).getD "" ≠ "") :
    1 ≤ k ∧ k ≤ n.height :=
  not_not.mp fun hne => hk ((h.canonical_eq_empty_iff k).mpr hne)

end ChainOk

/-! ## Appending a block -/

theorem RpcNode.appendBlock_fields (n : RpcNode) (ω : Choices) (block : BlockRecord) (height : ℕ)
    (source anchorTxHash : String) :
    (n.appendBlock ω block height source anchorTxHash).height = height ∧
    (n.appendBlock ω block height source anchorTxHash).blocks = n.blocks ++ [block] ∧
    (n.appendBlock ω block height source anchorTxHash).canonical =
      n.canonical.insert height block.hash ∧
    (n.appendBlock ω block height source anchorTxHash).accounts = n.accounts ∧
    (n.appendBlock ω block height source anchorTxHash).stateSnapshots =
      n.stateSnapshots.insert height
        ⟨height, block.hash, block.stateRoot, true, "local", n.world.copy ((ω.call 2).call 0),
          ((ω.call 2).call 1).unix⟩ :=
  ⟨rfl, rfl, rfl, rfl, rfl⟩

theorem ChainOk.blockAt_append {n n' : RpcNode} (h : ChainOk n) {block : BlockRecord}
    (hblocks : n'.blocks = n.blocks ++ [block]) (k : ℕ) :
    n'.blockAt k = if k = n.height + 1 then some block else n.blockAt k := by
  have hlen := h.length
  rw [RpcNode.blockAt, RpcNode.blockAt, hblocks]
  by_cases hk : k = n.height + 1
  · rw [if_pos hk, if_neg (by omega), List.getElem?_append_right (by omega),
      show k - 1 - n.blocks.length = 0 by omega]
    rfl
  · rw [if_neg hk]
    by_cases h0 : k = 0
    · rw [if_pos h0, if_pos h0]
    · rw [if_neg h0, if_neg h0]
      by_cases hlt : k - 1 < n.blocks.length
      · rw [List.getElem?_append_left hlt]
      · rw [List.getElem?_eq_none (by simp; omega), List.getElem?_eq_none (by omega)]

/-- A block numbered one above the head that names it as its parent extends the chain. -/
theorem ChainOk.appendBlock {n m : RpcNode} (h : ChainOk n) (hblocks : m.blocks = n.blocks)
    (hcanonical : m.canonical = n.canonical) (hsnapshots : m.stateSnapshots = n.stateSnapshots)
    (haccounts : m.accounts = n.accounts) {ω : Choices} {block : BlockRecord}
    {source anchorTxHash : String} (hnumber : quantity64 block.number = n.height + 1)
    (hparent : equalFold block.parentHash n.lastBlock.hash = true) (hhash : block.hash ≠ "")
    (hbound : n.height + 1 < 2 ^ 63) :
    ChainOk (m.appendBlock ω block (n.height + 1) source anchorTxHash) := by
  obtain ⟨fheight, fblocks, fcanonical, faccounts, fsnapshots⟩ :=
    m.appendBlock_fields ω block (n.height + 1) source anchorTxHash
  generalize m.appendBlock ω block (n.height + 1) source anchorTxHash = r at *
  rw [hblocks] at fblocks
  rw [hcanonical] at fcanonical
  rw [hsnapshots] at fsnapshots
  have hat := h.blockAt_append fblocks
  constructor
  · omega
  · rw [fheight, fblocks, List.length_append, h.length]; rfl
  · omega
  · rw [fblocks, List.map_append, h.numbers, List.length_append, List.range'_append_1.symm,
      List.map_singleton, hnumber, h.length, Nat.add_comm 1]
    rfl
  · rw [fblocks, List.isChain_append]
    refine ⟨h.parents, List.isChain_singleton _, ?_⟩
    intro b hb b' hb'
    cases hb'
    have hlast : b = n.lastBlock := by
      rw [RpcNode.lastBlock, List.getLastD_eq_getLast?, hb]
      rfl
    rw [hlast]
    exact hparent
  · intro b hb
    rw [fblocks] at hb
    rcases List.mem_append.mp hb with hb | hb
    · exact h.hashes b hb
    · rw [List.mem_singleton.mp hb]; exact hhash
  · intro k
    rw [fcanonical, FinMap.get?_insert, hat]
    split
    · rfl
    · exact h.canonical k
  · intro k hk
    rw [hat] at hk
    split at hk
    · cases hk
    · next hne =>
        rw [fsnapshots, FinMap.get?_insert_of_ne _ _ hne]
        exact h.noSnapshot k hk
  · intro k b hb
    rw [hat] at hb
    rw [fsnapshots, FinMap.get?_insert]
    split at hb
    · next heq =>
        cases hb
        rw [if_pos heq]
        exact ⟨_, rfl, rfl, heq.symm, rfl, rfl⟩
    · next hne =>
        rw [if_neg hne]
        exact h.snapshot k b hb
  · rw [faccounts, haccounts]; exact h.accounts

/-! ## Rolling back -/

/-- The snapshot below a canonical height has the height of its block. -/
theorem ChainOk.snapshot_height {n : RpcNode} (h : ChainOk n) {height : ℕ}
    {s : StateSnapshotRecord} (hone : 1 < height) (hle : height ≤ n.height)
    (hs : n.stateSnapshots.get? (height - 1) = some s) : s.height = height - 1 := by
  cases hb : n.blockAt (height - 1) with
  | none => exact absurd ⟨by omega, by omega⟩ ((h.blockAt_eq_none_iff _).mp hb)
  | some b =>
      obtain ⟨s', hs', hof⟩ := h.snapshot _ b hb
      rw [hs'] at hs
      cases hs
      exact hof.2.1

/-- A rollback keeps the blocks below its height. -/
theorem ChainOk.blockAt_rollback {n : RpcNode} (h : ChainOk n) (ω : Choices) (height : ℕ)
    (snapshot : StateSnapshotRecord) (k : ℕ) :
    (n.rollback ω height snapshot).blockAt k = if k < height then n.blockAt k else none := by
  have hblocks : (n.rollback ω height snapshot).blocks = n.blocks.take (height - 1) :=
    filter_lt_eq_take h.numbers height
  rw [RpcNode.blockAt, RpcNode.blockAt, hblocks, List.getElem?_take]
  split
  · simp
  · next hk =>
      by_cases hlt : k < height
      · rw [if_pos (by omega), if_pos hlt]
      · rw [if_neg (by omega), if_neg hlt]

/-- The canonical map ends below the height. -/
theorem ChainOk.canonical_rollback {n : RpcNode} (h : ChainOk n) (ω : Choices) {height : ℕ}
    (hone : 1 < height) (snapshot : StateSnapshotRecord) (k : ℕ) :
    (n.rollback ω height snapshot).canonical.get? k =
      if k < height then n.canonical.get? k else none := by
  have hmem : k ∈ (n.blocksFrom height).map (fun b => quantity64 b.number) ↔
      height ≤ k ∧ k ≤ n.height := by
    rw [RpcNode.blocksFrom, filter_le_eq_drop h.numbers, List.map_drop, h.numbers,
      List.drop_range', List.mem_range'_1, h.length]
    omega
  refine (FinMap.get?_foldl_erase (fun b : BlockRecord => quantity64 b.number)
    (n.blocksFrom height) n.canonical k).trans ?_
  by_cases hk : k < height
  · rw [if_neg (by rw [hmem]; omega), if_pos hk]
  · rw [if_neg hk]
    by_cases hkn : k ≤ n.height
    · rw [if_pos (hmem.mpr ⟨by omega, hkn⟩)]
    · rw [if_neg (by rw [hmem]; omega), h.canonical, (h.blockAt_eq_none_iff k).mpr (by omega)]
      rfl

theorem RpcNode.stateSnapshots_rollback (n : RpcNode) (ω : Choices) (height : ℕ)
    (snapshot : StateSnapshotRecord) (k : ℕ) :
    (n.rollback ω height snapshot).stateSnapshots.get? k =
      if k < height then n.stateSnapshots.get? k else none := by
  refine (FinMap.get?_filter _ _ k).trans ?_
  cases n.stateSnapshots.get? k <;> simp [Option.filter]


/-- The chain cut off below `height`, with the snapshot of its new head put back. -/
theorem ChainOk.rollback {n : RpcNode} (h : ChainOk n) {ω : Choices} {height : ℕ}
    {snapshot : StateSnapshotRecord} (hone : 1 < height) (hle : height ≤ n.height)
    (hsnapshot : n.stateSnapshots.get? (height - 1) = some snapshot) :
    ChainOk (n.rollback ω height snapshot) := by
  have hlen := h.length
  have hbound := h.bound
  have hblocks : (n.rollback ω height snapshot).blocks = n.blocks.take (height - 1) :=
    filter_lt_eq_take h.numbers height
  have hat := h.blockAt_rollback ω height snapshot
  have hheight := h.snapshot_height hone hle hsnapshot
  have hcanonical := h.canonical_rollback ω hone snapshot
  have hsnap := n.stateSnapshots_rollback ω height snapshot
  constructor
  · show 0 < snapshot.height
    omega
  · rw [hblocks, List.length_take, hlen]
    show _ = snapshot.height
    omega
  · show snapshot.height < _
    omega
  · rw [hblocks, List.map_take, h.numbers, List.length_take, Nat.min_eq_left (by omega),
      List.take_range'_of_length_ge (by omega)]
  · rw [hblocks]
    exact h.parents.take _
  · intro b hb
    rw [hblocks] at hb
    exact h.hashes b (List.mem_of_mem_take hb)
  · intro k
    rw [hcanonical, hat]
    split
    · exact h.canonical k
    · rfl
  · intro k hk
    rw [hat] at hk
    rw [hsnap]
    split at hk
    · next hlt => rw [if_pos hlt]; exact h.noSnapshot k hk
    · next hlt => rw [if_neg hlt]
  · intro k b hb
    rw [hat] at hb
    rw [hsnap]
    split at hb
    · next hlt => rw [if_pos hlt]; exact h.snapshot k b hb
    · cases hb
  · exact h.accounts

/-- A rollback keeps the blocks below its height. -/
theorem ChainOk.blocks_rollback {n : RpcNode} (h : ChainOk n) (ω : Choices) (height : ℕ)
    (s : StateSnapshotRecord) : (n.rollback ω height s).blocks = n.blocks.take (height - 1) :=
  filter_lt_eq_take h.numbers height

/-- A rollback keeps the snapshots below its height. -/
theorem RpcNode.snapshot_rollback_iff {n : RpcNode} {ω : Choices} {height k : ℕ}
    {s s' : StateSnapshotRecord} : (n.rollback ω height s).stateSnapshots.get? k = some s' ↔
      n.stateSnapshots.get? k = some s' ∧ k < height := by
  show (n.stateSnapshots.filter fun k _ => decide (k < height)).get? k = some s' ↔ _
  rw [FinMap.get?_filter, Option.filter_eq_some_iff, decide_eq_true_eq]

theorem ChainOk.handleReorg {n : RpcNode} (h : ChainOk n) {ω : Choices} {height : ℕ}
    {newHash : String} : ChainOk (n.handleReorg ω height newHash).2 := by
  rcases n.handleReorg_cases ω height newHash with heq | ⟨snapshot, ⟨hone, hold, -⟩, hs, heq⟩
  · rw [heq]
    exact h
  · rw [heq]
    exact (h.rollback hone (h.height_of_canonical hold).2 hs).save

/-! ## Mining and importing -/

omit [Platform] in
theorem u64_of_lt {k : ℕ} (h : k < 2 ^ 64) : u64 (k : ℤ) = k := by
  rw [u64, Int.emod_eq_of_lt (by omega) (by exact_mod_cast h), Int.toNat_natCast]

theorem ChainOk.minePendingBlock {n : RpcNode} (h : ChainOk n) {cfg : Config} {ω : Choices}
    (hlen : (n.minePendingBlock cfg ω).2.blocks.length < 2 ^ 63) :
    ChainOk (n.minePendingBlock cfg ω).2 := by
  obtain ⟨block, l, heq, -, hnumber, hhash, hparent, -⟩ := n.minePendingBlock_eq cfg ω
  have hsame : SameBlocks { n with pendingTxs := [] } (n.minePendingTxs cfg ω).2.2 :=
    RpcNode.mineTxs_sameBlocks n.pendingTxs
  have hbound : n.height + 1 < 2 ^ 63 := by
    obtain ⟨_, hblocks⟩ := n.minePendingBlock_blocks cfg ω
    rwa [hblocks, List.length_append, h.length] at hlen
  have hnum : u64 ((n.height : ℤ) + 1) = n.height + 1 := u64_of_lt (k := n.height + 1) (by omega)
  rw [heq, hnum]
  refine (h.appendBlock (m := RpcNode.addCommits _ l) hsame.blocks hsame.canonical
    hsame.stateSnapshots hsame.accounts ?_ ?_ ?_ hbound).save
  · rw [hnumber, hnum, quantity64_toHex (by omega)]
  · rw [hparent, equalFold_refl]
  · rw [hhash]
    exact hashHex_ne_empty _

theorem ChainOk.recopied {n : RpcNode} (h : ChainOk n) (ω ω' : Choices) (disk : List Files) :
    ChainOk (n.recopied ω ω' disk) := h.of_eq rfl rfl rfl rfl rfl

/-- A block that passed validation at the next height extends the chain. -/
theorem ChainOk.afterImport {n : RpcNode} (h : ChainOk n) {cfg : Config} {ω ω' : Choices}
    {block : BlockRecord} {l : List TrieCommitRecord}
    (hok : RpcNode.PeerBlockOk n block (n.height + 1))
    (hlen : (n.afterImport ω block l (n.applyPeerBlock cfg ω' block)).blocks.length < 2 ^ 63) :
    ChainOk (n.afterImport ω block l (n.applyPeerBlock cfg ω' block)) := by
  have hsame := n.applyPeerBlock_sameIndex cfg ω' block
  have hpos := h.pos
  have hbound : n.height + 1 < 2 ^ 63 := by
    rwa [RpcNode.afterImport_blocks, hsame.blocks, List.length_append, h.length] at hlen
  have hlast : (n.canonical.get? (u64 (((n.height + 1 : ℕ) : ℤ) - 1))).getD "" =
      n.lastBlock.hash := by
    rw [Nat.cast_succ, add_sub_cancel_right, u64_of_lt (by omega), h.canonical, h.blockAt_height]
    rfl
  have hne : n.lastBlock.hash ≠ "" := h.hashes _ (ChainOk.mem_of_blockAt h.blockAt_height)
  have hparent := hok.parent (by omega)
  rw [hlast] at hparent
  rw [RpcNode.afterImport, hok.number]
  refine ChainOk.of_sameBlocks ?_ (RpcNode.recordImported_sameBlocks _ _ _)
  refine h.appendBlock ?_ ?_ ?_ ?_ ?_ ?_ ?_ hbound
  · exact hsame.blocks
  · exact hsame.canonical
  · exact hsame.stateSnapshots
  · exact hsame.accounts
  · exact hok.number
  · exact hparent hne
  · exact hok.hash

theorem ChainOk.syncBlock {n : RpcNode} (h : ChainOk n) {cfg : Config} {ω : Choices}
    {block : PeerBlock} (hlen : (n.syncBlock cfg ω (n.height + 1) block).2.blocks.length < 2 ^ 63) :
    ChainOk (n.syncBlock cfg ω (n.height + 1) block).2 := by
  rcases n.syncBlock_cases cfg ω (n.height + 1) block with ⟨heq, -⟩ | ⟨e, ω₁, ω₂, disk, heq⟩ |
    ⟨ω₂, l, heq, -, hok, -⟩
  · rw [heq]; exact h
  · rw [heq]; exact h.recopied ω₁ ω₂ disk
  · rw [heq] at hlen ⊢
    exact h.afterImport hok hlen

/-! ## Starting and restarting -/

theorem chainOk_fresh (cfg : Config) (ω : Choices) : ChainOk (newRPCNode cfg ω {}) := by
  obtain ⟨ω₁, l, timestamp, heq, -⟩ := newRPCNode_fresh cfg ω
  have hat : ∀ k, (newRPCNode cfg ω {}).blockAt k = if k = 1 then some (freshGenesis ω) else none := by
    intro k
    rw [heq, RpcNode.blockAt]
    rcases k with _ | _ | k <;> simp
  have hcanonical : (newRPCNode cfg ω {}).canonical =
      (∅ : FinMap ℕ String).insert 1 (freshGenesis ω).hash := by rw [heq]
  have hsnapshots : (newRPCNode cfg ω {}).stateSnapshots =
      (∅ : FinMap ℕ StateSnapshotRecord).insert 1
        ⟨1, (freshGenesis ω).hash, (freshGenesis ω).stateRoot, true, "local",
          (freshWorld cfg).copy ω₁, timestamp⟩ := by rw [heq]
  have hblocks : (newRPCNode cfg ω {}).blocks = [freshGenesis ω] := by rw [heq]
  have hheight : (newRPCNode cfg ω {}).height = 1 := by rw [heq]
  constructor
  · omega
  · rw [hblocks, hheight]; rfl
  · omega
  · rw [hblocks]
    exact congrArg (fun k => [k]) quantity64_one
  · rw [hblocks]
    exact List.isChain_singleton _
  · intro b hb
    rw [hblocks, List.mem_singleton] at hb
    rw [hb]
    exact hashHex_ne_empty _
  · intro k
    rw [hcanonical, hat, FinMap.get?_insert]
    split <;> rfl
  · intro k hk
    rw [hat] at hk
    rw [hsnapshots, FinMap.get?_insert]
    split at hk
    · cases hk
    · next hne => rw [if_neg hne]; rfl
  · intro k b hb
    rw [hat] at hb
    rw [hsnapshots, FinMap.get?_insert]
    split at hb
    · next hk =>
        cases hb
        rw [if_pos hk]
        exact ⟨_, rfl, rfl, hk.symm, rfl, rfl⟩
    · cases hb
  · rw [heq]
    show (if cfg.accounts = [] then [defaultAccount] else cfg.accounts).map normalizeAddress ≠ []
    split <;> simp_all

/-- The node that a restart builds from a saved one: logs as they are read back, normalised
accounts, each with a balance, and a new index. -/
def RpcNode.restarted (n : RpcNode) (index : FinMap String BlockIndexRecord) (disk : List Files) :
    RpcNode :=
  { n with
    accounts := ensureAccounts n.accounts
    world := { n.world with
      balances := (ensureAccounts n.accounts).foldl ensureBalance n.world.balances }
    blockIndex := index
    receipts := n.receipts.mapValues ReceiptRecord.reread
    logs := n.logs.map LogRecord.reread
    peers := n.peers.mapValues initialScore
    replayMode := false
    disk := disk }

omit [Platform] in
theorem foldl_insert_eq_self {V β : Type} (f : β → ℕ) (g : β → V) (l : List β) {m : FinMap ℕ V}
    (h : ∀ b ∈ l, m.get? (f b) = some (g b)) :
    l.foldl (fun m b => m.insert (f b) (g b)) m = m := by
  induction l with
  | nil => rfl
  | cons b l ih =>
      rw [List.foldl_cons, FinMap.insert_eq_self (h b List.mem_cons_self)]
      exact ih fun b' hb' => h b' (List.mem_cons_of_mem _ hb')

theorem ChainOk.canonical_of_mem {n : RpcNode} (h : ChainOk n) {b : BlockRecord}
    (hb : b ∈ n.blocks) : n.canonical.get? (quantity64 b.number) = some b.hash := by
  obtain ⟨i, hi, rfl⟩ := List.mem_iff_getElem.mp hb
  have hat : n.blockAt (i + 1) = some n.blocks[i] := by
    rw [RpcNode.blockAt, if_neg (by omega), Nat.add_sub_cancel, List.getElem?_eq_getElem hi]
  rw [h.number_of_blockAt hat, h.canonical, hat]
  rfl

theorem ChainOk.number_le {n : RpcNode} (h : ChainOk n) {b : BlockRecord} (hb : b ∈ n.blocks) :
    quantity64 b.number ≤ n.height := by
  have hmem : quantity64 b.number ∈ n.blocks.map fun b => quantity64 b.number :=
    List.mem_map.mpr ⟨b, hb, rfl⟩
  rw [h.numbers, List.mem_range'_1, h.length] at hmem
  omega

/-- **Restart.** Saving a node and starting it again keeps its chain, snapshots and
history. -/
theorem ChainOk.restart {n : RpcNode} (h : ChainOk n) (cfg : Config) (ω : Choices) :
    ∃ index disk, newRPCNode cfg ω (n.save.disk.headD {}) = n.restarted index disk ∧
      ∀ key i, index.get? key = some i →
        n.blockIndex.get? key = some i ∨ ∃ b ∈ n.blocks, i.height = quantity64 b.number := by
  have hpos := h.pos
  have hsnapshots : n.stateSnapshots.mapValues RpcNode.completeLegacy = n.stateSnapshots := by
    ext1 k
    rw [FinMap.get?_mapValues]
    cases hk : n.stateSnapshots.get? k with
    | none => rfl
    | some s =>
        cases hb : n.blockAt k with
        | none =>
            rw [h.noSnapshot k hb] at hk
            cases hk
        | some b =>
            obtain ⟨s', hs', hof⟩ := h.snapshot k b hb
            rw [hk] at hs'
            cases hs'
            rw [Option.map_some, RpcNode.completeLegacy, if_neg (by simp [hof.1])]
  rw [RpcNode.newRPCNode_save h.accounts h.ne_nil]
  generalize n.save.disk.headD {} = files
  have hrepair : RpcNode.repairRecords
      { n with toNodeState := n.toNodeState.reread, replayMode := false, disk := [files] } =
      { n with
        accounts := RpcNode.ensureAccounts n.accounts
        receipts := n.receipts.mapValues ReceiptRecord.reread
        logs := n.logs.map LogRecord.reread
        peers := n.peers.mapValues RpcNode.initialScore
        replayMode := false
        disk := [files] } := by
    rw [RpcNode.repairRecords]
    simp only [NodeState.reread, hsnapshots, show n.height ≠ 0 by omega, if_false]
  rw [RpcNode.ensureState, hrepair, RpcNode.ensureGenesis, if_neg h.ne_nil, RpcNode.ensureIndex]
  obtain ⟨index, hindex, hentries⟩ := RpcNode.indexBlocks_eq
    { n with
      accounts := RpcNode.ensureAccounts n.accounts
      receipts := n.receipts.mapValues ReceiptRecord.reread
      logs := n.logs.map LogRecord.reread
      peers := n.peers.mapValues RpcNode.initialScore
      replayMode := false
      disk := [files] } (ω.call 1) n.blocks
  rw [hindex]
  have hcanonical := foldl_insert_eq_self (fun b : BlockRecord => quantity64 b.number)
    (fun b => b.hash) n.blocks fun b hb => h.canonical_of_mem hb
  simp only [hcanonical]
  refine ⟨index, [files], ?_, hentries⟩
  have hsnap : ∃ s, n.stateSnapshots.get? (quantity64 n.lastBlock.number) = some s := by
    obtain ⟨s, hs, -⟩ := h.snapshot _ _ h.blockAt_height
    rw [h.number_of_blockAt h.blockAt_height]
    exact ⟨s, hs⟩
  obtain ⟨s, hs⟩ := hsnap
  rw [RpcNode.ensureSnapshot, if_pos]
  · rfl
  · exact Option.isSome_iff_exists.mpr ⟨s, hs⟩

theorem ChainOk.restarted {n : RpcNode} (h : ChainOk n) (index : FinMap String BlockIndexRecord)
    (disk : List Files) : ChainOk (n.restarted index disk) := by
  have hsame : ChainOk { n.restarted index disk with accounts := n.accounts } :=
    h.of_eq rfl rfl rfl rfl rfl
  refine ⟨hsame.pos, hsame.length, hsame.bound, hsame.numbers, hsame.parents, hsame.hashes,
    hsame.canonical, hsame.noSnapshot, hsame.snapshot, ?_⟩
  show (if n.accounts = [] then [defaultAccount] else n.accounts).map normalizeAddress ≠ []
  rw [if_neg h.accounts]
  simpa using h.accounts

/-! ## Every run -/

theorem ChainOk.enqueue {n : RpcNode} (h : ChainOk n) {cfg : Config} {ω : Choices}
    {record : TxRecord} (hlen : (n.enqueue cfg ω record).blocks.length < 2 ^ 63) :
    ChainOk (n.enqueue cfg ω record) := by
  have hpending : ChainOk { n with pendingTxs := n.pendingTxs ++ [record] } :=
    h.of_eq rfl rfl rfl rfl rfl
  rw [RpcNode.enqueue] at hlen ⊢
  by_cases hauto : cfg.autoMine = true
  · rw [if_pos hauto] at hlen ⊢
    exact hpending.minePendingBlock hlen
  · rw [if_neg hauto]
    exact hpending.save

/-- Every call keeps the chain well formed. -/
theorem ChainOk.next {n : RpcNode} (h : ChainOk n) {cfg : Config} {ω : Choices} {e : Event}
    (hlen : (n.next cfg ω e).blocks.length < 2 ^ 63) : ChainOk (n.next cfg ω e) := by
  cases e with
  | sendTransaction tx =>
      rw [RpcNode.next] at hlen ⊢
      rcases n.sendTransaction_cases cfg ω tx with heq | ⟨-, heq⟩
      · rw [heq]; exact h
      · rw [heq] at hlen ⊢; exact h.enqueue hlen
  | sendRawTransaction rawTx => exact h.enqueue hlen
  | mineBlock => exact h.minePendingBlock hlen
  | handleReorg height newHash => exact h.handleReorg
  | syncBlock block => exact h.syncBlock hlen
  | setPeer peer => exact h.of_eq rfl rfl rfl rfl rfl
  | submitBridgeEvent event => exact h.of_eq rfl rfl rfl rfl rfl
  | initiateWithdrawal request =>
      exact h.of_sameBlocks (RpcNode.initiateWithdrawal_sameChain request).toSameBlocks
  | processWithdrawal id answer =>
      rw [RpcNode.next, RpcNode.processWithdrawal]
      split
      · exact h
      · exact h
      · split
        · exact h
        · exact h.of_eq rfl rfl rfl rfl rfl
  | submitAnchor anchor =>
      exact h.of_sameBlocks (RpcNode.submitAnchor_sameChain anchor).toSameBlocks
  | replayChain =>
      rcases n.replayChain_cases cfg ω with heq | ⟨ω₁, ω₂, disk, heq⟩
      · rw [RpcNode.next, heq]; exact h
      · rw [RpcNode.next, heq]; exact h.recopied ω₁ ω₂ disk
  | validateBlock block =>
      rcases n.validateBlockRecord_cases cfg ω block with heq | ⟨ω₁, ω₂, disk, heq⟩
      · rw [RpcNode.next, heq]; exact h
      · rw [RpcNode.next, heq]; exact h.recopied ω₁ ω₂ disk
  | restart =>
      obtain ⟨index, disk, heq, -⟩ := h.restart cfg ω
      rw [RpcNode.next, heq]
      exact h.restarted index disk

theorem ReachableBy.chainOk {cfg : Config} {ok : RpcNode → Choices → Event → Prop} {n : RpcNode}
    (h : ReachableBy cfg ok n) : ChainOk n :=
  h.induct (chainOk_fresh cfg) fun _ _ _ hn _ hlen => hn.next hlen

/-- **The chain of a reachable node.** The blocks are numbered from one to the height, each
names the one before it as its parent, and the canonical map and the snapshots cover
exactly these heights. -/
theorem chain_of_reachable {cfg : Config} {n : RpcNode} (h : Reachable cfg n) :
    n.blocks ≠ [] ∧
    n.blocks.map (fun b => quantity64 b.number) = List.range' 1 n.height ∧
    n.blocks.IsChain (fun b b' => equalFold b'.parentHash b.hash = true) ∧
    (∀ k, k ∈ n.canonical.keys ↔ 1 ≤ k ∧ k ≤ n.height) ∧
    (∀ k, k ∈ n.stateSnapshots.keys ↔ 1 ≤ k ∧ k ≤ n.height) ∧
    (∀ k b, n.blockAt k = some b → n.canonical.get? k = some b.hash ∧
      ∃ s, n.stateSnapshots.get? k = some s ∧ s.complete = true ∧ s.height = k ∧
        s.blockHash = b.hash) := by
  have hok := h.chainOk
  have hkeys : ∀ k, n.blockAt k ≠ none ↔ 1 ≤ k ∧ k ≤ n.height := by
    intro k
    rw [Ne, hok.blockAt_eq_none_iff, not_not]
  refine ⟨hok.ne_nil, hok.length ▸ hok.numbers, hok.parents, fun k => ?_, fun k => ?_,
    fun k b hb => ⟨?_, ?_⟩⟩
  · rw [← hkeys, FinMap.mem_keys, hok.canonical]
    cases n.blockAt k <;> simp
  · rw [← hkeys, ← not_iff_not, ← FinMap.get?_eq_none, not_not]
    constructor
    · intro hnone
      by_contra hsome
      obtain ⟨b, hb⟩ := Option.ne_none_iff_exists'.mp hsome
      obtain ⟨s, hs, -⟩ := hok.snapshot k b hb
      rw [hnone] at hs
      cases hs
    · exact hok.noSnapshot k
  · rw [hok.canonical, hb]
    rfl
  · obtain ⟨s, hs, hof⟩ := hok.snapshot k b hb
    exact ⟨s, hs, hof.1, hof.2.1, hof.2.2.1⟩

/-- A fresh node that mines once has two blocks. -/
theorem reachable_mined (cfg : Config) (ω : Choices) :
    Reachable cfg ((newRPCNode cfg ω {}).next cfg ω .mineBlock) ∧
      ((newRPCNode cfg ω {}).next cfg ω .mineBlock).height = 2 := by
  obtain ⟨ω₁, l, timestamp, heq, -⟩ := newRPCNode_fresh cfg ω
  obtain ⟨block, hblocks⟩ := (newRPCNode cfg ω {}).minePendingBlock_blocks cfg ω
  have hlen : ((newRPCNode cfg ω {}).next cfg ω .mineBlock).blocks.length = 2 := by
    rw [RpcNode.next, hblocks, List.length_append, heq]
    rfl
  have hreach : Reachable cfg ((newRPCNode cfg ω {}).next cfg ω .mineBlock) :=
    ⟨ω, .single ⟨ω, .mineBlock, trivial, rfl, by rw [hlen]; decide⟩⟩
  exact ⟨hreach, hreach.chainOk.length.symm.trans hlen⟩

omit [Platform] in
theorem chain_of_mined :
    (@RpcNode.next Platform.checksums (@newRPCNode Platform.checksums {} default {}) {} default
      .mineBlock).blocks.map (fun b => quantity64 b.number) = List.range' 1 2 := by
  obtain ⟨hreach, hheight⟩ := @reachable_mined Platform.checksums {} default
  rw [← hheight]
  exact (@chain_of_reachable Platform.checksums _ _ hreach).2.1

/-- No block of the chain has the empty hash. -/
theorem equalFold_canonical_empty {n : RpcNode} (h : ChainOk n) {k : ℕ} (hk : 1 ≤ k ∧ k ≤ n.height) :
    equalFold ((n.canonical.get? k).getD "") "" = false := by
  refine Bool.eq_false_iff.mpr fun hfold => ?_
  exact (h.canonical_eq_empty_iff k).mp (equalFold_empty hfold) hk

/-- A reorganisation to the empty hash rolls back every block from the height on. -/
theorem handleReorg_empty {n : RpcNode} (h : ChainOk n) {height : ℕ} (hone : 1 < height)
    (hle : height ≤ n.height) (ω : Choices) : ∃ s, n.stateSnapshots.get? (height - 1) = some s ∧
      (n.handleReorg ω height "").2 = (n.rollback ω height s).save := by
  obtain ⟨b, hb⟩ := Option.ne_none_iff_exists'.mp
    fun hnone => (h.blockAt_eq_none_iff (height - 1)).mp hnone ⟨by omega, by omega⟩
  obtain ⟨s, hs, -⟩ := h.snapshot _ _ hb
  have hfold := equalFold_canonical_empty h (k := height) ⟨by omega, hle⟩
  have hold := (h.canonical_eq_empty_iff height).not.mpr (not_not_intro ⟨by omega, hle⟩)
  refine ⟨s, hs, ?_⟩
  rw [RpcNode.handleReorg, if_neg (by omega)]
  dsimp only
  rw [if_neg (not_or.mpr ⟨hold, by rw [hfold]; decide⟩), hs]

/-- At the head it takes the last block away, and the transactions of the block wait again. -/
theorem handleReorg_last {n : RpcNode} (h : ChainOk n) {blocks : List BlockRecord}
    {block : BlockRecord} (hblocks : n.blocks = blocks ++ [block]) {height : ℕ} (hone : 1 < height)
    (hlength : blocks.length = height - 1) (ω : Choices) :
    (n.handleReorg ω height "").2.blocks = blocks ∧
      (n.handleReorg ω height "").2.pendingTxs =
        n.pendingTxs ++ block.transactions.map RpcNode.requeuedTx := by
  have hheight : n.height = height := by
    rw [← h.length, hblocks, List.length_append, hlength, List.length_singleton]
    omega
  obtain ⟨s, -, heq⟩ := handleReorg_empty h hone hheight.ge ω
  rw [heq]
  constructor
  · refine (h.blocks_rollback ω height s).trans ?_
    rw [hblocks, List.take_left' hlength]
  · show n.pendingTxs ++ n.removedTxs height = _
    rw [RpcNode.removedTxs, RpcNode.blocksFrom, filter_le_eq_drop h.numbers, hblocks,
      List.drop_left' hlength, List.flatMap_singleton]

/-- A reorganisation of a node keeps it within its bounds. -/
theorem handleReorg_step {cfg : Config} {n : RpcNode} (h : ChainOk n) (ω : Choices) (height : ℕ)
    (newHash : String) {ok : RpcNode → Choices → Event → Prop}
    (hok : ok n ω (.handleReorg height newHash)) :
    Step cfg ok n (n.next cfg ω (.handleReorg height newHash)) := by
  have hnext : ChainOk (n.next cfg ω (.handleReorg height newHash)) := h.handleReorg
  exact ⟨ω, _, hok, rfl, hnext.length.trans_lt hnext.bound⟩

/-! ## What one call does -/

/-- The transactions that a call executes on the accounts for good: the block of a peer counts
when it is imported, since a refused one is undone. -/
def RpcNode.executed (n : RpcNode) (cfg : Config) (ω : Choices) : Event → List TxRecord
  | .sendTransaction tx =>
      if cfg.autoMine ∧ n.validateTransaction cfg tx = .ok () then
        n.pendingTxs ++ [n.txOfObject (ω.call 0) tx ""]
      else []
  | .sendRawTransaction rawTx =>
      if cfg.autoMine then n.pendingTxs ++ [RpcNode.txOfRaw (ω.call 0) rawTx] else []
  | .mineBlock => n.pendingTxs
  | .syncBlock block =>
      match (n.syncBlock cfg ω (n.height + 1) block).1 with
      | .ok true => block.record.transactions
      | _ => []
  | _ => []

theorem RpcNode.executed_of_imported {n : RpcNode} {cfg : Config} {ω : Choices} {block : PeerBlock}
    (h : (n.syncBlock cfg ω (n.height + 1) block).1 = .ok true) :
    n.executed cfg ω (.syncBlock block) = block.record.transactions := by
  rw [RpcNode.executed, h]

/-- The calls that may move a transaction: one that takes one, mines, imports a block or rolls the
chain back. -/
def Event.movesTxs : Event → Bool
  | .sendTransaction _ | .sendRawTransaction _ | .mineBlock | .handleReorg _ _ | .syncBlock _ => true
  | _ => false

/-- The other calls leave the blocks and the pending list alone. -/
theorem RpcNode.next_of_not_movesTxs {n : RpcNode} (h : ChainOk n) (cfg : Config) (ω : Choices)
    {e : Event} (he : e.movesTxs = false) :
    (n.next cfg ω e).blocks = n.blocks ∧ (n.next cfg ω e).pendingTxs = n.pendingTxs := by
  cases e with
  | sendTransaction tx => cases he
  | sendRawTransaction rawTx => cases he
  | mineBlock => cases he
  | handleReorg height newHash => cases he
  | syncBlock block => cases he
  | setPeer peer => exact ⟨rfl, rfl⟩
  | submitBridgeEvent event => exact ⟨rfl, rfl⟩
  | initiateWithdrawal request =>
      have hsame : SameChain n (n.initiateWithdrawal cfg ω request).2 :=
        RpcNode.initiateWithdrawal_sameChain request
      exact ⟨hsame.blocks, hsame.pendingTxs⟩
  | processWithdrawal id answer =>
      rw [RpcNode.next, RpcNode.processWithdrawal]
      split
      · exact ⟨rfl, rfl⟩
      · exact ⟨rfl, rfl⟩
      · split <;> exact ⟨rfl, rfl⟩
  | submitAnchor anchor =>
      have hsame := (RpcNode.submitAnchor_sameChain (n := n) (ω := ω) anchor).toSameBlocks
      exact ⟨hsame.blocks, hsame.pendingTxs⟩
  | replayChain =>
      rw [RpcNode.next]
      rcases n.replayChain_cases cfg ω with heq | ⟨ω₁, ω₂, disk, heq⟩ <;>
        (rw [heq]; exact ⟨rfl, rfl⟩)
  | validateBlock block =>
      rw [RpcNode.next]
      rcases n.validateBlockRecord_cases cfg ω block with heq | ⟨ω₁, ω₂, disk, heq⟩ <;>
        (rw [heq]; exact ⟨rfl, rfl⟩)
  | restart =>
      obtain ⟨index, disk, heq, -⟩ := h.restart cfg ω
      rw [RpcNode.next, heq]
      exact ⟨rfl, rfl⟩

/-- The choices a call mines a block with, when it mines one. -/
def RpcNode.minesWith (n : RpcNode) (cfg : Config) (ω : Choices) : Event → Option Choices
  | .sendTransaction tx =>
      if cfg.autoMine ∧ n.validateTransaction cfg tx = .ok () then some (ω.call 1) else none
  | .sendRawTransaction _ => if cfg.autoMine then some (ω.call 1) else none
  | .mineBlock => some ω
  | _ => none

/-- The call leaves the chain, its snapshots and the accounts alone. -/
structure KeptChain (n n' : RpcNode) : Prop where
  height : n'.height = n.height
  accounts : n'.accounts = n.accounts
  world : n'.world = n.world
  blocks : n'.blocks = n.blocks
  stateSnapshots : n'.stateSnapshots = n.stateSnapshots

/-- The call executes the transactions and appends them as a block, with a snapshot of the
accounts after it. -/
structure Appended (cfg : Config) (txs : List TxRecord) (n n' : RpcNode) : Prop where
  height : n'.height = n.height + 1
  accounts : n'.accounts = n.accounts
  world : n'.world = txs.foldl (World.apply · cfg.bridgeAddress ·) n.world
  blocks : ∃ block hash, n'.blocks = n.blocks ++ [block] ∧
    block.transactions = txs.mapIdx fun i tx => RpcNode.minedTx tx hash (n.height + 1) (0 + i)
  stateSnapshots : ∃ s ω, n'.stateSnapshots = n.stateSnapshots.insert (n.height + 1) s ∧
    s.world = n'.world.copy ω

/-- The possible moves of a call that executes `txs`. -/
inductive Move (cfg : Config) (txs : List TxRecord) (n : RpcNode) : RpcNode → Prop
  | kept {n'} (h : KeptChain n n') : Move cfg txs n n'
  | recopied (ω₁ ω₂ disk) : Move cfg txs n (n.recopied ω₁ ω₂ disk)
  | appended {n'} (h : Appended cfg txs n n') : Move cfg txs n n'
  | rolledBack {ω height s} (hone : 1 < height) (hle : height ≤ n.height)
      (hs : n.stateSnapshots.get? (height - 1) = some s) :
      Move cfg txs n (n.rollback ω height s).save
  | restarted (index disk) : Move cfg txs n (n.restarted index disk)

omit [Platform] in
theorem SameBlocks.keptChain {n n' : RpcNode} (h : SameBlocks n n') (hworld : n'.world = n.world) :
    KeptChain n n' :=
  ⟨h.height, h.accounts, hworld, h.blocks, h.stateSnapshots⟩

theorem minePendingBlock_appended {n : RpcNode} (h : ChainOk n) {cfg : Config} {ω : Choices}
    (hlen : (n.minePendingBlock cfg ω).2.blocks.length < 2 ^ 63) :
    Appended cfg n.pendingTxs n (n.minePendingBlock cfg ω).2 := by
  obtain ⟨block, timestamp, hblocks, htxs, hsnapshots⟩ := n.minePendingBlock_chain cfg ω
  have hheight := (h.minePendingBlock hlen).length
  rw [hblocks, List.length_append, h.length, List.length_singleton] at hheight hlen
  have hnum : u64 ((n.height : ℤ) + 1) = n.height + 1 :=
    u64_of_lt (k := n.height + 1) (by omega)
  have haccounts : (n.minePendingBlock cfg ω).2.accounts = n.accounts := by
    obtain ⟨block, l, heq, -⟩ := n.minePendingBlock_eq cfg ω
    have hsame : SameBlocks { n with pendingTxs := [] } (n.minePendingTxs cfg ω).2.2 :=
      RpcNode.mineTxs_sameBlocks n.pendingTxs
    rw [heq]
    exact hsame.accounts
  rw [hnum] at htxs hsnapshots
  exact ⟨hheight.symm, haccounts, n.minePendingBlock_world cfg ω, ⟨block, _, hblocks, htxs⟩,
    ⟨_, _, hsnapshots, rfl⟩⟩

/-- A block on top of a chain that leaves room for it. -/
theorem mined_of_height_lt {n : RpcNode} (hchain : ChainOk n) (hlt : n.height + 1 < 2 ^ 63)
    (cfg : Config) (ω : Choices) : (n.minePendingBlock cfg ω).2.blocks.length < 2 ^ 63 ∧
      ChainOk (n.minePendingBlock cfg ω).2 ∧
      (n.minePendingBlock cfg ω).2.height = n.height + 1 := by
  have hlen : (n.minePendingBlock cfg ω).2.blocks.length < 2 ^ 63 := by
    obtain ⟨block, hblocks⟩ := n.minePendingBlock_blocks cfg ω
    rwa [hblocks, List.length_append, hchain.length, List.length_singleton]
  exact ⟨hlen, hchain.minePendingBlock hlen, (minePendingBlock_appended hchain hlen).height⟩

/-- A transaction whose addresses are in normal form. -/
structure TxRecord.Normal (tx : TxRecord) : Prop where
  sender : normalizeAddress tx.sender = tx.sender
  recipient : normalizeAddress tx.recipient = tx.recipient

/-- The call leaves the chain and its index, the accounts and the recorded transactions alone;
what it adds to the pending list has normal addresses. -/
structure Quiet (n n' : RpcNode) : Prop extends KeptChain n n' where
  canonical : n'.canonical = n.canonical
  blockIndex : n'.blockIndex = n.blockIndex
  txs : n'.txs = n.txs
  receipts : n'.receipts = n.receipts
  trieCommits : n'.trieCommits = n.trieCommits
  replayMode : n'.replayMode = n.replayMode
  pending : ∀ tx ∈ n'.pendingTxs, tx ∈ n.pendingTxs ∨ tx.Normal

/-- What a call that imports no block does, down to the node it leaves. -/
inductive LocalCall (cfg : Config) (ω : Choices) (e : Event) (n : RpcNode) : RpcNode → Prop
  | quiet {n'} (h : Quiet n n') : LocalCall cfg ω e n n'
  | recopied (ω₁ ω₂ disk) : LocalCall cfg ω e n (n.recopied ω₁ ω₂ disk)
  | mined {ω'} (h : n.minesWith cfg ω e = some ω') : LocalCall cfg ω e n
      (RpcNode.minePendingBlock { n with pendingTxs := n.executed cfg ω e } cfg ω').2
  | rolledBack {ω' height s} (hone : 1 < height) (hle : height ≤ n.height)
      (hs : n.stateSnapshots.get? (height - 1) = some s)
      (he : ∃ newHash, e = .handleReorg height newHash ∧
        equalFold ((n.canonical.get? height).getD "") newHash = false) :
      LocalCall cfg ω e n (n.rollback ω' height s).save
  | restarted : LocalCall cfg ω e n (newRPCNode cfg ω (n.save.disk.headD {}))

/-- The possible moves of a call that imports no block. -/
inductive LocalMove (cfg : Config) (txs : List TxRecord) (n : RpcNode) : RpcNode → Prop
  | kept {n'} (h : KeptChain n n')
      (hpending : ∀ tx ∈ n'.pendingTxs, tx ∈ n.pendingTxs ∨ tx.Normal) : LocalMove cfg txs n n'
  | recopied (ω₁ ω₂ disk) : LocalMove cfg txs n (n.recopied ω₁ ω₂ disk)
  | mined (ω) :
      LocalMove cfg txs n (RpcNode.minePendingBlock { n with pendingTxs := txs } cfg ω).2
  | rolledBack {ω height s} (hone : 1 < height) (hle : height ≤ n.height)
      (hs : n.stateSnapshots.get? (height - 1) = some s) :
      LocalMove cfg txs n (n.rollback ω height s).save
  | restarted (index disk) : LocalMove cfg txs n (n.restarted index disk)

theorem Quiet.refl (n : RpcNode) : Quiet n n :=
  ⟨⟨rfl, rfl, rfl, rfl, rfl⟩, rfl, rfl, rfl, rfl, rfl, rfl, fun _ htx => .inl htx⟩

theorem SameChain.quiet {n n' : RpcNode} (h : SameChain n n') (hworld : n'.world = n.world)
    (hcommits : n'.trieCommits = n.trieCommits) : Quiet n n' :=
  ⟨h.toSameBlocks.keptChain hworld, h.canonical, h.blockIndex, h.txs, h.receipts, hcommits,
    h.replayMode, fun _ htx => .inl (h.pendingTxs ▸ htx)⟩

theorem mem_or_normal_of_mem_append {txs : List TxRecord} {record : TxRecord} (h : record.Normal)
    {tx : TxRecord} (htx : tx ∈ txs ++ [record]) : tx ∈ txs ∨ tx.Normal := by
  rcases List.mem_append.mp htx with htx | htx
  · exact .inl htx
  · rw [List.mem_singleton.mp htx]
    exact .inr h

theorem enqueue_localCall {n : RpcNode} {cfg : Config} {ω : Choices} {e : Event}
    {record : TxRecord} (h : record.Normal)
    (hmines : n.minesWith cfg ω e = if cfg.autoMine then some (ω.call 1) else none)
    (htxs : n.executed cfg ω e = if cfg.autoMine then n.pendingTxs ++ [record] else []) :
    LocalCall cfg ω e n (n.enqueue cfg (ω.call 1) record) := by
  rw [RpcNode.enqueue]
  by_cases hauto : cfg.autoMine = true
  · rw [if_pos hauto] at hmines htxs ⊢
    rw [← htxs]
    exact .mined hmines
  · rw [if_neg hauto]
    exact .quiet ⟨⟨rfl, rfl, rfl, rfl, rfl⟩, rfl, rfl, rfl, rfl, rfl, rfl,
      fun tx => mem_or_normal_of_mem_append h⟩

theorem normal_txOfObject (n : RpcNode) (ω : Choices) (tx : Object) (raw : String) :
    (n.txOfObject ω tx raw).Normal :=
  ⟨normalizeAddress_normalizeAddress _, normalizeAddress_normalizeAddress _⟩

theorem normal_txOfRaw (ω : Choices) (rawTx : String) : (RpcNode.txOfRaw ω rawTx).Normal :=
  ⟨normalizeAddress_empty, normalizeAddress_empty⟩

/-- A local call executes pending transactions and what it was given in normal form. -/
theorem RpcNode.mem_or_normal_of_mem_executed {n : RpcNode} {cfg : Config} {ω : Choices} {e : Event}
    (he : ∀ block, e ≠ .syncBlock block) {tx : TxRecord} (htx : tx ∈ n.executed cfg ω e) :
    tx ∈ n.pendingTxs ∨ tx.Normal := by
  cases e with
  | sendTransaction object =>
      rw [RpcNode.executed] at htx
      split at htx
      · exact mem_or_normal_of_mem_append (normal_txOfObject _ _ _ _) htx
      · cases htx
  | sendRawTransaction rawTx =>
      rw [RpcNode.executed] at htx
      split at htx
      · exact mem_or_normal_of_mem_append (normal_txOfRaw _ _) htx
      · cases htx
  | mineBlock => exact .inl htx
  | syncBlock block => exact absurd rfl (he block)
  | _ => cases htx

/-- **One local call.** Every call but an import leaves the chain and the accounts alone, copies
the accounts out and in, mines a block, rolls the chain back or restarts the node. -/
theorem RpcNode.next_localCall {n : RpcNode} (h : ChainOk n) (cfg : Config) (ω : Choices)
    {e : Event} (he : ∀ block, e ≠ .syncBlock block) :
    LocalCall cfg ω e n (n.next cfg ω e) := by
  cases e with
  | sendTransaction tx =>
      rw [RpcNode.next]
      rcases n.sendTransaction_cases cfg ω tx with heq | ⟨hvalid, heq⟩
      · rw [heq]; exact .quiet (.refl n)
      · rw [heq]
        refine enqueue_localCall (normal_txOfObject _ _ _ _) ?_ ?_
        · simp only [RpcNode.minesWith, hvalid, and_true]
        · simp only [RpcNode.executed, hvalid, and_true]
  | sendRawTransaction rawTx => exact enqueue_localCall (normal_txOfRaw _ _) rfl rfl
  | mineBlock => exact .mined rfl
  | handleReorg height newHash =>
      rw [RpcNode.next]
      rcases n.handleReorg_cases ω height newHash with heq | ⟨s, ⟨hone, hold, hother⟩, hs, heq⟩
      · rw [heq]; exact .quiet (.refl n)
      · rw [heq]
        exact .rolledBack hone (h.height_of_canonical hold).2 hs ⟨newHash, rfl, hother⟩
  | syncBlock block => exact absurd rfl (he block)
  | setPeer peer =>
      exact .quiet ⟨⟨rfl, rfl, rfl, rfl, rfl⟩, rfl, rfl, rfl, rfl, rfl, rfl, fun _ => .inl⟩
  | submitBridgeEvent event =>
      exact .quiet ⟨⟨rfl, rfl, rfl, rfl, rfl⟩, rfl, rfl, rfl, rfl, rfl, rfl, fun _ => .inl⟩
  | initiateWithdrawal request =>
      exact .quiet ((RpcNode.initiateWithdrawal_sameChain request).quiet
        (RpcNode.initiateWithdrawal_world request) (RpcNode.initiateWithdrawal_trieCommits request))
  | processWithdrawal id answer =>
      rw [RpcNode.next, RpcNode.processWithdrawal]
      split
      · exact .quiet (.refl n)
      · exact .quiet (.refl n)
      · split
        · exact .quiet (.refl n)
        · exact .quiet ⟨⟨rfl, rfl, rfl, rfl, rfl⟩, rfl, rfl, rfl, rfl, rfl, rfl, fun _ => .inl⟩
  | submitAnchor anchor =>
      exact .quiet ((RpcNode.submitAnchor_sameChain anchor).quiet
        (RpcNode.submitAnchor_world anchor) (RpcNode.submitAnchor_trieCommits anchor))
  | replayChain =>
      rw [RpcNode.next]
      rcases n.replayChain_cases cfg ω with heq | ⟨ω₁, ω₂, disk, heq⟩
      · rw [heq]; exact .quiet (.refl n)
      · rw [heq]; exact .recopied ω₁ ω₂ disk
  | validateBlock block =>
      rw [RpcNode.next]
      rcases n.validateBlockRecord_cases cfg ω block with heq | ⟨ω₁, ω₂, disk, heq⟩
      · rw [heq]; exact .quiet (.refl n)
      · rw [heq]; exact .recopied ω₁ ω₂ disk
  | restart => exact .restarted

theorem RpcNode.syncBlock_or_localCall {n : RpcNode} (h : ChainOk n) (cfg : Config) (ω : Choices)
    (e : Event) : (∃ block, e = .syncBlock block) ∨ LocalCall cfg ω e n (n.next cfg ω e) := by
  by_cases he : ∃ block, e = .syncBlock block
  · exact Or.inl he
  · exact Or.inr (n.next_localCall h cfg ω fun block hblock => he ⟨block, hblock⟩)

/-- The same, for what reads the chain and the accounts only. -/
theorem RpcNode.next_localMove {n : RpcNode} (h : ChainOk n) (cfg : Config) (ω : Choices)
    {e : Event} (he : ∀ block, e ≠ .syncBlock block) :
    LocalMove cfg (n.executed cfg ω e) n (n.next cfg ω e) := by
  have hcall := n.next_localCall h cfg ω he
  generalize n.next cfg ω e = n' at hcall ⊢
  cases hcall with
  | quiet hquiet => exact .kept hquiet.toKeptChain hquiet.pending
  | recopied ω₁ ω₂ disk => exact .recopied ω₁ ω₂ disk
  | mined hmines => exact .mined _
  | rolledBack hone hle hs => exact .rolledBack hone hle hs
  | restarted =>
      obtain ⟨index, disk, heq, -⟩ := h.restart cfg ω
      rw [heq]
      exact .restarted index disk

theorem LocalMove.move {n n' : RpcNode} (h : ChainOk n) {cfg : Config} {txs : List TxRecord}
    (hmove : LocalMove cfg txs n n') (hlen : n'.blocks.length < 2 ^ 63) : Move cfg txs n n' := by
  cases hmove with
  | kept hkept => exact .kept hkept
  | recopied ω₁ ω₂ disk => exact .recopied ω₁ ω₂ disk
  | mined ω =>
      have hpending : ChainOk { n with pendingTxs := txs } := h.of_eq rfl rfl rfl rfl rfl
      have hmined := minePendingBlock_appended hpending hlen
      exact .appended ⟨hmined.height, hmined.accounts, hmined.world, hmined.blocks,
        hmined.stateSnapshots⟩
  | rolledBack hone hle hs => exact .rolledBack hone hle hs
  | restarted index disk => exact .restarted index disk

theorem syncBlock_move {n : RpcNode} (h : ChainOk n) {cfg : Config} {ω : Choices}
    {block : PeerBlock} (hlen : (n.syncBlock cfg ω (n.height + 1) block).2.blocks.length < 2 ^ 63) :
    Move cfg (n.executed cfg ω (.syncBlock block)) n
      (n.syncBlock cfg ω (n.height + 1) block).2 := by
  rcases n.syncBlock_cases cfg ω (n.height + 1) block with ⟨heq, -⟩ | ⟨e, ω₁, ω₂, disk, heq⟩ |
    ⟨ω₂, l, heq, -, hok, -⟩
  · rw [heq]; exact .kept ⟨rfl, rfl, rfl, rfl, rfl⟩
  · rw [heq]; exact .recopied ω₁ ω₂ disk
  · obtain ⟨stored, timestamp, hblocks, hstored, hsnapshots, hworld, -⟩ :=
      n.afterImport_chain cfg (ω.call 2) ((ω.call 0).call 1) block.record l
    have hsame := n.applyPeerBlock_sameIndex cfg ((ω.call 0).call 1) block.record
    rw [RpcNode.executed_of_imported (by rw [heq])]
    rw [heq] at hlen ⊢
    have hheight := (h.afterImport hok hlen).length
    rw [hblocks, List.length_append, h.length, List.length_singleton] at hheight
    rw [hok.number] at hstored hsnapshots
    refine .appended ⟨hheight.symm, ?_, hworld, ⟨stored, _, hblocks, hstored⟩,
      ⟨_, _, hsnapshots, rfl⟩⟩
    exact (RpcNode.recordImported_sameBlocks _ _ _).accounts.trans hsame.accounts

/-- **One call.** Every call keeps the chain and the accounts, copies the accounts out and in,
appends one block, rolls the chain back or restarts the node. -/
theorem RpcNode.next_move {n : RpcNode} (h : ChainOk n) {cfg : Config} {ω : Choices} {e : Event}
    (hlen : (n.next cfg ω e).blocks.length < 2 ^ 63) :
    Move cfg (n.executed cfg ω e) n (n.next cfg ω e) := by
  by_cases he : ∃ block, e = .syncBlock block
  · obtain ⟨block, rfl⟩ := he
    exact syncBlock_move h hlen
  · exact (n.next_localMove h cfg ω fun block hblock => he ⟨block, hblock⟩).move h hlen

/-! ## A whole sync -/

/-- One round after the other, each at the height above the head. -/
theorem syncPeerBlocks_run (cfg : Config) (answers : PeerAnswers) (fuel : ℕ) :
    ∀ (n : RpcNode) (ω : Choices) (imported : ℕ), ChainOk n →
      n.height + (RpcNode.maxPeerSyncBlocks - imported) < 2 ^ 63 →
      Relation.ReflTransGen (Step cfg fun _ _ _ => True) n
        (RpcNode.syncPeerBlocks cfg answers fuel n ω (n.height + 1) imported).2 := by
  induction fuel with
  | zero => exact fun n ω imported _ _ => .refl
  | succ fuel ih =>
      intro n ω imported h hbound
      rw [RpcNode.syncPeerBlocks]
      split
      · exact .refl
      · next hmax =>
          cases answers.block (n.height + 1) with
          | error e => exact .refl
          | ok block =>
              have hstep : ∀ m, (n.syncBlock cfg (ω.call 0) (n.height + 1) block).2 = m →
                  m.blocks.length < 2 ^ 63 → Step cfg (fun _ _ _ => True) n m :=
                fun m hm hlen => ⟨ω.call 0, .syncBlock block, trivial, hm.symm, hlen⟩
              have hcan := (h.canonical_eq_empty_iff (n.height + 1)).mpr (by omega)
              have hlen := h.length
              have hlt := h.bound
              rcases n.syncBlock_cases cfg (ω.call 0) (n.height + 1) block with ⟨heq, herr⟩ |
                ⟨e, ω₁, ω₂, disk, heq⟩ | ⟨ω₂, l, heq, -, hok, -⟩
              · obtain ⟨e, he⟩ := herr hcan
                dsimp only
                rw [he, heq]
              · dsimp only
                rw [heq]
                exact .single (hstep _ (by rw [heq]) (by
                  show n.blocks.length < _
                  omega))
              · dsimp only
                rw [heq]
                have hblocks := n.afterImport_blocks ((ω.call 0).call 2) block.record l
                  (n.applyPeerBlock cfg (((ω.call 0).call 0).call 1) block.record)
                rw [(n.applyPeerBlock_sameIndex cfg _ block.record).blocks] at hblocks
                generalize n.afterImport ((ω.call 0).call 2) block.record l
                  (n.applyPeerBlock cfg (((ω.call 0).call 0).call 1) block.record) = m at heq hblocks
                have hmlen : m.blocks.length = n.height + 1 := by
                  rw [hblocks, List.length_append, hlen]
                  rfl
                have hmax' : RpcNode.maxPeerSyncBlocks = 128 := rfl
                have hs := hstep m (by rw [heq]) (by omega)
                have hm : ChainOk m := by
                  have hnext := @ChainOk.syncBlock _ n h cfg (ω.call 0) block
                  rw [heq] at hnext
                  exact hnext (hmlen.trans_lt (by omega))
                have hheight : m.height = n.height + 1 := hm.length.symm.trans hmlen
                have hrest := ih m (ω.call 1) (imported + 1) hm (by omega)
                rw [hheight] at hrest
                exact .head hs hrest

theorem setPeer_step {cfg : Config} {n : RpcNode} (h : ChainOk n) (peer : PeerRecord) :
    Step cfg (fun _ _ _ => True) n (n.setPeer peer) := by
  refine ⟨default, .setPeer peer, trivial, rfl, ?_⟩
  have hlen := h.length
  have hbound := h.bound
  show n.blocks.length < 2 ^ 63
  omega

theorem ChainOk.of_run {cfg : Config} {ok : RpcNode → Choices → Event → Prop} {n n' : RpcNode}
    (h : ChainOk n) (hrun : Relation.ReflTransGen (Step cfg ok) n n') : ChainOk n' := by
  induction hrun with
  | refl => exact h
  | tail _ hs ih =>
      obtain ⟨ω, e, -, rfl, hlen⟩ := hs
      exact ih.next hlen

theorem syncKnownPeer_run {cfg : Config} {n : RpcNode} (h : ChainOk n) (ω : Choices)
    (peer : PeerRecord) (answers : PeerAnswers)
    (hbound : n.height + RpcNode.maxPeerSyncBlocks < 2 ^ 63) :
    Relation.ReflTransGen (Step cfg fun _ _ _ => True) n
      (n.syncKnownPeer cfg ω peer answers).2 := by
  have hrun : ∀ height, Relation.ReflTransGen (Step cfg fun _ _ _ => True) n
      (n.syncAbove cfg (ω.call 2) height answers).2 := by
    intro height
    rw [RpcNode.syncAbove]
    split
    · exact syncPeerBlocks_run cfg answers _ n _ 0 h hbound
    · exact .refl
  rw [RpcNode.syncKnownPeer]
  cases answers.blockNumber with
  | error e => exact .single (setPeer_step h _)
  | ok remoteHeight =>
      have hsync := hrun (quantity64 remoteHeight)
      have hok := h.of_run hsync
      dsimp only
      generalize n.syncAbove cfg (ω.call 2) (quantity64 remoteHeight) answers = r at hsync hok
      split
      · exact hsync.tail (setPeer_step hok _)
      · exact hsync.tail (setPeer_step hok _)

/-- **A sync is a run.** A whole `syncPeer` call is a sequence of block imports between
changes of the peer list. -/
theorem syncPeer_run {cfg : Config} {n : RpcNode} (h : ChainOk n) (ω : Choices) (idOrURL : String)
    (answers : PeerAnswers) (hbound : n.height + RpcNode.maxPeerSyncBlocks < 2 ^ 63) :
    Relation.ReflTransGen (Step cfg fun _ _ _ => True) n (n.syncPeer cfg ω idOrURL answers).2 := by
  have hfind : Relation.ReflTransGen (Step cfg fun _ _ _ => True) n
      (n.findPeer (ω.call 0) idOrURL).2 ∧ (n.findPeer (ω.call 0) idOrURL).2.height = n.height := by
    rw [RpcNode.findPeer]
    split
    · exact ⟨.single (setPeer_step h _), rfl⟩
    · exact ⟨.refl, rfl⟩
  rw [RpcNode.syncPeer]
  split
  · exact hfind.1
  · exact hfind.1.trans (syncKnownPeer_run (h.of_run hfind.1) _ _ _ (by rw [hfind.2]; exact hbound))

end BhtBhte.Node
