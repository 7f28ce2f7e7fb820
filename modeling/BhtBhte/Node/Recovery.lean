import BhtBhte.Node.Chain

/-!
# Recovery without the state file

Chain, accounts and history are each kept in a file of their own besides the state file, and a node
starts from them when the state file is gone.  The height is kept in the state file alone: a
recovered node has its chain back but stands at height one.  So it continues its chain exactly when
that chain is the genesis block (`recovered_continues_iff`).
-/
namespace BhtBhte.Node
open BhtBhte.Lib
variable [Platform]

/-- The data directory after the state file is lost. -/
def Files.withoutState (files : Files) : Files := { files with state := none }

namespace RpcNode

/-- The node stands on `last`: its height is the number of that block, and the block it mines
next has the next number and that block as its parent. -/
def Continues (n : RpcNode) (cfg : Config) (ω : Choices) (last : BlockRecord) : Prop :=
  n.height = quantity64 last.number ∧
    quantity64 (n.minePendingBlock cfg ω).1.number = quantity64 last.number + 1 ∧
    (n.minePendingBlock cfg ω).1.parentHash = last.hash

/-- Everything comes back but the height and the peers. -/
theorem newRPCNode_withoutState {n : RpcNode} (haccounts : n.accounts ≠ [])
    (hblocks : n.blocks ≠ []) (cfg : Config) (ω : Choices) :
    newRPCNode cfg ω (n.save.disk.headD {}).withoutState =
      { n with
        height := 1
        receipts := n.receipts.mapValues ReceiptRecord.reread
        logs := n.logs.map LogRecord.reread
        peers := ∅
        replayMode := false
        disk := [(n.save.disk.headD {}).withoutState] }.ensureState ω := by
  rw [newRPCNode]
  congr 1
  simp only [save, List.headD_cons, Files.withoutState, load, loadChainDB, loadStateDB,
    loadHistoryDB, loadTrieDB, haccounts, hblocks, if_false]
  rfl

/-- Completing the state of a node with a chain leaves chain and height alone. -/
theorem ensureState_chain {n : RpcNode} (hblocks : n.blocks ≠ []) (hheight : n.height ≠ 0)
    (ω : Choices) :
    (n.ensureState ω).blocks = n.blocks ∧ (n.ensureState ω).height = n.height := by
  have hrepair : n.repairRecords.blocks = n.blocks ∧ n.repairRecords.height = n.height :=
    ⟨rfl, if_neg hheight⟩
  have hgenesis : n.repairRecords.ensureGenesis (ω.call 0) = n.repairRecords := by
    rw [ensureGenesis, if_neg (by rw [hrepair.1]; exact hblocks)]
  obtain ⟨index, hindex, -⟩ := n.repairRecords.indexBlocks_eq (ω.call 1) n.repairRecords.blocks
  have hsnapshot : ∀ (m : RpcNode) (ω : Choices),
      (m.ensureSnapshot ω).blocks = m.blocks ∧ (m.ensureSnapshot ω).height = m.height := by
    intro m ω
    rw [ensureSnapshot]
    split <;> exact ⟨rfl, rfl⟩
  rw [ensureState, hgenesis, ensureIndex, hindex]
  exact ⟨(hsnapshot _ _).1.trans hrepair.1, (hsnapshot _ _).2.trans hrepair.2⟩

end RpcNode

/-- The recovered chain is the saved one, the recovered height is one. -/
theorem ChainOk.recovered {n : RpcNode} (h : ChainOk n) (cfg : Config) (ω : Choices) :
    (newRPCNode cfg ω (n.save.disk.headD {}).withoutState).blocks = n.blocks ∧
      (newRPCNode cfg ω (n.save.disk.headD {}).withoutState).height = 1 := by
  rw [RpcNode.newRPCNode_withoutState h.accounts h.ne_nil]
  generalize hm : ({ n with
    height := 1
    receipts := n.receipts.mapValues ReceiptRecord.reread
    logs := n.logs.map LogRecord.reread
    peers := ∅
    replayMode := false
    disk := _ } : RpcNode) = m
  have hblocks : m.blocks = n.blocks := by rw [← hm]
  have hheight : m.height = 1 := by rw [← hm]
  obtain ⟨hb, hh⟩ := RpcNode.ensureState_chain (hblocks ▸ h.ne_nil)
    (hheight ▸ Nat.one_ne_zero) ω
  exact ⟨hb.trans hblocks, hh.trans hheight⟩

/-- The block mined after a recovery has number two and the last block as its parent. -/
theorem ChainOk.mined_recovered {n : RpcNode} (h : ChainOk n) (cfg cfg' : Config)
    (ω ω' : Choices) :
    let block := ((newRPCNode cfg ω (n.save.disk.headD {}).withoutState).minePendingBlock
      cfg' ω').1
    quantity64 block.number = 2 ∧ block.parentHash = n.lastBlock.hash := by
  obtain ⟨hblocks, hheight⟩ := h.recovered cfg ω
  generalize newRPCNode cfg ω (n.save.disk.headD {}).withoutState = m at hblocks hheight
  intro block
  have hnumber : block.number = toHex (u64 (m.height + 1)) := rfl
  have hparent : block.parentHash = m.lastBlock.hash := rfl
  have htwo : u64 ((1 : ℕ) + 1 : ℤ) = 2 := by decide
  constructor
  · rw [hnumber, hheight, htwo]
    exact quantity64_toHex (by decide)
  · rw [hparent, RpcNode.lastBlock, RpcNode.lastBlock, hblocks]

/-- **Recovery without the state file.** From the remaining files a reachable node continues
its chain exactly when the chain is only the genesis block. -/
theorem recovered_continues_iff {cfg : Config} {n : RpcNode} (h : Reachable cfg n)
    (ω ω' : Choices) :
    (newRPCNode cfg ω (n.save.disk.headD {}).withoutState).Continues cfg ω' n.lastBlock ↔
      n.blocks.length = 1 := by
  have hok := h.chainOk
  have hlast := hok.number_of_blockAt hok.blockAt_height
  obtain ⟨-, hheight⟩ := hok.recovered cfg ω
  obtain ⟨hnumber, hparent⟩ := hok.mined_recovered cfg cfg ω ω'
  rw [RpcNode.Continues, hheight, hnumber, hlast, hok.length]
  constructor
  · intro hcont
    exact hcont.1.symm
  · intro hone
    exact ⟨hone.symm, by rw [hone], hparent⟩

omit [Platform] in
/-- A fresh node can be recovered so. -/
theorem recovered_continues_fresh :
    letI := Platform.checksums
    (newRPCNode {} default ((newRPCNode {} default {}).save.disk.headD {}).withoutState).Continues
      {} default (newRPCNode {} default {}).lastBlock := by
  let _ := Platform.checksums
  have hreach : ∀ cfg ω, Reachable cfg (newRPCNode cfg ω {}) := fun cfg ω => ⟨ω, .refl⟩
  have hone : ∀ cfg ω, (newRPCNode cfg ω {}).blocks.length = 1 := by
    intro cfg ω
    obtain ⟨ω₁, l, timestamp, heq, -⟩ := newRPCNode_fresh cfg ω
    rw [heq]
    rfl
  exact (recovered_continues_iff (hreach {} default) default default).mpr (hone {} default)

theorem not_continues_mined (cfg : Config) (ω ω' : Choices) {n : RpcNode}
    (hn : n = (newRPCNode cfg ω {}).next cfg ω .mineBlock) :
    ¬ (newRPCNode cfg ω (n.save.disk.headD {}).withoutState).Continues cfg ω' n.lastBlock := by
  obtain ⟨hreach, htwo⟩ := reachable_mined cfg ω
  rw [← hn] at hreach htwo
  have hlast := hreach.chainOk.number_of_blockAt hreach.chainOk.blockAt_height
  intro hcont
  have hheight := hcont.1
  rw [(hreach.chainOk.recovered cfg ω).2, hlast, htwo] at hheight
  exact absurd hheight (by decide)

omit [Platform] in
/-- After one mined block, the recovered node is at height one and mines block two again. -/
theorem not_continues_checksums :
    letI := Platform.checksums
    ∃ n, Reachable {} n ∧
      ¬ (newRPCNode {} default (n.save.disk.headD {}).withoutState).Continues {} default
        n.lastBlock := by
  let _ := Platform.checksums
  exact ⟨_, (reachable_mined {} default).1, not_continues_mined {} default default rfl⟩

end BhtBhte.Node
