import BhtBhte.Node.Peer

/-!
# Replaying the chain and validating blocks

Both calls execute on the node's own state and put it back when they return.
-/
namespace BhtBhte.Node
open BhtBhte.Lib
variable [Platform]

/-- The roots that a replayed block is compared on. -/
structure BlockRoots where
  stateRoot : String
  txRoot : String
  receiptRoot : String
  logsBloom : String
deriving DecidableEq

/-- What a replay answers. -/
inductive ReplayResult
  | valid (checked height : ℕ) (bestHash : String)
  | failure (checked : ℕ) (height : Option ℕ) (blockHash : Option String) (message : String)
  | rootFailure (checked height : ℕ) (blockHash field computed expected : String)
deriving DecidableEq

/-- What a validation answers. -/
inductive ValidateResult
  | valid (height : ℕ) (blockHash : String) (computed : BlockRoots)
  | failure (height : Option ℕ) (blockHash : Option String) (message : String)
  | rootFailure (height : ℕ) (blockHash field computed expected : String)
deriving DecidableEq

def ReplayResult.isValid : ReplayResult → Bool
  | valid .. => true
  | _ => false

def ValidateResult.isValid : ValidateResult → Bool
  | valid .. => true
  | _ => false

/-- The first root of a block that differs from the computed one, with the computed and the
expected text. -/
def rootMismatch (block : BlockRecord) (computed : BlockRoots) : Option (String × String × String) :=
  if ¬ equalFold block.stateRoot computed.stateRoot then
    some ("stateRoot", computed.stateRoot, block.stateRoot)
  else if ¬ RpcNode.rootMatches block.txRoot computed.txRoot then
    some ("transactionsRoot", computed.txRoot, block.txRoot)
  else if ¬ RpcNode.rootMatches block.receiptRoot computed.receiptRoot then
    some ("receiptsRoot", computed.receiptRoot, block.receiptRoot)
  else if ¬ RpcNode.bloomMatches block.logsBloom computed.logsBloom then
    some ("logsBloom", computed.logsBloom, block.logsBloom)
  else none

namespace RpcNode

/-- Execute a block's transactions and compute its roots. -/
def replayBlock (n : RpcNode) (cfg : Config) (ω : Choices) (block : BlockRecord) (height : ℕ) :
    BlockRoots × List TxRecord × List ReceiptRecord × RpcNode :=
  let r := applyTxs cfg block.hash height { n with height := height } (ω.call 0) 0
    block.transactions
  (⟨stateTrieRoot (r.2.2.currentStateSnapshot (ω.call 1) block.hash "").world, hashTxs r.1,
    receiptTrieRoot r.2.1, blockLogsBloomHex r.2.1⟩, r)

/-- Record a replayed block's transactions one after the other. -/
def recordTxs (n : RpcNode) (mined : List TxRecord) (receipts : List ReceiptRecord) : RpcNode :=
  (mined.zip receipts).foldl (fun n e => n.recordTx e.1 e.2) n

/-- The loop of `replayChain` over the blocks after genesis; `checked` of them are done. -/
def replayBlocks (cfg : Config) (genesisHeight : ℕ) :
    RpcNode → Choices → ℕ → String → List BlockRecord → ReplayResult × RpcNode
  | n, _, checked, parentHash, [] => (.valid checked n.height parentHash, n)
  | n, ω, checked, parentHash, block :: blocks =>
      let height := quantity64 block.number
      if height ≠ u64 (genesisHeight + (checked + 1)) then
        (.failure checked (some height) none "non-contiguous block height", n)
      else if ¬ equalFold block.parentHash parentHash then
        (.failure checked (some height) (some block.hash)
          ("parent mismatch: got " ++ block.parentHash ++ " want " ++ parentHash), n)
      else
        let r := n.replayBlock cfg (ω.call 0) block height
        match rootMismatch block r.1 with
        | some (field, computed, expected) =>
            (.rootFailure checked height block.hash field computed expected, r.2.2.2)
        | none =>
            replayBlocks cfg genesisHeight (r.2.2.2.recordTxs r.2.1 r.2.2.1) (ω.call 1)
              (checked + 1) block.hash blocks

/-- The part of `replayChain` that runs between saving and restoring the state. -/
def replayFromGenesis (n : RpcNode) (cfg : Config) (ω : Choices) (genesis : BlockRecord)
    (blocks : List BlockRecord) : ReplayResult × RpcNode :=
  let genesisHeight := quantity64 genesis.number
  let missing := ReplayResult.failure 0 (some genesisHeight) none
    "complete genesis snapshot not found"
  match n.stateSnapshots.get? genesisHeight with
  | none => (missing, n)
  | some snapshot =>
      if ¬ snapshot.complete then (missing, n)
      else
        let n := { { n with height := genesisHeight }.restoreStateSnapshot (ω.call 0) snapshot with
          receipts := ∅
          logs := []
          txs := []
          withdrawals := ∅
          anchors := ∅
          replayMode := true }
        replayBlocks cfg genesisHeight n (ω.call 1) 0 genesis.hash blocks

/-- Execute every block again from the genesis snapshot, and put the state back. -/
def replayChain (n : RpcNode) (cfg : Config) (ω : Choices) : ReplayResult × RpcNode :=
  match n.blocks with
  | [] => (.failure 0 none none "chain has no blocks", n)
  | genesis :: blocks =>
      let r := n.replayFromGenesis cfg (ω.call 1) genesis blocks
      (r.1, r.2.restoreReplayState (ω.call 2) (n.replaySave (ω.call 0)))

/-- Re-execute a block on the snapshot of its parent. -/
def replayBlockForValidation (n : RpcNode) (cfg : Config) (ω : Choices) (block : BlockRecord) :
    Except String BlockRoots × RpcNode :=
  let height := quantity64 block.number
  let parent := (n.stateSnapshots.get? (height - 1)).filter (·.complete)
  match parent with
  | none => (.error "complete parent state snapshot not found", n)
  | some snapshot =>
      let start := { { n with height := height - 1 }.restoreStateSnapshot (ω.call 1) snapshot with
        replayMode := true }
      let r := start.replayBlock cfg (ω.call 2) block height
      (.ok r.1, r.2.2.2.restoreReplayState (ω.call 3) (n.replaySave (ω.call 0)))

/-- Execute one block on its parent's snapshot, and put the state back. -/
def validateBlockRecord (n : RpcNode) (cfg : Config) (ω : Choices) (block : BlockRecord) :
    ValidateResult × RpcNode :=
  let height := quantity64 block.number
  let expectedParent := (n.canonical.get? (height - 1)).getD ""
  if height = 0 then (.failure none none "missing block number", n)
  else if block.hash = "" ∨ block.hash = zeroHash then
    (.failure (some height) none "missing block hash", n)
  else if block.stateRoot = "" ∨ block.stateRoot = zeroHash then
    (.failure (some height) none "missing state root", n)
  else if block.receiptRoot = "" then (.failure (some height) none "missing receipt root", n)
  else if height ≤ 1 then (.failure (some height) none "genesis block replay is not supported", n)
  else if expectedParent = "" then
    (.failure (some height) none "parent is not canonical locally", n)
  else if ¬ equalFold block.parentHash expectedParent then
    (.failure (some height) (some block.hash)
      ("parent mismatch: got " ++ block.parentHash ++ " want " ++ expectedParent), n)
  else
    let r := n.replayBlockForValidation cfg ω block
    match r.1 with
    | .error e => (.failure (some height) (some block.hash) e, r.2)
    | .ok computed =>
        match rootMismatch block computed with
        | some (field, computed, expected) =>
            (.rootFailure height block.hash field computed expected, r.2)
        | none => (.valid height block.hash computed, r.2)

/-! ## What a replay leaves behind -/

theorem replayBlock_sameIndex (n : RpcNode) (cfg : Config) (ω : Choices) (block : BlockRecord)
    (height : ℕ) : SameIndex n (n.replayBlock cfg ω block height).2.2.2 :=
  have h : SameChain { n with height := height } (n.replayBlock cfg ω block height).2.2.2 :=
    applyTxs_sameChain _
  ⟨h.accounts, h.pendingTxs, h.blocks, h.canonical, h.blockIndex, h.stateSnapshots, h.peers⟩

theorem recordTxs_sameIndex (n : RpcNode) (mined : List TxRecord)
    (receipts : List ReceiptRecord) : SameIndex n (n.recordTxs mined receipts) := by
  rw [recordTxs]
  induction mined.zip receipts generalizing n with
  | nil => exact .refl n
  | cons e l ih =>
      refine SameIndex.trans ?_ (ih (n.recordTx e.1 e.2))
      exact ⟨rfl, rfl, rfl, rfl, rfl, rfl, rfl⟩

theorem replayBlocks_sameIndex (cfg : Config) (genesisHeight : ℕ) (blocks : List BlockRecord)
    (n : RpcNode) (ω : Choices) (checked : ℕ) (parentHash : String) :
    SameIndex n (replayBlocks cfg genesisHeight n ω checked parentHash blocks).2 := by
  induction blocks generalizing n ω checked parentHash with
  | nil => exact .refl n
  | cons block blocks ih =>
      have hblock := n.replayBlock_sameIndex cfg (ω.call 0) block (quantity64 block.number)
      rw [replayBlocks]
      split
      · exact .refl n
      · split
        · exact .refl n
        · dsimp only
          split
          · exact hblock
          · exact hblock.trans ((recordTxs_sameIndex _ _ _).trans (ih _ _ _ _))

theorem replayFromGenesis_sameIndex (n : RpcNode) (cfg : Config) (ω : Choices)
    (genesis : BlockRecord) (blocks : List BlockRecord) :
    SameIndex n (n.replayFromGenesis cfg ω genesis blocks).2 := by
  rw [replayFromGenesis]
  dsimp only
  split
  · exact .refl n
  · split
    · exact .refl n
    · refine SameIndex.trans ?_ (replayBlocks_sameIndex cfg _ blocks _ _ _ _)
      exact ⟨rfl, rfl, rfl, rfl, rfl, rfl, rfl⟩

/-- Replaying a chain copies the accounts out and in. -/
theorem replayChain_recopied (n : RpcNode) (h : n.blocks ≠ []) (cfg : Config) (ω : Choices) :
    ∃ ω₁ ω₂ disk, (n.replayChain cfg ω).2 = n.recopied ω₁ ω₂ disk := by
  rw [replayChain]
  split
  · next hnil => exact absurd hnil h
  · exact ⟨_, _, _, restoreReplayState_replaySave
      (n.replayFromGenesis_sameIndex cfg (ω.call 1) _ _) (ω.call 0) (ω.call 2)⟩

/-- Replaying the chain changes at most the spelling of the account keys. -/
theorem replayChain_cases (n : RpcNode) (cfg : Config) (ω : Choices) :
    (n.replayChain cfg ω).2 = n ∨
    ∃ ω₁ ω₂ disk, (n.replayChain cfg ω).2 = n.recopied ω₁ ω₂ disk := by
  by_cases h : n.blocks = []
  · left
    rw [replayChain, h]
  · exact .inr (n.replayChain_recopied h cfg ω)

theorem replayBlockForValidation_cases (n : RpcNode) (cfg : Config) (ω : Choices)
    (block : BlockRecord) :
    (n.replayBlockForValidation cfg ω block).2 = n ∨
    ∃ ω₁ ω₂ disk, (n.replayBlockForValidation cfg ω block).2 = n.recopied ω₁ ω₂ disk := by
  rw [replayBlockForValidation]
  dsimp only
  split
  · exact .inl rfl
  · refine .inr ⟨_, _, _, restoreReplayState_replaySave ?_ (ω.call 0) (ω.call 3)⟩
    refine SameIndex.trans ?_ (replayBlock_sameIndex _ _ _ _ _)
    exact ⟨rfl, rfl, rfl, rfl, rfl, rfl, rfl⟩

/-- Validating a block leaves the node alone or as its replay leaves it. -/
theorem validateBlockRecord_snd (n : RpcNode) (cfg : Config) (ω : Choices) (block : BlockRecord) :
    (n.validateBlockRecord cfg ω block).2 = n ∨
      (n.validateBlockRecord cfg ω block).2 = (n.replayBlockForValidation cfg ω block).2 := by
  rw [validateBlockRecord]
  generalize n.replayBlockForValidation cfg ω block = r
  simp only [apply_ite Prod.snd]
  split_ifs
  all_goals first | exact .inl rfl | skip
  refine .inr ?_
  split
  · rfl
  · split <;> rfl

/-- Validating a block changes at most the spelling of the account keys. -/
theorem validateBlockRecord_cases (n : RpcNode) (cfg : Config) (ω : Choices)
    (block : BlockRecord) :
    (n.validateBlockRecord cfg ω block).2 = n ∨
    ∃ ω₁ ω₂ disk, (n.validateBlockRecord cfg ω block).2 = n.recopied ω₁ ω₂ disk := by
  rcases n.validateBlockRecord_snd cfg ω block with heq | heq
  · exact .inl heq
  · rw [heq]
    exact n.replayBlockForValidation_cases cfg ω block

end RpcNode

end BhtBhte.Node
