import BhtBhte.Node.Spelling

/-!
# Replaying an honest chain

Mining executes on the live accounts and a replay on accounts rebuilt from the genesis snapshot.
The two differ in the spelling of the keys only: a creation writes its code under a checksummed
address, a copy keeps it under the lower-case one.  As long as no creation meets another code under
the second spelling, every block of a node that imports none replays.  That is
`replayChain_of_creationsAlike`.
-/
namespace BhtBhte.Node
open BhtBhte.Lib
variable [Platform]

/-! ## Receipts -/

/-- The consensus part of the logs of a transaction. -/
def consensusLogs (cfg : Config) (tx : TxRecord) : List ConsensusLog :=
  if tx.recipient ≠ "" ∧ tx.recipient = cfg.bridgeAddress then
    [{ address := hexToAddress cfg.bridgeAddress
       topics := [Topic.ofText (RpcNode.bridgeTopic tx), paddedTopic tx.sender,
         paddedTopic tx.recipient].map fun topic => hexToHash topic.text
       data := fromHex tx.value }]
  else []

/-- The consensus part of the receipt of a transaction. -/
def consensusReceipt (cfg : Config) (tx : TxRecord) : ConsensusReceipt where
  status := quantity64 "0x1"
  cumulativeGasUsed := quantity64 "0x5208"
  bloom := Platform.createBloom (consensusLogs cfg tx)
  logs := consensusLogs cfg tx

def consensusRoot (receipts : List ConsensusReceipt) : String :=
  hexString (Platform.trieRoot (receipts.mapIdx fun i r => (Platform.rlpUint i, Platform.rlpReceipt r)))

def consensusBloom (receipts : List ConsensusReceipt) : String :=
  hexString (Platform.mergeBloom (receipts.map (·.bloom)))

theorem receiptTrieRoot_eq (receipts : List ReceiptRecord) :
    receiptTrieRoot receipts = consensusRoot (receipts.map (·.toGethReceipt)) := by
  rw [receiptTrieRoot, consensusRoot, buildReceiptTrie]
  congr 2
  apply List.ext_getElem (by simp)
  intro i h₁ h₂
  simp

theorem blockLogsBloomHex_eq (receipts : List ReceiptRecord) :
    blockLogsBloomHex receipts = consensusBloom (receipts.map (·.toGethReceipt)) := by
  rw [blockLogsBloomHex, consensusBloom, List.map_map]
  rfl

namespace RpcNode
variable {cfg : Config} {ω : Choices} {n : RpcNode} {tx : TxRecord} {blockHash : String}
  {blockNumber index : ℕ}

/-- What a receipt is hashed from does not depend on the node. -/
theorem applyMinedTransaction_receipt :
    (n.applyMinedTransaction cfg ω tx blockHash blockNumber index).2.1.toGethReceipt =
      consensusReceipt cfg tx := by
  have hlogs : ((n.applyMinedTransaction cfg ω tx blockHash blockNumber index).2.1.logs.map
        LogRecord.toGethLog) = consensusLogs cfg tx ∧
      (n.applyMinedTransaction cfg ω tx blockHash blockNumber index).2.1.status = "0x1" := by
    rw [applyMinedTransaction, executeTransaction]
    dsimp only
    split
    · next h =>
        have htx : tx.recipient ≠ "" ∧ tx.recipient = cfg.bridgeAddress := h
        rw [executeBridgeCall, if_neg (not_not_intro h.2), consensusLogs, if_pos htx]
        exact ⟨rfl, rfl⟩
    · next h =>
        have htx : ¬ (tx.recipient ≠ "" ∧ tx.recipient = cfg.bridgeAddress) := h
        rw [consensusLogs, if_neg htx]
        exact ⟨rfl, rfl⟩
  rw [ReceiptRecord.toGethReceipt, bloomOf, hlogs.1, hlogs.2]
  rfl

theorem applyTxs_receipts (txs : List TxRecord) :
    ((applyTxs cfg blockHash blockNumber n ω index txs).2.1.map (·.toGethReceipt)) =
      txs.map (consensusReceipt cfg) := by
  induction txs generalizing n ω index with
  | nil => rfl
  | cons tx txs ih =>
      rw [applyTxs, List.map_cons, List.map_cons, applyMinedTransaction_receipt, ih]

theorem mineTxs_receipts (txs : List TxRecord) :
    ((mineTxs cfg blockHash blockNumber n ω index txs).2.1.map (·.toGethReceipt)) =
      txs.map (consensusReceipt cfg) := by
  induction txs generalizing n ω index with
  | nil => rfl
  | cons tx txs ih =>
      rw [mineTxs, List.map_cons, List.map_cons, applyMinedTransaction_receipt, ih]

end RpcNode

/-! ## Blocks that replay -/

/-- The accounts after a list of transactions. -/
def World.applyAll (cfg : Config) (w : World) (txs : List TxRecord) : World :=
  txs.foldl (World.apply · cfg.bridgeAddress ·) w

/-- The block has the roots of executing its transactions on these accounts, whatever the
order of the copies. -/
structure BlockReplays (cfg : Config) (w : World) (block : BlockRecord) : Prop where
  state : ∀ ω, block.stateRoot = stateTrieRoot ((w.applyAll cfg block.transactions).copy ω)
  mined : (block.transactions.mapIdx fun i tx =>
    RpcNode.minedTx tx block.hash (quantity64 block.number) (0 + i)) = block.transactions
  txs : block.txRoot = hashTxs block.transactions
  receipts : block.receiptRoot = consensusRoot (block.transactions.map (consensusReceipt cfg))
  bloom : block.logsBloom = consensusBloom (block.transactions.map (consensusReceipt cfg))

/-- Every block replays on the accounts that the blocks before it leave. -/
def Replays (cfg : Config) : World → List BlockRecord → Prop
  | _, [] => True
  | w, block :: blocks =>
      BlockReplays cfg w block ∧ Replays cfg (w.applyAll cfg block.transactions) blocks

/-- The accounts after a list of blocks. -/
def World.replay (cfg : Config) (w : World) (blocks : List BlockRecord) : World :=
  blocks.foldl (fun w block => w.applyAll cfg block.transactions) w

theorem replays_append {cfg : Config} {w : World} {blocks : List BlockRecord} {block : BlockRecord} :
    Replays cfg w (blocks ++ [block]) ↔
      Replays cfg w blocks ∧ BlockReplays cfg (w.replay cfg blocks) block := by
  induction blocks generalizing w with
  | nil => simp [Replays, World.replay]
  | cons b blocks ih =>
      rw [List.cons_append, Replays, Replays, ih, and_assoc]
      rfl

theorem Replays.take {cfg : Config} {w : World} {blocks : List BlockRecord}
    (h : Replays cfg w blocks) (k : ℕ) : Replays cfg w (blocks.take k) := by
  induction blocks generalizing w k with
  | nil => rw [List.take_nil]; trivial
  | cons b blocks ih =>
      cases k with
      | zero => trivial
      | succ k => exact ⟨h.1, ih h.2 k⟩

namespace RpcNode
variable {cfg : Config} {ω : Choices} {n : RpcNode} {block : BlockRecord}

/-- A block that replays matches the roots that a replay computes. -/
theorem rootMismatch_replayBlock (h : BlockReplays cfg n.world block) :
    rootMismatch block (n.replayBlock cfg ω block (quantity64 block.number)).1 = none := by
  have hroots : (n.replayBlock cfg ω block (quantity64 block.number)).1 =
      ⟨block.stateRoot, block.txRoot, block.receiptRoot, block.logsBloom⟩ := by
    rw [replayBlock]
    dsimp only
    rw [applyTxs_mined, h.mined, receiptTrieRoot_eq, blockLogsBloomHex_eq, applyTxs_receipts,
      h.state, h.txs, h.receipts, h.bloom, currentStateSnapshot, applyTxs_world]
    rfl
  rw [hroots, rootMismatch]
  simp [rootMatches, bloomMatches, equalFold_refl]

theorem replayBlock_world (height : ℕ) :
    (n.replayBlock cfg ω block height).2.2.2.world = n.world.applyAll cfg block.transactions :=
  applyTxs_world block.transactions

theorem recordTxs_world (n : RpcNode) (mined : List TxRecord) (receipts : List ReceiptRecord) :
    (n.recordTxs mined receipts).world = n.world := by
  rw [recordTxs]
  induction mined.zip receipts generalizing n with
  | nil => rfl
  | cons e l ih => exact ih _

/-- **The replay loop.** Blocks that are numbered, linked and replay are all accepted. -/
theorem replayBlocks_valid {genesisHeight : ℕ} {blocks : List BlockRecord} {checked : ℕ}
    {parent : BlockRecord} (hreplays : Replays cfg n.world blocks)
    (hnumbers : blocks.map (fun b => quantity64 b.number) =
      List.range' (genesisHeight + (checked + 1)) blocks.length)
    (hbound : genesisHeight + checked + blocks.length < 2 ^ 64)
    (hparents : (parent :: blocks).IsChain fun b b' => equalFold b'.parentHash b.hash = true) :
    (replayBlocks cfg genesisHeight n ω checked parent.hash blocks).1.isValid = true := by
  induction blocks generalizing n ω checked parent with
  | nil => rfl
  | cons block blocks ih =>
      rw [List.map_cons, List.length_cons, List.range'_succ, List.cons.injEq] at hnumbers
      rw [List.length_cons] at hbound
      rw [List.isChain_cons_cons] at hparents
      have hheight : quantity64 block.number = u64 (genesisHeight + (checked + 1)) := by
        rw [hnumbers.1]
        exact (u64_of_lt (k := genesisHeight + (checked + 1)) (by omega)).symm
      rw [replayBlocks, if_neg (not_not_intro hheight), if_neg (not_not_intro hparents.1)]
      dsimp only
      rw [rootMismatch_replayBlock hreplays.1]
      refine ih ?_ ?_ (by omega) hparents.2
      · rw [recordTxs_world, replayBlock_world]
        exact hreplays.2
      · rw [hnumbers.2]
        congr 1

/-- What the replay loop accepts has the state root of executing it. -/
theorem stateRoot_of_replayBlocks {genesisHeight : ℕ} {before after : List BlockRecord}
    {checked : ℕ} {parentHash : String}
    (h : (replayBlocks cfg genesisHeight n ω checked parentHash
      (before ++ block :: after)).1.isValid = true) :
    ∃ ω', equalFold block.stateRoot (stateTrieRoot
      (((n.world.replay cfg before).applyAll cfg block.transactions).copy ω')) = true := by
  induction before generalizing n ω checked parentHash with
  | nil =>
      rw [List.nil_append, replayBlocks] at h
      split at h
      · cases h
      · split at h
        · cases h
        · dsimp only at h
          split at h
          · cases h
          · next hnone =>
              rw [rootMismatch] at hnone
              split at hnone
              · cases hnone
              · next hstate =>
                  have hworld := @replayBlock_world _ cfg (ω.call 0) n block (quantity64 block.number)
                  refine ⟨((ω.call 0).call 1).call 0, ?_⟩
                  rw [World.replay, List.foldl_nil, ← hworld]
                  exact not_not.mp hstate
  | cons b before ih =>
      rw [List.cons_append, replayBlocks] at h
      split at h
      · cases h
      · split at h
        · cases h
        · dsimp only at h
          split at h
          · cases h
          · have hrest := ih h
            rw [recordTxs_world, replayBlock_world] at hrest
            exact hrest

end RpcNode

/-! ## Two spellings of the same accounts -/

namespace World

/-- Every key is in normal form, those of the code apart. -/
structure Plain (w : World) : Prop where
  balances : ∀ a ∈ w.balances.keys, normalizeAddress a = a
  nonces : ∀ a ∈ w.nonces.keys, normalizeAddress a = a
  storage : ∀ a ∈ w.storage.keys, normalizeAddress a = a
  slots : ∀ a s, w.storage.get? a = some s → ∀ k ∈ s.keys, normalizeStorageKey k = k

/-- A creation meets no other code under another spelling of its address. -/
def CreationAlike (w : World) (tx : TxRecord) : Prop :=
  tx.recipient = "" → ∀ k v, w.code.get? k = some v →
    normalizeAddress k = normalizeAddress (contractAddress tx.sender tx.nonce) →
    k = contractAddress tx.sender tx.nonce ∨ v = tx.input

theorem Normal.plain {w : World} (h : w.Normal) : w.Plain :=
  ⟨h.balances, h.nonces, h.storage, h.slots⟩

/-- On plain accounts only creations can bring a second spelling in. -/
theorem Plain.spelledAlike {w : World} (h : w.Plain) {tx : TxRecord} (htx : tx.Normal)
    (hcreate : w.CreationAlike tx) : w.SpelledAlike tx := by
  have honly : ∀ {V : Type} {m : FinMap String V} {a : String},
      (∀ k ∈ m.keys, normalizeAddress k = k) → normalizeAddress a = a → OnlySpelling m a := by
    intro V m a hm ha k hk heq
    rwa [hm k hk, ha] at heq
  refine ⟨fun _ _ => ⟨honly h.balances htx.sender, honly h.balances htx.recipient, ?_⟩,
    fun _ _ => honly h.nonces htx.sender, fun _ => honly h.storage htx.recipient, hcreate⟩
  rw [htx.sender, htx.recipient]
  exact id

theorem Plain.apply {w : World} (h : w.Plain) {tx : TxRecord} (htx : tx.Normal)
    (bridgeAddress : String) : (w.apply bridgeAddress tx).Plain := by
  refine ⟨fixed_balances_apply h.balances (fun _ _ => htx) bridgeAddress,
    fixed_nonces_apply h.nonces (fun _ _ => htx) bridgeAddress, ?_,
    slots_apply h.slots bridgeAddress tx⟩
  rcases w.storage_apply bridgeAddress tx with heq | ⟨-, heq⟩
  · rw [heq]; exact h.storage
  · rw [heq]; exact fixed_insert _ h.storage htx.recipient

/-- Plain accounts whose code has been created, never copied. -/
structure Created (w : World) : Prop extends Plain w where
  code : ∀ k ∈ w.code.keys, ∃ sender nonce, k = contractAddress sender nonce

/-- Created code is kept under one spelling of each address. -/
theorem Created.creationAlike {w : World} (h : w.Created) (tx : TxRecord) : w.CreationAlike tx := by
  intro _ k v hv heq
  obtain ⟨sender, nonce, rfl⟩ := h.code k (FinMap.mem_keys.mpr ⟨v, hv⟩)
  exact .inl (contractAddress_eq_of_normalizeAddress heq)

theorem Created.apply {w : World} (h : w.Created) {tx : TxRecord} (htx : tx.Normal)
    (bridgeAddress : String) : (w.apply bridgeAddress tx).Created := by
  refine ⟨h.toPlain.apply htx bridgeAddress, fun k hk => ?_⟩
  rw [code_apply] at hk
  split at hk
  · rcases FinMap.mem_keys_insert.mp hk with rfl | hk
    · exact ⟨tx.sender, tx.nonce, rfl⟩
    · exact h.code k hk
  · exact h.code k hk

theorem Created.wellSpelled {w : World} (h : w.Created) : w.WellSpelled := by
  refine ⟨FinMap.noClash_of_fixed h.balances, FinMap.noClash_of_fixed h.nonces, ?_,
    FinMap.noClash_of_fixed h.storage, h.slots⟩
  refine FinMap.NoClash.consistent fun k hk k' hk' heq => ?_
  obtain ⟨sender, nonce, rfl⟩ := h.code k hk
  obtain ⟨sender', nonce', rfl⟩ := h.code k' hk'
  exact contractAddress_eq_of_normalizeAddress heq

/-- Execution reads no code. -/
theorem apply_code (w : World) (code : FinMap String String) (bridgeAddress : String)
    (tx : TxRecord) :
    let w' := World.apply { w with code := code } bridgeAddress tx
    w'.balances = (w.apply bridgeAddress tx).balances ∧
      w'.nonces = (w.apply bridgeAddress tx).nonces ∧
      w'.storage = (w.apply bridgeAddress tx).storage := by
  have htransfer : World.transfer { w with code := code } tx =
      { w.transfer tx with code := code } := by
    have hdebit : World.debit { w with code := code } tx.sender (parseQuantity tx.value) =
        { w.debit tx.sender (parseQuantity tx.value) with code := code } := by
      rw [debit, debit]
      show (if parseQuantity tx.value ≤ w.balance tx.sender then _ else _) = _
      split <;> rfl
    rw [transfer, transfer]
    split
    · dsimp only
      rw [hdebit]
      rfl
    · rfl
  rw [World.apply, World.apply, htransfer, execute, execute]
  split
  · exact ⟨rfl, rfl, rfl⟩
  · split
    · exact ⟨rfl, rfl, rfl⟩
    · split
      · rw [executeSimpleStorageCall, executeSimpleStorageCall]
        split <;> exact ⟨rfl, rfl, rfl⟩
      · exact ⟨rfl, rfl, rfl⟩

/-- **One transaction on both.** Accounts that agree still do after the same transaction. -/
theorem Agree.apply {w w' : World} (h : w.Agree w') (hw : w.Plain) (hw' : w'.Plain)
    {tx : TxRecord} (hcreate : w.CreationAlike tx) (hcreate' : w'.CreationAlike tx)
    (bridgeAddress : String) : (w.apply bridgeAddress tx).Agree (w'.apply bridgeAddress tx) := by
  have heq : w' = { w with code := w'.code } := by
    have hbalances := h.balances.eq_of_fixed hw.balances hw'.balances
    have hnonces := h.nonces.eq_of_fixed hw.nonces hw'.nonces
    have hstorage := h.storage.eq_of_fixed hw.storage hw'.storage
    cases w
    cases w'
    simp_all
  have happly := w.apply_code w'.code bridgeAddress tx
  rw [← heq] at happly
  obtain ⟨hbalances, hnonces, hstorage⟩ := happly
  refine ⟨hbalances ▸ .refl _ _, hnonces ▸ .refl _ _, ?_, hstorage ▸ .refl _ _⟩
  rw [code_apply, code_apply]
  split
  · next hempty => exact h.code.insert (hcreate hempty) (hcreate' hempty)
  · exact h.code

end World

/-- No creation of the list meets another code under another spelling of its address. -/
def CreationsAlike (cfg : Config) : World → List TxRecord → Prop
  | _, [] => True
  | w, tx :: txs =>
      w.CreationAlike tx ∧ CreationsAlike cfg (w.apply cfg.bridgeAddress tx) txs

section Lists
variable {cfg : Config} {w w' : World} {txs : List TxRecord}

theorem World.Plain.allSpelledAlike (h : w.Plain) (htxs : ∀ tx ∈ txs, tx.Normal)
    (hcreate : CreationsAlike cfg w txs) : AllSpelledAlike cfg.bridgeAddress w txs := by
  induction txs generalizing w with
  | nil => trivial
  | cons tx txs ih =>
      have htx := htxs tx List.mem_cons_self
      exact ⟨h.spelledAlike htx hcreate.1, ih (h.apply htx _)
        (fun tx' htx' => htxs tx' (List.mem_cons_of_mem _ htx')) hcreate.2⟩

theorem World.Plain.applyAll (h : w.Plain) (htxs : ∀ tx ∈ txs, tx.Normal) :
    (w.applyAll cfg txs).Plain := by
  induction txs generalizing w with
  | nil => exact h
  | cons tx txs ih =>
      exact ih (h.apply (htxs tx List.mem_cons_self) _) fun tx' htx' =>
        htxs tx' (List.mem_cons_of_mem _ htx')

theorem World.Created.applyAll (h : w.Created) (htxs : ∀ tx ∈ txs, tx.Normal) :
    (w.applyAll cfg txs).Created := by
  induction txs generalizing w with
  | nil => exact h
  | cons tx txs ih =>
      exact ih (h.apply (htxs tx List.mem_cons_self) _) fun tx' htx' =>
        htxs tx' (List.mem_cons_of_mem _ htx')

theorem World.Created.replay {blocks : List BlockRecord} (h : w.Created)
    (htxs : ∀ b ∈ blocks, ∀ tx ∈ b.transactions, tx.Normal) : (w.replay cfg blocks).Created := by
  induction blocks generalizing w with
  | nil => exact h
  | cons b blocks ih =>
      exact ih (h.applyAll (htxs b List.mem_cons_self)) fun b' hb' =>
        htxs b' (List.mem_cons_of_mem _ hb')

/-- **A block on both.** The live accounts, where no creation clashes, and the created ones
still agree after the same transactions. -/
theorem World.Agree.applyAll (h : w.Agree w') (hw : w.Plain) (hw' : w'.Created)
    (htxs : ∀ tx ∈ txs, tx.Normal) (hcreate : CreationsAlike cfg w txs) :
    (w.applyAll cfg txs).Agree (w'.applyAll cfg txs) := by
  induction txs generalizing w w' with
  | nil => exact h
  | cons tx txs ih =>
      have htx := htxs tx List.mem_cons_self
      exact ih (h.apply hw hw'.toPlain hcreate.1 (hw'.creationAlike tx) _) (hw.apply htx _)
        (hw'.apply htx _) (fun tx' htx' => htxs tx' (List.mem_cons_of_mem _ htx')) hcreate.2

/-- The place in a block does not matter for the accounts. -/
theorem World.applyAll_mapIdx_minedTx (hash : String) (number index : ℕ) :
    w.applyAll cfg (txs.mapIdx fun i tx => RpcNode.minedTx tx hash number (index + i)) =
      w.applyAll cfg txs := by
  induction txs generalizing w index with
  | nil => rfl
  | cons tx txs ih =>
      rw [List.mapIdx_cons, World.applyAll, World.applyAll, List.foldl_cons, List.foldl_cons]
      have hindex : (fun i tx => RpcNode.minedTx tx hash number (index + (i + 1))) =
          fun i tx => RpcNode.minedTx tx hash number (index + 1 + i) := by
        funext i tx
        rw [Nat.add_assoc, Nat.add_comm 1 i]
      rw [hindex]
      exact ih (index + 1)

end Lists

/-! ## Honest calls -/

/-- A call of a node that imports no block, whose creations do not clash. -/
def HonestStep (cfg : Config) (n : RpcNode) (ω : Choices) (e : Event) : Prop :=
  (∀ block, e ≠ .syncBlock block) ∧ CreationsAlike cfg n.world (n.executed cfg ω e)

/-- The live accounts, the pending list and the chain are free of second spellings, code
apart. -/
structure TidyOk (n : RpcNode) : Prop where
  world : n.world.Plain
  pending : ∀ tx ∈ n.pendingTxs, tx.Normal
  blocks : ∀ b ∈ n.blocks, ∀ tx ∈ b.transactions, tx.Normal

/-- The blocks replay from the genesis snapshot, and the live accounts and the snapshots agree
with the replayed ones. -/
structure ReplayOk (cfg : Config) (genesis : World) (n : RpcNode) : Prop where
  snapshot : ∃ s, n.stateSnapshots.get? 1 = some s ∧ s.world = genesis
  created : genesis.Created
  replays : Replays cfg genesis n.blocks.tail
  world : n.world.Agree (genesis.replay cfg n.blocks.tail)
  snapshots : ∀ k s, n.stateSnapshots.get? k = some s →
    s.world.Agree (genesis.replay cfg (n.blocks.tail.take (k - 1)))

theorem TxRecord.Normal.minedTx {tx : TxRecord} (h : tx.Normal) (hash : String) (number i : ℕ) :
    (RpcNode.minedTx tx hash number i).Normal := ⟨h.sender, h.recipient⟩

theorem TidyOk.move {n n' : RpcNode} (h : TidyOk n) (hspell : SpellOk n)
    (hchain : ChainOk n) (hfunded : FundedOk n) {cfg : Config} {txs : List TxRecord}
    (htxs : ∀ tx ∈ txs, tx.Normal) (hmove : LocalMove cfg txs n n') : TidyOk n' := by
  cases hmove with
  | kept hkept hpending =>
      refine ⟨hkept.world ▸ h.world, fun tx htx => ?_, hkept.blocks ▸ h.blocks⟩
      exact (hpending tx htx).elim (h.pending tx) id
  | recopied ω₁ ω₂ disk =>
      have hfirst := (hspell.world.copy_normal ω₁).wellSpelled
      exact ⟨(hfirst.copy_normal ω₂).plain, h.pending, h.blocks⟩
  | mined ω =>
      obtain ⟨block, -, hblocks, hmined, -⟩ :=
        RpcNode.minePendingBlock_chain { n with pendingTxs := txs } cfg ω
      refine ⟨?_, ?_, ?_⟩
      · rw [RpcNode.minePendingBlock_world]
        exact h.world.applyAll htxs
      · rw [RpcNode.minePendingBlock_pendingTxs]
        exact fun tx htx => absurd htx List.not_mem_nil
      · rw [hblocks]
        intro b hb tx htx
        rcases List.mem_append.mp hb with hb | hb
        · exact h.blocks b hb tx htx
        · rw [List.mem_singleton.mp hb, hmined] at htx
          obtain ⟨i, hi, rfl⟩ := List.mem_mapIdx.mp htx
          exact (htxs _ (List.getElem_mem hi)).minedTx _ _ _
  | @rolledBack ω height s hone hle hs =>
      refine ⟨?_, fun tx htx => ?_, fun b hb => h.blocks b (List.mem_of_mem_filter hb)⟩
      · have hnormal := hspell.snapshots _ _ hs
        exact (hnormal.wellSpelled.copy_normal ω).plain
      · rcases List.mem_append.mp (show tx ∈ n.pendingTxs ++ n.removedTxs height from htx) with
          htx | htx
        · exact h.pending tx htx
        · obtain ⟨b, hb, htx⟩ := List.mem_flatMap.mp htx
          obtain ⟨tx', htx', rfl⟩ := List.mem_map.mp htx
          have hnormal := h.blocks b (List.mem_of_mem_filter hb) tx' htx'
          exact ⟨hnormal.sender, hnormal.recipient⟩
  | restarted index disk =>
      refine ⟨?_, h.pending, h.blocks⟩
      rw [hfunded.restarted_world hchain]
      exact h.world

/-- A mined block replays on accounts that agree with the live ones. -/
theorem blockReplays_of_mined {cfg : Config} {n : RpcNode} {ω : Choices} {w : World}
    (hagree : (n.world.applyAll cfg n.pendingTxs).Agree (w.applyAll cfg n.pendingTxs))
    (hlive : (n.world.applyAll cfg n.pendingTxs).WellSpelled)
    (hw : (w.applyAll cfg n.pendingTxs).WellSpelled) :
    ∃ block, (n.minePendingBlock cfg ω).2.blocks = n.blocks ++ [block] ∧
      BlockReplays cfg w block ∧
      w.applyAll cfg block.transactions = w.applyAll cfg n.pendingTxs := by
  obtain ⟨block, l, heq, -, hnumber, hhash, -, hstate, htxRoot, hreceiptRoot, hbloom, htxs⟩ :=
    n.minePendingBlock_eq cfg ω
  have hsame : SameBlocks { n with pendingTxs := [] } (n.minePendingTxs cfg ω).2.2 :=
    RpcNode.mineTxs_sameBlocks n.pendingTxs
  have hworld : (n.minePendingTxs cfg ω).2.2.world = n.world.applyAll cfg n.pendingTxs :=
    RpcNode.mineTxs_world n.pendingTxs
  have hmined : block.transactions = n.pendingTxs.mapIdx (fun i tx =>
      RpcNode.minedTx tx block.hash (quantity64 block.number) (0 + i)) := by
    rw [htxs, hhash, hnumber, quantity64_toHex (by rw [u64]; omega)]
    exact RpcNode.mineTxs_mined n.pendingTxs
  have hreceipts : (n.minePendingTxs cfg ω).2.1.map (·.toGethReceipt) =
      block.transactions.map (consensusReceipt cfg) := by
    refine (RpcNode.mineTxs_receipts n.pendingTxs).trans ?_
    rw [hmined]
    symm
    exact map_mapIdx_eq _ _ _ fun i tx => rfl
  have happly : w.applyAll cfg block.transactions = w.applyAll cfg n.pendingTxs := by
    rw [hmined, World.applyAll_mapIdx_minedTx]
  refine ⟨block, ?_, ⟨fun ω' => ?_, ?_, ?_, ?_, ?_⟩, happly⟩
  · rw [heq]
    exact congrArg (· ++ [block]) hsame.blocks
  · rw [hstate, hworld, happly]
    exact congrArg stateTrieRoot (World.copy_eq_of_agree hlive hw hagree _ _)
  · rw [hmined, List.mapIdx_mapIdx]
    rfl
  · rw [htxRoot, htxs]
  · rw [hreceiptRoot, receiptTrieRoot_eq, hreceipts]
  · rw [hbloom, blockLogsBloomHex_eq, hreceipts]

/-- A block that replays on top extends the replayed chain. -/
theorem ReplayOk.append {cfg : Config} {genesis : World} {n n' : RpcNode}
    (h : ReplayOk cfg genesis n) (hchain : ChainOk n) {block : BlockRecord}
    (hblocks : n'.blocks = n.blocks ++ [block])
    (hblock : BlockReplays cfg (genesis.replay cfg n.blocks.tail) block)
    (hspelled : n'.world.WellSpelled)
    (hworld : n'.world.Agree ((genesis.replay cfg n.blocks.tail).applyAll cfg block.transactions))
    (hsnapshots : ∃ s ω, n'.stateSnapshots = n.stateSnapshots.insert (n.height + 1) s ∧
      s.world = n'.world.copy ω) : ReplayOk cfg genesis n' := by
  obtain ⟨s', ω, hinsert, hcopy⟩ := hsnapshots
  have hpos := hchain.pos
  have hlength : n.blocks.tail.length = n.height - 1 := by
    rw [List.length_tail, hchain.length]
  have htail : n'.blocks.tail = n.blocks.tail ++ [block] := by
    rw [hblocks, List.tail_append_of_ne_nil hchain.ne_nil]
  have hreplay : genesis.replay cfg (n.blocks.tail ++ [block]) =
      (genesis.replay cfg n.blocks.tail).applyAll cfg block.transactions := by
    rw [World.replay, List.foldl_append]
    rfl
  constructor
  · rw [hinsert, FinMap.get?_insert_of_ne _ _ (by omega)]
    exact h.snapshot
  · exact h.created
  · rw [htail]
    exact replays_append.mpr ⟨h.replays, hblock⟩
  · rw [htail, hreplay]
    exact hworld
  · intro k s hs
    rw [hinsert, FinMap.get?_insert] at hs
    rw [htail]
    split at hs
    · next hk =>
        cases hs
        rw [hk, Nat.add_sub_cancel, List.take_of_length_le, hreplay, hcopy]
        · exact (hspelled.agree_copy ω).symm.trans hworld
        · rw [List.length_append, hlength, List.length_singleton]
          omega
    · -- an old snapshot, whose prefix of the chain is unchanged
      have hle := hchain.le_of_snapshot hs
      rw [List.take_append_of_le_length (by omega)]
      exact h.snapshots k s hs

theorem ReplayOk.rollback {cfg : Config} {genesis : World} {n : RpcNode}
    (h : ReplayOk cfg genesis n) (hchain : ChainOk n) (hspell : SpellOk n) {ω : Choices}
    {height : ℕ} {s : StateSnapshotRecord} (hone : 1 < height)
    (hs : n.stateSnapshots.get? (height - 1) = some s) :
    ReplayOk cfg genesis (n.rollback ω height s).save := by
  have hblocks : (n.rollback ω height s).blocks.tail = n.blocks.tail.take (height - 2) := by
    rw [hchain.blocks_rollback, ← List.drop_one, List.drop_take, List.drop_one, Nat.sub_sub]
  obtain ⟨s₁, hs₁, hworld⟩ := h.snapshot
  constructor
  · exact ⟨s₁, RpcNode.snapshot_rollback_iff.mpr ⟨hs₁, hone⟩, hworld⟩
  · exact h.created
  · show Replays cfg genesis (n.rollback ω height s).blocks.tail
    rw [hblocks]
    exact h.replays.take _
  · show World.Agree _ (genesis.replay cfg (n.rollback ω height s).blocks.tail)
    rw [hblocks]
    have hcopy : (n.rollback ω height s).save.world = s.world :=
      (hspell.snapshots _ _ hs).copy_eq ω
    rw [hcopy]
    exact h.snapshots _ s hs
  · intro k s' hs'
    obtain ⟨hs', hk⟩ := RpcNode.snapshot_rollback_iff.mp hs'
    show World.Agree _ (genesis.replay cfg ((n.rollback ω height s).blocks.tail.take (k - 1)))
    rw [hblocks, List.take_take, min_eq_left (by omega)]
    exact h.snapshots k s' hs'

theorem ReplayOk.move {cfg : Config} {genesis : World} {n n' : RpcNode} (h : ReplayOk cfg genesis n)
    (hchain : ChainOk n) (hfunded : FundedOk n) (hspell : SpellOk n) (htidy : TidyOk n)
    {txs : List TxRecord} (htxs : ∀ tx ∈ txs, tx.Normal)
    (hcreate : CreationsAlike cfg n.world txs) (hmove : LocalMove cfg txs n n')
    (hlen : n'.blocks.length < 2 ^ 63) : ReplayOk cfg genesis n' := by
  have hblocks : ∀ b ∈ n.blocks.tail, ∀ tx ∈ b.transactions, tx.Normal :=
    fun b hb => htidy.blocks b (List.mem_of_mem_tail hb)
  cases hmove with
  | kept hkept =>
      constructor
      · rw [hkept.stateSnapshots]; exact h.snapshot
      · exact h.created
      · rw [hkept.blocks]; exact h.replays
      · rw [hkept.world, hkept.blocks]; exact h.world
      · rw [hkept.stateSnapshots, hkept.blocks]; exact h.snapshots
  | recopied ω₁ ω₂ disk =>
      have hfirst := (hspell.world.copy_normal ω₁).wellSpelled
      have hcopy := (hspell.world.agree_copy ω₁).trans (hfirst.agree_copy ω₂)
      exact ⟨h.snapshot, h.created, h.replays, hcopy.symm.trans h.world, h.snapshots⟩
  | mined ω =>
      have hreplayed : (genesis.replay cfg n.blocks.tail).Created := h.created.replay hblocks
      have hlive : (n.world.applyAll cfg txs).WellSpelled :=
        hspell.world.foldl (htidy.world.allSpelledAlike htxs hcreate)
      have hagree := h.world.applyAll htidy.world hreplayed htxs hcreate
      obtain ⟨block, hnew, hblock, happly⟩ :=
        blockReplays_of_mined (n := { n with pendingTxs := txs }) (ω := ω) hagree hlive
          (hreplayed.applyAll htxs).wellSpelled
      have hchain' : ChainOk { n with pendingTxs := txs } := hchain.of_eq rfl rfl rfl rfl rfl
      have happ := minePendingBlock_appended hchain' hlen
      refine h.append hchain hnew hblock ?_ ?_ happ.stateSnapshots
      · rw [happ.world]; exact hlive
      · rw [happ.world, happly]; exact hagree
  | rolledBack hone _ hs => exact h.rollback hchain hspell hone hs
  | restarted index disk =>
      refine ⟨h.snapshot, h.created, h.replays, ?_, h.snapshots⟩
      rw [hfunded.restarted_world hchain]
      exact h.world

/-- A well-formed chain that replays is accepted. -/
theorem ReplayOk.replayChain_valid {cfg : Config} {genesis : World} {n : RpcNode}
    (h : ReplayOk cfg genesis n) (hchain : ChainOk n) (hspell : SpellOk n) (ω : Choices) :
    (n.replayChain cfg ω).1.isValid = true := by
  obtain ⟨s, hs, hworld⟩ := h.snapshot
  have hlength := hchain.length
  have hbound := hchain.bound
  have hnumbers := hchain.numbers
  have hparents := hchain.parents
  have hreplays := h.replays
  cases hblocks : n.blocks with
  | nil => exact absurd hblocks hchain.ne_nil
  | cons first rest =>
      rw [hblocks] at hlength hnumbers hparents hreplays
      rw [List.map_cons, List.length_cons, List.range'_succ, List.cons.injEq] at hnumbers
      rw [List.length_cons] at hlength
      have hcomplete : s.complete = true := by
        have hat : n.blockAt 1 = some first := by rw [RpcNode.blockAt, hblocks]; rfl
        obtain ⟨s', hs', hof⟩ := hchain.snapshot 1 first hat
        rw [hs] at hs'
        cases hs'
        exact hof.1
      rw [RpcNode.replayChain, hblocks]
      dsimp only
      rw [RpcNode.replayFromGenesis]
      dsimp only
      rw [hnumbers.1, hs]
      dsimp only
      rw [if_neg (not_not_intro hcomplete)]
      refine RpcNode.replayBlocks_valid ?_ hnumbers.2 (by omega) hparents
      show Replays cfg (s.world.copy _) rest
      rw [(hspell.snapshots _ _ hs).copy_eq, hworld]
      exact hreplays

theorem tidyOk_fresh (cfg : Config) (ω : Choices) : TidyOk (newRPCNode cfg ω {}) := by
  obtain ⟨ω₁, l, timestamp, heq, -⟩ := newRPCNode_fresh cfg ω
  rw [heq]
  refine ⟨(freshWorld_normal cfg).plain, fun tx htx => ?_, fun b hb tx htx => ?_⟩
  · cases htx
  · rw [List.mem_singleton.mp hb] at htx
    cases htx

theorem replayOk_fresh (cfg : Config) (ω : Choices) :
    ReplayOk cfg (freshWorld cfg) (newRPCNode cfg ω {}) := by
  obtain ⟨ω₁, l, timestamp, heq, -⟩ := newRPCNode_fresh cfg ω
  have hnormal := freshWorld_normal cfg
  rw [heq, hnormal.copy_eq]
  refine ⟨⟨_, FinMap.get?_insert_self _ _ _, rfl⟩, ⟨hnormal.plain, fun k hk => ?_⟩, trivial,
    .refl _, fun k s hs => ?_⟩
  · cases hk
  · rw [FinMap.get?_insert] at hs
    split at hs
    · cases hs
      rw [List.tail_cons, List.take_nil]
      exact .refl _
    · cases hs

theorem ReachableBy.replayOk {cfg : Config} {n : RpcNode} (h : ReachableBy cfg (HonestStep cfg) n) :
    ChainOk n ∧ FundedOk n ∧ SpellOk n ∧ TidyOk n ∧ ReplayOk cfg (freshWorld cfg) n := by
  refine h.induct (P := fun n => ChainOk n ∧ FundedOk n ∧ SpellOk n ∧ TidyOk n ∧
    ReplayOk cfg (freshWorld cfg) n) (fun ω => ?_) ?_
  · exact ⟨chainOk_fresh cfg ω, fundedOk_fresh cfg ω, spellOk_fresh cfg ω, tidyOk_fresh cfg ω,
      replayOk_fresh cfg ω⟩
  · intro n ω e ⟨hchain, hfunded, hspell, htidy, hreplay⟩ hstep hlen
    have hmove := n.next_localMove hchain cfg ω hstep.1
    have htxs : ∀ tx ∈ n.executed cfg ω e, tx.Normal := fun tx htx =>
      (RpcNode.mem_or_normal_of_mem_executed hstep.1 htx).elim (htidy.pending tx) id
    have halike := htidy.world.allSpelledAlike htxs hstep.2
    have hspell' := hspell.move hchain hfunded halike (hmove.move hchain hlen)
    exact ⟨hchain.next hlen, hfunded.move hchain (hmove.move hchain hlen), hspell',
      htidy.move hspell hchain hfunded htxs hmove,
      hreplay.move hchain hfunded hspell htidy htxs hstep.2 hmove hlen⟩

/-- **An honest chain replays.** -/
theorem replayChain_of_creationsAlike {cfg : Config} {n : RpcNode}
    (h : ReachableBy cfg (HonestStep cfg) n) (ω : Choices) :
    (n.replayChain cfg ω).1.isValid = true := by
  obtain ⟨hchain, -, hspell, -, hreplay⟩ := h.replayOk
  exact hreplay.replayChain_valid hchain hspell ω

/-- A raw transaction is a creation by the empty sender. -/
theorem World.apply_txOfRaw (w : World) (bridgeAddress : String) (ω : Choices) (rawTx : String) :
    w.apply bridgeAddress (RpcNode.txOfRaw ω rawTx) =
      { w with code := w.code.insert (contractAddress "" "0x0") rawTx } := by
  have hrecipient : (RpcNode.txOfRaw ω rawTx).recipient = "" := rfl
  rw [World.apply, World.transfer, if_neg fun h => h.2 hrecipient, World.execute, if_pos hrecipient]
  rfl

/-- A fresh node that mines a raw transaction is honest. -/
theorem honest_sendRaw {n : RpcNode} {ω : Choices} (hn : n = newRPCNode {} ω {}) (rawTx : String) :
    ReachableBy {} (HonestStep {}) (n.next {} ω (.sendRawTransaction rawTx)) ∧
      (n.next {} ω (.sendRawTransaction rawTx)).height = 2 := by
  have hchain : ChainOk n := hn ▸ chainOk_fresh {} ω
  have hreach : ReachableBy {} (HonestStep {}) n := hn ▸ ⟨ω, .refl⟩
  obtain ⟨ω₁, l, timestamp, hfresh, -⟩ := newRPCNode_fresh {} ω
  rw [hfresh] at hn
  have hheight : n.height = 1 := by rw [hn]
  have hempty : n.pendingTxs = [] := by rw [hn]
  have hcode : n.world.code = ∅ := by rw [hn]; rfl
  have hlt : n.height + 1 < 2 ^ 63 := by rw [hheight]; decide
  have hqueued : ChainOk { n with pendingTxs := n.pendingTxs ++ [RpcNode.txOfRaw (ω.call 0) rawTx] } :=
    hchain.of_eq rfl rfl rfl rfl rfl
  obtain ⟨hlen, -, hnext⟩ := mined_of_height_lt hqueued hlt {} (ω.call 1)
  refine ⟨hreach.next ⟨fun _ => by simp, ?_⟩ hlen, ?_⟩
  · rw [RpcNode.executed, if_pos rfl, hempty]
    refine ⟨fun _ k v hv => ?_, trivial⟩
    rw [hcode] at hv
    cases hv
  · exact hnext.trans (by rw [show n.height + 1 = 2 by omega])

omit [Platform] in
/-- A fresh node that has mined a creation replays. -/
theorem replayChain_of_sendRaw :
    letI := Platform.checksums
    let n := (newRPCNode {} default {}).next {} default (.sendRawTransaction "0x01")
    n.height = 2 ∧ (n.replayChain {} default).1.isValid = true := by
  obtain ⟨hreach, hheight⟩ := @honest_sendRaw Platform.checksums _ default rfl "0x01"
  exact ⟨hheight, @replayChain_of_creationsAlike Platform.checksums _ _ hreach default⟩

/-! ## A creation repeated -/

/-- The machine ranges over every map in the order of its keys. -/
def Choices.InKeyOrder (ω : Choices) : Prop := ∀ path k, (ω path).order k = Equiv.refl _

omit [Platform] in
theorem Choices.InKeyOrder.call {ω : Choices} (h : ω.InKeyOrder) (i : ℕ) : (ω.call i).InKeyOrder :=
  fun path => h (i :: path)

omit [Platform] in
theorem Choices.InKeyOrder.range_eq {ω : Choices} (h : ω.InKeyOrder) {V : Type}
    (m : FinMap String V) : m.range ω.order = m.entries := by
  rw [FinMap.range, Choices.order, h []]
  exact List.ofFn_get _

namespace World

/-- The accounts with one contract. -/
def withCode (w : World) (address code : String) : World :=
  { w with code := (∅ : FinMap String String).insert address code }

/-- The accounts with one contract under both spellings of its address. -/
def withCodes (w : World) (address code code' : String) : World :=
  let copied := (∅ : FinMap String String).insert (normalizeAddress address) code
  { w with code := copied.insert address code' }

/-- On normal accounts a copy rewrites the keys of the code only. -/
theorem copy_of_normal {w : World} (h : w.Normal) (code : FinMap String String) (ω : Choices) :
    World.copy { w with code := code } ω =
      { w with code := copyStringMap (ω.call 2).order code } := by
  have hcopy := h.copy_eq ω
  have hbalances : copyStringMap (ω.call 0).order w.balances = w.balances :=
    congrArg World.balances hcopy
  have hnonces : copyNonceMap (ω.call 1).order w.nonces = w.nonces := congrArg World.nonces hcopy
  have hstorage : copyNestedStringMap (ω.call 3) w.storage = w.storage :=
    congrArg World.storage hcopy
  rw [copy, hbalances, hnonces, hstorage]

theorem copy_withCode {w : World} (h : w.Normal) (address code : String) (ω : Choices) :
    (w.withCode address code).copy ω = w.withCode (normalizeAddress address) code := by
  rw [withCode, copy_of_normal h, copyStringMap, copyMap]
  have hperm : (((∅ : FinMap String String).insert address code).range (ω.call 2).order).Perm
      [(address, code)] := FinMap.range_perm _ _
  rw [List.perm_singleton.mp hperm]
  rfl

/-- Of two spellings of one address, the one that the range comes to last stays in the copy. -/
theorem copy_of_two {w : World} (h : w.Normal) {address : String}
    (hlt : address < normalizeAddress address) (code code' : String) {ω : Choices}
    (hω : ω.InKeyOrder) :
    (w.withCodes address code code').copy ω = w.withCode (normalizeAddress address) code := by
  rw [withCodes, copy_of_normal h, copyStringMap, copyMap, (hω.call 2).range_eq]
  rw [FinMap.entries_insert_insert hlt, FinMap.rekey, List.foldl_cons, List.foldl_cons, List.foldl_nil,
    normalizeAddress_normalizeAddress, withCode]
  congr 1
  ext1 k
  rw [FinMap.get?_insert, FinMap.get?_insert, FinMap.get?_insert]
  split <;> rfl

/-- Where roots and encodings determine their contents, another code is another root. -/
theorem code_of_stateTrieRoot (hinjective : Function.Injective (Platform.trieRoot : Trie → Bytes))
    (hrlp : ∀ (nonce balance : ℕ) (root h h' : Bytes), Platform.rlpAccount ⟨nonce, balance, root, h⟩ =
      Platform.rlpAccount ⟨nonce, balance, root, h'⟩ → h = h') {w : World} {address : String}
    (hhex : isHexAddress address = true) (hnormal : normalizeAddress address = address)
    {code code' : String}
    (h : equalFold (stateTrieRoot (w.withCode address code))
      (stateTrieRoot (w.withCode address code')) = true) :
    Platform.keccak256 (fromHex code) = Platform.keccak256 (fromHex code') := by
  have htries := hinjective (eq_of_equalFold_hexString h)
  have hmem : address ∈ sortedSnapshotAccounts (w.withCode address code) := by
    refine mem_sortedAddresses.mpr ⟨hhex, address, ?_, hnormal⟩
    simp only [List.mem_append]
    exact .inl (.inr (FinMap.mem_keys_insert.mpr (.inl rfl)))
  have haccounts : sortedSnapshotAccounts (w.withCode address code') =
      sortedSnapshotAccounts (w.withCode address code) := by
    rw [sortedSnapshotAccounts, sortedSnapshotAccounts]
    rfl
  rw [buildStateTrieFromSnapshot, buildStateTrieFromSnapshot, haccounts] at htries
  have heq := (Prod.mk.inj (List.map_inj_left.mp htries address hmem)).2
  have hcode := hrlp _ _ _ _ _ heq
  have hget : ∀ c, (w.withCode address c).code.get? address = some c :=
    fun c => FinMap.get?_insert_self _ _ _
  rwa [codeHashFromSnapshot, codeHashFromSnapshot, hnormal, hget, hget] at hcode

end World

/-- What `replayChain` accepts has the state root of executing it from the first snapshot. -/
theorem stateRoot_of_replayChain {cfg : Config} {ω : Choices} {n : RpcNode} (hchain : ChainOk n)
    {s : StateSnapshotRecord} (hs : n.stateSnapshots.get? 1 = some s) (hnormal : s.world.Normal)
    {before : List BlockRecord} {block : BlockRecord} (hblocks : n.blocks.tail = before ++ [block])
    (h : (n.replayChain cfg ω).1.isValid = true) :
    ∃ ω', equalFold block.stateRoot (stateTrieRoot
      (((s.world.replay cfg before).applyAll cfg block.transactions).copy ω')) = true := by
  have hnumbers := hchain.numbers
  cases hcons : n.blocks with
  | nil => exact absurd hcons hchain.ne_nil
  | cons first rest =>
      rw [hcons, List.map_cons, List.length_cons, List.range'_succ, List.cons.injEq] at hnumbers
      rw [hcons, List.tail_cons] at hblocks
      rw [RpcNode.replayChain, hcons] at h
      dsimp only at h
      rw [RpcNode.replayFromGenesis] at h
      dsimp only at h
      rw [hnumbers.1, hs] at h
      dsimp only at h
      split at h
      · cases h
      · rw [hblocks] at h
        obtain ⟨ω', hroot⟩ := RpcNode.stateRoot_of_replayBlocks h
        refine ⟨ω', ?_⟩
        rw [← hnormal.copy_eq ((ω.call 1).call 0)]
        exact hroot

section Repeated
variable {n : RpcNode} {ω ω' : Choices} {w : World} {s : StateSnapshotRecord}

/-- A second creation at an address whose first code has been copied: the recorded root has the
first code, the replayed one the second. -/
theorem not_replayChain_of_repeated
    (hinjective : Function.Injective (Platform.trieRoot : Trie → Bytes))
    (hrlp : ∀ (nonce balance : ℕ) (root h h' : Bytes), Platform.rlpAccount ⟨nonce, balance, root, h⟩ =
      Platform.rlpAccount ⟨nonce, balance, root, h'⟩ → h = h')
    (hkeccak : Platform.keccak256 [1] ≠ Platform.keccak256 [2])
    (hhex : isHexAddress (normalizeAddress (contractAddress "" "0x0")) = true)
    (hlt : contractAddress "" "0x0" < normalizeAddress (contractAddress "" "0x0"))
    (hω : ω.InKeyOrder) (hchain : ChainOk n) (hheight : n.height = 2) (hempty : n.pendingTxs = [])
    (hw : w.Normal) (hworld : n.world = w.withCode (normalizeAddress (contractAddress "" "0x0")) "0x01")
    (hs : n.stateSnapshots.get? 1 = some s) (hnormal : s.world.Normal)
    (hreplay : s.world.replay {} n.blocks.tail = w.withCode (contractAddress "" "0x0") "0x01") :
    ((n.next {} ω (.sendRawTransaction "0x02")).replayChain {} ω').1.isValid = false := by
  obtain ⟨tx, htx⟩ : ∃ tx, tx = RpcNode.txOfRaw (ω.call 0) "0x02" := ⟨_, rfl⟩
  obtain ⟨queued, hqueued⟩ : ∃ q : RpcNode, q = { n with pendingTxs := [tx] } := ⟨_, rfl⟩
  have hnext : n.next {} ω (.sendRawTransaction "0x02") =
      (queued.minePendingBlock {} (ω.call 1)).2 := by
    show RpcNode.enqueue n {} (ω.call 1) _ = _
    rw [RpcNode.enqueue, hempty, ← htx, hqueued]
    rfl
  have hqchain : ChainOk queued := hqueued ▸ hchain.of_eq rfl rfl rfl rfl rfl
  have hqheight : queued.height = 2 := by rw [hqueued]; exact hheight
  have hqworld : queued.world = n.world := by rw [hqueued]
  have hqblocks : queued.blocks = n.blocks := by rw [hqueued]
  have hqpending : queued.pendingTxs = [tx] := by rw [hqueued]
  have hqsnapshots : queued.stateSnapshots = n.stateSnapshots := by rw [hqueued]
  obtain ⟨hlen, hchain', -⟩ := mined_of_height_lt hqchain (by rw [hqheight]; decide) {} (ω.call 1)
  have happ := minePendingBlock_appended hqchain hlen
  obtain ⟨s', ω₁, hsnapshots, -⟩ := happ.stateSnapshots
  obtain ⟨block, l, heq, -, -, -, -, hstate, -, -, -, htxs⟩ := queued.minePendingBlock_eq {} (ω.call 1)
  have hblocks : (queued.minePendingBlock {} (ω.call 1)).2.blocks.tail = n.blocks.tail ++ [block] := by
    have hsame : SameBlocks { queued with pendingTxs := [] } (queued.minePendingTxs {} (ω.call 1)).2.2 :=
      RpcNode.mineTxs_sameBlocks queued.pendingTxs
    rw [heq]
    show ((queued.minePendingTxs {} (ω.call 1)).2.2.blocks ++ [block]).tail = _
    rw [hsame.blocks]
    show (queued.blocks ++ [block]).tail = _
    rw [hqblocks, List.tail_append_of_ne_nil hchain.ne_nil]
  have hmined : (queued.minePendingTxs {} (ω.call 1)).1 = [RpcNode.minedTx tx
      (queued.nextBlockHash ((ω.call 1).call 0)) (u64 (queued.height + 1)) 0] := by
    refine (RpcNode.mineTxs_mined queued.pendingTxs).trans ?_
    rw [hqpending]
    rfl
  have hrecorded : block.stateRoot =
      stateTrieRoot (w.withCode (normalizeAddress (contractAddress "" "0x0")) "0x01") := by
    have hlive : (queued.minePendingTxs {} (ω.call 1)).2.2.world =
        w.withCodes (contractAddress "" "0x0") "0x01" "0x02" := by
      refine (RpcNode.mineTxs_world queued.pendingTxs).trans ?_
      rw [hqpending, List.foldl_cons, List.foldl_nil, htx, World.apply_txOfRaw]
      show World.mk queued.world.balances _ _ _ = _
      rw [hqworld, hworld]
      rfl
    rw [hstate, hlive, World.copy_of_two hw hlt _ _ (((((hω.call 1).call 2).call 1).call 0))]
  rw [hnext, Bool.eq_false_iff]
  intro hvalid
  obtain ⟨ω₂, hroot⟩ := stateRoot_of_replayChain hchain' (s := s) (by
    rw [hsnapshots, FinMap.get?_insert_of_ne _ _ (by omega), hqsnapshots, hs]) hnormal hblocks hvalid
  have hreplayed : (w.withCode (contractAddress "" "0x0") "0x01").applyAll {} block.transactions =
      w.withCode (contractAddress "" "0x0") "0x02" := by
    rw [htxs, hmined, World.applyAll, List.foldl_cons, List.foldl_nil]
    show World.apply _ _ tx = _
    rw [htx, World.apply_txOfRaw, World.withCode, World.withCode]
    congr 1
    ext1 k
    rw [FinMap.get?_insert, FinMap.get?_insert, FinMap.get?_insert]
    split <;> rfl
  rw [hrecorded, hreplay, hreplayed, World.copy_withCode hw] at hroot
  have hcode := World.code_of_stateTrieRoot hinjective hrlp hhex
    (normalizeAddress_normalizeAddress _) hroot
  exact hkeccak hcode

/-- A fresh node after one raw transaction. -/
theorem fresh_creation {fresh : RpcNode} (hfresh : fresh = newRPCNode {} ω {}) (rawTx : String)
    (hn : n = fresh.next {} ω (.sendRawTransaction rawTx)) :
    n.height = 2 ∧ n.pendingTxs = [] ∧
      n.world = (freshWorld {}).withCode (contractAddress "" "0x0") rawTx ∧
      (freshWorld {}).replay {} n.blocks.tail =
        (freshWorld {}).withCode (contractAddress "" "0x0") rawTx ∧
      ∃ block ∈ n.blocks, ∃ hash number, block.transactions =
        [RpcNode.minedTx (RpcNode.txOfRaw (ω.call 0) rawTx) hash number 0] := by
  have hchain : ChainOk fresh := hfresh ▸ chainOk_fresh {} ω
  obtain ⟨ω₁, l, timestamp, heq, -⟩ := newRPCNode_fresh {} ω
  rw [heq] at hfresh
  obtain ⟨tx, htx⟩ : ∃ tx, tx = RpcNode.txOfRaw (ω.call 0) rawTx := ⟨_, rfl⟩
  obtain ⟨queued, hqueued⟩ : ∃ q : RpcNode, q =
      { fresh with pendingTxs := fresh.pendingTxs ++ [tx] } := ⟨_, rfl⟩
  have hnext : n = (queued.minePendingBlock {} (ω.call 1)).2 := by
    rw [hn, hqueued, htx]
    rfl
  have hqchain : ChainOk queued := hqueued ▸ hchain.of_eq rfl rfl rfl rfl rfl
  rw [hfresh] at hqueued
  have hqheight : queued.height = 1 := by rw [hqueued]
  have hqpending : queued.pendingTxs = [tx] := by rw [hqueued]; rfl
  have hqworld : queued.world = freshWorld {} := by rw [hqueued]
  have hqblocks : queued.blocks = [freshGenesis ω] := by rw [hqueued]
  have hcreated : (freshWorld {}).applyAll {} [tx] =
      (freshWorld {}).withCode (contractAddress "" "0x0") rawTx := by
    have hcode : (freshWorld {}).code = ∅ := rfl
    rw [World.applyAll, List.foldl_cons, List.foldl_nil, htx, World.apply_txOfRaw, hcode]
    rfl
  obtain ⟨-, -, hheight⟩ := mined_of_height_lt hqchain (by rw [hqheight]; decide) {} (ω.call 1)
  obtain ⟨block, -, hblocks, htxs, -⟩ := queued.minePendingBlock_chain {} (ω.call 1)
  rw [hnext]
  refine ⟨?_, RpcNode.minePendingBlock_pendingTxs _ _ _, ?_, ?_, block, ?_,
    queued.nextBlockHash ((ω.call 1).call 0), u64 (queued.height + 1), ?_⟩
  · rw [hheight, hqheight]
  · rw [RpcNode.minePendingBlock_world, hqworld, hqpending]
    exact hcreated
  · rw [hblocks, hqblocks]
    show World.applyAll {} (freshWorld {}) block.transactions = _
    rw [htxs, World.applyAll_mapIdx_minedTx, hqpending]
    exact hcreated
  · rw [hblocks]
    exact List.mem_append_right _ List.mem_cons_self
  · rw [htxs, hqpending, htx]
    rfl

/-- Two creations with a replay between them, on a machine that ranges in key order. -/
theorem replayChain_breaks
    (hinjective : Function.Injective (Platform.trieRoot : Trie → Bytes))
    (hrlp : ∀ (nonce balance : ℕ) (root h h' : Bytes), Platform.rlpAccount ⟨nonce, balance, root, h⟩ =
      Platform.rlpAccount ⟨nonce, balance, root, h'⟩ → h = h')
    (hkeccak : Platform.keccak256 [1] ≠ Platform.keccak256 [2])
    (hhex : isHexAddress (normalizeAddress (contractAddress "" "0x0")) = true)
    (hlt : contractAddress "" "0x0" < normalizeAddress (contractAddress "" "0x0"))
    (hω : ω.InKeyOrder) :
    let n₁ := (newRPCNode {} ω {}).next {} ω (.sendRawTransaction "0x01")
    let n₂ := n₁.next {} ω .replayChain
    let n₃ := n₂.next {} ω (.sendRawTransaction "0x02")
    Reachable {} n₃ ∧ (n₃.replayChain {} ω).1.isValid = false := by
  intro n₁ n₂ n₃
  have hreach : ReachableBy {} (HonestStep {}) n₁ := (honest_sendRaw rfl "0x01").1
  have hfresh := fresh_creation rfl "0x01" (n := n₁) rfl
  have hn₂ : n₂ = (n₁.replayChain {} ω).2 := rfl
  have hn₃ : n₃ = n₂.next {} ω (.sendRawTransaction "0x02") := rfl
  clear_value n₁ n₂ n₃
  obtain ⟨hchain, -, hspell, -, hreplayOk⟩ := hreach.replayOk
  obtain ⟨hheight, hpending, hworld, hreplay, -⟩ := hfresh
  obtain ⟨s, hs, hgenesis⟩ := hreplayOk.snapshot
  obtain ⟨ω₁, ω₂, disk, hcopied⟩ := n₁.replayChain_recopied hchain.ne_nil {} ω
  rw [hcopied] at hn₂
  have hnormal := freshWorld_normal {}
  have hchain₂ : ChainOk n₂ := hn₂ ▸ hchain.recopied ω₁ ω₂ disk
  have hheight₂ : n₂.height = 2 := by rw [hn₂]; exact hheight
  have hworld₂ : n₂.world = (freshWorld {}).withCode (normalizeAddress (contractAddress "" "0x0")) "0x01" := by
    rw [hn₂]
    show (n₁.world.copy ω₁).copy ω₂ = _
    rw [hworld, World.copy_withCode hnormal, World.copy_withCode hnormal,
      normalizeAddress_normalizeAddress]
  have hlen₂ : n₂.blocks.length < 2 ^ 63 := by
    rw [hchain₂.length, hheight₂]
    decide
  have hreach₂ : Reachable {} n₂ := by
    obtain ⟨ω₀, hrun⟩ := hreach.reachable
    refine ⟨ω₀, hrun.tail ⟨ω, .replayChain, trivial, ?_, hlen₂⟩⟩
    rw [hn₂, ← hcopied]
    rfl
  rw [hn₃]
  refine ⟨hreach₂.next trivial ?_, ?_⟩
  · have hqchain : ChainOk { n₂ with pendingTxs := n₂.pendingTxs ++
        [RpcNode.txOfRaw (ω.call 0) "0x02"] } := hchain₂.of_eq rfl rfl rfl rfl rfl
    have hlt₂ : n₂.height + 1 < 2 ^ 63 := by
      rw [hheight₂]
      decide
    exact (mined_of_height_lt hqchain hlt₂ {} (ω.call 1)).1
  · refine not_replayChain_of_repeated hinjective hrlp hkeccak hhex hlt hω hchain₂ hheight₂ ?_ hnormal
      hworld₂ (s := s) ?_ (hgenesis ▸ hnormal) ?_
    · rw [hn₂]; exact hpending
    · rw [hn₂]; exact hs
    · rw [hn₂, hgenesis]; exact hreplay

end Repeated

omit [Platform] in
/-- The first address that the empty sender creates has letters in upper case. -/
theorem checksums_contractAddress :
    letI := Platform.checksums
    isHexAddress (normalizeAddress (contractAddress "" "0x0")) = true ∧
      contractAddress "" "0x0" < normalizeAddress (contractAddress "" "0x0") := by
  decide +kernel

omit [Platform] in
/-- **A chain that does not replay.** The node creates a contract, replays its chain, and
creates again at the same address; the next replay computes another state root. -/
theorem replayChain_fails :
    letI := Platform.checksums
    let n₁ := (newRPCNode {} default {}).next {} default (.sendRawTransaction "0x01")
    let n₂ := n₁.next {} default .replayChain
    let n₃ := n₂.next {} default (.sendRawTransaction "0x02")
    Function.Injective (Platform.trieRoot : Trie → Bytes) ∧ Reachable {} n₃ ∧
      (n₃.replayChain {} default).1.isValid = false := by
  refine ⟨listUpdates_injective, ?_⟩
  obtain ⟨hhex, hlt⟩ := checksums_contractAddress
  refine @replayChain_breaks Platform.checksums default listUpdates_injective ?_ ?_ hhex hlt
    fun _ _ => rfl
  · intro nonce balance root h h' heq
    exact List.append_cancel_left heq
  · decide

end BhtBhte.Node
