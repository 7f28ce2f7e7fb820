import BhtBhte.Node.Replayable
import BhtBhte.Node.ForkChoice
import BhtBhte.Node.Keys

/-!
# The two block validators

`validateBlockRecord` executes a block on the snapshot of its parent, `validatePeerBlock` and
`importPeerBlock` execute it on the live accounts.  Where addresses are spelled alike the two
executions have the same roots.  A peer's block is also hashed as it was sent, before anything
is executed: its transactions may lack their place in the block, and an absent list is hashed as
a null, so a block can have the root of its mined transactions and still be refused.
-/
namespace BhtBhte.Node
open BhtBhte.Lib
variable [Platform]

/-! ## One block on two spellings of the accounts -/

namespace World
variable {w w' : World}

theorem OnlySpelling.insert {V : Type} {m : FinMap String V} {a b : String}
    (h : OnlySpelling m a) (hb : normalizeAddress b = normalizeAddress a → b = a) (v : V) :
    OnlySpelling (m.insert b v) a := by
  intro k hk heq
  rcases FinMap.mem_keys_insert.mp hk with rfl | hk
  · exact hb heq
  · exact h k hk heq

/-- A write under the only spelling of its address keeps two maps in agreement. -/
theorem agree_insert {V : Type} {m m' : FinMap String V} (h : m.Agree normalizeAddress m')
    {a : String} (ha : OnlySpelling m a) (ha' : OnlySpelling m' a) (v : V) :
    (m.insert a v).Agree normalizeAddress (m'.insert a v) :=
  h.insert (fun k u hk heq => .inl (ha k (FinMap.mem_keys.mpr ⟨u, hk⟩) heq))
    fun k u hk heq => .inl (ha' k (FinMap.mem_keys.mpr ⟨u, hk⟩) heq)

theorem Agree.balance (h : w.Agree w') {a : String} (ha : OnlySpelling w.balances a)
    (ha' : OnlySpelling w'.balances a) : w.balance a = w'.balance a := by
  rw [World.balance, World.balance, h.balances.get?_eq ha ha']

theorem Agree.debit (h : w.Agree w') {a : String} (ha : OnlySpelling w.balances a)
    (ha' : OnlySpelling w'.balances a) (v : ℤ) : (w.debit a v).Agree (w'.debit a v) := by
  rw [World.debit, World.debit, h.balance ha ha']
  split
  · exact ⟨agree_insert h.balances ha ha' _, h.nonces, h.code, h.storage⟩
  · exact h

theorem Agree.credit (h : w.Agree w') {a : String} (ha : OnlySpelling w.balances a)
    (ha' : OnlySpelling w'.balances a) (v : ℤ) : (w.credit a v).Agree (w'.credit a v) := by
  rw [World.credit, World.credit, h.balance ha ha']
  exact ⟨agree_insert h.balances ha ha' _, h.nonces, h.code, h.storage⟩

theorem Agree.bumpNonce (h : w.Agree w') {a : String} (ha : OnlySpelling w.nonces a)
    (ha' : OnlySpelling w'.nonces a) : (w.bumpNonce a).Agree (w'.bumpNonce a) := by
  rw [World.bumpNonce, World.bumpNonce, h.nonces.get?_eq ha ha']
  exact ⟨h.balances, agree_insert h.nonces ha ha' _, h.code, h.storage⟩

/-- After the debit the recipient is still the only spelling of its address. -/
theorem BalancesAlike.debit {tx : TxRecord} (h : w.BalancesAlike tx) (v : ℤ) :
    OnlySpelling (w.debit tx.sender v).balances tx.recipient := by
  rw [World.debit]
  split
  · exact h.recipient.insert h.ends _
  · exact h.recipient

theorem Agree.transfer (h : w.Agree w') {tx : TxRecord} (htx : w.SpelledAlike tx)
    (htx' : w'.SpelledAlike tx) : (w.transfer tx).Agree (w'.transfer tx) := by
  rw [World.transfer, World.transfer]
  split
  · next hne =>
      have halike := htx.balances hne.1 hne.2
      have halike' := htx'.balances hne.1 hne.2
      have hdebit := h.debit halike.sender halike'.sender (parseQuantity tx.value)
      have hcredit := hdebit.credit (halike.debit _) (halike'.debit _) (parseQuantity tx.value)
      refine hcredit.bumpNonce ?_ ?_
      · show OnlySpelling (w.debit _ _).nonces tx.sender
        rw [(w.debit_frame _ _).1]
        exact htx.nonces hne.1 hne.2
      · show OnlySpelling (w'.debit _ _).nonces tx.sender
        rw [(w'.debit_frame _ _).1]
        exact htx'.nonces hne.1 hne.2
  · exact h

theorem Agree.execute (h : w.Agree w') {tx : TxRecord}
    (hcode : w.CreationAlike tx) (hcode' : w'.CreationAlike tx)
    (hstorage : tx.recipient ≠ "" → OnlySpelling w.storage tx.recipient)
    (hstorage' : tx.recipient ≠ "" → OnlySpelling w'.storage tx.recipient)
    (bridgeAddress : String) :
    (w.execute bridgeAddress tx).Agree (w'.execute bridgeAddress tx) := by
  rw [World.execute, World.execute]
  split
  · next hempty =>
      exact ⟨h.balances, h.nonces, h.code.insert (hcode hempty) (hcode' hempty), h.storage⟩
  · next hne =>
      split
      · exact h
      · split
        · rw [executeSimpleStorageCall, executeSimpleStorageCall,
            h.storage.get?_eq (hstorage hne) (hstorage' hne)]
          split
          · exact h
          · exact ⟨h.balances, h.nonces, h.code,
              agree_insert h.storage (hstorage hne) (hstorage' hne) _⟩
        · exact h

/-- **One transaction.** Accounts that agree still do after a transaction that is spelled alike
on both. -/
theorem Agree.apply_alike (h : w.Agree w') {tx : TxRecord} (htx : w.SpelledAlike tx)
    (htx' : w'.SpelledAlike tx) (bridgeAddress : String) :
    (w.apply bridgeAddress tx).Agree (w'.apply bridgeAddress tx) := by
  obtain ⟨hcode, hstorage⟩ := w.transfer_frame tx
  obtain ⟨hcode', hstorage'⟩ := w'.transfer_frame tx
  refine (h.transfer htx htx').execute ?_ ?_ ?_ ?_ bridgeAddress
  · rw [CreationAlike, hcode]
    exact htx.code
  · rw [CreationAlike, hcode']
    exact htx'.code
  · rw [hstorage]
    exact htx.storage
  · rw [hstorage']
    exact htx'.storage

/-- **One block.** Executing a block that is spelled alike on accounts that agree gives the same
copies. -/
theorem copy_applyAll_eq {cfg : Config} {txs : List TxRecord} (h : w.Agree w')
    (hw : w.WellSpelled) (hw' : w'.WellSpelled) (htxs : AllSpelledAlike cfg.bridgeAddress w txs)
    (htxs' : AllSpelledAlike cfg.bridgeAddress w' txs) (ω ω' : Choices) :
    (w.applyAll cfg txs).copy ω = (w'.applyAll cfg txs).copy ω' := by
  have hagree : (w.applyAll cfg txs).Agree (w'.applyAll cfg txs) := by
    clear hw hw'
    induction txs generalizing w w' with
    | nil => exact h
    | cons tx txs ih => exact ih (h.apply_alike htxs.1 htxs'.1 _) htxs.2 htxs'.2
  exact copy_eq_of_agree (hw.foldl htxs) (hw'.foldl htxs') hagree ω ω'

end World

/-! ## What each validator checks -/

/-- The block has its hashes and names the head as its parent. -/
structure Linked (n : RpcNode) (block : BlockRecord) : Prop where
  hash : ¬ (block.hash = "" ∨ block.hash = zeroHash)
  stateRoot : ¬ (block.stateRoot = "" ∨ block.stateRoot = zeroHash)
  receiptRoot : block.receiptRoot ≠ ""
  parent : equalFold block.parentHash n.lastBlock.hash = true

/-- The block has the roots of executing its transactions on these accounts; `ω` is the order in
which the accounts are copied for the state root. -/
structure RootsOf (cfg : Config) (w : World) (ω : Choices) (block : BlockRecord) : Prop where
  state : equalFold block.stateRoot
    (stateTrieRoot ((w.applyAll cfg block.transactions).copy ω)) = true
  txs : RpcNode.rootMatches block.txRoot (hashTxs (block.transactions.mapIdx fun i tx =>
    RpcNode.minedTx tx block.hash (quantity64 block.number) (0 + i))) = true
  receipts : RpcNode.rootMatches block.receiptRoot
    (consensusRoot (block.transactions.map (consensusReceipt cfg))) = true
  bloom : RpcNode.bloomMatches block.logsBloom
    (consensusBloom (block.transactions.map (consensusReceipt cfg))) = true

/-- The block has no transaction root, or the hash of its transactions as they were sent. -/
def CommitsAsSent (block : PeerBlock) : Prop :=
  RpcNode.rootMatches block.record.txRoot
    (hashHex (utf8 (nilTxsJson block.nilTransactions block.record.transactions))) = true

section Checks
variable {cfg : Config} {ω : Choices} {n : RpcNode}

theorem rootMismatch_eq_none_iff {block : BlockRecord} {computed : BlockRoots} :
    rootMismatch block computed = none ↔
      equalFold block.stateRoot computed.stateRoot = true ∧
      RpcNode.rootMatches block.txRoot computed.txRoot = true ∧
      RpcNode.rootMatches block.receiptRoot computed.receiptRoot = true ∧
      RpcNode.bloomMatches block.logsBloom computed.logsBloom = true := by
  rw [rootMismatch]
  split_ifs <;> simp_all

/-- The roots of a replay are those of executing the block on the accounts. -/
theorem rootMismatch_replayBlock_iff {block : BlockRecord} :
    rootMismatch block (n.replayBlock cfg ω block (quantity64 block.number)).1 = none ↔
      RootsOf cfg n.world ((ω.call 1).call 0) block := by
  rw [rootMismatch_eq_none_iff, RpcNode.replayBlock]
  dsimp only
  rw [RpcNode.applyTxs_mined, receiptTrieRoot_eq, blockLogsBloomHex_eq, RpcNode.applyTxs_receipts,
    RpcNode.currentStateSnapshot, RpcNode.applyTxs_world]
  exact ⟨fun h => ⟨h.1, h.2.1, h.2.2.1, h.2.2.2⟩, fun h => ⟨h.state, h.txs, h.receipts, h.bloom⟩⟩

/-- So are the roots that a peer's block is compared with. -/
theorem rootsMatch_applyPeerBlock_iff {block : BlockRecord} {ω' : Choices} :
    RpcNode.RootsMatch block (n.applyPeerBlock cfg ω block) ω' ↔ RootsOf cfg n.world ω' block := by
  have hmined : (n.applyPeerBlock cfg ω block).1 = block.transactions.mapIdx fun i tx =>
      RpcNode.minedTx tx block.hash (quantity64 block.number) (0 + i) :=
    RpcNode.applyTxs_mined block.transactions
  have hreceipts : (n.applyPeerBlock cfg ω block).2.1.map (·.toGethReceipt) =
      block.transactions.map (consensusReceipt cfg) := RpcNode.applyTxs_receipts block.transactions
  have hworld := n.applyPeerBlock_world cfg ω block
  constructor
  · intro h
    refine ⟨?_, hmined ▸ h.txs, ?_, ?_⟩
    · rw [World.applyAll, ← hworld]
      exact h.state
    · rw [← hreceipts, ← receiptTrieRoot_eq]
      exact h.receipts
    · rw [← hreceipts, ← blockLogsBloomHex_eq]
      exact h.bloom
  · intro h
    refine ⟨?_, hmined.symm ▸ h.txs, ?_, ?_⟩
    · rw [hworld]
      exact h.state
    · rw [receiptTrieRoot_eq, hreceipts]
      exact h.receipts
    · rw [blockLogsBloomHex_eq, hreceipts]
      exact h.bloom

/-- The candidate validator accepts a block that is linked to the head and has the roots of
executing it on a copy of the head's snapshot. -/
theorem validateBlockRecord_isValid_iff (hchain : ChainOk n) {s : StateSnapshotRecord}
    (hs : n.stateSnapshots.get? n.height = some s) {block : BlockRecord}
    (hnumber : quantity64 block.number = n.height + 1) :
    (n.validateBlockRecord cfg ω block).1.isValid = true ↔
      Linked n block ∧
        RootsOf cfg (s.world.copy (ω.call 1)) (((ω.call 2).call 1).call 0) block := by
  have hpos := hchain.pos
  have hcanonical : (n.canonical.get? n.height).getD "" = n.lastBlock.hash := by
    rw [hchain.canonical, hchain.blockAt_height]
    rfl
  have hparent : n.lastBlock.hash ≠ "" :=
    hchain.hashes _ (ChainOk.mem_of_blockAt hchain.blockAt_height)
  obtain ⟨s', hs', hof⟩ := hchain.snapshot _ _ hchain.blockAt_height
  have hcomplete : s.complete = true := by
    rw [hs] at hs'
    cases hs'
    exact hof.1
  have hreplay : (n.replayBlockForValidation cfg ω block).1 =
      .ok (RpcNode.replayBlock { { n with height := n.height }.restoreStateSnapshot (ω.call 1) s with
        replayMode := true } cfg (ω.call 2) block (quantity64 block.number)).1 := by
    rw [RpcNode.replayBlockForValidation]
    dsimp only
    rw [hnumber, Nat.add_sub_cancel, hs, Option.filter_some, if_pos hcomplete]
  have hroots := @rootMismatch_replayBlock_iff _ cfg (ω.call 2)
    { { n with height := n.height }.restoreStateSnapshot (ω.call 1) s with replayMode := true } block
  rw [RpcNode.validateBlockRecord, hnumber, Nat.add_sub_cancel, hcanonical]
  dsimp only
  rw [hreplay, if_neg (by omega)]
  by_cases hhash : block.hash = "" ∨ block.hash = zeroHash
  · rw [if_pos hhash]
    exact iff_of_false Bool.false_ne_true fun h => absurd hhash h.1.hash
  rw [if_neg hhash]
  by_cases hstate : block.stateRoot = "" ∨ block.stateRoot = zeroHash
  · rw [if_pos hstate]
    exact iff_of_false Bool.false_ne_true fun h => absurd hstate h.1.stateRoot
  rw [if_neg hstate]
  by_cases hreceipt : block.receiptRoot = ""
  · rw [if_pos hreceipt]
    exact iff_of_false Bool.false_ne_true fun h => absurd hreceipt h.1.receiptRoot
  rw [if_neg hreceipt, if_neg (by omega), if_neg hparent]
  by_cases hfold : equalFold block.parentHash n.lastBlock.hash = true
  · rw [if_neg (not_not_intro hfold)]
    refine Iff.trans ?_ (hroots.trans (and_iff_right ⟨hhash, hstate, hreceipt, hfold⟩).symm)
    rw [hnumber]
    dsimp only
    split
    · next heq =>
        rw [heq]
        exact iff_of_false Bool.false_ne_true (by simp)
    · next heq => exact iff_of_true rfl heq
  · rw [if_pos hfold]
    exact iff_of_false Bool.false_ne_true fun h => absurd h.1.parent hfold

/-- A peer's block for the next height passes when it is linked to the head and commits to its
transactions as sent. -/
theorem validatePeerBlock_ok_iff (hchain : ChainOk n) {block : PeerBlock}
    (hnumber : quantity64 block.record.number = n.height + 1) :
    n.validatePeerBlock block (n.height + 1) = .ok () ↔
      Linked n block.record ∧ CommitsAsSent block := by
  have hpos := hchain.pos
  have hbound := hchain.bound
  have hnew : (n.canonical.get? (n.height + 1)).getD "" = "" :=
    (hchain.canonical_eq_empty_iff _).mpr (by omega)
  have hparent : n.lastBlock.hash ≠ "" :=
    hchain.hashes _ (ChainOk.mem_of_blockAt hchain.blockAt_height)
  have hcanonical : (n.canonical.get? (u64 ((n.height + 1 : ℕ) - 1))).getD "" =
      n.lastBlock.hash := by
    rw [show ((n.height + 1 : ℕ) : ℤ) - 1 = (n.height : ℤ) by omega, u64_of_lt (by omega),
      hchain.canonical, hchain.blockAt_height]
    rfl
  rw [RpcNode.validatePeerBlock, hcanonical, hnew]
  by_cases hhash : block.record.hash = "" ∨ block.record.hash = zeroHash
  · rw [if_pos hhash]
    exact iff_of_false (by simp) fun h => absurd hhash h.1.hash
  rw [if_neg hhash]
  by_cases hstate : block.record.stateRoot = "" ∨ block.record.stateRoot = zeroHash
  · rw [if_pos hstate]
    exact iff_of_false (by simp) fun h => absurd hstate h.1.stateRoot
  rw [if_neg hstate]
  by_cases hreceipt : block.record.receiptRoot = ""
  · rw [if_pos hreceipt]
    exact iff_of_false (by simp) fun h => absurd hreceipt h.1.receiptRoot
  rw [if_neg hreceipt, if_neg (not_not_intro hnumber), if_neg (fun hold => hold.1 rfl),
    if_neg hparent]
  by_cases hfold : equalFold block.record.parentHash n.lastBlock.hash = true
  · rw [if_neg (fun h => h.2 hfold)]
    refine Iff.trans ?_ (and_iff_right ⟨hhash, hstate, hreceipt, hfold⟩).symm
    rw [CommitsAsSent]
    split
    · next hroot => exact iff_of_false (by simp) hroot
    · next hroot => exact iff_of_true rfl (not_not.mp hroot)
  · rw [if_pos ⟨by omega, hfold⟩]
    exact iff_of_false (by simp) fun h => absurd h.1.parent hfold

/-- A replay that does not fail has matching roots. -/
theorem rootsMatch_of_replayPeerBlock {block : BlockRecord}
    {r : List TxRecord × List ReceiptRecord} (h : (n.replayPeerBlock cfg ω block).1 = .ok r) :
    RpcNode.RootsMatch block (n.applyPeerBlock cfg (ω.call 1) block) ((ω.call 2).call 0) := by
  rw [RpcNode.replayPeerBlock] at h
  dsimp only at h
  split at h
  · cases h
  · next hstate =>
      split at h
      · cases h
      · next htxs =>
          split at h
          · cases h
          · next hreceipts =>
              split at h
              · cases h
              · next hbloom =>
                  exact ⟨not_not.mp hstate, not_not.mp htxs, not_not.mp hreceipts,
                    not_not.mp hbloom⟩

/-- For a new height the import accepts a block with the roots of executing it on the live
accounts. -/
theorem importPeerBlock_isOk_iff {block : BlockRecord}
    (hnew : (n.canonical.get? (quantity64 block.number)).getD "" = "") :
    (n.importPeerBlock cfg ω block).1.isOk = true ↔
      RootsOf cfg n.world (((ω.call 0).call 2).call 0) block := by
  rw [← @rootsMatch_applyPeerBlock_iff _ cfg ((ω.call 0).call 1) n]
  constructor
  · intro hok
    rw [RpcNode.importPeerBlock] at hok
    dsimp only at hok
    rw [if_neg fun hold => hold.1 hnew] at hok
    split at hok
    · cases hok
    · next heq => exact rootsMatch_of_replayPeerBlock heq
  · intro h
    obtain ⟨l, heq⟩ := RpcNode.importPeerBlock_of_match hnew h
    rw [heq]
    rfl

/-- A peer's block for the next height is accepted when it is linked to the head, commits to its
transactions as sent and has the roots of executing it on the live accounts. -/
theorem syncBlock_isOk_iff (hchain : ChainOk n) {block : PeerBlock}
    (hnumber : quantity64 block.record.number = n.height + 1) :
    (n.syncBlock cfg ω (n.height + 1) block).1.isOk = true ↔
      (Linked n block.record ∧ CommitsAsSent block) ∧
        RootsOf cfg n.world (((ω.call 0).call 2).call 0) block.record := by
  have hnew : (n.canonical.get? (quantity64 block.record.number)).getD "" = "" := by
    rw [hnumber]
    exact (hchain.canonical_eq_empty_iff _).mpr (by omega)
  rw [← validatePeerBlock_ok_iff hchain hnumber, ← importPeerBlock_isOk_iff hnew,
    RpcNode.syncBlock]
  cases hvalid : n.validatePeerBlock block (n.height + 1) with
  | error e => exact iff_of_false Bool.false_ne_true (by simp)
  | ok u => exact (and_iff_right rfl).symm

end Checks

/-! ## Agreement -/

/-- The head's snapshot. -/
theorem ChainOk.head_snapshot {n : RpcNode} (h : ChainOk n) :
    ∃ s, n.stateSnapshots.get? n.height = some s := by
  obtain ⟨s, hs, -⟩ := h.snapshot _ _ h.blockAt_height
  exact ⟨s, hs⟩

/-- The roots do not depend on the order of the copy when accounts that agree have equal ones. -/
theorem RootsOf.congr {cfg : Config} {w w' : World} {ω ω' : Choices} {block : BlockRecord}
    (hcopy : (w.applyAll cfg block.transactions).copy ω =
      (w'.applyAll cfg block.transactions).copy ω') (h : RootsOf cfg w ω block) :
    RootsOf cfg w' ω' block :=
  ⟨hcopy ▸ h.state, h.txs, h.receipts, h.bloom⟩

/-- **The two validators.** On a block for the next height whose addresses are spelled alike when it
is executed, they agree exactly when a block that is linked to the head and has the roots of
executing it commits to its transactions as sent. -/
theorem validators_agree_iff {cfg : Config} {n : RpcNode} (h : ReachableBy cfg (AlikeStep cfg) n)
    {block : PeerBlock} (hnumber : quantity64 block.record.number = n.height + 1)
    (hlive : Linked n block.record →
      AllSpelledAlike cfg.bridgeAddress n.world block.record.transactions)
    (hsnapshot : Linked n block.record → ∀ s, n.stateSnapshots.get? n.height = some s →
      AllSpelledAlike cfg.bridgeAddress s.world block.record.transactions) :
    (∀ ω ω', (n.validateBlockRecord cfg ω block.record).1.isValid = true ↔
      (n.syncBlock cfg ω' (n.height + 1) block).1.isOk = true) ↔
    (Linked n block.record → RootsOf cfg n.world default block.record → CommitsAsSent block) := by
  obtain ⟨hchain, -, hspell⟩ := h.spellOk fun _ _ _ => id
  obtain ⟨s, hs⟩ := hchain.head_snapshot
  have hnormal := hspell.snapshots _ _ hs
  have hlivecopy : Linked n block.record → ∀ ω ω' : Choices,
      (n.world.applyAll cfg block.record.transactions).copy ω =
        (n.world.applyAll cfg block.record.transactions).copy ω' := fun hlinked ω ω' =>
    World.copy_applyAll_eq (.refl _) hspell.world hspell.world (hlive hlinked) (hlive hlinked) ω ω'
  have hcopy : Linked n block.record → ∀ ω ω' : Choices,
      (n.world.applyAll cfg block.record.transactions).copy ω =
        (s.world.applyAll cfg block.record.transactions).copy ω' := fun hlinked ω ω' =>
    World.copy_applyAll_eq (hspell.head s hs) hspell.world hnormal.wellSpelled (hlive hlinked)
      (hsnapshot hlinked s hs) ω ω'
  have hvalidate : ∀ ω, (n.validateBlockRecord cfg ω block.record).1.isValid = true ↔
      Linked n block.record ∧ RootsOf cfg n.world default block.record := by
    intro ω
    rw [validateBlockRecord_isValid_iff hchain hs hnumber, hnormal.copy_eq]
    exact and_congr_right fun hlinked =>
      ⟨.congr (hcopy hlinked _ _).symm, .congr (hcopy hlinked _ _)⟩
  have hsync : ∀ ω, (n.syncBlock cfg ω (n.height + 1) block).1.isOk = true ↔
      (Linked n block.record ∧ CommitsAsSent block) ∧
        RootsOf cfg n.world default block.record := by
    intro ω
    rw [syncBlock_isOk_iff hchain hnumber]
    exact and_congr_right fun hlinked =>
      ⟨.congr (hlivecopy hlinked.1 _ _), .congr (hlivecopy hlinked.1 _ _)⟩
  constructor
  · intro hagree hlinked hroots
    exact ((hsync default).mp ((hagree default default).mp
      ((hvalidate default).mpr ⟨hlinked, hroots⟩))).1.2
  · intro hcommits ω ω'
    rw [hvalidate, hsync]
    constructor
    · rintro ⟨hlinked, hroots⟩
      exact ⟨⟨hlinked, hcommits hlinked hroots⟩, hroots⟩
    · rintro ⟨⟨hlinked, -⟩, hroots⟩
      exact ⟨hlinked, hroots⟩

/-! ## The next block -/

/-- The block of the transactions on top of the head, with the roots of executing them;
`nilTransactions` leaves out the list when it is empty. -/
def nextBlock (cfg : Config) (n : RpcNode) (txs : List TxRecord) (nilTransactions : Bool) :
    PeerBlock :=
  let hash := hashHex (utf8 "block")
  let mined := txs.mapIdx fun i tx => RpcNode.minedTx tx hash (n.height + 1) (0 + i)
  { record :=
      { number := toHex (n.height + 1)
        hash := hash
        parentHash := n.lastBlock.hash
        stateRoot := stateTrieRoot (n.world.applyAll cfg mined)
        txRoot := hashTxs mined
        receiptRoot := consensusRoot (mined.map (consensusReceipt cfg))
        logsBloom := consensusBloom (mined.map (consensusReceipt cfg))
        transactions := mined }
    nilTransactions := nilTransactions }

section NextBlock
variable {cfg : Config} {n : RpcNode} {txs : List TxRecord} {nilTransactions : Bool}

theorem rootMatches_self (root : String) : RpcNode.rootMatches root root = true := by
  rw [RpcNode.rootMatches, equalFold_refl, Bool.or_true]

theorem number_nextBlock (h : ChainOk n) :
    quantity64 (nextBlock cfg n txs nilTransactions).record.number = n.height + 1 := by
  have hbound := h.bound
  exact quantity64_toHex (by omega)

/-- It is linked to the head and has the roots of executing it. -/
theorem linked_nextBlock (hsha : ∀ b : Bytes, (Platform.sha256 b).headD 0 = b.headD 0)
    (hroot : stateTrieRoot (n.world.applyAll cfg txs) ≠ zeroHash)
    (hnormal : (n.world.applyAll cfg txs).Normal) (h : ChainOk n) (ω : Choices) :
    Linked n (nextBlock cfg n txs nilTransactions).record ∧
      RootsOf cfg n.world ω (nextBlock cfg n txs nilTransactions).record := by
  have hworld := @World.applyAll_mapIdx_minedTx _ cfg n.world txs (hashHex (utf8 "block"))
    (n.height + 1) 0
  have hnumber : quantity64 (toHex (n.height + 1)) = n.height + 1 := by
    have hbound := h.bound
    exact quantity64_toHex (by omega)
  refine ⟨⟨not_or.mpr ⟨hashHex_ne_empty _, hashHex_ne_zeroHash hsha (by decide)⟩,
    not_or.mpr ⟨hexPrefix_ne (by decide), ?_⟩, hexPrefix_ne (by decide), equalFold_refl _⟩,
    ?_, ?_, rootMatches_self _, ?_⟩
  · rwa [nextBlock, hworld]
  · rw [nextBlock]
    dsimp only
    rw [hworld, hnormal.copy_eq, equalFold_refl]
  · rw [nextBlock]
    dsimp only
    rw [hnumber, List.mapIdx_mapIdx]
    exact rootMatches_self _
  · rw [RpcNode.bloomMatches]
    exact (congrArg _ (rootMatches_self _)).trans (Bool.or_true _)

/-- It commits to its transactions as sent when their list is not left out. -/
theorem commitsAsSent_nextBlock : CommitsAsSent (nextBlock cfg n txs false) :=
  rootMatches_self _

/-- Without a list it does not: an absent list is hashed as a null. -/
theorem not_commitsAsSent_nextBlock (hsha : ∀ b : Bytes, (Platform.sha256 b).headD 0 = b.headD 0) :
    ¬ CommitsAsSent (nextBlock cfg n [] true) := by
  intro hcommits
  have hcommits : RpcNode.rootMatches (hashTxs []) (hashHex (utf8 "null")) = true := hcommits
  rw [RpcNode.rootMatches, Bool.or_eq_true, decide_eq_true_iff] at hcommits
  rcases hcommits with hempty | hfold
  · exact hashHex_ne_empty _ hempty
  · rw [hashTxs, hashHex, hashHex] at hfold
    have hdigests := congrArg (List.headD · 0) (eq_of_equalFold_hexString hfold)
    simp only [hsha] at hdigests
    exact absurd hdigests (by decide)

end NextBlock

/-- A transfer that gives one back to the default account. -/
def transferBack : TxRecord where
  hash := "0x01"
  sender := "0x00000000000000000000000000000000000000aa"
  recipient := defaultAccount
  value := "0x1"
  nonce := "0x0"
  input := "0x"

theorem normal_transferBack : transferBack.Normal :=
  ⟨normalizeAddress_aa, normalizeAddress_defaultAccount⟩

/-- Transactions with a recipient create nothing. -/
theorem creationsAlike_of_recipient {cfg : Config} {w : World} {txs : List TxRecord}
    (h : ∀ tx ∈ txs, tx.recipient ≠ "") : CreationsAlike cfg w txs := by
  induction txs generalizing w with
  | nil => trivial
  | cons tx txs ih =>
      exact ⟨fun hempty => absurd hempty (h tx List.mem_cons_self),
        ih fun tx' htx' => h tx' (List.mem_cons_of_mem _ htx')⟩

/-- A transfer between normal addresses writes under normal keys. -/
theorem writesNormal_of_transfer {cfg : Config} {w : World} {tx : TxRecord} (h : tx.Normal)
    (hrecipient : tx.recipient ≠ "") : w.WritesNormal cfg tx :=
  ⟨fun _ _ => h, fun _ _ _ => h.recipient, fun hempty => absurd hempty hrecipient,
    fun hempty => absurd hempty hrecipient, fun hempty => absurd hempty hrecipient⟩

theorem normal_newRPCNode (cfg : Config) (ω : Choices) : (newRPCNode cfg ω {}).world.Normal := by
  obtain ⟨ω₁, l, timestamp, hfresh, -⟩ := newRPCNode_fresh cfg ω
  rw [hfresh]
  exact freshWorld_normal cfg

/-- The node after one transfer of the default account to the account that gives one back. -/
theorem world_wholeTransfer (ω : Choices) :
    (((newRPCNode manualMining ω {}).next manualMining ω (.sendTransaction wholeTransfer)).next
      manualMining ω .mineBlock).world.Normal := by
  obtain ⟨hworld, hempty, -⟩ := fresh_manualMining ω
  obtain ⟨hworld₁, -, hpending₁⟩ := send_wholeTransfer hworld ω
  obtain ⟨hsender, hrecipient, -⟩ :=
    wholeTransfer_record (newRPCNode manualMining ω {}) (ω.call 0)
  generalize (newRPCNode manualMining ω {}).next manualMining ω (.sendTransaction wholeTransfer) = n₁
    at hworld₁ hpending₁ ⊢
  rw [RpcNode.next, RpcNode.minePendingBlock_world, hpending₁, hempty, hworld₁]
  refine (freshWorld_normal manualMining).apply (writesNormal_of_transfer ⟨?_, ?_⟩ ?_)
  · rw [hsender, normalizeAddress_defaultAccount]
  · rw [hrecipient, normalizeAddress_aa]
  · rw [hrecipient]
    decide

omit [Platform] in
/-- Both validators accept a block with a transfer on top of a mined one. -/
theorem validators_agree_transferBack :
    letI := Platform.checksums
    let n := ((newRPCNode manualMining default {}).next manualMining default
      (.sendTransaction wholeTransfer)).next manualMining default .mineBlock
    let block := nextBlock manualMining n [transferBack] false
    (n.validateBlockRecord manualMining default block.record).1.isValid = true ∧
      (n.syncBlock manualMining default (n.height + 1) block).1.isOk = true := by
  let _ := Platform.checksums
  intro n block
  have hroots : ReachableBy manualMining (RootStep manualMining) n :=
    @rootStep_wholeTransfer Platform.checksums default
  have hworld : n.world.Normal := @world_wholeTransfer Platform.checksums default
  have hblock : block = nextBlock manualMining n [transferBack] false := rfl
  clear_value block n
  subst hblock
  have hreach : ReachableBy manualMining (AlikeStep manualMining) n := hroots.mono fun _ _ _ h => h.1
  obtain ⟨hchain, -, hspell⟩ := hreach.spellOk fun _ _ _ => id
  have halike : ∀ w : World, w.Normal → AllSpelledAlike manualMining.bridgeAddress w
      (nextBlock manualMining n [transferBack] false).record.transactions := by
    intro w hw
    refine hw.plain.allSpelledAlike (fun tx htx => ?_) (creationsAlike_of_recipient fun tx htx => ?_)
    · rw [List.mem_singleton.mp htx]
      exact normal_transferBack.minedTx _ _ _
    · rw [List.mem_singleton.mp htx]
      exact (by decide : defaultAccount ≠ "")
  have hafter : (n.world.applyAll manualMining [transferBack]).Normal :=
    hworld.applyAll ⟨writesNormal_of_transfer normal_transferBack (by decide), trivial⟩
  have hlinked := @linked_nextBlock _ _ _ _ false (fun _ => rfl)
    (checksums_stateTrieRoot_ne_zeroHash _) hafter hchain
  have hnumber := @number_nextBlock _ manualMining _ [transferBack] false hchain
  have hsync : (n.syncBlock manualMining default (n.height + 1)
      (nextBlock manualMining n [transferBack] false)).1.isOk = true := by
    rw [syncBlock_isOk_iff hchain hnumber]
    exact ⟨⟨(hlinked default).1, commitsAsSent_nextBlock⟩, (hlinked _).2⟩
  have hagree := (validators_agree_iff hreach hnumber (fun _ => halike _ hworld)
    fun _ s hs => halike _ (hspell.snapshots _ s hs)).mpr fun _ _ => commitsAsSent_nextBlock
  exact ⟨(hagree default default).mpr hsync, hsync⟩

omit [Platform] in
/-- **The validators disagree.** With the list absent the block is valid as a candidate, and it is
refused as a peer's block, whose transactions are hashed as a null. -/
theorem validators_disagree :
    letI := Platform.checksums
    let n := newRPCNode {} default {}
    let block := nextBlock {} n [] true
    Reachable {} n ∧ quantity64 block.record.number = n.height + 1 ∧
      (n.validateBlockRecord {} default block.record).1.isValid = true ∧
      (n.syncBlock {} default (n.height + 1) block).1.isOk = false := by
  let _ := Platform.checksums
  intro n block
  have hn : n = newRPCNode {} default {} := rfl
  have hblock : block = nextBlock {} n [] true := rfl
  clear_value n block
  have hworld : n.world.Normal := hn ▸ normal_newRPCNode {} default
  have hreach : ReachableBy {} (AlikeStep {}) n := hn ▸ ⟨default, .refl⟩
  obtain ⟨hchain, -, hspell⟩ := hreach.spellOk fun _ _ _ => id
  have hnumber := @number_nextBlock _ {} _ [] true hchain
  obtain ⟨hlinked, hroots⟩ := @linked_nextBlock _ {} n [] true (fun _ => rfl)
    (checksums_stateTrieRoot_ne_zeroHash _) (hworld.applyAll trivial) hchain default
  obtain ⟨s, hs⟩ := hchain.head_snapshot
  have hempty : ∀ w : World, AllSpelledAlike ({} : Config).bridgeAddress w
      (nextBlock {} n [] true).record.transactions := fun _ => trivial
  rw [hblock]
  refine ⟨hreach.reachable, hnumber, ?_, ?_⟩
  · rw [validateBlockRecord_isValid_iff hchain hs hnumber, (hspell.snapshots _ _ hs).copy_eq]
    exact ⟨hlinked, hroots.congr (World.copy_applyAll_eq (hspell.head s hs) hspell.world
      (hspell.snapshots _ _ hs).wellSpelled (hempty _) (hempty _) _ _)⟩
  · rw [Bool.eq_false_iff, Ne, syncBlock_isOk_iff hchain hnumber]
    exact fun hok => not_commitsAsSent_nextBlock (fun _ => rfl) hok.1.2

end BhtBhte.Node
