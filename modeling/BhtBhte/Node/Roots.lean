import BhtBhte.Node.Proofs
import BhtBhte.Node.Supply

/-!
# Snapshots and their state roots

A block's state root is computed over one copy of the accounts and its snapshot is another
copy.  The two agree when no address has two spellings, so mining and importing keep every
snapshot true to its root.  Starting a node does not: the genesis root is computed before the
accounts of the command line get their balances, the genesis snapshot after.
-/
namespace BhtBhte.Node
open BhtBhte.Lib
variable [Platform]

/-! ## The genesis snapshot -/

/-- Every listed account is the default account or no address at all. -/
def GenesisFunded (cfg : Config) : Prop :=
  ∀ a ∈ cfg.accounts, normalizeAddress a = defaultAccount ∨
    isHexAddress (normalizeAddress a) = false

omit [Platform] in
/-- Funding the accounts keeps the balances that are there. -/
theorem get?_foldl_ensureBalance {m : FinMap String String} {a v : String}
    (h : m.get? a = some v) (l : List String) : (l.foldl RpcNode.ensureBalance m).get? a = some v := by
  induction l generalizing m with
  | nil => exact h
  | cons b l ih =>
      refine ih ?_
      rw [RpcNode.ensureBalance]
      split
      · exact h
      · next hnone =>
          rw [FinMap.get?_insert_of_ne]
          · exact h
          · rintro rfl
            rw [h] at hnone
            exact hnone rfl

theorem balance_freshWorld (cfg : Config) :
    (freshWorld cfg).balances.get? defaultAccount = some initialBalance :=
  get?_foldl_ensureBalance (FinMap.get?_insert_self _ _ _) _

/-- The default account is the only address that the trie of such a node covers. -/
theorem sortedSnapshotAccounts_freshWorld {cfg : Config} (h : GenesisFunded cfg) :
    sortedSnapshotAccounts (freshWorld cfg) = [defaultAccount] := by
  have hkeys : (freshWorld cfg).balances.keys ++ (freshWorld cfg).nonces.keys ++
      (freshWorld cfg).code.keys ++ (freshWorld cfg).storage.keys =
        (freshWorld cfg).balances.keys := by
    show _ ++ [] ++ [] ++ [] = _
    simp
  have hmem : ∀ a, a ∈ sortedSnapshotAccounts (freshWorld cfg) ↔ a = defaultAccount := by
    intro a
    rw [sortedSnapshotAccounts, hkeys, mem_sortedAddresses]
    constructor
    · rintro ⟨hhex, k, hk, rfl⟩
      rcases mem_keys_freshWorld.mp hk with hk | rfl
      · obtain ⟨b, hb, rfl⟩ := List.mem_map.mp hk
        rw [normalizeAddress_normalizeAddress] at hhex ⊢
        split at hb
        · rw [List.mem_singleton.mp hb, normalizeAddress_defaultAccount]
        · rcases h b hb with heq | hnone
          · exact heq
          · rw [hnone] at hhex
            cases hhex
      · exact normalizeAddress_defaultAccount
    · rintro rfl
      exact ⟨isHexAddress_defaultAccount, defaultAccount, mem_keys_freshWorld.mpr (.inr rfl),
        normalizeAddress_defaultAccount⟩
  have hnodup : (sortedSnapshotAccounts (freshWorld cfg)).Nodup := nodup_sortedAddresses _
  exact List.perm_singleton.mp
    ((List.perm_ext_iff_of_nodup hnodup (List.nodup_singleton _)).mpr fun a => by
      rw [hmem, List.mem_singleton])

/-- Such a node has the trie of the default account alone. -/
theorem buildStateTrie_freshWorld {cfg cfg' : Config} (h : GenesisFunded cfg)
    (h' : GenesisFunded cfg') :
    buildStateTrieFromSnapshot (freshWorld cfg) = buildStateTrieFromSnapshot (freshWorld cfg') := by
  rw [buildStateTrieFromSnapshot, buildStateTrieFromSnapshot, sortedSnapshotAccounts_freshWorld h,
    sortedSnapshotAccounts_freshWorld h', List.map_singleton, List.map_singleton,
    balance_freshWorld, balance_freshWorld]
  rfl

theorem genesisFunded_default : GenesisFunded {} := by
  intro a ha
  rw [List.mem_singleton.mp ha]
  exact .inl normalizeAddress_defaultAccount

/-- The default world has a trie of one account. -/
theorem stateTrieRoot_default : ∃ value, stateTrieRoot (freshWorld {}) =
    hexString (Platform.trieRoot [(Platform.keccak256 (hexToAddress defaultAccount), value)]) := by
  rw [stateTrieRoot, buildStateTrieFromSnapshot,
    sortedSnapshotAccounts_freshWorld genesisFunded_default]
  exact ⟨_, rfl⟩

/-! ## Every snapshot -/

/-- Every snapshot records the root of its own content. -/
def RootsOk (n : RpcNode) : Prop :=
  ∀ k s, n.stateSnapshots.get? k = some s → s.stateRoot = stateTrieRoot s.world

theorem rootsOk_fresh {cfg : Config} (h : GenesisFunded cfg) (ω : Choices) :
    RootsOk (newRPCNode cfg ω {}) := by
  obtain ⟨ω₁, l, timestamp, heq, -⟩ := newRPCNode_fresh cfg ω
  rw [heq]
  intro k s hs
  rw [FinMap.get?_insert] at hs
  split at hs
  · cases hs
    have hcopy := (freshWorld_normal cfg).copy_eq ω₁
    have htrie := buildStateTrie_freshWorld genesisFunded_default h
    show (freshGenesis ω).stateRoot = stateTrieRoot ((freshWorld cfg).copy ω₁)
    rw [stateRoot_freshGenesis, hcopy, stateTrieRoot, htrie, ← stateTrieRoot]
  · cases hs

/-- A mined block gets the root of the accounts its snapshot copies. -/
theorem RootsOk.minePendingBlock {n : RpcNode} (h : RootsOk n) {cfg : Config} {ω : Choices}
    (hworld : (n.minePendingBlock cfg ω).2.world.WellSpelled) :
    RootsOk (n.minePendingBlock cfg ω).2 := by
  obtain ⟨block, l, heq, -, -, -, -, hroot, -⟩ := n.minePendingBlock_eq cfg ω
  have hsame : SameBlocks { n with pendingTxs := [] } (n.minePendingTxs cfg ω).2.2 :=
    RpcNode.mineTxs_sameBlocks n.pendingTxs
  rw [heq] at hworld ⊢
  have hworld : (n.minePendingTxs cfg ω).2.2.world.WellSpelled := hworld
  intro k s hs
  have hs : ((n.minePendingTxs cfg ω).2.2.stateSnapshots.insert (u64 (n.height + 1))
      ⟨u64 (n.height + 1), block.hash, block.stateRoot, true, "local",
        (n.minePendingTxs cfg ω).2.2.world.copy (((ω.call 5).call 2).call 0),
        (((ω.call 5).call 2).call 1).unix⟩).get? k = some s := hs
  rw [hsame.stateSnapshots, FinMap.get?_insert] at hs
  split at hs
  · cases hs
    show block.stateRoot = stateTrieRoot _
    rw [hroot]
    exact congrArg stateTrieRoot (World.copy_eq_of_agree hworld hworld (.refl _) _ _)
  · exact h k s hs

/-- An imported block was checked against the accounts its snapshot copies. -/
theorem RootsOk.afterImport {n : RpcNode} (h : RootsOk n) {cfg : Config} {ω ω' ω₂ : Choices}
    {block : BlockRecord} {l : List TrieCommitRecord} {r : Bytes}
    (hspelled : block.stateRoot = hexString r)
    (hroot : equalFold block.stateRoot
      (stateTrieRoot ((n.applyPeerBlock cfg ω' block).2.2.world.copy ω₂)) = true)
    (hworld : (n.afterImport ω block l (n.applyPeerBlock cfg ω' block)).world.WellSpelled) :
    RootsOk (n.afterImport ω block l (n.applyPeerBlock cfg ω' block)) := by
  obtain ⟨stored, timestamp, -, -, hsnapshots, hafter, -⟩ := n.afterImport_chain cfg ω ω' block l
  intro k s hs
  rw [hsnapshots, FinMap.get?_insert] at hs
  split at hs
  · cases hs
    have hsame : (n.applyPeerBlock cfg ω' block).2.2.world =
        (n.afterImport ω block l (n.applyPeerBlock cfg ω' block)).world := by
      rw [hafter, n.applyPeerBlock_world]
    rw [hsame, hspelled] at hroot
    show block.stateRoot = stateTrieRoot _
    rw [hspelled, eq_of_equalFold_hexString hroot, ← stateTrieRoot]
    exact congrArg stateTrieRoot (World.copy_eq_of_agree hworld hworld (.refl _) _ _)
  · exact h k s hs

/-- A call whose executed transactions are spelled alike; an imported block spells its state
root as the node spells roots. -/
def RootStep (cfg : Config) (n : RpcNode) (ω : Choices) (e : Event) : Prop :=
  AlikeStep cfg n ω e ∧
    ∀ block, e = .syncBlock block → (n.syncBlock cfg ω (n.height + 1) block).1 = .ok true →
      ∃ r, block.record.stateRoot = hexString r

theorem RootsOk.next {n : RpcNode} (h : RootsOk n) (hchain : ChainOk n) {cfg : Config} {ω : Choices}
    {e : Event} (hstep : RootStep cfg n ω e) (hworld : (n.next cfg ω e).world.WellSpelled) :
    RootsOk (n.next cfg ω e) := by
  by_cases he : ∃ block, e = .syncBlock block
  · obtain ⟨block, rfl⟩ := he
    rw [RpcNode.next] at hworld ⊢
    rcases n.syncBlock_cases cfg ω (n.height + 1) block with ⟨heq, -⟩ | ⟨e, ω₁, ω₂, disk, heq⟩ |
      ⟨ω₂, l, heq, -, -, hroot⟩
    · rw [heq]; exact h
    · rw [heq]; exact h
    · obtain ⟨r, hspelled⟩ := hstep.2 block rfl (by rw [heq])
      rw [heq] at hworld ⊢
      exact h.afterImport hspelled hroot hworld
  · have hmove := n.next_localMove hchain cfg ω fun block hblock => he ⟨block, hblock⟩
    generalize n.next cfg ω e = n' at hmove hworld ⊢
    generalize n.executed cfg ω e = txs at hmove
    cases hmove with
    | kept hkept =>
        intro k s hs
        exact h k s (hkept.stateSnapshots ▸ hs)
    | recopied ω₁ ω₂ disk => exact h
    | mined ω =>
        have hqueued : RootsOk { n with pendingTxs := txs } := h
        exact hqueued.minePendingBlock hworld
    | rolledBack hone hle hs =>
        intro k s hs'
        exact h k s (RpcNode.snapshot_rollback_iff.mp hs').1
    | restarted index disk => exact h

theorem ReachableBy.rootsOk {cfg : Config} (hcfg : GenesisFunded cfg) {n : RpcNode}
    (h : ReachableBy cfg (RootStep cfg) n) : ChainOk n ∧ FundedOk n ∧ SpellOk n ∧ RootsOk n := by
  refine h.induct (P := fun n => ChainOk n ∧ FundedOk n ∧ SpellOk n ∧ RootsOk n)
    (fun ω => ⟨chainOk_fresh cfg ω, fundedOk_fresh cfg ω, spellOk_fresh cfg ω,
      rootsOk_fresh hcfg ω⟩) ?_
  intro n ω e ⟨hchain, hfunded, hspell, hroots⟩ hok hlen
  have hmove := RpcNode.next_move hchain hlen
  have hspell' := hspell.move hchain hfunded hok.1 hmove
  exact ⟨hchain.next hlen, hfunded.move hchain hmove, hspell', hroots.next hchain hok hspell'.world⟩

/-! ## Account proofs -/

/-- The reference names the block at height `k`. -/
def RpcNode.RefersTo (n : RpcNode) (blockRef : String) (k : ℕ) : Prop :=
  if isHeadRef blockRef then k = n.height else n.refHeight blockRef = k

section Proofs
variable [TrieProofs]

/-- A snapshot whose recorded root is empty or its own gives a proof under its own root. -/
theorem proofFromSnapshot_ok {s : StateSnapshotRecord}
    (h : s.stateRoot = "" ∨ s.stateRoot = stateTrieRoot s.world) (addr : String)
    (storageKeys : List String) :
    ∃ p, proofFromSnapshot s addr storageKeys = .ok p ∧ p.stateRoot = stateTrieRoot s.world ∧
      p.blockHash = s.blockHash ∧ p.blockNumber = toHex s.height := by
  have hmatch : ¬ (s.stateRoot ≠ "" ∧ s.stateRoot ≠ zeroHash ∧
      ¬ equalFold s.stateRoot (stateTrieRoot s.world) = true) := by
    rintro ⟨hne, -, hfold⟩
    rw [h.resolve_left hne, equalFold_refl] at hfold
    exact hfold rfl
  rw [proofFromSnapshot, if_neg hmatch]
  exact ⟨_, rfl, rfl, rfl, rfl⟩

/-- **Snapshots keep their root.** On a node whose accounts the genesis root covers, in every
run of calls that spell alike, the snapshot of each canonical block is complete and its content
has the block's state root, and every reference to the block gets an account proof under that
root. -/
theorem accountProof_of_genesisFunded {cfg : Config} (hcfg : GenesisFunded cfg) {n : RpcNode}
    (h : ReachableBy cfg (RootStep cfg) n) {k : ℕ} {b : BlockRecord}
    (hb : n.blockAt k = some b) :
    (∃ s, n.stateSnapshots.get? k = some s ∧ s.complete = true ∧ s.stateRoot = b.stateRoot ∧
      stateTrieRoot s.world = b.stateRoot) ∧
    ∀ ω addr storageKeys blockRef, n.RefersTo blockRef k →
      ∃ p, n.accountProof ω addr storageKeys blockRef = .ok p ∧ p.stateRoot = b.stateRoot ∧
        p.blockHash = b.hash ∧ p.blockNumber = toHex k := by
  obtain ⟨hchain, -, hspell, hroots⟩ := h.rootsOk hcfg
  obtain ⟨s, hs, hcomplete, hheight, hhash, hroot⟩ := hchain.snapshot k b hb
  have hcontent : stateTrieRoot s.world = b.stateRoot := by rw [← hroots k s hs, hroot]
  refine ⟨⟨s, hs, hcomplete, hroot, hcontent⟩, fun ω addr storageKeys blockRef href => ?_⟩
  rw [RpcNode.RefersTo] at href
  rw [RpcNode.accountProof, RpcNode.snapshotForBlock]
  by_cases hhead : isHeadRef blockRef = true
  · rw [if_pos hhead] at href ⊢
    rw [href, hchain.blockAt_height] at hb
    cases hb
    have hnumber : quantity64 n.lastBlock.number = k := by
      rw [hchain.number_of_blockAt hchain.blockAt_height, href]
    dsimp only
    rw [hnumber, hs]
    dsimp only
    rw [if_neg (not_not_intro hcomplete)]
    -- the live accounts agree with the snapshot of the head, so their copies have one root
    have hagree := hspell.head s (href ▸ hs)
    have hlive : stateTrieRoot (n.world.copy (ω.call 0)) = n.lastBlock.stateRoot := by
      have hnormal := hspell.snapshots k s hs
      rw [World.copy_eq_of_agree hspell.world hnormal.wellSpelled hagree (ω.call 0) (ω.call 0),
        hnormal.copy_eq, hcontent]
    obtain ⟨p, hp, hproot, hphash, hpnumber⟩ := proofFromSnapshot_ok
      (s := n.currentStateSnapshot ω n.lastBlock.hash "") (.inl rfl) (normalizeAddress addr)
      storageKeys
    refine ⟨p, hp, hproot.trans hlive, hphash, ?_⟩
    rw [hpnumber, href]
    rfl
  · rw [if_neg hhead] at href ⊢
    have hpos : k ≠ 0 := by
      rintro rfl
      cases hb
    dsimp only
    rw [href, if_neg hpos, hs]
    dsimp only
    rw [if_neg (not_not_intro hcomplete)]
    obtain ⟨p, hp, hproot, hphash, hpnumber⟩ := proofFromSnapshot_ok
      (.inr (hroots k s hs)) (normalizeAddress addr) storageKeys
    exact ⟨p, hp, hproot.trans hcontent, hphash.trans hhash, by rw [hpnumber, hheight]⟩

omit [TrieProofs] in
/-- A reference in hexadecimal names the height it spells. -/
theorem RpcNode.refersTo_hex (n : RpcNode) {blockRef : String} {k : ℕ}
    (hhead : isHeadRef blockRef = false)
    (href : hasPrefix (trimSpace blockRef) "0x" = true ∧ quantity64 (trimSpace blockRef) = k) :
    n.RefersTo blockRef k := by
  rw [RpcNode.RefersTo, hhead, if_neg Bool.false_ne_true, RpcNode.refHeight]
  dsimp only
  rw [if_pos href.1, href.2]

end Proofs

/-- A run of the node that mines one transfer. -/
theorem rootStep_wholeTransfer (ω : Choices) :
    ReachableBy manualMining (RootStep manualMining)
      (((newRPCNode manualMining ω {}).next manualMining ω (.sendTransaction wholeTransfer)).next
        manualMining ω .mineBlock) := by
  obtain ⟨hworld, hempty, -⟩ := fresh_manualMining ω
  obtain ⟨hworld₁, -, hpending₁⟩ := send_wholeTransfer hworld ω
  obtain ⟨hsender, hrecipient, -⟩ :=
    wholeTransfer_record (newRPCNode manualMining ω {}) (ω.call 0)
  refine run_wholeTransfer ω ⟨?_, fun block hblock => by cases hblock⟩
    ⟨?_, fun block hblock => by cases hblock⟩
  · rw [AlikeStep, RpcNode.executed, if_neg fun h => Bool.false_ne_true h.1]
    trivial
  · show AllSpelledAlike _ _ _
    rw [hworld₁, RpcNode.executed, hpending₁, hempty]
    refine ⟨⟨fun _ _ => balancesAlike_wholeTransfer hsender hrecipient, fun _ _ k hk => ?_,
      fun _ k hk => ?_, fun hcreation => ?_⟩, trivial⟩
    · cases hk
    · cases hk
    · rw [hrecipient] at hcreation
      exact absurd hcreation (by decide)

/-- The run has two blocks. -/
theorem blockAt_wholeTransfer (ω : Choices) :
    ∃ b, (((newRPCNode manualMining ω {}).next manualMining ω (.sendTransaction wholeTransfer)).next
      manualMining ω .mineBlock).blockAt 2 = some b := by
  obtain ⟨hworld, -, hblocks⟩ := fresh_manualMining ω
  obtain ⟨-, hblocks₁, -⟩ := send_wholeTransfer hworld ω
  generalize (newRPCNode manualMining ω {}).next manualMining ω (.sendTransaction wholeTransfer) = n₁
    at hblocks₁ ⊢
  obtain ⟨block, hmined⟩ := n₁.minePendingBlock_blocks manualMining ω
  refine ⟨block, ?_⟩
  rw [RpcNode.next, RpcNode.blockAt, if_neg (by decide), hmined,
    List.getElem?_append_right (by rw [hblocks₁, hblocks]), hblocks₁, hblocks]
  rfl

omit [Platform] in
theorem accountProof_of_wholeTransfer :
    letI := Platform.checksums
    letI := TrieProofs.oneBlob
    let n := ((newRPCNode manualMining default {}).next manualMining default
      (.sendTransaction wholeTransfer)).next manualMining default .mineBlock
    ∃ b p, n.blockAt 2 = some b ∧ n.accountProof default defaultAccount [] "0x2" = .ok p ∧
      p.stateRoot = b.stateRoot := by
  have hcfg : @GenesisFunded Platform.checksums manualMining :=
    @genesisFunded_default Platform.checksums
  obtain ⟨b, hb⟩ := @blockAt_wholeTransfer Platform.checksums default
  have href := @RpcNode.refersTo_hex Platform.checksums
    (@RpcNode.next Platform.checksums (@RpcNode.next Platform.checksums
      (@newRPCNode Platform.checksums manualMining default {}) manualMining default
      (.sendTransaction wholeTransfer)) manualMining default .mineBlock) "0x2" 2
    (by decide) ⟨by decide, by decide +kernel⟩
  obtain ⟨p, hp, hroot, -⟩ := (@accountProof_of_genesisFunded Platform.checksums
    TrieProofs.oneBlob _ hcfg _ (@rootStep_wholeTransfer Platform.checksums default) _ _ hb).2
    default defaultAccount [] "0x2" href
  exact ⟨b, p, hb, hp, hroot⟩

/-! ## An account of the command line -/

/-- A node started with `--account` and an address of its own. -/
def ownAccount : Config := { accounts := ["0x00000000000000000000000000000000000000aa"] }

/-- Its funded accounts are not those that the genesis root covers. -/
theorem buildStateTrie_ownAccount :
    buildStateTrieFromSnapshot (freshWorld {}) ≠ buildStateTrieFromSnapshot (freshWorld ownAccount) := by
  intro heq
  have hlen := congrArg List.length heq
  rw [buildStateTrieFromSnapshot, buildStateTrieFromSnapshot, List.length_map, List.length_map,
    sortedSnapshotAccounts_freshWorld genesisFunded_default] at hlen
  have hhex : isHexAddress "0x00000000000000000000000000000000000000aa" = true := by
    decide +kernel
  have hmem : ∀ a, normalizeAddress a = a → isHexAddress a = true →
      a ∈ (freshWorld ownAccount).balances.keys → a ∈ sortedSnapshotAccounts (freshWorld ownAccount) := by
    intro a hnormal ha hkey
    refine mem_sortedAddresses.mpr ⟨ha, a, ?_, hnormal⟩
    simp only [List.mem_append]
    exact .inl (.inl (.inl hkey))
  have haccount : "0x00000000000000000000000000000000000000aa" ∈
      RpcNode.ensureAccounts ownAccount.accounts :=
    List.mem_map.mpr ⟨_, List.mem_singleton.mpr rfl, normalizeAddress_aa⟩
  have hown := hmem _ normalizeAddress_aa hhex (mem_keys_freshWorld.mpr (.inl haccount))
  have hdefault := hmem _ normalizeAddress_defaultAccount isHexAddress_defaultAccount
    (mem_keys_freshWorld.mpr (.inr rfl))
  obtain ⟨a, ha⟩ := List.length_eq_one_iff.mp hlen.symm
  rw [ha, List.mem_singleton] at hown hdefault
  exact absurd (hown.trans hdefault.symm) (by decide)

/-- Where roots tell tries apart, its genesis block has no account proof. -/
theorem accountProof_ownAccount [TrieProofs]
    (hinjective : Function.Injective (Platform.trieRoot : Trie → Bytes))
    (hzero : stateTrieRoot (freshWorld {}) ≠ zeroHash) {n : RpcNode} {ω : Choices}
    (hn : n = newRPCNode ownAccount ω {}) :
    (∃ b s, n.blockAt 1 = some b ∧ n.stateSnapshots.get? 1 = some s ∧
      stateTrieRoot s.world ≠ b.stateRoot) ∧
    ∃ given computed, n.accountProof ω defaultAccount [] "0x1" =
      .error (.rootMismatch (toHex 1) given computed) := by
  obtain ⟨ω₁, l, timestamp, hfresh, -⟩ := newRPCNode_fresh ownAccount ω
  rw [hfresh] at hn
  have hcopy := (freshWorld_normal ownAccount).copy_eq ω₁
  have hroots : stateTrieRoot (freshWorld {}) ≠ stateTrieRoot (freshWorld ownAccount) :=
    fun heq => buildStateTrie_ownAccount (hinjective (hexString_injective heq))
  have hsnapshot : n.stateSnapshots.get? 1 = some
      ⟨1, (freshGenesis ω).hash, stateTrieRoot (freshWorld {}), true, "local",
        freshWorld ownAccount, timestamp⟩ := by
    rw [hn, FinMap.get?_insert_self, stateRoot_freshGenesis, hcopy]
  have hat : n.blockAt 1 = some (freshGenesis ω) := by rw [hn]; rfl
  refine ⟨⟨_, _, hat, hsnapshot, ?_⟩, ?_⟩
  · rw [stateRoot_freshGenesis]
    exact hroots.symm
  · have href := @RpcNode.refersTo_hex _ n "0x1" 1 (by decide) ⟨by decide, by decide +kernel⟩
    have hhead : isHeadRef "0x1" = false := by decide
    rw [RpcNode.RefersTo, hhead, if_neg Bool.false_ne_true] at href
    rw [RpcNode.accountProof, RpcNode.snapshotForBlock, hhead, if_neg Bool.false_ne_true]
    dsimp only
    rw [href, if_neg (by decide), hsnapshot]
    dsimp only
    rw [if_neg (by decide)]
    refine ⟨_, _, (if_pos ⟨?_, hzero, fun hfold => ?_⟩ : proofFromSnapshot _ _ _ = _)⟩
    · exact hexPrefix_ne (by decide)
    · exact buildStateTrie_ownAccount (hinjective (eq_of_equalFold_hexString hfold))

omit [Platform] in
theorem hexString_one_ne_zeroHash (b : Bytes) : hexString (1 :: b) ≠ zeroHash := by
  intro heq
  have hlist := congrArg String.toList heq
  have hone : hexEncode (1 :: b) = '0' :: '1' :: hexEncode b := rfl
  have hzero : zeroHash.toList = '0' :: 'x' :: '0' :: '0' :: List.replicate 62 '0' := by decide
  rw [hexString, toList_hexPrefix, hone, hzero] at hlist
  simp at hlist

omit [Platform] in
/-- No accounts have the zero hash as their root. -/
theorem checksums_stateTrieRoot_ne_zeroHash (w : World) :
    @stateTrieRoot Platform.checksums w ≠ zeroHash := by
  let _ := Platform.checksums
  rw [stateTrieRoot, buildStateTrieFromSnapshot]
  cases sortedSnapshotAccounts w with
  | nil =>
      show hexString [] ≠ zeroHash
      decide
  | cons addr addrs => exact hexString_one_ne_zeroHash _

omit [Platform] in
/-- The genesis root is not the zero hash. -/
theorem checksums_stateRoot_ne_zeroHash (ω : Choices) :
    (@freshGenesis Platform.checksums ω).stateRoot ≠ zeroHash := by
  rw [@stateRoot_freshGenesis Platform.checksums]
  exact checksums_stateTrieRoot_ne_zeroHash _

omit [Platform] in
/-- **A root that misses accounts.** A node started with an account of its own records a
genesis root without that account's balance, and refuses every account proof at block one. -/
theorem accountProof_fails_at_genesis :
    letI := Platform.checksums
    letI := TrieProofs.oneBlob
    let n := newRPCNode ownAccount default {}
    (∃ b s, n.blockAt 1 = some b ∧ n.stateSnapshots.get? 1 = some s ∧
      stateTrieRoot s.world ≠ b.stateRoot) ∧
    ∃ given computed, n.accountProof default defaultAccount [] "0x1" =
      .error (.rootMismatch (toHex 1) given computed) := by
  refine @accountProof_ownAccount Platform.checksums TrieProofs.oneBlob listUpdates_injective ?_ _ _
    rfl
  obtain ⟨value, hroot⟩ := @stateTrieRoot_default Platform.checksums
  rw [hroot]
  exact hexString_one_ne_zeroHash _

end BhtBhte.Node
