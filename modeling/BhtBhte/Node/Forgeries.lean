import BhtBhte.Node.Receipts

/-!
# What the checks of a proof authenticate

A receipt proof carries the receipt itself.  The checks encode that receipt and compare the encoding
with the value that the trie proves, so they bind the fields of the encoding and no others: the
hashes and numbers of a receipt or a log are given back as they came.  `authenticated_of_valid` is
what an accepted proof says of the block.
-/
namespace BhtBhte.Node
open BhtBhte.Lib
variable [Platform]

/-- The fields that the encoding covers; of the status it has whether it is zero. -/
structure ConsensusReceipt.Alike (r r' : ConsensusReceipt) : Prop where
  status : r.status = 0 ↔ r'.status = 0
  cumulativeGasUsed : r.cumulativeGasUsed = r'.cumulativeGasUsed
  bloom : r.bloom = r'.bloom
  logs : r.logs = r'.logs

/-- What the trie and RLP packages promise of accepted proofs: roots are hashes, no blob has the
zero hash, a value that is proved under the root of a trie is the one that the trie holds, and
encodings tell indices and receipts apart. -/
structure TrieProofs.Sound [TrieProofs] : Prop where
  root : ∀ t, (Platform.trieRoot t).length = 32
  zero : ∀ key proof value,
    TrieProofs.verifyProof (List.replicate 32 0) key (proofSet proof) ≠ .ok value
  verify : ∀ t key proof value,
    TrieProofs.verifyProof (Platform.trieRoot t) key (proofSet proof) = .ok value →
      value = lookupLast t key
  uint : Function.Injective Platform.rlpUint
  receipt : ∀ r r', Platform.rlpReceipt r = Platform.rlpReceipt r' → r.Alike r'

/-! ## Roots of the receipts -/

/-- The block has the root of its own receipts, or none as the genesis block. -/
def OwnReceiptRoot (cfg : Config) (b : BlockRecord) : Prop :=
  b.receiptRoot = zeroHash ∨
    b.receiptRoot = hexString (Platform.trieRoot (receiptTrie cfg b.transactions))

def ReceiptRootsOk (cfg : Config) (n : RpcNode) : Prop := ∀ b ∈ n.blocks, OwnReceiptRoot cfg b

section Roots
variable {cfg : Config} {n : RpcNode} {ω : Choices}

theorem ownReceiptRoot_minePendingBlock (n : RpcNode) (cfg : Config) (ω : Choices) :
    OwnReceiptRoot cfg (n.minePendingBlock cfg ω).1 := by
  right
  show receiptTrieRoot (n.minePendingTxs cfg ω).2.1 = _
  rw [receiptTrieRoot, n.buildReceiptTrie_minePendingTxs]

theorem ReceiptRootsOk.of_append {n' : RpcNode} (h : ReceiptRootsOk cfg n) {b : BlockRecord}
    (hblocks : n'.blocks = n.blocks ++ [b]) (hb : OwnReceiptRoot cfg b) : ReceiptRootsOk cfg n' := by
  intro b' hb'
  rw [hblocks, List.mem_append, List.mem_singleton] at hb'
  rcases hb' with hb' | rfl
  · exact h b' hb'
  · exact hb

theorem ReceiptRootsOk.importPeerBlock (h : ReceiptRootsOk cfg n) (block : BlockRecord) :
    ReceiptRootsOk cfg (n.importPeerBlock cfg ω block).2 := by
  rcases n.importPeerBlock_cases cfg ω block with ⟨heq, -⟩ | ⟨e, ω₁, ω₂, disk, heq⟩ |
    ⟨ω₂, l, heq, -⟩
  · rw [heq]; exact h
  · rw [heq]; exact h
  · have hsame := n.applyPeerBlock_sameChain cfg ((ω.call 0).call 1) block
    have htrie := n.buildReceiptTrie_applyPeerBlock cfg ((ω.call 0).call 1) block
    rw [heq]
    refine h.of_append (by rw [RpcNode.afterImport_blocks, hsame.blocks]) (.inr ?_)
    show receiptTrieRoot (n.applyPeerBlock cfg ((ω.call 0).call 1) block).2.1 = _
    rw [receiptTrieRoot, htrie]
    rfl

theorem ReceiptRootsOk.next (h : ReceiptRootsOk cfg n) (hchain : ChainOk n) (e : Event) :
    ReceiptRootsOk cfg (n.next cfg ω e) := by
  rcases n.syncBlock_or_localCall hchain cfg ω e with ⟨block, rfl⟩ | hcall
  · rw [RpcNode.next, RpcNode.syncBlock]
    split
    · exact h
    · exact h.importPeerBlock block.record
  · generalize n.next cfg ω e = n' at hcall ⊢
    cases hcall with
    | quiet hquiet =>
        intro b hb
        rw [hquiet.blocks] at hb
        exact h b hb
    | recopied ω₁ ω₂ disk => exact h
    | mined hmines =>
        exact h.of_append (RpcNode.minePendingBlock_fst _ _ _) (ownReceiptRoot_minePendingBlock _ _ _)
    | @rolledBack ω' height s hone hle hs =>
        intro b hb
        have hkept : b ∈ n.blocks.take (height - 1) := by
          rw [← hchain.blocks_rollback ω' height s]
          exact hb
        exact h b (List.mem_of_mem_take hkept)
    | restarted =>
        obtain ⟨index, disk, heq, -⟩ := hchain.restart cfg ω
        rw [heq]
        exact h

theorem Reachable.receiptRootsOk (h : Reachable cfg n) : ReceiptRootsOk cfg n := by
  refine (h.induct (P := fun n => ChainOk n ∧ ReceiptRootsOk cfg n) (fun ω => ⟨chainOk_fresh cfg ω, ?_⟩)
    fun n ω e hn _ hlen => ⟨hn.1.next hlen, hn.2.next hn.1 e⟩).2
  obtain ⟨ω₁, l, timestamp, heq, -⟩ := newRPCNode_fresh cfg ω
  rw [heq]
  intro b hb
  rw [List.mem_singleton.mp hb]
  exact .inl rfl

end Roots

/-! ## Accepted proofs -/

section Accept
variable [TrieProofs] {cfg : Config} {n : RpcNode} {b : BlockRecord}

omit [Platform] [TrieProofs] in
theorem valid_invalid (message : String) : (invalid message).valid ≠ true := Bool.false_ne_true

omit [TrieProofs] in
theorem proofSetFromHex_some {nodes : List String} {db : ProofSet}
    (h : proofSetFromHex nodes = some db) : db = proofSet (nodes.map fromHex) := by
  rw [proofSetFromHex] at h
  split at h
  · cases h
  · cases h
    rfl

theorem provenReceipt_ok {root value : Bytes} {index : ℕ} {db : ProofSet} {absent : String}
    (h : provenReceipt root index db absent = .ok value) :
    TrieProofs.verifyProof root (Platform.rlpUint index) db = .ok value ∧ value ≠ [] := by
  rw [provenReceipt] at h
  split at h
  · cases h
  · next value' hvalue =>
      split at h
      · cases h
      · next hne =>
          cases h
          exact ⟨hvalue, hne⟩

/-- What an accepted receipt proof has shown. -/
theorem verifyReceiptProof_ok {request : ReceiptRequest}
    (h : (verifyReceiptProof request).valid = true) :
    ∃ receipt, request.receipt = .object (.ok receipt) ∧
      TrieProofs.verifyProof (hexToHash request.receiptRoot.sprint)
        (Platform.rlpUint (quantityFromInterface request.transactionIndex))
        (proofSet (request.proof.map fromHex)) = .ok (Platform.rlpReceipt receipt.toGethReceipt) ∧
      Platform.rlpReceipt receipt.toGethReceipt ≠ [] ∧
      (verifyReceiptProof request).receiptRoot =
        some (hexString (hexToHash request.receiptRoot.sprint)) := by
  rw [verifyReceiptProof] at h ⊢
  dsimp only at h ⊢
  split at h
  · exact absurd h (valid_invalid _)
  · next db hdb =>
      rw [proofSetFromHex_some hdb] at h
      split at h
      · exact absurd h (valid_invalid _)
      · next value hvalue =>
          obtain ⟨hverify, hne⟩ := provenReceipt_ok hvalue
          cases hreceipt : request.receipt with
          | null => rw [hreceipt] at h; exact absurd h (valid_invalid _)
          | other e => rw [hreceipt] at h; exact absurd h (valid_invalid _)
          | object decoded =>
              rw [hreceipt] at h
              cases decoded with
              | error e => exact absurd h (valid_invalid _)
              | ok receipt =>
                  have heq : value = Platform.rlpReceipt receipt.toGethReceipt := by simpa using h
                  subst heq
                  refine ⟨receipt, rfl, hverify, hne, ?_⟩
                  rw [proofSetFromHex_some hdb, hvalue]

/-- What an accepted log proof has shown: its receipt proof is accepted, and the claimed log is
the one of that receipt. -/
theorem verifyLogProof_ok {request : LogRequest} (h : (verifyLogProof request).valid = true) :
    ∃ p receipt actual claimed, request.receiptProof = some p ∧ (verifyReceiptProof p).valid = true ∧
      p.receipt = .object (.ok receipt) ∧
      receipt.logs[quantityFromInterface request.logIndex]? = some actual ∧
      request.log = some (.ok claimed) ∧ logsEqual actual claimed = true := by
  rw [verifyLogProof] at h
  split at h
  · exact absurd h (valid_invalid _)
  · next p hp =>
      dsimp only at h
      split at h
      · exact absurd h Bool.false_ne_true
      · next hvalid =>
          have hvalid' := not_not.mp hvalid
          obtain ⟨receipt, hreceipt, -⟩ := verifyReceiptProof_ok hvalid'
          rw [hreceipt] at h
          dsimp only at h
          rw [compareLog.eq_def] at h
          split at h
          · exact absurd h (valid_invalid _)
          · exact absurd h (valid_invalid _)
          · exact absurd h (valid_invalid _)
          · next actual claimed hactual hclaimed =>
              exact ⟨p, receipt, actual, claimed, hp, hvalid', hreceipt, hactual, hclaimed, h⟩

omit [TrieProofs] in
/-- A value in the trie of a block's receipts is one of a transaction. -/
theorem exists_of_lookupLast (huint : Function.Injective Platform.rlpUint) {txs : List TxRecord}
    {i : ℕ} (h : lookupLast (receiptTrie cfg txs) (Platform.rlpUint i) ≠ []) :
    ∃ tx, txs[i]? = some tx ∧ lookupLast (receiptTrie cfg txs) (Platform.rlpUint i) =
      Platform.rlpReceipt (consensusReceipt cfg tx) := by
  have hlt : i < txs.length := by
    rw [lookupLast] at h
    cases hfind : (receiptTrie cfg txs).reverse.find? fun e => e.1 = Platform.rlpUint i with
    | none =>
        rw [hfind] at h
        exact absurd rfl h
    | some e =>
        have hkey : e.1 = Platform.rlpUint i := by simpa using List.find?_some hfind
        obtain ⟨j, hj, heq⟩ := List.mem_mapIdx.mp (List.mem_reverse.mp (List.mem_of_find?_eq_some hfind))
        rw [← heq] at hkey
        rw [← huint hkey]
        simpa using hj
  have htx : txs[i]? = some txs[i] := List.getElem?_eq_getElem hlt
  exact ⟨_, htx, lookupLast_receiptTrie huint cfg htx⟩

/-- The receipt is that of the transaction in all that the encoding covers.  The map holds that
receipt too when the transactions have hashes of their own. -/
structure Authentic (cfg : Config) (n : RpcNode) (tx : TxRecord) (receipt : ReceiptRecord) : Prop where
  executed : receipt.toGethReceipt.Alike (consensusReceipt cfg tx)
  stored : ReachableBy cfg (ReceiptStep cfg) n → ∃ r, n.receipts.get? (toLower tx.hash) = some r ∧
    receipt.toGethReceipt.Alike r.toGethReceipt

omit [TrieProofs] in
theorem authentic_of_alike (hb : b ∈ n.blocks) {tx : TxRecord} (htx : tx ∈ b.transactions)
    {receipt : ReceiptRecord} (h : receipt.toGethReceipt.Alike (consensusReceipt cfg tx)) :
    Authentic cfg n tx receipt := by
  refine ⟨h, fun hreach => ?_⟩
  obtain ⟨i, hi⟩ := List.getElem?_of_mem htx
  obtain ⟨r, hr, hfor⟩ := hreach.receiptsOk.2.entry b hb i tx hi
  exact ⟨r, hr, hfor.consensus.symm ▸ h⟩

theorem authentic_receipt (hproofs : TrieProofs.Sound) (hroots : ReceiptRootsOk cfg n)
    (hb : b ∈ n.blocks) {request : ReceiptRequest}
    (hroot : hexToHash request.receiptRoot.sprint = hexToHash b.receiptRoot)
    (hvalid : (verifyReceiptProof request).valid = true) :
    ∃ receipt tx, request.receipt = .object (.ok receipt) ∧
      b.transactions[quantityFromInterface request.transactionIndex]? = some tx ∧
      (verifyReceiptProof request).receiptRoot = some b.receiptRoot ∧
      Authentic cfg n tx receipt := by
  obtain ⟨receipt, hreceipt, hverify, hne, hreported⟩ := verifyReceiptProof_ok hvalid
  rw [hroot] at hverify hreported
  rcases hroots b hb with hzero | hown
  · have hhash : hexToHash zeroHash = List.replicate 32 0 := by decide +kernel
    rw [hzero, hhash] at hverify
    exact absurd hverify (hproofs.zero _ _ _)
  · have hhash : hexToHash b.receiptRoot = Platform.trieRoot (receiptTrie cfg b.transactions) := by
      rw [hown, hexToHash_hexString (hproofs.root _)]
    rw [hhash] at hverify hreported
    have hvalue := hproofs.verify _ _ _ _ hverify
    rw [hvalue] at hne
    obtain ⟨tx, htx, hlookup⟩ := exists_of_lookupLast hproofs.uint hne
    refine ⟨receipt, tx, hreceipt, htx, by rw [hreported, hown], ?_⟩
    exact authentic_of_alike hb (List.mem_of_getElem? htx)
      (hproofs.receipt _ _ (hvalue.trans hlookup))

/-- **What is authenticated.** An accepted receipt proof under the root of a canonical block names
an index of the block, and its receipt is that of the transaction there in all that the encoding
covers.  An accepted log proof claims a log of such a receipt, and the transaction has a log with
the same address, topics and data at that place. -/
theorem authenticated_of_valid (hproofs : TrieProofs.Sound) (h : Reachable cfg n) {k : ℕ}
    (hb : n.blockAt k = some b) :
    (∀ request : ReceiptRequest, hexToHash request.receiptRoot.sprint = hexToHash b.receiptRoot →
      (verifyReceiptProof request).valid = true →
      ∃ receipt tx, request.receipt = .object (.ok receipt) ∧
        b.transactions[quantityFromInterface request.transactionIndex]? = some tx ∧
        (verifyReceiptProof request).receiptRoot = some b.receiptRoot ∧
        Authentic cfg n tx receipt) ∧
    ∀ (request : LogRequest) (p : ReceiptRequest), request.receiptProof = some p →
      hexToHash p.receiptRoot.sprint = hexToHash b.receiptRoot →
      (verifyLogProof request).valid = true →
      ∃ receipt tx actual claimed, p.receipt = .object (.ok receipt) ∧
        b.transactions[quantityFromInterface p.transactionIndex]? = some tx ∧
        Authentic cfg n tx receipt ∧
        receipt.logs[quantityFromInterface request.logIndex]? = some actual ∧
        request.log = some (.ok claimed) ∧ logsEqual actual claimed = true ∧
        (consensusLogs cfg tx)[quantityFromInterface request.logIndex]? = some actual.toGethLog := by
  have hroots := h.receiptRootsOk
  have hmem := ChainOk.mem_of_blockAt hb
  refine ⟨fun request => authentic_receipt hproofs hroots hmem, ?_⟩
  intro request p hp hroot hvalid
  obtain ⟨p', receipt, actual, claimed, hp', hvalid', hreceipt, hactual, hclaimed, hequal⟩ :=
    verifyLogProof_ok hvalid
  rw [hp] at hp'
  cases hp'
  obtain ⟨receipt', tx, hreceipt', htx, -, hauthentic⟩ :=
    authentic_receipt hproofs hroots hmem hroot hvalid'
  rw [hreceipt] at hreceipt'
  cases hreceipt'
  refine ⟨receipt, tx, actual, claimed, hreceipt, htx, hauthentic, hactual, hclaimed, hequal, ?_⟩
  have hlogs : receipt.logs.map LogRecord.toGethLog = consensusLogs cfg tx := hauthentic.executed.logs
  rw [← hlogs, List.getElem?_map, hactual]
  rfl

end Accept

/-! ## Sound proofs to evaluate on -/

/-- A receipt as a list of its fields. -/
def listReceipt (r : ConsensusReceipt) : Bytes :=
  listUpdates (([if r.status = 0 then 0 else 1], List.replicate r.cumulativeGasUsed 0) ::
    (r.bloom, []) :: r.logs.map fun lg =>
      (lg.address, listUpdates ((lg.data, []) :: lg.topics.map fun topic => (topic, []))))

omit [Platform] in
theorem listReceipt_alike {r r' : ConsensusReceipt} (h : listReceipt r = listReceipt r') :
    r.Alike r' := by
  have hlog : Function.Injective fun lg : ConsensusLog =>
      (lg.address, listUpdates ((lg.data, []) :: lg.topics.map fun topic => (topic, []))) := by
    rintro ⟨address, topics, data⟩ ⟨address', topics', data'⟩ heq
    obtain ⟨rfl, hrest⟩ := Prod.mk.inj heq
    obtain ⟨hdata, htopics⟩ := List.cons.inj (listUpdates_injective hrest)
    obtain ⟨rfl, -⟩ := Prod.mk.inj hdata
    have hpair : Function.Injective fun topic : Bytes => (topic, ([] : Bytes)) :=
      fun t t' ht => (Prod.mk.inj ht).1
    have hsame : topics = topics' := List.map_injective_iff.mpr hpair htopics
    rw [hsame]
  obtain ⟨hhead, htail⟩ := List.cons.inj (listUpdates_injective h)
  obtain ⟨hstatus, hgas⟩ := Prod.mk.inj hhead
  obtain ⟨hbloom, hlogs⟩ := List.cons.inj htail
  refine ⟨?_, ?_, (Prod.mk.inj hbloom).1, List.map_injective_iff.mpr hlog hlogs⟩
  · by_cases hs : r.status = 0 <;> by_cases hs' : r'.status = 0 <;> simp [hs, hs'] at hstatus ⊢
  · have hlength := congrArg List.length hgas
    rwa [List.length_replicate, List.length_replicate] at hlength

/-- As `Platform.checksums`, with encodings that list the fields. -/
@[reducible] def Platform.listed : Platform :=
  { Platform.checksums with
    rlpUint := fun i => List.replicate i 0 ++ [1]
    rlpReceipt := listReceipt }

/-- A hash of 32 bytes that tells one blob from all others. -/
def knownHash (known b : Bytes) : Bytes := (if b = known then 1 else 2) :: List.replicate 31 0

/-- As `Platform.listed`, with a hash that knows one blob. -/
@[reducible] def Platform.oneKnown (known : Bytes) : Platform :=
  { Platform.listed with
    keccak256 := knownHash known
    trieRoot := fun t => knownHash known (listUpdates t) }

/-- Proofs of the trie that is listed by the known blob, by that blob. -/
@[reducible] def TrieProofs.oneKnown (known : Bytes) : TrieProofs where
  prove t _ := .ok [listUpdates t]
  verifyProof root key db :=
    match db root with
    | none => .error "proof node missing"
    | some blob =>
        if root = knownHash known known then .ok (lookupLast (readUpdates blob.length blob) key)
        else .error "proof node unknown"

omit [Platform] in
theorem knownHash_eq {known b : Bytes} (h : knownHash known b = knownHash known known) : b = known := by
  by_contra hne
  have hhead := (List.cons.inj h).1
  rw [if_neg hne, if_pos rfl] at hhead
  exact absurd hhead (by decide)

omit [Platform] in
/-- A blob that is found under the hash of the known one is the known one. -/
theorem proofSet_oneKnown {known root blob : Bytes} {proof : List Bytes}
    (hroot : root = knownHash known known)
    (h : @proofSet (Platform.oneKnown known) proof root = some blob) : blob = known := by
  obtain ⟨e, he, rfl⟩ := Option.map_eq_some_iff.mp h
  have hmem := List.mem_reverse.mp (List.mem_of_find?_eq_some he)
  have hkey : e.1 = root := by simpa using List.find?_some he
  obtain ⟨blob, -, rfl⟩ := List.mem_map.mp hmem
  exact knownHash_eq (hkey.trans hroot)

omit [Platform] in
theorem verifyProof_oneKnown {known root key value : Bytes} {proof : List Bytes}
    (h : (TrieProofs.oneKnown known).verifyProof root key
      (@proofSet (Platform.oneKnown known) proof) = .ok value) :
    root = knownHash known known ∧ value = lookupLast (readUpdates known.length known) key := by
  have hmatch : (match @proofSet (Platform.oneKnown known) proof root with
    | none => Except.error "proof node missing"
    | some blob =>
        if root = knownHash known known then .ok (lookupLast (readUpdates blob.length blob) key)
        else .error "proof node unknown") = .ok value := h
  split at hmatch
  · cases hmatch
  · next blob hblob =>
      split at hmatch
      · next hroot =>
          rw [proofSet_oneKnown hroot hblob] at hmatch
          cases hmatch
          exact ⟨hroot, rfl⟩
      · cases hmatch

omit [Platform] in
/-- The known blob is enough to prove the values of its trie. -/
theorem verifyProof_known {known : Bytes} {t : Trie} (h : listUpdates t = known) (key : Bytes) :
    (TrieProofs.oneKnown known).verifyProof (knownHash known known) key
      (@proofSet (Platform.oneKnown known) [known]) = .ok (lookupLast t key) := by
  have hdb : @proofSet (Platform.oneKnown known) [known] (knownHash known known) = some known :=
    ofEntries_singleton _ _
  show (match @proofSet (Platform.oneKnown known) [known] (knownHash known known) with
    | none => Except.error "proof node missing"
    | some blob =>
        if knownHash known known = knownHash known known then
          .ok (lookupLast (readUpdates blob.length blob) key)
        else .error "proof node unknown") = _
  rw [hdb]
  dsimp only
  rw [if_pos rfl, ← h, readUpdates_listUpdates (length_le_listUpdates t)]

omit [Platform] in
theorem sound_oneKnown (known : Bytes) :
    @TrieProofs.Sound (Platform.oneKnown known) (TrieProofs.oneKnown known) := by
  refine @TrieProofs.Sound.mk (Platform.oneKnown known) (TrieProofs.oneKnown known) ?_ ?_ ?_ ?_ ?_
  · intro t
    exact congrArg (· + 1) (List.length_replicate (n := 31) (a := (0 : UInt8)))
  · intro key proof value heq
    obtain ⟨hroot, -⟩ := verifyProof_oneKnown heq
    have hhead := (List.cons.inj hroot).1
    rw [if_pos rfl] at hhead
    exact absurd hhead (by decide)
  · intro t key proof value heq
    obtain ⟨hroot, hvalue⟩ := verifyProof_oneKnown heq
    have hknown : listUpdates t = known := knownHash_eq hroot
    rw [hvalue, ← hknown, readUpdates_listUpdates (length_le_listUpdates t)]
  · exact @TrieProofs.Complete.uint Platform.oneBlob TrieProofs.oneBlob complete_oneBlob
  · exact fun r r' => listReceipt_alike

/-! ## A receipt under another name -/

/-- The receipt with another text for the hashes and numbers that place it on the chain. -/
def ReceiptRecord.relabel (r : ReceiptRecord) (label : String) : ReceiptRecord :=
  { r with
    transactionHash := label
    blockHash := label
    blockNumber := label
    logs := r.logs.map fun lg =>
      { lg with transactionHash := label, blockHash := label, blockNumber := label, logIndex := label } }

/-- The encoding does not see the label. -/
theorem ReceiptRecord.toGethReceipt_relabel (r : ReceiptRecord) (label : String) :
    (r.relabel label).toGethReceipt = r.toGethReceipt := by
  have hlogs : (r.relabel label).logs.map LogRecord.toGethLog = r.logs.map LogRecord.toGethLog := by
    rw [relabel, List.map_map]
    rfl
  rw [toGethReceipt, toGethReceipt, bloomOf, bloomOf, hlogs]
  rfl

omit [Platform] in
theorem equalFold_self_all [CaseTable] (topics : List Topic) :
    ((topics.zip topics).all fun e => equalFold e.1.text e.2.text) = true := by
  induction topics with
  | nil => rfl
  | cons topic topics ih =>
      rw [List.zip_cons_cons, List.all_cons, ih, equalFold_refl]
      rfl

theorem logsEqual_refl (lg : LogRecord) : logsEqual lg lg = true := by
  simp [logsEqual, equalFold_self_all]

/-- A proof that proves a receipt, with the label in its place. -/
def forgedProof (b : BlockRecord) (proof : List Bytes) (r : ReceiptRecord) (label : String) :
    ReceiptRequest where
  receiptRoot := .str b.receiptRoot
  transactionIndex := .str (toHex 0)
  proof := proofHexList proof
  receipt := .object (.ok (r.relabel label))

theorem root_forgedProof (b : BlockRecord) (proof : List Bytes) (r : ReceiptRecord)
    (label : String) :
    hexToHash (forgedProof b proof r label).receiptRoot.sprint = hexToHash b.receiptRoot := rfl

/-- The check of a proof does not see the label, and answers with it. -/
theorem verifyReceiptProof_forged [TrieProofs] {b : BlockRecord} {proof : List Bytes}
    {r : ReceiptRecord} (hproof : ∀ blob ∈ proof, blob ≠ [])
    (hverify : TrieProofs.verifyProof (hexToHash b.receiptRoot) (Platform.rlpUint 0) (proofSet proof) =
      .ok (Platform.rlpReceipt r.toGethReceipt))
    (hne : Platform.rlpReceipt r.toGethReceipt ≠ []) (label : String) :
    (verifyReceiptProof (forgedProof b proof r label)).valid = true ∧
      (verifyReceiptProof (forgedProof b proof r label)).transactionHash = some label ∧
      (verifyReceiptProof (forgedProof b proof r label)).blockHash = some label := by
  have hquantity : quantityFromInterface (.str (toHex 0)) = 0 := quantity64_toHex (by decide)
  have hdb := proofSetFromHex_proofHexList hproof
  have hproven : provenReceipt (hexToHash b.receiptRoot) 0 (proofSet proof)
      "receipt proof returned empty value" = .ok (Platform.rlpReceipt r.toGethReceipt) := by
    rw [provenReceipt, hverify]
    exact if_neg hne
  rw [verifyReceiptProof, forgedProof, hquantity, hdb, Value.sprint]
  dsimp only
  rw [hproven]
  dsimp only
  rw [r.toGethReceipt_relabel, decide_eq_true rfl]
  exact ⟨rfl, rfl, rfl⟩

/-- The same for a log of the receipt. -/
theorem verifyLogProof_forged [TrieProofs] {p : ReceiptRequest} {receipt : ReceiptRecord}
    {lg : LogRecord} (hvalid : (verifyReceiptProof p).valid = true)
    (hreceipt : p.receipt = .object (.ok receipt)) (hlog : receipt.logs[0]? = some lg) :
    (verifyLogProof ⟨.str (toHex 0), some (.ok lg), some p⟩).valid = true ∧
      (verifyLogProof ⟨.str (toHex 0), some (.ok lg), some p⟩).transactionHash =
        some receipt.transactionHash := by
  have hquantity : quantityFromInterface (.str (toHex 0)) = 0 := quantity64_toHex (by decide)
  rw [verifyLogProof]
  dsimp only
  rw [if_neg (not_not_intro hvalid), hreceipt]
  dsimp only
  rw [hquantity, compareLog.eq_def, hlog]
  exact ⟨logsEqual_refl lg, rfl⟩

/-! ## An anchor call under another name -/

section Anchor
variable {fresh n : RpcNode} {ω : Choices}

/-- A fresh node that mines an anchor call: the node before it is mined. -/
theorem next_anchorCall (hfresh : fresh = newRPCNode {} ω {})
    (hn : n = fresh.next {} ω (.sendTransaction anchorCall)) :
    n = (RpcNode.minePendingBlock
      { fresh with pendingTxs := [fresh.txOfObject (ω.call 0) anchorCall ""] } {} (ω.call 1)).2 := by
  obtain ⟨ω₁, l, timestamp, heq, -⟩ := newRPCNode_fresh {} ω
  have hempty : fresh.pendingTxs = [] := by rw [hfresh, heq]
  have hworld : fresh.world = freshWorld {} := by rw [hfresh, heq]
  rw [hn]
  show (fresh.sendTransaction {} ω anchorCall).2 = _
  rw [RpcNode.sendTransaction, validate_anchorCall hworld, RpcNode.addChecked,
    RpcNode.addPendingTransaction, RpcNode.enqueue_of_empty rfl hempty]

/-- The node after it: the blocks, the receipt and its log. -/
theorem fresh_anchorCall (hfresh : fresh = newRPCNode {} ω {})
    (hn : n = fresh.next {} ω (.sendTransaction anchorCall)) :
    Reachable {} n ∧ ∃ b tx r lg, n.blockAt 2 = some b ∧ b.transactions = [tx] ∧
      b.receiptRoot = hexString (Platform.trieRoot (receiptTrie {} [tx])) ∧
      tx.sender = defaultAccount ∧ tx.recipient = bridge ∧ tx.value = hexText 0 ∧
      tx.input = "0x3de90c0b" ∧ n.receipts.get? (toLower tx.hash) = some r ∧
      ReceiptFor {} b 0 tx r ∧ r.logs[0]? = some lg ∧
      (∃ data, tx.hash = hashHex data) ∧ ∃ data, b.hash = hashHex data := by
  have hnext := next_anchorCall hfresh hn
  obtain ⟨hsender, hrecipient, hvalue, hinput⟩ := anchorCall_record fresh (ω.call 0)
  have hhash : ∃ data, (fresh.txOfObject (ω.call 0) anchorCall "").hash = hashHex data := ⟨_, rfl⟩
  have hreach : Reachable {} fresh := ⟨ω, hfresh ▸ .refl⟩
  have hchain : ChainOk fresh := hfresh ▸ chainOk_fresh {} ω
  have hheight : fresh.height = 1 := by
    obtain ⟨ω₁, l, timestamp, heq, -⟩ := newRPCNode_fresh {} ω
    rw [hfresh, heq]
  obtain ⟨hash, number, r, hblocks, htxs, hroot, hr, hfor⟩ := blocks_mineOne hfresh
    (fresh.txOfObject (ω.call 0) anchorCall "") (ω.call 1)
  generalize fresh.txOfObject (ω.call 0) anchorCall "" = tx at *
  rw [← hnext] at hblocks hr
  constructor
  · have hqueued : ChainOk { fresh with pendingTxs := [tx] } := hchain.of_eq rfl rfl rfl rfl rfl
    have hlt : fresh.height + 1 < 2 ^ 63 := by rw [hheight]; decide
    refine hn ▸ hreach.next trivial ?_
    rw [← hn, hnext]
    exact (mined_of_height_lt hqueued hlt {} (ω.call 1)).1
  · have hlogs : r.logs.map LogRecord.toGethLog = consensusLogs {} (RpcNode.minedTx tx hash number 0) :=
      congrArg ConsensusReceipt.logs hfor.consensus
    have hcalls : (RpcNode.minedTx tx hash number 0).recipient ≠ "" ∧
        (RpcNode.minedTx tx hash number 0).recipient = ({} : Config).bridgeAddress := by
      show tx.recipient ≠ "" ∧ tx.recipient = bridge
      rw [hrecipient]
      exact ⟨by decide, rfl⟩
    rw [consensusLogs, if_pos hcalls] at hlogs
    obtain ⟨lg, rest, hlist, -⟩ := List.map_eq_cons_iff.mp hlogs
    refine ⟨_, _, r, lg, ?_, htxs, htxs ▸ hroot, hsender, hrecipient, hvalue, hinput, hr, hfor, ?_,
      hhash, _, rfl⟩
    · rw [RpcNode.blockAt, hblocks]
      rfl
    · rw [hlist]
      rfl

end Anchor

/-- The consensus part of the receipt of an anchor call, given the topic of its log. -/
def anchorReceipt (topic : String) : ConsensusReceipt :=
  let logs : List ConsensusLog :=
    [{ address := hexToAddress bridge
       topics := [topic, padTo64 (trimPrefix defaultAccount "0x"),
         padTo64 (trimPrefix bridge "0x")].map hexToHash
       data := fromHex (hexText 0) }]
  { status := quantity64 "0x1"
    cumulativeGasUsed := quantity64 "0x5208"
    bloom := Platform.createBloom logs
    logs := logs }

theorem consensusReceipt_anchorCall {tx : TxRecord} (hsender : tx.sender = defaultAccount)
    (hrecipient : tx.recipient = bridge) (hvalue : tx.value = hexText 0)
    (hinput : tx.input = "0x3de90c0b") :
    consensusReceipt {} tx = anchorReceipt (topicHash "AnchorSubmitted") := by
  have hcalls : tx.recipient ≠ "" ∧ tx.recipient = ({} : Config).bridgeAddress := by
    rw [hrecipient]
    exact ⟨by decide, rfl⟩
  have hlogs : consensusLogs {} tx = (anchorReceipt (topicHash "AnchorSubmitted")).logs := by
    rw [consensusLogs, if_pos hcalls, RpcNode.bridgeTopic, if_pos (isAnchorCall_record hinput).1,
      List.map_cons, List.map_cons, List.map_singleton, Topic.text_ofText, text_paddedTopic,
      text_paddedTopic, hsender, hrecipient, normalizeAddress_defaultAccount,
      normalizeAddress_bridge, hvalue]
    rfl
  rw [consensusReceipt, hlogs]
  rfl

/-- The blob that lists the trie of the receipt of an anchor call. -/
def anchorBlob : Bytes :=
  listUpdates [([1], listReceipt (@anchorReceipt Platform.listed
    (hexString (2 :: List.replicate 31 0))))]

omit [Platform] in
/-- The trie of a block with one anchor call is the known one. -/
theorem listUpdates_anchorCall {tx : TxRecord} (hsender : tx.sender = defaultAccount)
    (hrecipient : tx.recipient = bridge) (hvalue : tx.value = hexText 0)
    (hinput : tx.input = "0x3de90c0b") :
    listUpdates (@receiptTrie (Platform.oneKnown anchorBlob) {} [tx]) = anchorBlob := by
  have hreceipt := @consensusReceipt_anchorCall (Platform.oneKnown anchorBlob) tx hsender hrecipient
    hvalue hinput
  have hne : utf8 "AnchorSubmitted" ≠ anchorBlob := by
    intro heq
    have hhead : (utf8 "AnchorSubmitted").headD 0 = 1 := by
      rw [heq]
      rfl
    revert hhead
    decide
  have htopic : @topicHash (Platform.oneKnown anchorBlob) "AnchorSubmitted" =
      hexString (2 :: List.replicate 31 0) := by
    rw [@topicHash.eq_def (Platform.oneKnown anchorBlob)]
    exact congrArg (fun x => hexString (x :: List.replicate 31 0)) (if_neg hne)
  rw [htopic] at hreceipt
  have htrie : @receiptTrie (Platform.oneKnown anchorBlob) {} [tx] =
      [([1], listReceipt (@consensusReceipt (Platform.oneKnown anchorBlob) {} tx))] := rfl
  rw [htrie, hreceipt]
  rfl

omit [Platform] in
/-- The known blob proves the receipt of the anchor call, under whatever label. -/
theorem forged_anchorCall {b : BlockRecord} {tx : TxRecord} {r : ReceiptRecord}
    (hsender : tx.sender = defaultAccount) (hrecipient : tx.recipient = bridge)
    (hvalue : tx.value = hexText 0) (hinput : tx.input = "0x3de90c0b") :
    letI := Platform.oneKnown anchorBlob
    letI := TrieProofs.oneKnown anchorBlob
    b.receiptRoot = hexString (Platform.trieRoot (receiptTrie {} [tx])) → ReceiptFor {} b 0 tx r →
    ∀ label, (verifyReceiptProof (forgedProof b [anchorBlob] r label)).valid = true ∧
      (verifyReceiptProof (forgedProof b [anchorBlob] r label)).transactionHash = some label ∧
      (verifyReceiptProof (forgedProof b [anchorBlob] r label)).blockHash = some label := by
  intro hroot hfor
  obtain ⟨hlength, -, -, huint, -⟩ := sound_oneKnown anchorBlob
  have hknown := listUpdates_anchorCall hsender hrecipient hvalue hinput
  have hconsensus := @ReceiptFor.consensus (Platform.oneKnown anchorBlob) _ _ _ _ _ hfor
  have hlookup := @lookupLast_receiptTrie (Platform.oneKnown anchorBlob) huint {} [tx] 0 tx rfl
  have hhash : hexToHash b.receiptRoot = knownHash anchorBlob anchorBlob := by
    rw [hroot, hexToHash_hexString (hlength _)]
    exact congrArg (knownHash anchorBlob) hknown
  refine @verifyReceiptProof_forged (Platform.oneKnown anchorBlob) (TrieProofs.oneKnown anchorBlob) b
    [anchorBlob] r ?_ ?_ ?_
  · intro blob hblob
    rw [List.mem_singleton.mp hblob]
    exact listUpdates_ne_nil (List.cons_ne_nil _ _)
  · rw [hhash, hconsensus, ← hlookup]
    exact verifyProof_known hknown _
  · exact listUpdates_ne_nil (List.cons_ne_nil _ _)

omit [Platform] in
/-- An accepted proof of the receipt of an anchor call, under another label. -/
theorem authenticated_anchorCall :
    letI := Platform.oneKnown anchorBlob
    letI := TrieProofs.oneKnown anchorBlob
    let n := (newRPCNode {} default {}).next {} default (.sendTransaction anchorCall)
    ∃ request receipt tx b, n.blockAt 2 = some b ∧ (verifyReceiptProof request).valid = true ∧
      request.receipt = .object (.ok receipt) ∧ tx ∈ b.transactions ∧ Authentic {} n tx receipt := by
  obtain ⟨hreach, b, tx, r, lg, hb, -, hroot, hsender, hrecipient, hvalue, hinput, -, hfor, -⟩ :=
    @fresh_anchorCall (Platform.oneKnown anchorBlob) _ _ default rfl rfl
  have hvalid := (forged_anchorCall hsender hrecipient hvalue hinput hroot hfor "forged").1
  have hauthenticated := @authenticated_of_valid (Platform.oneKnown anchorBlob)
    (TrieProofs.oneKnown anchorBlob) _ _ _ (sound_oneKnown anchorBlob) hreach 2 hb
  obtain ⟨receipt, tx', hreceipt, htx', -, hauthentic⟩ :=
    hauthenticated.1 (forgedProof b [anchorBlob] r "forged")
      (@root_forgedProof (Platform.oneKnown anchorBlob) _ _ _ _) hvalid
  exact ⟨_, receipt, tx', b, hb, hvalid, hreceipt, List.mem_of_getElem? htx', hauthentic⟩

omit [Platform] in
/-- **A forgery.** The receipt of a mined anchor call, with another text for the hash of its
transaction, the hash and number of its block and the number of its log, is accepted with its
log, and the answers name that text. -/
theorem verify_accepts_forgery :
    letI := Platform.oneKnown anchorBlob
    letI := TrieProofs.oneKnown anchorBlob
    let n := (newRPCNode {} default {}).next {} default (.sendTransaction anchorCall)
    TrieProofs.Sound ∧ Reachable {} n ∧ ∃ b tx r lg p, n.blockAt 2 = some b ∧ b.transactions = [tx] ∧
      n.receipts.get? (toLower tx.hash) = some r ∧ r.transactionHash ≠ "forged" ∧
      r.blockHash ≠ "forged" ∧ p.receiptRoot = .str b.receiptRoot ∧
      (verifyReceiptProof p).valid = true ∧
      (verifyReceiptProof p).transactionHash = some "forged" ∧
      (verifyReceiptProof p).blockHash = some "forged" ∧
      (verifyLogProof ⟨.str (toHex 0), some (.ok lg), some p⟩).valid = true ∧
      (verifyLogProof ⟨.str (toHex 0), some (.ok lg), some p⟩).transactionHash = some "forged" ∧
      lg.logIndex = "forged" ∧ lg.blockNumber = "forged" := by
  obtain ⟨hreach, b, tx, r, lg, hb, htxs, hroot, hsender, hrecipient, hvalue, hinput, hr, hfor, hlg,
    ⟨data, htx⟩, data', hblock⟩ := @fresh_anchorCall (Platform.oneKnown anchorBlob) _ _ default rfl rfl
  obtain ⟨hvalid, hhash, hhash'⟩ := forged_anchorCall hsender hrecipient hvalue hinput hroot hfor
    "forged"
  have hname : r.transactionHash ≠ "forged" := by
    rw [@ReceiptFor.transactionHash (Platform.oneKnown anchorBlob) _ _ _ _ _ hfor, htx]
    exact @hashHex_ne (Platform.oneKnown anchorBlob) "forged" (by decide) data
  have hname' : r.blockHash ≠ "forged" := by
    rw [@ReceiptFor.blockHash (Platform.oneKnown anchorBlob) _ _ _ _ _ hfor, hblock]
    exact @hashHex_ne (Platform.oneKnown anchorBlob) "forged" (by decide) data'
  have hlog : (r.relabel "forged").logs[0]? = some { lg with
      transactionHash := "forged"
      blockHash := "forged"
      blockNumber := "forged"
      logIndex := "forged" } := by
    rw [ReceiptRecord.relabel, List.getElem?_map, hlg]
    rfl
  obtain ⟨hvalid', hanswer⟩ := @verifyLogProof_forged (Platform.oneKnown anchorBlob)
    (TrieProofs.oneKnown anchorBlob) (forgedProof b [anchorBlob] r "forged") _ _ hvalid rfl hlog
  exact ⟨sound_oneKnown anchorBlob, hreach, b, tx, r, _, forgedProof b [anchorBlob] r "forged", hb,
    htxs, hr, hname, hname', rfl, hvalid, hhash, hhash', hvalid', hanswer, rfl, rfl⟩

end BhtBhte.Node
