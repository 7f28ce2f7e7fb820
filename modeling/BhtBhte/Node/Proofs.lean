import BhtBhte.Node.Chain

/-!
# Account, receipt and log proofs

The calls that hand out trie proofs and the calls that check them.  Making and checking a
proof is the work of the trie package; `TrieProofs` stands for these two functions.
-/
namespace BhtBhte.Node
open BhtBhte.Lib

/-- Proofs of the trie package.  A proof is a list of blobs; it is checked against a set of
blobs, each found under its hash. -/
class TrieProofs where
  prove : Trie → Bytes → Except String (List Bytes)
  verifyProof : Bytes → Bytes → (Bytes → Option Bytes) → Except String Bytes

variable [Platform] [TrieProofs]

def proofHexList (proof : List Bytes) : List String := proof.map hexString

/-! ## Accounts -/

/-- Why there is no account proof. -/
inductive AccountProofError
  | unsupportedReference (blockRef : String)
  | snapshotNotFound (blockRef : String)
  | snapshotIncomplete (blockRef : String)
  | rootMismatch (blockNumber snapshotRoot computed : String)
deriving DecidableEq

/-- A slot with its proof. -/
structure StorageProof where
  key : String
  value : String
  proof : List String
deriving DecidableEq

/-- An account with its proof and those of its slots. -/
structure AccountProof where
  address : String
  balance : String
  nonce : String
  codeHash : String
  storageHash : String
  stateRoot : String
  blockNumber : String
  blockHash : String
  accountProof : List String
  storageProof : List StorageProof
deriving DecidableEq

/-- `strconv.ParseUint` in base 10. -/
def parseUint (s : String) : Option ℕ := (parseDigits 10 s.toList).filter (· < 2 ^ 64)

/-- The reference stands for the head of the chain. -/
def isHeadRef (blockRef : String) : Bool :=
  let blockRef := trimSpace blockRef
  blockRef = "" || blockRef = "latest" || blockRef = "pending"

namespace RpcNode

/-- The height that a reference other than the head names, zero when it names none. -/
def refHeight (n : RpcNode) (blockRef : String) : ℕ :=
  let blockRef := trimSpace blockRef
  if hasPrefix blockRef "0x" then quantity64 blockRef
  else
    let height := ((n.blocks.find? fun b => equalFold b.hash blockRef).map fun b =>
      quantity64 b.number).getD 0
    if height = 0 then (parseUint blockRef).getD 0 else height

/-- The snapshot of the block that a reference names, as the node reads it. -/
def snapshotForBlock (n : RpcNode) (ω : Choices) (blockRef : String) :
    Except AccountProofError StateSnapshotRecord :=
  if isHeadRef blockRef then
    let latest := n.lastBlock
    match n.stateSnapshots.get? (quantity64 latest.number) with
    | some snapshot =>
        if ¬ snapshot.complete then .error (.snapshotIncomplete latest.number)
        else .ok (n.currentStateSnapshot ω latest.hash "")
    | none => .ok (n.currentStateSnapshot ω latest.hash "")
  else
    let height := n.refHeight blockRef
    if height = 0 then .error (.unsupportedReference (trimSpace blockRef))
    else
      match n.stateSnapshots.get? height with
      | none => .error (.snapshotNotFound (trimSpace blockRef))
      | some snapshot =>
          if ¬ snapshot.complete then .error (.snapshotIncomplete (trimSpace blockRef))
          else .ok snapshot

end RpcNode

/-- The proof of one key, empty when the trie cannot give one. -/
def provedBy (t : Trie) (key : Bytes) : List String :=
  proofHexList ((TrieProofs.prove t key).toOption.getD [])

/-- The proof of a slot. -/
def storageProof (w : World) (addr key : String) : StorageProof :=
  let key := normalizeStorageKey key
  { key := key
    value := match w.storage.get? addr with
      | some slots => stringOrDefault ((slots.get? key).getD "") zeroHash
      | none => zeroHash
    proof := provedBy (buildStorageTrieFromSnapshot w addr) (Platform.keccak256 (fromHex key)) }

/-- The proof of an account in a snapshot, refused when the recorded root is not the root of
the snapshot's content. -/
def proofFromSnapshot (snapshot : StateSnapshotRecord) (addr : String) (storageKeys : List String) :
    Except AccountProofError AccountProof :=
  let stateRoot := stateTrieRoot snapshot.world
  if snapshot.stateRoot ≠ "" ∧ snapshot.stateRoot ≠ zeroHash ∧
      ¬ equalFold snapshot.stateRoot stateRoot then
    .error (.rootMismatch (toHex snapshot.height) snapshot.stateRoot stateRoot)
  else
    .ok
      { address := addr
        balance := stringOrDefault ((snapshot.world.balances.get? addr).getD "") "0x0"
        nonce := toHex ((snapshot.world.nonces.get? addr).getD 0)
        codeHash := hexString (codeHashFromSnapshot snapshot.world addr)
        storageHash := storageRootFromSnapshot snapshot.world addr
        stateRoot := stateRoot
        blockNumber := toHex snapshot.height
        blockHash := snapshot.blockHash
        accountProof := provedBy (buildStateTrieFromSnapshot snapshot.world)
          (Platform.keccak256 (hexToAddress addr))
        storageProof := storageKeys.map (storageProof snapshot.world addr) }

/-- The proof of an account at a block. -/
def RpcNode.accountProof (n : RpcNode) (ω : Choices) (addr : String) (storageKeys : List String)
    (blockRef : String) : Except AccountProofError AccountProof :=
  match n.snapshotForBlock ω blockRef with
  | .error e => .error e
  | .ok snapshot => proofFromSnapshot snapshot (normalizeAddress addr) storageKeys

/-! ## Receipts -/

/-- A set of blobs, as the lookup by hash. -/
abbrev ProofSet := Bytes → Option Bytes

/-- The last of the entries with this hash. -/
def ProofSet.ofEntries (entries : List (Bytes × Bytes)) : ProofSet :=
  fun hash => (entries.reverse.find? fun e => e.1 = hash).map Prod.snd

/-- The set of a proof list: each blob under its hash. -/
def proofSet (proof : List Bytes) : ProofSet :=
  .ofEntries (proof.map fun blob => (Platform.keccak256 blob, blob))

/-- `none` when a node is empty. -/
def proofSetFromHex (nodes : List String) : Option ProofSet :=
  if nodes.any fun node => (fromHex node).isEmpty then none else some (proofSet (nodes.map fromHex))

/-- `none` when the commit has no readable node. -/
def proofSetFromCommit (commit : TrieCommitRecord) : Option ProofSet :=
  let entries := (commit.nodes.filter fun node =>
      !node.deleted && !(fromHex node.hash).isEmpty && !(fromHex node.blob).isEmpty).map
    fun node => (fromHex node.hash, fromHex node.blob)
  if entries.isEmpty then none else some (.ofEntries entries)

/-- A receipt with its proof. -/
structure ReceiptProof where
  transactionHash : String
  transactionIndex : String
  blockHash : String
  blockNumber : String
  receiptRoot : String
  proof : List String
  receipt : ReceiptRecord

/-- The `receipt` member of a request: absent, a value that is no object, or an object with
what decoding it into a record gives. -/
inductive ReceiptMember
  | null
  | other (error : String)
  | object (decoded : Except String ReceiptRecord)

/-- A request to check a receipt: the decoded members. -/
structure ReceiptRequest where
  receiptRoot : Value
  transactionIndex : Value
  proof : List String := []
  receipt : ReceiptMember

/-- The answer to a check; the members after the message are given when the check got as far
as comparing encodings. -/
structure Verification where
  valid : Bool
  message : String
  receiptRoot : Option String := none
  transactionHash : Option String := none
  blockHash : Option String := none
  commitKind : Option String := none
  commitHeight : Option String := none
  logIndex : Option String := none
  receiptMessage : Option String := none
deriving DecidableEq

/-- A refused proof. -/
def invalid (message : String) : Verification where
  valid := false
  message := message

namespace RpcNode

/-- The block with a hash, up to case. -/
def blockByHash (n : RpcNode) (hash : String) : Option BlockRecord :=
  n.blocks.find? fun block => toLower block.hash = toLower hash

/-- The receipts that are recorded for the transactions of a block. -/
def receiptsForBlock (n : RpcNode) (block : BlockRecord) : List ReceiptRecord :=
  block.transactions.filterMap fun tx => n.receipts.get? (toLower tx.hash)

/-- The last commit of a root, of whatever kind. -/
def trieCommitByRoot (n : RpcNode) (root : String) : Option TrieCommitRecord :=
  n.trieCommits.reverse.find? fun commit => toLower commit.root = toLower root

/-- The proof of the receipt of a transaction. -/
def receiptProof (n : RpcNode) (txHash : String) : Except String ReceiptProof :=
  match n.receipts.get? (toLower txHash) with
  | none => .error "receipt not found"
  | some receipt =>
      match n.blockByHash receipt.blockHash with
      | none => .error "receipt block not found"
      | some block =>
          let receipts := n.receiptsForBlock block
          let txIndex := quantity64 receipt.transactionIndex
          if receipts.length ≤ txIndex then .error "receipt transaction index out of range"
          else
            let tr := buildReceiptTrie receipts
            match TrieProofs.prove tr (Platform.rlpUint txIndex) with
            | .error e => .error e
            | .ok proof =>
                .ok
                  { transactionHash := receipt.transactionHash
                    transactionIndex := receipt.transactionIndex
                    blockHash := block.hash
                    blockNumber := block.number
                    receiptRoot := hexString (Platform.trieRoot tr)
                    proof := proofHexList proof
                    receipt := receipt }

end RpcNode

/-- The value that a set of blobs proves for the index, under the given root. -/
def provenReceipt (root : Bytes) (index : ℕ) (db : ProofSet) (absent : String) :
    Except String Bytes :=
  match TrieProofs.verifyProof root (Platform.rlpUint index) db with
  | .error e => .error e
  | .ok value => if value = [] then .error absent else .ok value

/-- Check a receipt proof against the root that comes with it. -/
def verifyReceiptProof (request : ReceiptRequest) : Verification :=
  let root := hexToHash request.receiptRoot.sprint
  let index := quantityFromInterface request.transactionIndex
  match proofSetFromHex request.proof with
  | none => invalid "empty proof node"
  | some db =>
      match provenReceipt root index db "receipt proof returned empty value" with
      | .error e => invalid e
      | .ok value =>
          match request.receipt with
          | .object (.ok receipt) =>
              let valid : Bool := value = Platform.rlpReceipt receipt.toGethReceipt
              { valid := valid
                message := if valid then "receipt proof verified" else "receipt proof mismatch"
                receiptRoot := some (hexString root)
                transactionHash := some receipt.transactionHash
                blockHash := some receipt.blockHash }
          | .object (.error e) => invalid e
          | _ => invalid "missing receipt object"

/-- The record of a `receipt` member; one without a transaction hash is refused. -/
def receiptFromInterface : ReceiptMember → Except String ReceiptRecord
  | .null => .error "missing receipt object"
  | .other e => .error e
  | .object (.error e) => .error e
  | .object (.ok receipt) =>
      if receipt.transactionHash = "" then .error "missing receipt transaction hash"
      else .ok receipt

/-- Check it against the recorded trie. -/
def RpcNode.verifyReceiptInTrie (n : RpcNode) (request : ReceiptRequest) : Verification :=
  let root := hexToHash request.receiptRoot.sprint
  let index := quantityFromInterface request.transactionIndex
  match n.trieCommitByRoot (hexString root) with
  | none => invalid "trie commit not found"
  | some commit =>
      match proofSetFromCommit commit with
      | none => invalid "trie commit has no readable nodes"
      | some db =>
          match provenReceipt root index db "receipt not present in trie" with
          | .error e => invalid e
          | .ok value =>
              match receiptFromInterface request.receipt with
              | .error e => invalid e
              | .ok receipt =>
                  let valid : Bool := value = Platform.rlpReceipt receipt.toGethReceipt
                  { valid := valid
                    message := if valid then "receipt verified from trie database"
                      else "receipt trie value mismatch"
                    receiptRoot := some (hexString root)
                    transactionHash := some receipt.transactionHash
                    blockHash := some receipt.blockHash
                    commitKind := some commit.kind
                    commitHeight := some (toHex commit.height) }

/-- The request that hands a receipt proof back: the proof as it was encoded and decoded. -/
def ReceiptProof.toRequest (p : ReceiptProof) : ReceiptRequest where
  receiptRoot := .str p.receiptRoot
  transactionIndex := .str p.transactionIndex
  proof := p.proof
  receipt := .object (.ok p.receipt)

/-! ## Logs -/

/-- A log with the proof of its receipt. -/
structure LogProof where
  transactionHash : String
  logIndex : String
  log : LogRecord
  receiptProof : ReceiptProof

/-- The proof of one log. -/
def RpcNode.logProof (n : RpcNode) (txHash : String) (logIndex : ℕ) : Except String LogProof :=
  match n.receiptProof txHash with
  | .error e => .error e
  | .ok receiptProof =>
      match receiptProof.receipt.logs[logIndex]? with
      | none => .error "log index out of range"
      | some log => .ok ⟨txHash, toHex logIndex, log, receiptProof⟩

/-- A request to check a log; `none` where a member is no object. -/
structure LogRequest where
  logIndex : Value
  log : Option (Except String LogRecord)
  receiptProof : Option ReceiptRequest

/-- The logs agree in all their fields, address and topics up to spelling. -/
def logsEqual (a b : LogRecord) : Bool :=
  normalizeAddress a.address = normalizeAddress b.address && a.data = b.data &&
    a.blockNumber = b.blockNumber && a.blockHash = b.blockHash &&
    a.transactionHash = b.transactionHash && a.transactionIndex = b.transactionIndex &&
    a.logIndex = b.logIndex && a.removed = b.removed && a.topics.length = b.topics.length &&
    (a.topics.zip b.topics).all fun e => equalFold e.1.text e.2.text

/-- The comparison of the claimed log with the one of the decoded receipt. -/
def compareLog (receipt : ReceiptRecord) (logIndex : ℕ) (claimed : Option (Except String LogRecord)) :
    Verification :=
  match receipt.logs[logIndex]?, claimed with
  | none, _ => invalid "log index out of range"
  | some _, none => invalid "missing log object"
  | some _, some (.error e) => invalid e
  | some actual, some (.ok claimed) =>
      let valid := logsEqual actual claimed
      { valid := valid
        message := if valid then "log proof verified" else "log proof mismatch"
        transactionHash := some receipt.transactionHash
        blockHash := some receipt.blockHash
        logIndex := some (toHex logIndex) }

/-- Check a log proof: the receipt proof, and that the log is the one of the receipt. -/
def verifyLogProof (request : LogRequest) : Verification :=
  match request.receiptProof with
  | none => invalid "missing receipt proof"
  | some receiptProof =>
      let verification := verifyReceiptProof receiptProof
      if ¬ verification.valid then
        { invalid "receipt proof invalid" with receiptMessage := some verification.message }
      else
        match receiptProof.receipt with
        | .object (.ok receipt) =>
            compareLog receipt (quantityFromInterface request.logIndex) request.log
        | .object (.error e) => invalid e
        | _ => invalid "missing receipt object"

/-! ## Complete proofs -/

/-- The value of the last update of a key, empty when there is none. -/
def lookupLast (t : Trie) (key : Bytes) : Bytes :=
  ((t.reverse.find? fun e => e.1 = key).map Prod.snd).getD []

/-- The commit is one of this trie. -/
structure Commits (c : TrieCommitRecord) (t : Trie) : Prop where
  root : c.root = hexString (Platform.trieRoot t)
  nodes : ∃ nodes, Platform.trieNodes t = some nodes ∧ c.nodes = nodes.map fun node =>
    ⟨hexString node.hash, String.ofList (hexEncode node.path), hexString node.blob, node.deleted⟩

/-- What the trie and RLP packages promise: roots are hashes, and every value of a trie is proved
by the proof of its key and by the nodes of a commit. -/
structure TrieProofs.Complete : Prop where
  root : ∀ t, (Platform.trieRoot t).length = 32
  uint : Function.Injective Platform.rlpUint
  receipt : ∀ r, Platform.rlpReceipt r ≠ []
  prove : ∀ t key, lookupLast t key ≠ [] → ∃ proof, TrieProofs.prove t key = .ok proof ∧
    (∀ blob ∈ proof, blob ≠ []) ∧
    TrieProofs.verifyProof (Platform.trieRoot t) key (proofSet proof) = .ok (lookupLast t key)
  nodes : ∀ t key, lookupLast t key ≠ [] → (Platform.trieNodes t).isSome = true ∧
    ∀ c, Commits c t → ∃ db, proofSetFromCommit c = some db ∧
      TrieProofs.verifyProof (Platform.trieRoot t) key db = .ok (lookupLast t key)

/-! ## Proofs to evaluate on -/

/-- Read one field that was written with its end mark. -/
def readField : Bytes → Option (Bytes × Bytes)
  | 0 :: r => some ([], r)
  | 1 :: x :: r => (readField r).map fun e => (x :: e.1, e.2)
  | _ => none

/-- Read the updates that were listed; `fuel` bounds their number. -/
def readUpdates : ℕ → Bytes → Trie
  | 0, _ => []
  | fuel + 1, b =>
      match readField b with
      | none => []
      | some (key, r) =>
          match readField r with
          | none => []
          | some (value, r) => (key, value) :: readUpdates fuel r

omit [Platform] [TrieProofs] in
theorem readField_delimit (b r : Bytes) : readField (delimit b ++ r) = some (b, r) := by
  induction b with
  | nil => rfl
  | cons x b ih =>
      have hcons : delimit (x :: b) ++ r = 1 :: x :: (delimit b ++ r) := rfl
      rw [hcons, readField, ih]
      rfl

omit [Platform] [TrieProofs] in
theorem readUpdates_listUpdates {t : Trie} {fuel : ℕ} (h : t.length ≤ fuel) :
    readUpdates fuel (listUpdates t) = t := by
  induction t generalizing fuel with
  | nil => cases fuel <;> rfl
  | cons e t ih =>
      obtain ⟨fuel, rfl⟩ : ∃ k, fuel = k + 1 := ⟨fuel - 1, by rw [List.length_cons] at h; omega⟩
      have hcons : listUpdates (e :: t) = delimit e.1 ++ (delimit e.2 ++ listUpdates t) := by
        rw [listUpdates, List.flatMap_cons, List.append_assoc]
        rfl
      rw [hcons, readUpdates, readField_delimit]
      dsimp only
      rw [readField_delimit]
      dsimp only
      rw [ih (by rw [List.length_cons] at h; omega)]

/-- Proofs of a trie that is kept in one blob, which lists its updates: the proof of a key is
that blob. -/
@[reducible] def TrieProofs.oneBlob : TrieProofs where
  prove t _ := .ok [listUpdates t]
  verifyProof root key db :=
    match db root with
    | none => .error "proof node missing"
    | some blob => .ok (lookupLast (readUpdates blob.length blob) key)

/-- The first 32 bytes, with zeros behind. -/
def firstHash (b : Bytes) : Bytes := (b ++ List.replicate 32 0).take 32

/-- As `Platform.checksums`, with roots of 32 bytes: the hash of the one blob that lists the
updates. -/
@[reducible] def Platform.oneBlob : Platform :=
  { Platform.checksums with
    keccak256 := firstHash
    rlpUint := fun i => List.replicate i 0 ++ [1]
    trieRoot := fun t => firstHash (listUpdates t)
    trieNodes := fun t =>
      if t = [] then none else some [⟨firstHash (listUpdates t), [], listUpdates t, false⟩] }

omit [Platform] [TrieProofs] in
theorem length_firstHash (b : Bytes) : (firstHash b).length = 32 := by
  rw [firstHash, List.length_take, List.length_append, List.length_replicate]
  omega

omit [Platform] [TrieProofs] in
theorem length_le_listUpdates (t : Trie) : t.length ≤ (listUpdates t).length := by
  induction t with
  | nil => exact Nat.zero_le _
  | cons e t ih =>
      have hcons : listUpdates (e :: t) = delimit e.1 ++ delimit e.2 ++ listUpdates t := rfl
      rw [hcons, List.length_append, List.length_append, List.length_cons, delimit,
        List.length_append, List.length_singleton]
      omega

omit [Platform] [TrieProofs] in
theorem listUpdates_ne_nil {t : Trie} (h : t ≠ []) : listUpdates t ≠ [] :=
  fun heq => h (listUpdates_injective (heq.trans rfl))

omit [Platform] [TrieProofs] in
theorem ofEntries_singleton (hash blob : Bytes) :
    ProofSet.ofEntries [(hash, blob)] hash = some blob := by
  simp [ProofSet.ofEntries]

omit [Platform] [TrieProofs] in
/-- The blob is enough to prove every value. -/
theorem verifyProof_oneBlob {t : Trie} {db : ProofSet}
    (h : db (firstHash (listUpdates t)) = some (listUpdates t)) (key : Bytes) :
    TrieProofs.oneBlob.verifyProof (firstHash (listUpdates t)) key db = .ok (lookupLast t key) := by
  show (match db (firstHash (listUpdates t)) with
    | none => Except.error "proof node missing"
    | some blob => .ok (lookupLast (readUpdates blob.length blob) key)) = _
  rw [h]
  dsimp only
  rw [readUpdates_listUpdates (length_le_listUpdates t)]

omit [Platform] [TrieProofs] in
theorem complete_oneBlob : @TrieProofs.Complete Platform.oneBlob TrieProofs.oneBlob := by
  have hne : ∀ {t : Trie} {key : Bytes}, lookupLast t key ≠ [] → t ≠ [] := by
    rintro t key h rfl
    exact h rfl
  refine @TrieProofs.Complete.mk Platform.oneBlob TrieProofs.oneBlob (fun t => length_firstHash _) ?_
    (fun r => ?_) (fun t key h => ?_) (fun t key h => ?_)
  · intro i j heq
    have hlength := congrArg List.length (show List.replicate i (0 : UInt8) ++ [1] =
      List.replicate j 0 ++ [1] from heq)
    simpa using hlength
  · exact List.append_ne_nil_of_left_ne_nil (List.append_ne_nil_of_left_ne_nil (by simp [beBytes]) _) _
  · refine ⟨[listUpdates t], rfl, ?_, verifyProof_oneBlob ?_ key⟩
    · intro blob hblob
      rw [List.mem_singleton.mp hblob]
      exact listUpdates_ne_nil (hne h)
    · exact ofEntries_singleton _ _
  · have hnodes : Platform.oneBlob.trieNodes t =
        some [⟨firstHash (listUpdates t), [], listUpdates t, false⟩] := if_neg (hne h)
    refine ⟨by rw [hnodes]; rfl, fun c hc => ?_⟩
    obtain ⟨-, nodes, hsome, hrecords⟩ := hc
    rw [hnodes] at hsome
    cases hsome
    have hentries : ((c.nodes.filter fun node => !node.deleted && !(fromHex node.hash).isEmpty &&
        !(fromHex node.blob).isEmpty).map fun node => (fromHex node.hash, fromHex node.blob)) =
          [(firstHash (listUpdates t), listUpdates t)] := by
      have hhash : (firstHash (listUpdates t)).isEmpty = false := by
        rw [List.isEmpty_eq_false_iff, ← List.length_pos_iff, length_firstHash]
        decide
      have hblob : (listUpdates t).isEmpty = false :=
        List.isEmpty_eq_false_iff.mpr (listUpdates_ne_nil (hne h))
      rw [hrecords]
      simp only [List.map_cons, List.map_nil, List.filter_cons, List.filter_nil, fromHex_hexString,
        hhash, hblob, Bool.not_false, Bool.and_self, if_true]
    refine ⟨_, by rw [proofSetFromCommit, hentries]; rfl, verifyProof_oneBlob ?_ key⟩
    exact ofEntries_singleton _ _

end BhtBhte.Node
