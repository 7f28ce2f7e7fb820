import BhtBhte.Node.Queries
import BhtBhte.Node.Requests

/-!
# The JSON-RPC interface

The dispatcher of the node: a method name and decoded parameters select one operation, which runs
under the node's lock.  What reaches the node from outside is decoded JSON, the answers of a peer
and the answer of the BHT node.  A call changes the node as its request does, and otherwise not at
all (`dispatch_node`), so what is proved of the requests is true of the nodes that HTTP requests
reach.
-/
namespace BhtBhte.Node
open BhtBhte.Lib
variable [Platform]

/-! ## Parameters -/

/-- An object parameter: its members, its encoding, and what decoding that encoding again gives: a
block, the members of a receipt request and those of a log request.  A call reads one of them. -/
structure ObjectParam where
  members : Object
  json : Bytes
  block : Except String BlockRecord
  receiptRequest : ReceiptRequest
  logRequest : LogRequest

/-- A decoded parameter.  A number is a 64-bit float. -/
inductive Param
  | null
  | number (bits : UInt64)
  | str (s : String)
  | bool (b : Bool)
  | array (items : List Value)
  | object (o : ObjectParam)

/-- The text `fmt.Sprint` gives. -/
def Param.sprint : Param → String
  | null => "<nil>"
  | number bits => Platform.formatFloat bits
  | str s => s
  | bool b => if b then "true" else "false"
  | array items => "[" ++ String.intercalate " " (items.map Value.sprint) ++ "]"
  | object o => sprintObject o.members

/-- `strconv.Atoi`. -/
def atoi (s : String) : Option ℤ :=
  (bigSetString 10 s.toList).filter fun v => -2 ^ 63 ≤ v && v < 2 ^ 63

/-- A parameter that is there and not null. -/
def given (params : List Param) (index : ℕ) : Option Param :=
  match params[index]? with
  | some .null => none
  | p => p

def stringParam (params : List Param) (index : ℕ) : String :=
  ((given params index).map Param.sprint).getD ""

def intParam (params : List Param) (index : ℕ) (fallback : ℤ) : ℤ :=
  match given params index with
  | some (.number bits) => (Platform.floatToInt bits).toInt
  | some (.str s) => (atoi s).getD fallback
  | _ => fallback

def boolParam (params : List Param) (index : ℕ) (fallback : Bool) : Bool :=
  match given params index with
  | some (.bool b) => b
  | _ => fallback

def quantityParam (params : List Param) (index : ℕ) : ℕ :=
  match given params index with
  | none => 0
  | some (.number bits) => (Platform.floatToUint64 bits).toNat
  | some p => quantity64 p.sprint

def stringSliceParam (params : List Param) (index : ℕ) : List String :=
  match given params index with
  | some (.array items) => items.map Value.sprint
  | _ => []

def objectParam (params : List Param) (index : ℕ) : Except String ObjectParam :=
  match params[index]? with
  | none => .error "missing object parameter"
  | some (.object o) => .ok o
  | some _ => .error ("parameter " ++ toString index ++ " must be object")

/-! ## Methods -/

inductive Method
  | clientVersion | chainId | blockNumber | getBlockByNumber | getBlockByHash | peerCount
  | addPeer | peers | syncPeer | consensusStatus | forkChoiceStatus | validateBlock | replayChain
  | accounts | getBalance | getTransactionCount | getTransactionByHash | getTransactionReceipt
  | getCode | getStorageAt | ethCall | getLogs | estimateGas | getProof | sendTransaction
  | signTransaction | sendRawTransaction | txpoolStatus | txpoolContent | mineBlock
  | getTransactionsByAddress | getBridgeEvents | submitBridgeEvent | initiateWithdrawal
  | processWithdrawal | getWithdrawal | handleReorg | securityStatus | submitAnchor
  | verifyStateRoot | getTrieCommit | getTrieCommits | getTrieNode | getReceiptProof
  | verifyReceiptProof | verifyReceiptInTrie | getLogProof | verifyLogProof | bhteGetProof
deriving DecidableEq

namespace Method

def name : Method → String
  | clientVersion => "web3_clientVersion"
  | chainId => "eth_chainId"
  | blockNumber => "eth_blockNumber"
  | getBlockByNumber => "eth_getBlockByNumber"
  | getBlockByHash => "eth_getBlockByHash"
  | peerCount => "net_peerCount"
  | addPeer => "admin_addPeer"
  | peers => "admin_peers"
  | syncPeer => "bhte_syncPeer"
  | consensusStatus => "bhte_consensusStatus"
  | forkChoiceStatus => "bhte_forkChoiceStatus"
  | validateBlock => "bhte_validateBlock"
  | replayChain => "bhte_replayChain"
  | accounts => "eth_accounts"
  | getBalance => "eth_getBalance"
  | getTransactionCount => "eth_getTransactionCount"
  | getTransactionByHash => "eth_getTransactionByHash"
  | getTransactionReceipt => "eth_getTransactionReceipt"
  | getCode => "eth_getCode"
  | getStorageAt => "eth_getStorageAt"
  | ethCall => "eth_call"
  | getLogs => "eth_getLogs"
  | estimateGas => "eth_estimateGas"
  | getProof => "eth_getProof"
  | sendTransaction => "eth_sendTransaction"
  | signTransaction => "eth_signTransaction"
  | sendRawTransaction => "eth_sendRawTransaction"
  | txpoolStatus => "txpool_status"
  | txpoolContent => "txpool_content"
  | mineBlock => "bhte_mineBlock"
  | getTransactionsByAddress => "bhte_getTransactionsByAddress"
  | getBridgeEvents => "bhte_getBridgeEvents"
  | submitBridgeEvent => "bhte_submitBridgeEvent"
  | initiateWithdrawal => "bhte_initiateWithdrawal"
  | processWithdrawal => "bhte_processWithdrawal"
  | getWithdrawal => "bhte_getWithdrawal"
  | handleReorg => "bhte_handleReorg"
  | securityStatus => "bhte_securityStatus"
  | submitAnchor => "bhte_submitAnchor"
  | verifyStateRoot => "bhte_verifyStateRoot"
  | getTrieCommit => "bhte_getTrieCommit"
  | getTrieCommits => "bhte_getTrieCommits"
  | getTrieNode => "bhte_getTrieNode"
  | getReceiptProof => "bhte_getReceiptProof"
  | verifyReceiptProof => "bhte_verifyReceiptProof"
  | verifyReceiptInTrie => "bhte_verifyReceiptInTrie"
  | getLogProof => "bhte_getLogProof"
  | verifyLogProof => "bhte_verifyLogProof"
  | bhteGetProof => "bhte_getProof"

def all : List Method :=
  [clientVersion, chainId, blockNumber, getBlockByNumber, getBlockByHash, peerCount, addPeer, peers,
    syncPeer, consensusStatus, forkChoiceStatus, validateBlock, replayChain, accounts, getBalance,
    getTransactionCount, getTransactionByHash, getTransactionReceipt, getCode, getStorageAt, ethCall,
    getLogs, estimateGas, getProof, sendTransaction, signTransaction, sendRawTransaction,
    txpoolStatus, txpoolContent, mineBlock, getTransactionsByAddress, getBridgeEvents,
    submitBridgeEvent, initiateWithdrawal, processWithdrawal, getWithdrawal, handleReorg,
    securityStatus, submitAnchor, verifyStateRoot, getTrieCommit, getTrieCommits, getTrieNode,
    getReceiptProof, verifyReceiptProof, verifyReceiptInTrie, getLogProof, verifyLogProof,
    bhteGetProof]

def ofName (s : String) : Option Method := all.find? fun m => m.name = s

omit [Platform] in
/-- The names are distinct. -/
theorem ofName_name (m : Method) : ofName m.name = some m := by
  cases m <;> decide

end Method

/-! ## Replies -/

/-- The result of a call. -/
inductive Reply
  | null
  | text (s : String)
  | texts (l : List String)
  | members (l : List (String × String))
  | block (b : BlockRecord)
  | blockHashes (b : BlockRecord) (hashes : List String)
  | peer (p : PeerRecord)
  | peers (l : List PeerRecord)
  | sync (r : RpcNode.SyncResult)
  | consensus (s : RpcNode.ConsensusStatus)
  | forkChoice (s : RpcNode.ForkChoiceStatus)
  | security (s : RpcNode.SecurityStatus)
  | validated (r : ValidateResult)
  | replayed (r : ReplayResult)
  | reorg (r : RpcNode.ReorgResult)
  | tx (tx : TxRecord)
  | txs (l : List TxRecord)
  | txpool (pending : FinMap String (FinMap String TxRecord))
  | receipt (r : ReceiptRecord)
  | logs (l : List LogRecord)
  | bridgeEvent (log : Option LogRecord)
  | withdrawal (w : WithdrawalRecord)
  | anchor (a : AnchorRecord)
  | stateRoot (a : RpcNode.StateRootAnswer)
  | commit (c : TrieCommitRecord)
  | commits (l : List TrieCommitRecord)
  | trieNode (i : RpcNode.TrieNodeInfo)
  | accountProof (p : AccountProof)
  | receiptProof (p : ReceiptProof)
  | logProof (p : LogProof)
  | verification (v : Verification)

/-- Why a call fails.  A call panics when the runtime cannot make the slice it asks for. -/
inductive CallError
  | text (s : String)
  | accountProof (e : AccountProofError)
  | panic

/-- The reply to what was found, or null. -/
def found {α : Type} (f : α → Reply) (a : Option α) : Reply := (a.map f).getD .null

/-- The reply to a result, or the text of its error. -/
def replyOr {α : Type} (f : α → Reply) : Except String α → Except CallError Reply
  | .error e => .error (.text e)
  | .ok a => .ok (f a)

/-- What a call finds outside the node: the answers of the peer it contacts, what the BHT node
replies to a payout, and whether the heap has room for so many bytes. -/
structure Outside where
  peer : PeerAnswers
  bht : Except String String
  room : ℕ → Bool

/-- The block alone, or with the hashes of its transactions in their place. -/
def blockReply (whole : Bool) (b : BlockRecord) : Reply :=
  if whole then .block b else .blockHashes b (b.transactions.map (·.hash))

def rpcVersion : String := "1.0.0"

/-! ## Calls -/

namespace RpcNode
variable [TrieProofs]

/-- The account proof that both proof methods give. -/
def accountProofReply (n : RpcNode) (ω : Choices) (params : List Param) : Except CallError Reply :=
  let addr := normalizeAddress (stringParam params 0)
  match n.accountProof ω addr (stringSliceParam params 1) (stringParam params 2) with
  | .error e => .error (.accountProof e)
  | .ok proof => .ok (.accountProof proof)

/-- Run an operation on the object parameter, which has to be there. -/
def withObject (n : RpcNode) (params : List Param)
    (f : ObjectParam → Except CallError Reply × RpcNode) : Except CallError Reply × RpcNode :=
  match objectParam params 0 with
  | .error e => (.error (.text e), n)
  | .ok o => f o

/-- The call of a supported method. -/
def dispatch (n : RpcNode) (cfg : Config) (ω : Choices) (out : Outside) (params : List Param) :
    Method → Except CallError Reply × RpcNode
  | .clientVersion => (.ok (.text ("BHTE/" ++ rpcVersion)), n)
  | .chainId => (.ok (.text "0x27b3"), n)
  | .blockNumber => (.ok (.text (toHex n.height)), n)
  | .getBlockByNumber =>
      (.ok (found (blockReply (boolParam params 1 false)) (n.blockByNumber (stringParam params 0))), n)
  | .getBlockByHash => (.ok (found .block (n.blockByHash (stringParam params 0))), n)
  | .peerCount => (.ok (.text (toHex n.peers.entries.length)), n)
  | .addPeer =>
      let r := n.addPeer ω (stringParam params 0)
      (.ok (.peer r.1), r.2)
  | .peers => (.ok (.peers (n.peerList ω)), n)
  | .syncPeer =>
      let r := n.syncPeer cfg ω (stringParam params 0) out.peer
      (.ok (.sync r.1), r.2)
  | .consensusStatus => (.ok (.consensus (n.consensusStatus cfg)), n)
  | .forkChoiceStatus => (.ok (.forkChoice (n.forkChoiceStatus ω)), n)
  | .validateBlock => n.withObject params fun o =>
      match o.block with
      | .error e => (.ok (.validated (.failure none none e)), n)
      | .ok block =>
          let r := n.validateBlockRecord cfg ω block
          (.ok (.validated r.1), r.2)
  | .replayChain =>
      let r := n.replayChain cfg ω
      (.ok (.replayed r.1), r.2)
  | .accounts => (.ok (.texts n.accounts), n)
  | .getBalance =>
      (.ok (.text (hexText (n.world.balance (normalizeAddress (stringParam params 0))))), n)
  | .getTransactionCount =>
      (.ok (.text (toHex ((n.world.nonces.get? (normalizeAddress (stringParam params 0))).getD 0))), n)
  | .getTransactionByHash =>
      (.ok (found .tx (n.transactionByHash (stringParam params 0))), n)
  | .getTransactionReceipt =>
      (.ok (found .receipt (n.receipts.get? (toLower (stringParam params 0)))), n)
  | .getCode =>
      (.ok (.text (stringOrDefault
        ((n.world.code.get? (normalizeAddress (stringParam params 0))).getD "") "0x")), n)
  | .getStorageAt =>
      (.ok (.text (n.storageAt (normalizeAddress (stringParam params 0))
        (normalizeStorageKey (stringParam params 1)))), n)
  | .ethCall => n.withObject params fun o => (.ok (.text (callContract cfg o.members)), n)
  | .getLogs =>
      (.ok (.logs (n.filterLogs ((objectParam params 0).toOption.elim ∅ ObjectParam.members))), n)
  | .estimateGas => (.ok (.text "0x5208"), n)
  | .getProof => (n.accountProofReply ω params, n)
  | .sendTransaction => n.withObject params fun o =>
      let r := n.sendTransaction cfg ω o.members
      (replyOr .text r.1, r.2)
  | .signTransaction => n.withObject params fun o =>
      let hash := hashHex o.json
      (.ok (.members [("raw", hexString o.json), ("hash", hash), ("tx", hash)]), n)
  | .sendRawTransaction =>
      let r := n.addRawTransaction cfg ω (stringParam params 0)
      (.ok (.text r.1), r.2)
  | .txpoolStatus =>
      (.ok (.members [("pending", toHex n.pendingTxs.length), ("queued", "0x0")]), n)
  | .txpoolContent => (.ok (.txpool n.txpoolContent), n)
  | .mineBlock =>
      let r := n.minePendingBlock cfg ω
      (.ok (.block r.1), r.2)
  | .getTransactionsByAddress =>
      match n.transactionsByAddress out.room (normalizeAddress (stringParam params 0))
        (intParam params 1 100) with
      | none => (.error .panic, n)
      | some txs => (.ok (.txs txs), n)
  | .getBridgeEvents => (.ok (.logs (n.bridgeEvents cfg (intParam params 0 100))), n)
  | .submitBridgeEvent => n.withObject params fun o =>
      let n := n.submitBridgeEvent cfg ω o.members
      (.ok (.bridgeEvent n.logs.getLast?), n)
  | .initiateWithdrawal => n.withObject params fun o =>
      let r := n.initiateWithdrawal cfg ω o.members
      (.ok (.withdrawal r.1), r.2)
  | .processWithdrawal =>
      let r := n.processWithdrawal cfg ω (stringParam params 0) out.bht
      (replyOr .withdrawal r.1, r.2)
  | .getWithdrawal =>
      (.ok (found .withdrawal (n.withdrawals.get? (toLower (stringParam params 0)))), n)
  | .handleReorg =>
      let r := n.handleReorg ω (quantityParam params 0) (stringParam params 1)
      (.ok (.reorg r.1), r.2)
  | .securityStatus => (.ok (.security (RpcNode.securityStatus cfg)), n)
  | .submitAnchor => n.withObject params fun o =>
      let r := n.submitAnchor ω o.members
      (.ok (.anchor r.1), r.2)
  | .verifyStateRoot =>
      (.ok (.stateRoot (n.verifyStateRoot (quantityParam params 0) (stringParam params 1)
        (stringSliceParam params 2))), n)
  | .getTrieCommit =>
      (.ok (found .commit (n.trieCommitByRoot (stringParam params 0))), n)
  | .getTrieCommits =>
      (.ok (.commits (n.getTrieCommits (stringParam params 0) (quantityParam params 1))), n)
  | .getTrieNode =>
      (replyOr .trieNode (n.getTrieNode (stringParam params 0) (stringParam params 1)), n)
  | .getReceiptProof =>
      (replyOr .receiptProof (n.receiptProof (stringParam params 0)), n)
  | .verifyReceiptProof => n.withObject params fun o =>
      (.ok (.verification (Node.verifyReceiptProof o.receiptRequest)), n)
  | .verifyReceiptInTrie => n.withObject params fun o =>
      (.ok (.verification (n.verifyReceiptInTrie o.receiptRequest)), n)
  | .getLogProof =>
      (replyOr .logProof (n.logProof (stringParam params 0) (quantityParam params 1)), n)
  | .verifyLogProof => n.withObject params fun o =>
      (.ok (.verification (Node.verifyLogProof o.logRequest)), n)
  | .bhteGetProof => (n.accountProofReply ω params, n)

/-- One call of a method by its name. -/
def call (n : RpcNode) (cfg : Config) (ω : Choices) (out : Outside) (method : String)
    (params : List Param) : Except CallError Reply × RpcNode :=
  match Method.ofName method with
  | none => (.error (.text ("unsupported method " ++ method)), n)
  | some m => n.dispatch cfg ω out params m

end RpcNode

/-! ## HTTP -/

/-- A decoded body.  The id is echoed. -/
structure RpcCall where
  id : Option String
  method : String
  params : List Param

/-- What a handler reads of an HTTP request. -/
structure HttpRequest where
  post : Bool
  body : Except String RpcCall

/-- A reply, or the connection that the server closes under a call that panics. -/
inductive HttpReply
  | methodNotAllowed
  | response (id : Option String) (result : Except (ℤ × CallError) Reply)
  | closed

namespace HttpReply

/-- There is no reply without an error. -/
def Refuses : HttpReply → Prop
  | methodNotAllowed | closed => True
  | response _ result => ∃ e, result = .error e

/-- The reply to what a call gives. -/
def ofResult (id : Option String) : Except CallError Reply → HttpReply
  | .error .panic => .closed
  | result => .response id (result.mapError fun e => (-32000, e))

omit [Platform] in
theorem Refuses.of_ofResult {id : Option String} {result : Except CallError Reply}
    (h : (ofResult id result).Refuses) : ∃ e, result = .error e := by
  cases result with
  | error e => exact ⟨e, rfl⟩
  | ok reply =>
      obtain ⟨e, he⟩ := h
      cases he

end HttpReply

section Http
variable [TrieProofs]

/-- The handler: check the token, decode, call and encode. -/
def RpcNode.handleRPC (n : RpcNode) (cfg : Config) (ω : Choices) (out : Outside)
    (req : HttpRequest) : HttpReply × RpcNode :=
  if ¬ req.post then (.methodNotAllowed, n)
  else
    match req.body with
    | .error e => (.response none (.error (-32700, .text e)), n)
    | .ok c =>
        let r := n.call cfg ω out c.method c.params
        (.ofResult c.id r.1, r.2)

/-! ## Calls as requests -/

/-- A request made with the object parameter. -/
def objectRequest (params : List Param) (f : ObjectParam → Option Request) : Option Request :=
  (objectParam params 0).toOption.bind f

/-- The request that a call stands for, `none` for one that only reads or is refused at once. -/
def Method.request (params : List Param) (out : Outside) : Method → Option Request
  | .addPeer => some (.addPeer (stringParam params 0))
  | .syncPeer => some (.syncPeer (stringParam params 0) out.peer)
  | .validateBlock => objectRequest params fun o =>
      o.block.toOption.map fun block => .serve (.validateBlock block)
  | .replayChain => some (.serve .replayChain)
  | .sendTransaction => objectRequest params fun o => some (.serve (.sendTransaction o.members))
  | .sendRawTransaction => some (.serve (.sendRawTransaction (stringParam params 0)))
  | .mineBlock => some (.serve .mineBlock)
  | .submitBridgeEvent => objectRequest params fun o => some (.serve (.submitBridgeEvent o.members))
  | .initiateWithdrawal =>
      objectRequest params fun o => some (.serve (.initiateWithdrawal o.members))
  | .processWithdrawal => some (.serve (.processWithdrawal (stringParam params 0) out.bht))
  | .handleReorg => some (.serve (.handleReorg (quantityParam params 0) (stringParam params 1)))
  | .submitAnchor => objectRequest params fun o => some (.serve (.submitAnchor o.members))
  | _ => none

namespace RpcNode

omit [TrieProofs] in
theorem withObject_node (n : RpcNode) (cfg : Config) (ω : Choices) (params : List Param)
    {f : ObjectParam → Except CallError Reply × RpcNode} {g : ObjectParam → Option Request}
    (h : ∀ o, (f o).2 = (g o).elim n (n.answer cfg ω)) :
    (n.withObject params f).2 = (objectRequest params g).elim n (n.answer cfg ω) := by
  rw [withObject, objectRequest]
  cases objectParam params 0 with
  | error e => rfl
  | ok o => exact h o

omit [Platform] [TrieProofs] in
theorem withObject_read (n : RpcNode) (params : List Param)
    {f : ObjectParam → Except CallError Reply × RpcNode} (h : ∀ o, (f o).2 = n) :
    (n.withObject params f).2 = n := by
  rw [withObject]
  cases objectParam params 0 with
  | error e => rfl
  | ok o => exact h o

/-- A call changes the node as its request does, and otherwise not at all. -/
theorem dispatch_node (n : RpcNode) (cfg : Config) (ω : Choices) (out : Outside)
    (params : List Param) (m : Method) :
    (n.dispatch cfg ω out params m).2 = (m.request params out).elim n (n.answer cfg ω) := by
  cases m with
  | validateBlock =>
      refine n.withObject_node cfg ω params ?_
      intro o
      cases o.block <;> rfl
  | sendTransaction | submitBridgeEvent | initiateWithdrawal | submitAnchor =>
      refine n.withObject_node cfg ω params ?_
      intro o
      rfl
  | ethCall | signTransaction | verifyReceiptProof | verifyReceiptInTrie | verifyLogProof =>
      exact n.withObject_read params fun _ => rfl
  | getTransactionsByAddress =>
      rw [dispatch]
      split <;> rfl
  | _ => rfl

omit [Platform] [TrieProofs] in
theorem withObject_refused {n : RpcNode} {params : List Param} {e : CallError}
    {f : ObjectParam → Except CallError Reply × RpcNode} (he : (n.withObject params f).1 = .error e)
    (h : ∀ o, (f o).1 = .error e → (f o).2 = n) : (n.withObject params f).2 = n := by
  rw [withObject] at he ⊢
  cases hparam : objectParam params 0 with
  | error e => rfl
  | ok o =>
      rw [hparam] at he
      exact h o he

omit [Platform] [TrieProofs] in
theorem replyOr_eq_error {α : Type} {f : α → Reply} {r : Except String α} {e : CallError}
    (h : replyOr f r = .error e) : ∃ text, r = .error text := by
  cases r with
  | error text => exact ⟨text, rfl⟩
  | ok a => cases h

omit [TrieProofs] in
theorem sendTransaction_refused {n : RpcNode} {cfg : Config} {ω : Choices} {tx : Object} {e : String}
    (h : (n.sendTransaction cfg ω tx).1 = .error e) : (n.sendTransaction cfg ω tx).2 = n := by
  rw [sendTransaction] at h ⊢
  cases hcheck : n.validateTransaction cfg tx with
  | error e => rfl
  | ok u =>
      rw [hcheck] at h
      cases h

omit [TrieProofs] in
theorem processWithdrawal_refused {n : RpcNode} {cfg : Config} {ω : Choices} {id e : String}
    {answer : Except String String} (h : (n.processWithdrawal cfg ω id answer).1 = .error e) :
    (n.processWithdrawal cfg ω id answer).2 = n := by
  rw [processWithdrawal] at h ⊢
  split at h
  · rfl
  · rfl
  · split at h
    · rfl
    · cases h

/-- A call that fails changes nothing. -/
theorem dispatch_refused {n : RpcNode} {cfg : Config} {ω : Choices} {out : Outside}
    {params : List Param} {m : Method} {e : CallError}
    (h : (n.dispatch cfg ω out params m).1 = .error e) : (n.dispatch cfg ω out params m).2 = n := by
  cases m with
  | sendTransaction =>
      refine withObject_refused h fun o ho => ?_
      obtain ⟨text, htext⟩ := replyOr_eq_error ho
      exact sendTransaction_refused htext
  | processWithdrawal =>
      obtain ⟨text, htext⟩ := replyOr_eq_error h
      exact processWithdrawal_refused htext
  | validateBlock =>
      refine withObject_refused h fun o ho => ?_
      cases hblock : o.block with
      | error e => simp only
      | ok block =>
          rw [hblock] at ho
          cases ho
  | submitBridgeEvent | initiateWithdrawal | submitAnchor =>
      exact withObject_refused h fun o ho => nomatch ho
  | ethCall | signTransaction | verifyReceiptProof | verifyReceiptInTrie | verifyLogProof =>
      exact n.withObject_read params fun _ => rfl
  | addPeer | syncPeer | replayChain | sendRawTransaction | mineBlock | handleReorg => cases h
  | getTransactionsByAddress => exact n.dispatch_node cfg ω out params .getTransactionsByAddress
  | _ => rfl

theorem handleRPC_refused {n : RpcNode} {cfg : Config} {ω : Choices} {out : Outside}
    {req : HttpRequest} (h : (n.handleRPC cfg ω out req).1.Refuses) :
    (n.handleRPC cfg ω out req).2 = n := by
  rw [handleRPC] at h ⊢
  split
  · rfl
  · next hpost =>
      rw [if_neg hpost] at h
      cases hbody : req.body with
      | error e => rfl
      | ok c =>
          rw [hbody] at h
          obtain ⟨e, he⟩ := HttpReply.Refuses.of_ofResult h
          dsimp only [call] at he ⊢
          cases hname : Method.ofName c.method with
          | none => rfl
          | some m =>
              rw [hname] at he
              exact dispatch_refused he

end RpcNode

/-! ## Every run -/

omit [TrieProofs] in
theorem Method.request_allowed {params : List Param} {out : Outside} {m : Method} {r : Request}
    (h : m.request params out = some r) : r.Allowed := by
  have hobject : ∀ {f : ObjectParam → Option Request}, objectRequest params f = some r →
      ∃ o, f o = some r := fun hf => by
    obtain ⟨o, -, ho⟩ := Option.bind_eq_some_iff.mp hf
    exact ⟨o, ho⟩
  cases m with
  | validateBlock =>
      obtain ⟨o, ho⟩ := hobject h
      obtain ⟨block, -, rfl⟩ := Option.map_eq_some_iff.mp ho
      rfl
  | sendTransaction | submitBridgeEvent | initiateWithdrawal | submitAnchor =>
      obtain ⟨o, ho⟩ := hobject h
      cases ho
      rfl
  | addPeer | syncPeer | replayChain | sendRawTransaction | mineBlock | processWithdrawal
  | handleReorg =>
      cases h
      first | rfl | trivial
  | _ => cases h

/-- An HTTP request, or a restart.  No slice comes within one sync of `2 ^ 63` blocks. -/
def OnlineStep (cfg : Config) (n n' : RpcNode) : Prop :=
  (∃ ω, (∃ out req, n' = (n.handleRPC cfg ω out req).2) ∨ n' = n.next cfg ω .restart) ∧
    n'.blocks.length + RpcNode.maxPeerSyncBlocks < 2 ^ 63

/-- Reached from a fresh node by HTTP requests and restarts. -/
def Online (cfg : Config) (n : RpcNode) : Prop :=
  ∃ ω, Relation.ReflTransGen (OnlineStep cfg) (newRPCNode cfg ω {}) n

/-- An HTTP request does what one allowed request does, or nothing. -/
theorem RpcNode.handleRPC_node (n : RpcNode) (cfg : Config) (ω : Choices) (out : Outside)
    (req : HttpRequest) : (n.handleRPC cfg ω out req).2 = n ∨
      ∃ r : Request, r.Allowed ∧ (n.handleRPC cfg ω out req).2 = n.answer cfg ω r := by
  rw [handleRPC]
  split
  · exact .inl rfl
  · cases req.body with
    | error e => exact .inl rfl
    | ok c =>
        dsimp only [call]
        cases Method.ofName c.method with
        | none => exact .inl rfl
        | some m =>
            dsimp only
            rw [dispatch_node]
            cases hrequest : m.request c.params out with
            | none => exact .inl rfl
            | some r => exact .inr ⟨r, Method.request_allowed hrequest, rfl⟩

/-- A request over HTTP that makes the call. -/
def post (m : Method) (params : List Param) : HttpRequest where
  post := true
  body := .ok ⟨none, m.name, params⟩

theorem RpcNode.handleRPC_post (n : RpcNode) (cfg : Config) (ω : Choices) (out : Outside)
    (m : Method) (params : List Param) :
    n.handleRPC cfg ω out (post m params) =
      (.ofResult none (n.dispatch cfg ω out params m).1, (n.dispatch cfg ω out params m).2) := by
  simp only [handleRPC, post, not_true_eq_false, if_false, call, Method.ofName_name]

/-- No peer and no BHT node answers, and the heap has room for everything. -/
def silent : Outside := ⟨⟨.error "", fun _ => .error ""⟩, .error "", fun _ => true⟩

/-- An object parameter of which only the members, or only the block, can be used. -/
def ObjectParam.ofMembers (members : Object) (block : Except String BlockRecord) : ObjectParam where
  members := members
  json := []
  block := block
  receiptRequest := { receiptRoot := .null, transactionIndex := .null, receipt := .null }
  logRequest := ⟨.null, none, none⟩

/-- A height that is no `uint64`. -/
def Request.Overflows : Request → Prop
  | .serve (.handleReorg height _) => 2 ^ 64 ≤ height
  | _ => False

omit [TrieProofs] in
/-- A reorganisation at such a height is none. -/
theorem RpcNode.answer_of_overflows {n : RpcNode} (hchain : ChainOk n) {r : Request}
    (h : r.Overflows) (cfg : Config) (ω : Choices) : n.answer cfg ω r = n := by
  match r, h with
  | .serve (.handleReorg height newHash), h =>
      have hbound := hchain.bound
      have hover : 2 ^ 64 ≤ height := h
      have hnone : n.canonical.get? height = none := by
        rw [hchain.canonical, RpcNode.blockAt, if_neg (by omega),
          List.getElem?_eq_none (by rw [hchain.length]; omega)]
        rfl
      show (n.handleReorg ω height newHash).2 = n
      rw [RpcNode.handleReorg, hnone]
      split
      · rfl
      · dsimp only [Option.getD_none]
        rw [if_pos (.inl rfl)]

omit [TrieProofs] in
/-- Every other request of a client can be made over HTTP, a restart apart. -/
theorem exists_post {r : Request} (h : r.Allowed) (hrestart : r ≠ .serve .restart)
    (hbound : ¬ r.Overflows) : ∃ m params out, Method.request params out m = some r := by
  cases r with
  | serve e =>
      cases e with
      | sendTransaction tx =>
          exact ⟨.sendTransaction, [.object (.ofMembers tx (.error ""))], silent, rfl⟩
      | sendRawTransaction rawTx => exact ⟨.sendRawTransaction, [.str rawTx], silent, rfl⟩
      | mineBlock => exact ⟨.mineBlock, [], silent, rfl⟩
      | handleReorg height newHash =>
          have hheight : quantityParam [.str (toHex height), .str newHash] 0 = height :=
            quantity64_toHex (Nat.lt_of_not_le hbound)
          refine ⟨.handleReorg, [.str (toHex height), .str newHash], silent, ?_⟩
          rw [Method.request, hheight]
          rfl
      | syncBlock block => cases h
      | setPeer peer => cases h
      | submitBridgeEvent event =>
          exact ⟨.submitBridgeEvent, [.object (.ofMembers event (.error ""))], silent, rfl⟩
      | initiateWithdrawal request =>
          exact ⟨.initiateWithdrawal, [.object (.ofMembers request (.error ""))], silent, rfl⟩
      | processWithdrawal id answer =>
          exact ⟨.processWithdrawal, [.str id], { silent with bht := answer }, rfl⟩
      | submitAnchor anchor =>
          exact ⟨.submitAnchor, [.object (.ofMembers anchor (.error ""))], silent, rfl⟩
      | replayChain => exact ⟨.replayChain, [], silent, rfl⟩
      | validateBlock block =>
          exact ⟨.validateBlock, [.object (.ofMembers ∅ (.ok block))], silent, rfl⟩
      | restart => exact absurd rfl hrestart
  | addPeer url => exact ⟨.addPeer, [.str url], silent, rfl⟩
  | syncPeer idOrURL answers =>
      exact ⟨.syncPeer, [.str idOrURL], { silent with peer := answers }, rfl⟩

/-- Every node that HTTP requests and restarts reach is one that requests of clients reach. -/
theorem Online.served {cfg : Config} {n : RpcNode} (h : Online cfg n) : Served cfg n := by
  obtain ⟨ω, hrun⟩ := h
  refine ⟨ω, ?_⟩
  induction hrun with
  | refl => exact .refl
  | tail _ hs ih =>
      obtain ⟨⟨ω', ⟨out, req, heq⟩ | heq⟩, hroom⟩ := hs
      · rcases RpcNode.handleRPC_node _ cfg ω' out req with hsame | ⟨r, hallowed, hnode⟩
        · rw [heq, hsame]
          exact ih
        · exact ih.tail ⟨ω', r, hallowed, trivial, heq.trans hnode, hroom⟩
      · exact ih.tail ⟨ω', .serve .restart, rfl, trivial, heq, hroom⟩

/-- **The RPC surface.** HTTP requests and restarts reach exactly the nodes that the requests of
clients reach. -/
theorem online_iff_served {cfg : Config} {n : RpcNode} : Online cfg n ↔ Served cfg n := by
  constructor
  · exact Online.served
  · rintro ⟨ω, hrun⟩
    refine ⟨ω, ?_⟩
    induction hrun with
    | refl => exact .refl
    | @tail n n' hbefore hs ih =>
        have hserved : Served cfg n := ⟨ω, hbefore⟩
        obtain ⟨ω', r, hallowed, -, heq, hroom⟩ := hs
        refine ih.tail ⟨⟨ω', ?_⟩, hroom⟩
        by_cases hrestart : r = .serve .restart
        · rw [hrestart] at heq
          exact .inr heq
        by_cases hover : r.Overflows
        · refine .inl ⟨silent, post .blockNumber [], ?_⟩
          rw [heq, RpcNode.answer_of_overflows hserved.sound.1.chain hover,
            RpcNode.handleRPC_post]
          rfl
        · obtain ⟨m, params, out, hrequest⟩ := exists_post hallowed hrestart hover
          refine .inl ⟨out, post m params, ?_⟩
          rw [heq, RpcNode.handleRPC_post, RpcNode.dispatch_node, hrequest]
          rfl

/-! ## Reading the chain over HTTP -/

/-- The reply without an error to a request without an id. -/
def answered (r : Reply) : HttpReply := .response none (.ok r)

/-- **A client that reads the chain.** Whatever requests came before, asking for the block number
and then for each block, in any order and any number of times, gives the blocks of one chain: as
many as the number says, numbered from one, each naming the one before it as its parent, and null
for any other number. -/
theorem chain_read_over_http {cfg : Config} {n : RpcNode} (h : Online cfg n) (ω : Choices)
    (out : Outside) : ∃ blocks : List BlockRecord,
    n.handleRPC cfg ω out (post .blockNumber []) = (answered (.text (toHex blocks.length)), n) ∧
    (∀ k < 2 ^ 64, n.handleRPC cfg ω out (post .getBlockByNumber [.str (toHex k), .bool true]) =
      (answered (found .block (if k = 0 then none else blocks[k - 1]?)), n)) ∧
    blocks ≠ [] ∧
    blocks.map (fun b => quantity64 b.number) = List.range' 1 blocks.length ∧
    blocks.IsChain fun b b' => equalFold b'.parentHash b.hash = true := by
  have hchain := h.served.sound.1.chain
  refine ⟨n.blocks, ?_, fun k hk => ?_, hchain.ne_nil, hchain.numbers, hchain.parents⟩
  · rw [RpcNode.handleRPC_post, hchain.length]
    rfl
  · have hread : n.blockByNumber (toHex k) = if k = 0 then none else n.blocks[k - 1]? := by
      rw [hchain.blockByNumber_eq (ChainOk.isBlockTag_toHex k), quantity64_toHex hk, RpcNode.blockAt]
    rw [RpcNode.handleRPC_post, ← hread]
    rfl

/-- A fresh node that is asked to mine. -/
theorem online_mined (cfg : Config) (ω : Choices) :
    Online cfg ((newRPCNode cfg ω {}).handleRPC cfg ω silent (post .mineBlock [])).2 := by
  obtain ⟨hreach, hheight⟩ := reachable_mined cfg ω
  have hmine : ((newRPCNode cfg ω {}).handleRPC cfg ω silent (post .mineBlock [])).2 =
      (newRPCNode cfg ω {}).next cfg ω .mineBlock := by
    rw [RpcNode.handleRPC_post]
    rfl
  refine ⟨ω, .single ⟨⟨ω, .inl ⟨silent, _, rfl⟩⟩, ?_⟩⟩
  rw [hmine, hreach.chainOk.length, hheight]
  decide

omit [Platform] [TrieProofs] in
theorem chain_read_after_mining :
    letI := Platform.checksums
    letI := TrieProofs.oneBlob
    let n := ((newRPCNode {} default {}).handleRPC {} default silent (post .mineBlock [])).2
    ∃ blocks : List BlockRecord, blocks ≠ [] ∧
      n.handleRPC {} default silent (post .blockNumber []) =
        (answered (.text (toHex blocks.length)), n) ∧
      n.handleRPC {} default silent (post .getBlockByNumber [.str (toHex 2), .bool true]) =
        (answered (found .block blocks[1]?), n) := by
  let _ := Platform.checksums
  let _ := TrieProofs.oneBlob
  obtain ⟨blocks, hnumber, hread, hne, -⟩ :=
    chain_read_over_http (online_mined {} default) default silent
  exact ⟨blocks, hne, hnumber, hread 2 (by decide)⟩

/-! ## What can be left out of a log of requests -/

/-- The methods that can change the node. -/
def Method.writes : Method → Bool
  | .addPeer | .syncPeer | .validateBlock | .replayChain | .sendTransaction | .sendRawTransaction
  | .mineBlock | .submitBridgeEvent | .initiateWithdrawal | .processWithdrawal | .handleReorg
  | .submitAnchor => true
  | _ => false

omit [TrieProofs] in
theorem Method.request_of_reads {m : Method} (h : m.writes = false) (params : List Param)
    (out : Outside) : m.request params out = none := by
  cases m <;> first | rfl | cases h

/-- The body calls a method that can change the node. -/
def HttpRequest.Writes (req : HttpRequest) : Prop :=
  ∃ c m, req.body = .ok c ∧ Method.ofName c.method = some m ∧ m.writes = true

/-- A request that calls no such method changes nothing. -/
theorem RpcNode.handleRPC_of_reads {n : RpcNode} {cfg : Config} {ω : Choices} {out : Outside}
    {req : HttpRequest} (h : ¬ req.Writes) : (n.handleRPC cfg ω out req).2 = n := by
  rw [handleRPC]
  split
  · rfl
  · cases hbody : req.body with
    | error e => rfl
    | ok c =>
        dsimp only [call]
        cases hname : Method.ofName c.method with
        | none => rfl
        | some m =>
            have hreads : m.writes = false :=
              Bool.eq_false_iff.mpr fun hwrites => h ⟨c, m, hbody, hname, hwrites⟩
            dsimp only
            rw [dispatch_node, Method.request_of_reads hreads]
            rfl

/-- The node after a log of requests, each with the answers it found outside. -/
def RpcNode.serveAll (cfg : Config) : RpcNode → List (Choices × Outside × HttpRequest) → RpcNode
  | n, [] => n
  | n, (ω, out, req) :: l => serveAll cfg (n.handleRPC cfg ω out req).2 l

/-- Every request of the log writes and is answered without an error at its turn. -/
def AllAccepted (cfg : Config) : RpcNode → List (Choices × Outside × HttpRequest) → Prop
  | _, [] => True
  | n, (ω, out, req) :: l => (req.Writes ∧ ¬ (n.handleRPC cfg ω out req).1.Refuses) ∧
      AllAccepted cfg (n.handleRPC cfg ω out req).2 l

end Http

end BhtBhte.Node
