import BhtBhte.Node.Topics

/-!
# The node's records

The record types of the node, with the fields the source gives them, and the JSON texts
that transaction and block hashes are taken over.  The four maps a state snapshot copies
(balances, nonces, code, storage) are grouped as a `World`.
-/
namespace BhtBhte.Node
open BhtBhte.Lib

/-- A transaction with its place on the chain; `sender` and `recipient` are `from` and `to`. -/
structure TxRecord where
  hash : String := ""
  sender : String := ""
  recipient : String := ""
  value : String := ""
  nonce : String := ""
  gas : String := ""
  input : String := ""
  blockHash : String := ""
  blockNumber : String := ""
  transactionIndex : String := ""
  time : ℤ := 0
  timestamp : ℤ := 0
  confirmations : ℤ := 0
  fee : String := ""
  raw : String := ""
deriving DecidableEq

/-- A block with its transactions. -/
structure BlockRecord where
  number : String := ""
  hash : String := ""
  parentHash : String := ""
  stateRoot : String := ""
  txRoot : String := ""
  receiptRoot : String := ""
  logsBloom : String := ""
  timestamp : String := ""
  transactions : List TxRecord := []
deriving DecidableEq, Inhabited

/-- A log with its place on the chain. -/
structure LogRecord where
  address : String
  topics : List Topic
  data : String
  blockNumber : String
  blockHash : String
  transactionHash : String
  transactionIndex : String
  logIndex : String
  removed : Bool := false
deriving DecidableEq

/-- The log after it is written as JSON and read again. -/
def LogRecord.reread (lg : LogRecord) : LogRecord := { lg with topics := lg.topics.map Topic.reread }

/-- The contract address of a receipt is always null. -/
structure ReceiptRecord where
  transactionHash : String
  transactionIndex : String
  blockHash : String
  blockNumber : String
  sender : String
  recipient : String
  cumulativeGasUsed : String := "0x5208"
  gasUsed : String := "0x5208"
  logs : List LogRecord
  logsBloom : String := ""
  status : String
  type : String := "0x0"
deriving DecidableEq

/-- A receipt after its topics are read back. -/
def ReceiptRecord.reread (r : ReceiptRecord) : ReceiptRecord :=
  { r with logs := r.logs.map LogRecord.reread }

/-- A withdrawal and what has become of it. -/
structure WithdrawalRecord where
  id : String := ""
  l2TxHash : String := ""
  recipient : String := ""
  amount : String := ""
  challengeDeadline : ℤ := 0
  processed : Bool := false
  challenged : Bool := false
  bhtTxHash : String := ""
  createdAt : ℤ := 0
deriving DecidableEq

/-- An anchor of a height. -/
structure AnchorRecord where
  height : ℕ
  stateRoot : String
  blockHash : String
  txHash : String
  timestamp : ℤ
  verified : Bool := true
deriving DecidableEq

/-- A peer with its score. -/
structure PeerRecord where
  id : String := ""
  url : String := ""
  height : ℕ := 0
  bestHash : String := ""
  lastSeen : ℤ := 0
  trusted : Bool := false
  score : ℤ := 0
  failures : ℤ := 0
  bannedUntil : ℤ := 0
deriving DecidableEq

/-- A node of a committed trie. -/
structure TrieNodeRecord where
  hash : String
  path : String
  blob : String
  deleted : Bool
deriving DecidableEq

/-- A committed trie. -/
structure TrieCommitRecord where
  root : String
  kind : String
  height : ℕ
  nodes : List TrieNodeRecord
  timestamp : ℤ
deriving DecidableEq

/-- The accounts: what a state snapshot copies and a reorganisation restores. -/
structure World where
  balances : FinMap String String := ∅
  nonces : FinMap String ℕ := ∅
  code : FinMap String String := ∅
  storage : FinMap String (FinMap String String) := ∅
deriving DecidableEq

/-- A copy of the accounts at a height. -/
structure StateSnapshotRecord where
  height : ℕ
  blockHash : String
  stateRoot : String
  complete : Bool
  source : String
  world : World
  timestamp : ℤ
deriving DecidableEq

/-- An entry of the block index. -/
structure BlockIndexRecord where
  hash : String
  parentHash : String
  height : ℕ
  totalWeight : ℕ
  canonical : Bool
  validated : Bool
  source : String
  peerId : String
  receivedAt : ℤ
deriving DecidableEq

/-- The state that is written to disk. -/
structure NodeState where
  height : ℕ
  accounts : List String
  world : World
  pendingTxs : List TxRecord := []
  txs : List TxRecord := []
  blocks : List BlockRecord := []
  receipts : FinMap String ReceiptRecord := ∅
  logs : List LogRecord := []
  withdrawals : FinMap String WithdrawalRecord := ∅
  anchors : FinMap ℕ AnchorRecord := ∅
  canonical : FinMap ℕ String := ∅
  blockIndex : FinMap String BlockIndexRecord := ∅
  stateSnapshots : FinMap ℕ StateSnapshotRecord := ∅
  peers : FinMap String PeerRecord := ∅
deriving DecidableEq

/-- The state as it is read back: JSON has no place for bytes that are no text. -/
def NodeState.reread (s : NodeState) : NodeState :=
  { s with
    receipts := s.receipts.mapValues ReceiptRecord.reread
    logs := s.logs.map LogRecord.reread }

/-- The file of the chain. -/
structure ChainDB where
  blocks : List BlockRecord
  canonical : FinMap ℕ String
  blockIndex : FinMap String BlockIndexRecord
deriving DecidableEq

/-- The file of the accounts. -/
structure StateDB where
  accounts : List String
  world : World
  stateSnapshots : FinMap ℕ StateSnapshotRecord
deriving DecidableEq

/-- The file of the history. -/
structure HistoryDB where
  pendingTxs : List TxRecord
  txs : List TxRecord
  receipts : FinMap String ReceiptRecord
  logs : List LogRecord
  withdrawals : FinMap String WithdrawalRecord
  anchors : FinMap ℕ AnchorRecord
deriving DecidableEq

/-- The data directory: the decoded content of each file, `none` where there is none. -/
structure Files where
  state : Option NodeState := none
  chain : Option ChainDB := none
  stateDB : Option StateDB := none
  history : Option HistoryDB := none
  trie : Option (List TrieCommitRecord) := none
deriving DecidableEq

/-- A running node.  `disk` lists what `save` has written, the last write first. -/
structure RpcNode extends NodeState where
  trieCommits : List TrieCommitRecord := []
  replayMode : Bool := false
  disk : List Files := []
deriving DecidableEq

/-- What the command line sets, with the defaults of the source. -/
structure Config where
  accounts : List String := ["0x0000000000000000000000000000000000000100"]
  bridgeAddress : String := "0x0000000000000000000000000000000000000200"
  bhtRPC : String := "http://127.0.0.1:18332"
  autoMine : Bool := true
  strictMode : Bool := true
  minGasLimit : ℕ := 21000
  maxGasLimit : ℕ := 30000000
  challengeSeconds : ℤ := 7 * 24 * 60 * 60

/-! ## JSON texts -/

/-- One rune inside a JSON string, as `encoding/json` escapes it. -/
def escapeRune (c : Char) : List Char :=
  let hex4 (n : ℕ) : List Char :=
    '\\' :: 'u' :: [Nat.digitChar (n / 4096 % 16), Nat.digitChar (n / 256 % 16),
      Nat.digitChar (n / 16 % 16), Nat.digitChar (n % 16)]
  if c = '"' ∨ c = '\\' then ['\\', c]
  else if c = '\n' then ['\\', 'n']
  else if c = '\r' then ['\\', 'r']
  else if c = '\t' then ['\\', 't']
  else if c = '\x08' then ['\\', 'b']
  else if c = '\x0c' then ['\\', 'f']
  else if c.toNat < 0x20 ∨ c = '<' ∨ c = '>' ∨ c = '&' ∨ c = '\u2028' ∨ c = '\u2029' then
    hex4 c.toNat
  else [c]

/-- A text as JSON, with its quotes. -/
def jsonString (s : String) : String :=
  "\"" ++ String.ofList (s.toList.flatMap escapeRune) ++ "\""

/-- An object from its members in order. -/
def jsonObject (members : List (String × String)) : String :=
  "\x7b" ++ String.intercalate "," (members.map fun m => jsonString m.1 ++ ":" ++ m.2) ++ "\x7d"

def jsonArray (items : List String) : String := "[" ++ String.intercalate "," items ++ "]"

/-- A string member that is left out when it is empty. -/
def omitEmpty (name value : String) : List (String × String) :=
  if value = "" then [] else [(name, jsonString value)]

/-- A transaction as `encoding/json` writes it. -/
def TxRecord.json (tx : TxRecord) : String :=
  jsonObject <|
    [("hash", jsonString tx.hash), ("from", jsonString tx.sender), ("to", jsonString tx.recipient),
      ("value", jsonString tx.value)] ++
    omitEmpty "nonce" tx.nonce ++ omitEmpty "gas" tx.gas ++ omitEmpty "input" tx.input ++
    omitEmpty "blockHash" tx.blockHash ++ omitEmpty "blockNumber" tx.blockNumber ++
    omitEmpty "transactionIndex" tx.transactionIndex ++
    [("time", toString tx.time), ("timestamp", toString tx.timestamp),
      ("confirmations", toString tx.confirmations), ("fee", jsonString tx.fee)] ++
    omitEmpty "raw" tx.raw

def txsJson (txs : List TxRecord) : String := jsonArray (txs.map TxRecord.json)

/-- The JSON of a slice that may be nil. -/
def nilTxsJson (isNil : Bool) (txs : List TxRecord) : String :=
  if isNil && txs.isEmpty then "null" else txsJson txs

section Hash
variable [Platform]

/-- The transaction root of a block. -/
def hashTxs (txs : List TxRecord) : String := hashHex (utf8 (txsJson txs))

/-- The hash of a submitted transaction. -/
def txHash (sender recipient : String) (value : ℤ) (nonce : ℕ) (unixNano : ℤ) : String :=
  hashHex <| utf8 <| jsonObject
    [("from", jsonString sender), ("nonce", toString nonce), ("time", toString unixNano),
      ("to", jsonString recipient), ("value", jsonString (toString value))]

/-- The hash of a mined block; an empty copy of the pending list is a nil slice. -/
def blockHash (parent : String) (height : ℕ) (unixNano : ℤ) (txs : List TxRecord) : String :=
  hashHex <| utf8 <| jsonObject
    [("height", toString height), ("parent", jsonString parent), ("time", toString unixNano),
      ("txs", nilTxsJson true txs)]

omit [Platform] in
theorem headD_utf8_jsonObject (members : List (String × String)) :
    (utf8 (jsonObject members)).headD 0 = 123 := by
  rw [jsonObject, utf8, String.toList_append, String.toList_append]
  rfl

/-- A block hash is the digest of an object, that of the genesis block is not. -/
theorem blockHash_ne_genesis (h : ∀ b : Bytes, (Platform.sha256 b).headD 0 = b.headD 0)
    (parent : String) (height : ℕ) (unixNano : ℤ) (txs : List TxRecord) :
    blockHash parent height unixNano txs ≠ hashHex (utf8 "bhte-genesis") := by
  intro heq
  rw [blockHash, hashHex, hashHex] at heq
  have hhead := h (utf8 "bhte-genesis")
  rw [← hexString_injective heq, h, headD_utf8_jsonObject] at hhead
  revert hhead
  decide

theorem hashHex_ne {t : String} (h : t.toList.head? ≠ some '0') (data : Bytes) :
    hashHex data ≠ t := by
  rw [hashHex]
  exact hexPrefix_ne h

/-- A digest is never the empty string. -/
theorem hashHex_ne_empty (data : Bytes) : hashHex data ≠ "" := hashHex_ne (by decide) data

end Hash

end BhtBhte.Node
