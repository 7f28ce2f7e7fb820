import BhtBhte.Lib.Scanning
import BhtBhte.Node.Platform

/-!
# The wallet's client of the node

`Layer2Client` writes its requests by appending texts and reads the answers by searching them.
An amount is written with `std::to_string` behind `0x`, and an answer that is no object keeps
its quotes.
-/
namespace BhtBhte.WalletPro

open BhtBhte.Lib

abbrev Text := List Char

/-! ## Requests -/

/-- The requests that carry an amount. -/
inductive Request where
  | sendTransaction (fromAddress toAddress : String) (amount fee : UInt64) (memo : String)
      (signature : Node.Bytes)
  | depositToLayer2 (layer1Txid layer2Address : String) (amount : UInt64) (proof : Node.Bytes)
  | withdrawFromLayer2 (layer2Address layer1Address : String) (amount : UInt64)
      (signature : Node.Bytes)
  | estimateGas (fromAddress toAddress : String) (amount : UInt64)

/-- `std::to_string`. -/
def stdToString (n : UInt64) : String := String.ofList (Nat.toDigits 10 n.toNat)

/-- A text as JSON has it between quotes. -/
def escapeJSONString (input : String) : String :=
  String.ofList (input.toList.flatMap fun c =>
    if c = '"' then ['\\', '"']
    else if c = '\\' then ['\\', '\\']
    else if c = '\x08' then ['\\', 'b']
    else if c = '\x0c' then ['\\', 'f']
    else if c = '\n' then ['\\', 'n']
    else if c = '\r' then ['\\', 'r']
    else if c = '\t' then ['\\', 't']
    else [c])

/-- Bytes as `%02x` prints them. -/
def hexBytes (bytes : Node.Bytes) : String := String.ofList (hexEncode bytes)

/-- An amount as it is written. -/
def quantity (amount : UInt64) : String := "0x" ++ stdToString amount

def sendTransactionParams (fromAddress toAddress : String) (amount fee : UInt64) (memo : String)
    (signature : Node.Bytes) : String :=
  "[\x7b" ++ "\"from\":\"" ++ fromAddress ++ "\"," ++ "\"to\":\"" ++ toAddress ++ "\"," ++
    "\"value\":\"0x" ++ stdToString amount ++ "\"," ++
    "\"gasPrice\":\"0x" ++ stdToString fee ++ "\"," ++
    "\"data\":\"" ++ hexBytes signature ++ "\"" ++
    (if memo = "" then "" else ",\"memo\":\"" ++ escapeJSONString memo ++ "\"") ++ "\x7d]"

def depositToLayer2Params (layer1Txid layer2Address : String) (amount : UInt64)
    (proof : Node.Bytes) : String :=
  "[\x7b" ++ "\"layer1Txid\":\"" ++ layer1Txid ++ "\"," ++
    "\"layer2Address\":\"" ++ layer2Address ++ "\"," ++
    "\"amount\":\"0x" ++ stdToString amount ++ "\"," ++
    "\"proof\":\"" ++ hexBytes proof ++ "\"\x7d]"

def withdrawFromLayer2Params (layer2Address layer1Address : String) (amount : UInt64)
    (signature : Node.Bytes) : String :=
  "[\x7b" ++ "\"layer2Address\":\"" ++ layer2Address ++ "\"," ++
    "\"layer1Address\":\"" ++ layer1Address ++ "\"," ++
    "\"amount\":\"0x" ++ stdToString amount ++ "\"," ++
    "\"signature\":\"" ++ hexBytes signature ++ "\"\x7d]"

def estimateGasParams (fromAddress toAddress : String) (amount : UInt64) : String :=
  "[\x7b" ++ "\"from\":\"" ++ fromAddress ++ "\"," ++ "\"to\":\"" ++ toAddress ++ "\"," ++
    "\"value\":\"0x" ++ stdToString amount ++ "\"" ++ "\x7d]"

namespace Request

def amount : Request → UInt64
  | sendTransaction _ _ amount _ _ _ => amount
  | depositToLayer2 _ _ amount _ => amount
  | withdrawFromLayer2 _ _ amount _ => amount
  | estimateGas _ _ amount => amount

def method : Request → String
  | sendTransaction .. => "eth_sendTransaction"
  | depositToLayer2 .. => "bhte_deposit"
  | withdrawFromLayer2 .. => "bhte_withdraw"
  | estimateGas .. => "eth_estimateGas"

def params : Request → String
  | sendTransaction fromAddress toAddress amount fee memo signature =>
    sendTransactionParams fromAddress toAddress amount fee memo signature
  | depositToLayer2 layer1Txid layer2Address amount proof =>
    depositToLayer2Params layer1Txid layer2Address amount proof
  | withdrawFromLayer2 layer2Address layer1Address amount signature =>
    withdrawFromLayer2Params layer2Address layer1Address amount signature
  | estimateGas fromAddress toAddress amount => estimateGasParams fromAddress toAddress amount

/-- The key that the amount stands behind. -/
def amountKey : Request → String
  | sendTransaction .. => "value"
  | depositToLayer2 .. => "amount"
  | withdrawFromLayer2 .. => "amount"
  | estimateGas .. => "value"

/-- A memo is left out when it is empty. -/
def memoMembers (memo : String) : List (String × String) :=
  if memo = "" then [] else [("memo", escapeJSONString memo)]

/-- The members of the object, each a key and a text. -/
def members : Request → List (String × String)
  | sendTransaction fromAddress toAddress amount fee memo signature =>
    [("from", fromAddress), ("to", toAddress), ("value", quantity amount),
      ("gasPrice", quantity fee), ("data", hexBytes signature)] ++ memoMembers memo
  | depositToLayer2 layer1Txid layer2Address amount proof =>
    [("layer1Txid", layer1Txid), ("layer2Address", layer2Address), ("amount", quantity amount),
      ("proof", hexBytes proof)]
  | withdrawFromLayer2 layer2Address layer1Address amount signature =>
    [("layer2Address", layer2Address), ("layer1Address", layer1Address),
      ("amount", quantity amount), ("signature", hexBytes signature)]
  | estimateGas fromAddress toAddress amount =>
    [("from", fromAddress), ("to", toAddress), ("value", quantity amount)]

/-- A member as JSON. -/
def member (m : String × String) : Text :=
  '"' :: m.1.toList ++ ['"', ':', '"'] ++ m.2.toList ++ ['"']

/-- **The parameters are an object with these members.** -/
theorem params_eq (r : Request) : r.params.toList =
    ['[', '{'] ++ [','].intercalate (r.members.map member) ++ ['}', ']'] := by
  cases r with
  | sendTransaction fromAddress toAddress amount fee memo signature =>
      unfold params members sendTransactionParams memoMembers
      by_cases hmemo : memo = ""
      · simp only [hmemo, if_true, String.toList_append]
        simp [member, quantity, List.intercalate]
      · simp only [hmemo, if_false, String.toList_append]
        simp [member, quantity, List.intercalate]
  | depositToLayer2 layer1Txid layer2Address amount proof =>
      unfold params members depositToLayer2Params
      simp only [String.toList_append]
      simp [member, quantity, List.intercalate]
  | withdrawFromLayer2 layer2Address layer1Address amount signature =>
      unfold params members withdrawFromLayer2Params
      simp only [String.toList_append]
      simp [member, quantity, List.intercalate]
  | estimateGas fromAddress toAddress amount =>
      unfold params members estimateGasParams
      simp only [String.toList_append]
      simp [member, quantity, List.intercalate]

end Request

/-- `m_rpc_id_prefix` and the time, in hexadecimal digits. -/
def generateRPCID (rpcIdPrefix : Node.Bytes) (time : ℕ) : Text :=
  let count := Nat.toDigits 16 time
  hexEncode rpcIdPrefix ++ '_' :: (List.replicate (8 - count.length) '0' ++ count)

def buildJSONRPCRequest (method params : Text) (id : Text) : Text :=
  "\x7b\"jsonrpc\":\"2.0\",\"method\":\"".toList ++ method ++ "\",\"params\":".toList ++ params ++
    ",\"id\":\"".toList ++ id ++ "\"\x7d".toList

/-- What is sent for a request. -/
def Request.body (r : Request) (id : Text) : Text :=
  buildJSONRPCRequest r.method.toList r.params.toList id

/-! ## Answers -/

/-- The answer of the node to a request with this id; the result is a string. -/
def rpcAnswer (id : Text) (result : Text) : Text :=
  "\x7b\"jsonrpc\":\"2.0\",\"id\":\"".toList ++ id ++ "\",\"result\":\"".toList ++ result ++
    "\"\x7d\n".toList

/-- A text without the quotes around it. -/
def trimQuotes (str : Text) : Text :=
  if 2 ≤ str.length ∧ ((str.head? = some '"' ∧ str.getLast? = some '"') ∨
      (str.head? = some '\x27' ∧ str.getLast? = some '\x27')) then str.tail.dropLast
  else str

/-- The number of a text behind `0x`. -/
def parseHexToUint64 (hex : Text) : Except Thrown UInt64 :=
  stoull16 (if hex.take 2 = ['0', 'x'] then hex.drop 2 else hex)

/-- The fields that were read, the last one first. -/
abbrev Fields := List (Text × Text)

def skipBlank (s : Text) : Text := s.dropWhile fun c => c = ' ' ∨ c = '\n'

/-- The loop over the members of an object; every pass takes at least two characters. -/
def parseMembers : ℕ → Text → Fields → Fields
  | 0, _, fields => fields
  | fuel + 1, jsonObj, fields =>
    (cut ['"'] jsonObj).elim fields fun keyStart =>
      (cut ['"'] (keyStart.2.drop 1)).elim fields fun key =>
        (cut [':'] key.2).elim fields fun colon =>
          let value := skipBlank (colon.2.drop 1)
          let next (text rest : Text) : Fields :=
            parseMembers fuel (rest.dropWhile fun c => c = ',' ∨ c = ' ' ∨ c = '\n')
              ((key.1, text) :: fields)
          if value.head? = some '"' then
            (cut ['"'] (value.drop 1)).elim fields fun quoted => next quoted.1 (quoted.2.drop 1)
          else if value.head? = some '{' ∨ value.head? = some '[' then
            let text := value.take 1 ++ balanced ['{', '['] ['}', ']'] 1 (value.drop 1)
            next text (value.drop text.length)
          else
            let text := value.takeWhile fun c => c ≠ ',' ∧ c ≠ '\n'
            next text (value.drop text.length)

/-- `parseJSONResponse`; without a result it returns false. -/
def parseJSONResponse (response : Text) : Option Fields := do
  let result ← cut "\"result\"".toList response
  let colon ← cut [':'] result.2
  let value := skipBlank (colon.2.drop 1)
  return if value.head? = some '{' then
      let jsonObj := (balanced ['{'] ['}'] 1 (value.drop 1)).dropLast
      parseMembers jsonObj.length jsonObj []
    else if value.head? = some '[' then [("_array".toList, value)]
    else [("_value".toList, value.takeWhile fun c => c ≠ ',' ∧ c ≠ '}')]

/-- What `parseJSONResponse` leaves in `m_last_error` when there is no result. -/
def errorMessage (response : Text) : Option Text := do
  let error ← cut "\"error\"".toList response
  let message ← cut "\"message\"".toList error.2
  return trimQuotes ((cut [':'] message.2).elim response fun colon =>
    let text := colon.2.drop 1
    ((cut [','] text).or (cut ['}'] text)).elim text Prod.fst)

/-- The number that the first of some fields holds that is there. -/
def readNumber (keys : List String) (response : Text) : Option (Except Thrown UInt64) := do
  let fields ← parseJSONResponse response
  let text ← keys.findSome? fun key => fields.lookup key.toList
  return parseHexToUint64 text

/-- The calls that return a number: `none` is a refusal, an error is thrown. -/
def getBalance : Text → Option (Except Thrown UInt64) := readNumber ["balance", "_value"]

def getNonce : Text → Option (Except Thrown UInt64) := readNumber ["nonce", "_value"]

def getChainId : Text → Option (Except Thrown UInt64) := readNumber ["_value"]

end BhtBhte.WalletPro
