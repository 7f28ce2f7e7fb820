import BhtBhte.Lib.Runs
import BhtBhte.WalletPro.Transactions

/-!
# The bridge service

`BHTEBridge` asks both layers for the history of the bridge address and relays what is confirmed.
The history that `GetTransactionHistory` reads has no status and no identifier, so that the
service relays nothing, whatever the nodes answer.
-/
namespace BhtBhte.WalletPro

open BhtBhte.Lib

/-! ## The history -/

/-- The numbers that a new transaction happens to hold. -/
structure Indeterminate where
  amount : UInt64
  fee : UInt64
  nonce : UInt64
  blockNumber : UInt64

def Indeterminate.transaction (m : Indeterminate) : BHTETransaction where
  txid := []
  sender := []
  recipient := []
  amount := m.amount
  fee := m.fee
  nonce := m.nonce
  status := []
  blockNumber := m.blockNumber
  inputData := []

/-- The text behind the colon that follows a key.  `npos + 1` is zero: a search that fails is
followed by one from the beginning. -/
def behindColon (txObj fromKey : Text) : Text := (cut [':'] fromKey).elim txObj fun r => r.2.drop 1

/-- The text up to the second quote behind the colon. -/
def quotedMember (key : String) (txObj : Text) : Option Text :=
  (cut key.toList txObj).map fun r =>
    ((cut ['"'] (behindColon txObj r.2)).elim txObj fun r => r.2.drop 1).takeWhile (· ≠ '"')

/-- A new transaction with the addresses that are there. -/
def historyAddresses (m : Indeterminate) (txObj : Text) : BHTETransaction :=
  let tx := m.transaction
  let tx := (quotedMember "\"from\"" txObj).elim tx fun s => { tx with sender := s }
  (quotedMember "\"to\"" txObj).elim tx fun s => { tx with recipient := s }

/-- One transaction of the array. -/
def historyTransaction (m : Indeterminate) (txObj : Text) : Except Thrown BHTETransaction :=
  let tx := historyAddresses m txObj
  (cut "\"value\"".toList txObj).elim (.ok tx) fun r =>
    (parseHexToUint64 ((behindColon txObj r.2).take 20)).map fun n => { tx with amount := n }

/-- The loop over the array; every pass takes at least two characters. -/
def readTransactions (memory : ℕ → Indeterminate) :
    ℕ → ℕ → Text → Except Thrown (List BHTETransaction)
  | 0, _, _ => .ok []
  | fuel + 1, i, txArray =>
    (cut ['{'] txArray).elim (.ok []) fun start =>
      (cut ['}'] start.2).elim (.ok []) fun stop => do
        let tx ← historyTransaction (memory i) (stop.1 ++ ['}'])
        let rest ← readTransactions memory fuel (i + 1) (stop.2.drop 1)
        pure (tx :: rest)

/-- What comes back for the two requests, and what memory holds. -/
structure HistoryAnswers where
  byAddress : Option Text
  logs : Option Text
  memory : ℕ → Indeterminate

/-- `GetTransactionHistory`; `none` when it returns false. -/
def getTransactionHistory (connected : Bool) (answers : HistoryAnswers) :
    Except Thrown (Option (List BHTETransaction)) :=
  if !connected then .ok none
  else (answers.byAddress.or answers.logs).elim (.ok none) fun response =>
    (parseJSONResponse response).elim (.ok none) fun fields =>
      (fields.lookup "transactions".toList).elim (.ok (some [])) fun txArray =>
        (readTransactions answers.memory txArray.length 0 txArray).map some

/-- `DepositToLayer2`: the identifier of the deposit, given what comes back. -/
def depositToLayer2 (connected : Bool) (answer : Option Text) : Option Text := do
  let response ← if connected then answer else none
  let fields ← parseJSONResponse response
  let text ← fields.lookup "depositId".toList
  return trimQuotes text

/-! ## The service -/

/-- `clients` holds whether each layer is connected; `Initialize` makes both clients.  The deposits
that were asked for are kept beside. -/
structure BHTEBridge where
  running : Bool := false
  clients : Option (Bool × Bool) := none
  pendingDeposits : List Text := []
  pendingWithdrawals : List Text := []
  asked : List Request := []

namespace BHTEBridge

/-- `Initialize`; the second layer is connected to when the first one is. -/
def initializeClients (b : BHTEBridge) (layer1 layer2 : Bool) : Bool × BHTEBridge :=
  (layer1 && layer2, { b with clients := some (layer1, layer1 && layer2) })

def startBridgeService (b : BHTEBridge) : BHTEBridge := { b with running := true }

def stopBridgeService (b : BHTEBridge) : BHTEBridge := { b with running := false }

/-- One deposit of the history. -/
def relayDeposit (connected : Bool) (answer : BHTETransaction → Option Text) (b : BHTEBridge)
    (deposit : BHTETransaction) : BHTEBridge :=
  if deposit.status ≠ "confirmed".toList then b
  else
    let request := Request.depositToLayer2 (String.ofList deposit.txid)
      (String.ofList deposit.recipient) deposit.amount []
    let b := if connected then { b with asked := b.asked ++ [request] } else b
    (depositToLayer2 connected (answer deposit)).elim b fun depositId =>
      { b with pendingDeposits := b.pendingDeposits ++ [depositId] }

/-- One withdrawal of the history; `submitWithdrawalToL1` returns true. -/
def relayWithdrawal (b : BHTEBridge) (withdrawal : BHTETransaction) : BHTEBridge :=
  if withdrawal.status ≠ "confirmed".toList then b
  else { b with pendingWithdrawals := b.pendingWithdrawals ++ [withdrawal.txid] }

/-- What both calls do with the history. -/
def processHistory (b : BHTEBridge) (relay : BHTEBridge → BHTETransaction → BHTEBridge)
    (history : Except Thrown (Option (List BHTETransaction))) : Except Thrown Bool × BHTEBridge :=
  match history with
  | .error e => (.error e, b)
  | .ok none => (.ok false, b)
  | .ok (some txs) => (.ok true, txs.foldl relay b)

/-- Take the new deposits of the first layer and relay those that are confirmed. -/
def processPendingDepositsFromL1 (b : BHTEBridge) (answers : HistoryAnswers)
    (answer : BHTETransaction → Option Text) : Except Thrown Bool × BHTEBridge :=
  b.clients.elim (.ok false, b) fun clients =>
    b.processHistory (relayDeposit clients.2 answer) (getTransactionHistory clients.1 answers)

/-- The same for withdrawals. -/
def processPendingWithdrawalsToL1 (b : BHTEBridge) (answers : HistoryAnswers) :
    Except Thrown Bool × BHTEBridge :=
  b.clients.elim (.ok false, b) fun clients =>
    b.processHistory relayWithdrawal (getTransactionHistory clients.2 answers)

/-- A pass over the deposits, if the service runs. -/
def processDeposits (b : BHTEBridge) (answers : HistoryAnswers)
    (answer : BHTETransaction → Option Text) : Except Thrown Bool × BHTEBridge :=
  if !b.running then (.ok false, b) else b.processPendingDepositsFromL1 answers answer

/-- A pass over the withdrawals, if the service runs. -/
def processWithdrawals (b : BHTEBridge) (answers : HistoryAnswers) :
    Except Thrown Bool × BHTEBridge :=
  if !b.running then (.ok false, b) else b.processPendingWithdrawalsToL1 answers

/-- What is given out of a pending list. -/
def pendingTransactions (ids : List Text) : List (Text × Text) :=
  ids.map fun id => (id, "pending".toList)

def getPendingDeposits (b : BHTEBridge) : List (Text × Text) := pendingTransactions b.pendingDeposits

def getPendingWithdrawals (b : BHTEBridge) : List (Text × Text) :=
  pendingTransactions b.pendingWithdrawals

end BHTEBridge

/-- The calls of the service, with what comes back. -/
inductive Call where
  | initializeClients (layer1 layer2 : Bool)
  | startBridgeService
  | stopBridgeService
  | processDeposits (answers : HistoryAnswers) (answer : BHTETransaction → Option Text)
  | processWithdrawals (answers : HistoryAnswers)

def Call.exec (call : Call) (b : BHTEBridge) : BHTEBridge :=
  match call with
  | .initializeClients layer1 layer2 => (b.initializeClients layer1 layer2).2
  | .startBridgeService => b.startBridgeService
  | .stopBridgeService => b.stopBridgeService
  | .processDeposits answers answer => (b.processDeposits answers answer).2
  | .processWithdrawals answers => (b.processWithdrawals answers).2

/-! ## The loop ends -/

theorem readTransactions_nil (memory : ℕ → Indeterminate) (n i : ℕ) :
    readTransactions memory n i [] = .ok [] := by
  cases n <;> rfl

/-- More passes than characters change nothing. -/
theorem readTransactions_of_length_le {memory : ℕ → Indeterminate} {n m i : ℕ} {txArray : Text}
    (hn : txArray.length ≤ n) (hm : txArray.length ≤ m) :
    readTransactions memory n i txArray = readTransactions memory m i txArray := by
  induction n generalizing m i txArray with
  | zero =>
      rw [List.length_eq_zero_iff.mp (Nat.le_zero.mp hn), readTransactions_nil,
        readTransactions_nil]
  | succ n ih =>
      cases m with
      | zero =>
          rw [List.length_eq_zero_iff.mp (Nat.le_zero.mp hm), readTransactions_nil,
            readTransactions_nil]
      | succ m =>
          rw [readTransactions, readTransactions]
          cases hstart : cut ['{'] txArray with
          | none => rfl
          | some start =>
          cases hstop : cut ['}'] start.2 with
          | none => simp only [Option.elim_some, hstop, Option.elim_none]
          | some stop =>
              have hlength := (length_cut hstart).2
              have hlength' := length_cut hstop
              have hdrop : (stop.2.drop 1).length < txArray.length := by
                rw [List.length_drop]
                omega
              simp only [Option.elim_some, hstop]
              rw [ih (m := m) (by omega) (by omega)]

/-! ## No transaction has a status -/

/-- No identifier and no status. -/
def Blank (tx : BHTETransaction) : Prop := tx.txid = [] ∧ tx.status = []

theorem blank_historyAddresses (m : Indeterminate) (txObj : Text) :
    Blank (historyAddresses m txObj) := by
  unfold historyAddresses
  cases quotedMember "\"from\"" txObj <;> cases quotedMember "\"to\"" txObj <;> exact ⟨rfl, rfl⟩

theorem blank_historyTransaction {m : Indeterminate} {txObj : Text} {tx : BHTETransaction}
    (h : historyTransaction m txObj = .ok tx) : Blank tx := by
  have hblank := blank_historyAddresses m txObj
  unfold historyTransaction at h
  cases hvalue : cut "\"value\"".toList txObj with
  | none =>
      rw [hvalue] at h
      cases h
      exact hblank
  | some r =>
      rw [hvalue] at h
      obtain ⟨n, -, rfl⟩ := map_eq_ok.mp h
      exact hblank

theorem blank_readTransactions {memory : ℕ → Indeterminate} {fuel i : ℕ} {txArray : Text}
    {txs : List BHTETransaction} (h : readTransactions memory fuel i txArray = .ok txs) :
    ∀ tx ∈ txs, Blank tx := by
  induction fuel generalizing i txArray txs with
  | zero =>
      cases h
      exact List.forall_mem_nil _
  | succ fuel ih =>
      rw [readTransactions] at h
      cases hstart : cut ['{'] txArray with
      | none =>
          rw [hstart] at h
          cases h
          exact List.forall_mem_nil _
      | some start =>
      rw [hstart, Option.elim_some] at h
      cases hstop : cut ['}'] start.2 with
      | none =>
          rw [hstop] at h
          cases h
          exact List.forall_mem_nil _
      | some stop =>
          rw [hstop, Option.elim_some] at h
          obtain ⟨tx, htx, h⟩ := bind_eq_ok.mp h
          obtain ⟨rest, hrest, h⟩ := bind_eq_ok.mp h
          cases h
          exact List.forall_mem_cons.mpr ⟨blank_historyTransaction htx, ih hrest⟩

/-- **No transaction of a history has a status**, whatever the node answers. -/
theorem getTransactionHistory_blank {connected : Bool} {answers : HistoryAnswers}
    {txs : List BHTETransaction} (h : getTransactionHistory connected answers = .ok (some txs)) :
    ∀ tx ∈ txs, Blank tx := by
  unfold getTransactionHistory at h
  cases connected with
  | false => cases h
  | true =>
  rw [Bool.not_true, if_neg Bool.false_ne_true] at h
  cases hresponse : answers.byAddress.or answers.logs with
  | none =>
      rw [hresponse] at h
      cases h
  | some response =>
  rw [hresponse, Option.elim_some] at h
  cases hfields : parseJSONResponse response with
  | none =>
      rw [hfields] at h
      cases h
  | some fields =>
  rw [hfields, Option.elim_some] at h
  cases harray : fields.lookup "transactions".toList with
  | none =>
      rw [harray] at h
      cases h
      exact List.forall_mem_nil _
  | some txArray =>
      rw [harray, Option.elim_some] at h
      obtain ⟨txs', hread, h⟩ := map_eq_ok.mp h
      cases h
      exact blank_readTransactions hread

/-! ## Nothing is relayed -/

/-- Nothing was asked for and nothing is pending. -/
structure Idle (b : BHTEBridge) : Prop where
  pendingDeposits : b.pendingDeposits = []
  pendingWithdrawals : b.pendingWithdrawals = []
  asked : b.asked = []

variable {b : BHTEBridge}

/-- Blank transactions are passed over. -/
theorem processHistory_of_blank {relay : BHTEBridge → BHTETransaction → BHTEBridge}
    (hrelay : ∀ b tx, Blank tx → relay b tx = b)
    {history : Except Thrown (Option (List BHTETransaction))}
    (hblank : ∀ txs, history = .ok (some txs) → ∀ tx ∈ txs, Blank tx) :
    (b.processHistory relay history).2 = b := by
  unfold BHTEBridge.processHistory
  split
  · rfl
  · rfl
  · next txs =>
      have hall := hblank txs rfl
      show txs.foldl relay b = b
      clear hblank
      induction txs with
      | nil => rfl
      | cons tx txs ih =>
          rw [List.foldl_cons, hrelay b tx (hall tx List.mem_cons_self)]
          exact ih fun tx htx => hall tx (List.mem_cons_of_mem _ htx)

theorem status_ne_of_blank {tx : BHTETransaction} (h : Blank tx) :
    tx.status ≠ "confirmed".toList := by
  rw [h.2]
  exact fun heq => nomatch heq

/-- A call that processes deposits changes nothing. -/
theorem processDeposits_snd (answers : HistoryAnswers) (answer : BHTETransaction → Option Text) :
    (b.processDeposits answers answer).2 = b := by
  unfold BHTEBridge.processDeposits BHTEBridge.processPendingDepositsFromL1
  split
  · rfl
  · cases b.clients with
    | none => rfl
    | some clients =>
        refine processHistory_of_blank (fun b tx htx => ?_) fun txs => getTransactionHistory_blank
        rw [BHTEBridge.relayDeposit, if_pos (status_ne_of_blank htx)]

theorem processWithdrawals_snd (answers : HistoryAnswers) :
    (b.processWithdrawals answers).2 = b := by
  unfold BHTEBridge.processWithdrawals BHTEBridge.processPendingWithdrawalsToL1
  split
  · rfl
  · cases b.clients with
    | none => rfl
    | some clients =>
        refine processHistory_of_blank (fun b tx htx => ?_) fun txs => getTransactionHistory_blank
        rw [BHTEBridge.relayWithdrawal, if_pos (status_ne_of_blank htx)]

theorem Idle.exec (call : Call) (h : Idle b) : Idle (call.exec b) := by
  obtain ⟨hdeposits, hwithdrawals, hasked⟩ := h
  cases call with
  | initializeClients layer1 layer2 => exact ⟨hdeposits, hwithdrawals, hasked⟩
  | startBridgeService => exact ⟨hdeposits, hwithdrawals, hasked⟩
  | stopBridgeService => exact ⟨hdeposits, hwithdrawals, hasked⟩
  | processDeposits answers answer =>
      rw [Call.exec, processDeposits_snd]
      exact ⟨hdeposits, hwithdrawals, hasked⟩
  | processWithdrawals answers =>
      rw [Call.exec, processWithdrawals_snd]
      exact ⟨hdeposits, hwithdrawals, hasked⟩

/-! ## Runs -/

/-- **The service relays nothing.** Whatever the nodes answer, and in whatever order it is set up,
started, stopped and called, it never asks for a deposit, nothing becomes pending, and the lists
that it gives out are empty. -/
theorem bridge_run (calls : List Call) : Idle (runOps Call.exec calls {}) ∧
    (runOps Call.exec calls {}).getPendingDeposits = [] ∧
    (runOps Call.exec calls {}).getPendingWithdrawals = [] := by
  have hidle : Idle (runOps Call.exec calls {}) :=
    run_invariant (fun call b => Idle.exec call) calls ⟨rfl, rfl, rfl⟩
  refine ⟨hidle, ?_, ?_⟩
  · rw [BHTEBridge.getPendingDeposits, hidle.pendingDeposits]
    rfl
  · rw [BHTEBridge.getPendingWithdrawals, hidle.pendingWithdrawals]
    rfl

/-! ## What the node sends -/

/-- A response with an array as its result. -/
def arrayAnswer (id items : Text) : Text :=
  answerFront id ++ (',' :: (resultQuoted ++ (':' :: '[' :: items)))

theorem parseJSONResponse_arrayAnswer {id : Text} (hid : IsIdText id) (items : Text) :
    parseJSONResponse (arrayAnswer id items) = some [("_array".toList, '[' :: items)] := by
  have hresult : cut "\"result\"".toList (',' :: (resultQuoted ++ (':' :: '[' :: items))) =
      some ([','], resultQuoted ++ (':' :: '[' :: items)) := by
    rw [show "\"result\"".toList = resultQuoted from rfl, resultQuoted, cut_cons (by decide),
      cut_of_isPrefix (List.prefix_append _ _)]
    rfl
  have hcolon : cut [':'] (resultQuoted ++ (':' :: '[' :: items)) =
      some (resultQuoted, ':' :: '[' :: items) := cut_append_cons (by decide) _
  rw [parseJSONResponse, arrayAnswer, cut_answerFront hid (by simp), hresult]
  simp only [Option.map_some, Option.bind_eq_bind, Option.bind_some, hcolon]
  simp [skipBlank]

/-- **The history that the node sends is empty**: it is an array, and the client looks for a
member. -/
theorem getTransactionHistory_array {answers : HistoryAnswers} {id items : Text}
    (hid : IsIdText id) (h : answers.byAddress = some (arrayAnswer id items)) :
    getTransactionHistory true answers = .ok (some []) := by
  have hlookup : ([("_array".toList, '[' :: items)] : Fields).lookup "transactions".toList = none :=
    rfl
  rw [getTransactionHistory, h, Option.some_or, Option.elim_some,
    parseJSONResponse_arrayAnswer hid, Option.elim_some, hlookup]
  rfl

end BhtBhte.WalletPro
