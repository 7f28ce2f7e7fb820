import BhtBhte.Node.Rpc
import BhtBhte.WalletPro.Responses
import BhtBhte.WalletPro.Wire

/-!
# What the wallet shows of a transaction

`Layer2Client::GetTransaction` asks the node for a transaction and reads the members of the result
one by one.  A node that does not know the transaction leaves the result out of its response, and
the wallet takes that for a transaction that is pending.  What the wallet shows of a transaction of
the node is `getTransaction_over_http`.
-/
namespace BhtBhte.WalletPro

open BhtBhte.Lib BhtBhte.Lib.Json
open BhtBhte.Node (TxRecord toHex)

/-! ## The client -/

/-- The members that `GetTransaction` sets. -/
structure BHTETransaction where
  txid : Text
  sender : Text
  recipient : Text
  amount : UInt64
  fee : UInt64
  nonce : UInt64
  status : Text
  blockNumber : UInt64
  inputData : List UInt8
  deriving DecidableEq

/-- What is done with a member of the result, if it is there. -/
def onField (fields : Fields) (key : String)
    (f : Text → BHTETransaction → Except Thrown BHTETransaction) (tx : BHTETransaction) :
    Except Thrown BHTETransaction :=
  (fields.lookup key.toList).elim (.ok tx) fun text => f text tx

/-- A member that holds a number. -/
def onNumber (fields : Fields) (key : String) (f : UInt64 → BHTETransaction → BHTETransaction) :
    BHTETransaction → Except Thrown BHTETransaction :=
  onField fields key fun text tx => (parseHexToUint64 text).map fun n => f n tx

/-- `static_cast<uint8_t>(std::stoi(byteStr, nullptr, 16))`: of two characters `std::stoi` reads
what `std::stoull` does. -/
def readByte (byteStr : Text) : Except Thrown UInt8 := (stoull16 byteStr).map (·.toUInt8)

/-- The loop over the input, two characters at a time. -/
def readBytes : Text → Except Thrown (List UInt8)
  | [] => .ok []
  | [c] => (readByte [c]).map fun b => [b]
  | c :: d :: rest => do
      let b ← readByte [c, d]
      let bytes ← readBytes rest
      pure (b :: bytes)

def readInput (text : Text) (tx : BHTETransaction) : Except Thrown BHTETransaction :=
  let inputHex := trimQuotes text
  if 2 < inputHex.length then
    (readBytes (inputHex.drop 2)).map fun bytes => { tx with inputData := tx.inputData ++ bytes }
  else .ok tx

/-- `GetTransaction`, when the node has answered; `tx` is what the caller passes in. -/
def getTransaction (txid response : Text) (tx : BHTETransaction) : Except Thrown BHTETransaction :=
  match parseJSONResponse response with
  | none => .ok { tx with txid := txid, status := "pending".toList }
  | some fields => do
      let tx ← onField fields "from" (fun text tx => .ok { tx with sender := trimQuotes text })
        { tx with txid := txid }
      let tx ← onField fields "to" (fun text tx => .ok { tx with recipient := trimQuotes text }) tx
      let tx ← onNumber fields "value" (fun n tx => { tx with amount := n }) tx
      let tx ← onNumber fields "gasPrice" (fun n tx => { tx with fee := n }) tx
      let tx ← onNumber fields "nonce" (fun n tx => { tx with nonce := n }) tx
      let tx ← onField fields "blockNumber" (fun text tx => if text = "null".toList then .ok tx
        else (parseHexToUint64 text).map fun n => { tx with blockNumber := n }) tx
      let tx ← onField fields "status" (fun text tx => .ok { tx with status := trimQuotes text }) tx
      onField fields "input" readInput tx

/-! ## The node -/

/-- A string that is left out when it is empty. -/
def omitEmpty (s : String) : Option Value := if s = "" then none else some (stringValue s)

/-- The keys and the values of a transaction as they are written; `none` is left out. -/
def txEntries (tx : TxRecord) : List (String × Option Value) :=
  [("hash", some (stringValue tx.hash)),
    ("from", some (stringValue tx.sender)),
    ("to", some (stringValue tx.recipient)),
    ("value", some (stringValue tx.value)),
    ("nonce", omitEmpty tx.nonce),
    ("gas", omitEmpty tx.gas),
    ("input", omitEmpty tx.input),
    ("blockHash", omitEmpty tx.blockHash),
    ("blockNumber", omitEmpty tx.blockNumber),
    ("transactionIndex", omitEmpty tx.transactionIndex),
    ("time", some (.scalar (.number (.ofInt tx.time)))),
    ("timestamp", some (.scalar (.number (.ofInt tx.timestamp)))),
    ("confirmations", some (.scalar (.number (.ofInt tx.confirmations)))),
    ("fee", some (stringValue tx.fee)),
    ("raw", omitEmpty tx.raw)]

def entryMembers (entries : List (String × Option Value)) : List (Member Value) :=
  entries.filterMap fun e => e.2.map (compact e.1)

/-- The response that holds a transaction.  The strings are written as JSON asks for; Go escapes a
few characters more. -/
def txResponse (id : String) (tx : TxRecord) : Response :=
  { nodeResponse [] (entryMembers (txEntries tx)) with
    front := [compact "jsonrpc" (stringValue "2.0"), compact "id" (stringValue id)] }

/-- What `writeRPC` sends; a result that is nil is left out. -/
def txAnswer (id : String) : Option TxRecord → Text
  | none => "\x7b\"jsonrpc\":\"2.0\",\"id\":\"".toList ++ id.toList ++ "\"\x7d\n".toList
  | some tx => (txResponse id tx).text

/-! ## Texts that pass -/

/-- Nothing in the text is escaped, ends a string or counts as a bracket. -/
def Clean (s : Text) : Prop := ∀ c ∈ s, ' ' ≤ c ∧ c ∉ ['"', '\x27', '\\', '{', '}', '[', ']']

instance (s : Text) : Decidable (Clean s) := List.decidableBAll _ s

namespace Clean

variable {s : Text} (h : Clean s)
include h

theorem plain : ∀ c ∈ s, ' ' ≤ c ∧ c ≠ '"' ∧ c ≠ '\\' := by
  intro c hc
  obtain ⟨hspace, hnot⟩ := h c hc
  simp only [List.mem_cons, not_or] at hnot
  exact ⟨hspace, hnot.1, hnot.2.2.1⟩

theorem raw_escape : raw (escape s) = s := Json.raw_escape h.plain

theorem quote_notMem : '"' ∉ raw (escape s) := by
  rw [h.raw_escape]
  exact fun hc => (h.plain _ hc).2.1 rfl

theorem bracketFree : BracketFree (escape s) := by
  rw [BracketFree, h.raw_escape]
  intro c hc
  have hnot := (h c hc).2
  simp only [List.mem_cons, not_or] at hnot ⊢
  exact hnot.2.2.2

/-- There are no quotes to trim. -/
theorem trimQuotes : trimQuotes s = s := by
  have hquote : s.head? ≠ some '"' ∧ s.head? ≠ some '\x27' := by
    constructor <;> intro hhead
    · exact absurd List.mem_cons_self (h _ (List.mem_of_mem_head? hhead)).2
    · exact absurd (List.mem_cons_of_mem _ List.mem_cons_self) (h _ (List.mem_of_mem_head? hhead)).2
  rw [WalletPro.trimQuotes, if_neg]
  rintro ⟨-, ⟨hhead, -⟩ | ⟨hhead, -⟩⟩
  · exact hquote.1 hhead
  · exact hquote.2 hhead

end Clean

/-- All texts of the transaction pass. -/
def CleanRecord (tx : TxRecord) : Prop :=
  ∀ s ∈ [tx.hash, tx.sender, tx.recipient, tx.value, tx.nonce, tx.gas, tx.input, tx.blockHash,
    tx.blockNumber, tx.transactionIndex, tx.fee, tx.raw], Clean s.toList

/-- A string that passes, or a number. -/
def CleanValue (v : Value) : Prop :=
  (∃ s : String, Clean s.toList ∧ v = stringValue s) ∨ ∃ n, v = .scalar (.number n)

theorem CleanValue.strings {v : Value} (h : CleanValue v) :
    ∀ s ∈ v.strings, '"' ∉ raw s ∧ BracketFree s := by
  rcases h with ⟨s, hs, rfl⟩ | ⟨n, rfl⟩
  · intro s' hs'
    rw [List.mem_singleton.mp hs']
    exact ⟨hs.quote_notMem, hs.bracketFree⟩
  · exact fun s hs => absurd hs List.not_mem_nil

/-- The keys are distinct and pass, and so do the values. -/
structure CleanEntries (entries : List (String × Option Value)) : Prop where
  nodup : (entries.map Prod.fst).Nodup
  keys : ∀ e ∈ entries, Clean e.1.toList
  values : ∀ e ∈ entries, ∀ v ∈ e.2, CleanValue v

theorem cleanValue_omitEmpty {s : String} (h : Clean s.toList) :
    ∀ v ∈ omitEmpty s, CleanValue v := by
  intro v hv
  rw [omitEmpty] at hv
  split_ifs at hv
  · cases hv
  · cases hv
    exact .inl ⟨s, h, rfl⟩

/-- The keys of a transaction. -/
def txKeys : List String :=
  ["hash", "from", "to", "value", "nonce", "gas", "input", "blockHash", "blockNumber",
    "transactionIndex", "time", "timestamp", "confirmations", "fee", "raw"]

theorem keys_txEntries (tx : TxRecord) : (txEntries tx).map Prod.fst = txKeys := rfl

theorem cleanEntries_txEntries {tx : TxRecord} (h : CleanRecord tx) :
    CleanEntries (txEntries tx) := by
  have hstring : ∀ {s : String}, Clean s.toList → ∀ v ∈ some (stringValue s), CleanValue v :=
    fun hs v hv => by cases hv; exact .inl ⟨_, hs, rfl⟩
  have hnumber : ∀ n : Number, ∀ v ∈ some (Value.scalar (.number n)), CleanValue v :=
    fun n v hv => by cases hv; exact .inr ⟨n, rfl⟩
  simp only [CleanRecord, List.forall_mem_cons] at h
  obtain ⟨hhash, hfrom, hto, hvalue, hnonce, hgas, hinput, hblockHash, hblockNumber, hindex, hfee,
    hraw, -⟩ := h
  have hkeys : (txKeys.all fun k => decide (Clean k.toList)) = true := by decide +kernel
  refine ⟨keys_txEntries tx ▸ (by decide : txKeys.Nodup), fun e he => ?_, ?_⟩
  · exact of_decide_eq_true (List.all_eq_true.mp hkeys e.1 (List.mem_map_of_mem he))
  · simp only [txEntries, List.forall_mem_cons]
    exact ⟨hstring hhash, hstring hfrom, hstring hto, hstring hvalue, cleanValue_omitEmpty hnonce,
      cleanValue_omitEmpty hgas, cleanValue_omitEmpty hinput, cleanValue_omitEmpty hblockHash,
      cleanValue_omitEmpty hblockNumber, cleanValue_omitEmpty hindex, hnumber _, hnumber _,
      hnumber _, hstring hfee, cleanValue_omitEmpty hraw, List.forall_mem_nil _⟩

/-! ## The response is read -/

/-- What the client takes for a value. -/
def shown (v : Value) : Text := reading (compact "" v)

theorem reading_compact_eq (k : String) (v : Value) : reading (compact k v) = shown v := by
  cases v <;> rfl

/-- The fields that the client finds. -/
def entryFields (entries : List (String × Option Value)) : Fields :=
  (entries.filterMap fun e => e.2.map fun v => (e.1.toList, shown v)).reverse

theorem map_entryMembers {entries : List (String × Option Value)}
    (h : ∀ e ∈ entries, Clean e.1.toList) :
    ((entryMembers entries).map fun m => (raw m.key, reading m)).reverse = entryFields entries := by
  rw [entryFields, entryMembers, List.map_filterMap]
  refine congrArg _ (List.filterMap_congr fun e he => ?_)
  rw [Option.map_map]
  refine congrFun (congrArg _ (funext fun v => ?_)) e.2
  exact Prod.ext (h e he).raw_escape (reading_compact_eq e.1 v)

theorem memberStrings_clean {entries : List (String × Option Value)} (h : CleanEntries entries) :
    ∀ s ∈ memberStrings (entryMembers entries), '"' ∉ raw s ∧ BracketFree s := by
  obtain ⟨-, hkeys, hvalues⟩ := h
  induction entries with
  | nil => exact fun s hs => absurd hs List.not_mem_nil
  | cons e entries ih =>
      have hrest := ih (fun e' he' => hkeys e' (List.mem_cons_of_mem _ he'))
        fun e' he' => hvalues e' (List.mem_cons_of_mem _ he')
      obtain ⟨k, o⟩ := e
      cases o with
      | none => exact hrest
      | some v =>
          have hk := hkeys _ List.mem_cons_self
          intro s hs
          change s ∈ escape k.toList :: v.strings ++ memberStrings (entryMembers entries) at hs
          rcases List.mem_append.mp hs with hs | hs
          · rcases List.mem_cons.mp hs with rfl | hs
            · exact ⟨hk.quote_notMem, hk.bracketFree⟩
            · exact (hvalues _ List.mem_cons_self v rfl).strings s hs
          · exact hrest s hs

/-- The response up to the end of the identifier. -/
def answerFront (id : Text) : Text :=
  ['{', '"', 'j', 's', 'o', 'n', 'r', 'p', 'c', '"', ':', '"', '2', '.', '0', '"', ',', '"', 'i',
    'd', '"', ':', '"'] ++ (id ++ ['"'])

/-- The key of the result. -/
def resultQuoted : Text := '"' :: 'r' :: ['e', 's', 'u', 'l', 't', '"']

/-- There is no quote with an `r` behind it. -/
theorem cut_answerFront {id : Text} (hid : IsIdText id) {s : Text} (hs : s.head? ≠ some 'r') :
    cut "\"result\"".toList (answerFront id ++ s) =
      (cut "\"result\"".toList s).map fun r => (answerFront id ++ r.1, r.2) := by
  have hpattern : "\"result\"".toList = resultQuoted := rfl
  have hhead : (id ++ (['"'] ++ s)).head? ≠ some 'r' := by
    cases id with
    | nil => simp
    | cons c id =>
        intro heq
        exact (hid c List.mem_cons_self).2 (Option.some.inj heq)
  rw [hpattern, answerFront, List.append_assoc, List.append_assoc, resultQuoted,
    cut_append_of_isChain (by decide) _ hhead, cut_append fun c hc => (hid c hc).1,
    cut_append_of_isChain (by decide) _ hs]
  cases cut ('"' :: 'r' :: ['e', 's', 'u', 'l', 't', '"']) s with
  | none => rfl
  | some r => simp

/-- The text before the key of the result. -/
theorem head_txResponse {id : String} (hid : Clean id.toList) (tx : TxRecord) :
    (txResponse id tx).head = answerFront id.toList ++ [','] := by
  have hversion : memberText (compact "jsonrpc" (stringValue "2.0")) (stringValue "2.0").text =
      ['"', 'j', 's', 'o', 'n', 'r', 'p', 'c', '"', ':', '"', '2', '.', '0', '"'] := by
    decide +kernel
  have hidtext : memberText (compact "id" (stringValue id)) (stringValue id).text =
      ['"', 'i', 'd', '"', ':', '"'] ++ (id.toList ++ ['"']) := by
    have hquoted : (stringValue id).text = '"' :: id.toList ++ ['"'] := by
      show quoted (escape id.toList) = _
      rw [quoted, hid.raw_escape]
    rw [memberText, hquoted]
    have hkey : quoted (compact "id" (stringValue id)).key = ['"', 'i', 'd', '"'] := by
      show quoted (escape "id".toList) = _
      decide +kernel
    rw [hkey]
    simp [compact, noBlank]
  rw [Response.head, memberTexts_eq_map]
  show [] ++ '{' :: ([memberText (compact "jsonrpc" (stringValue "2.0")) (stringValue "2.0").text,
    memberText (compact "id" (stringValue id)) (stringValue id).text] : List Text).flatMap
      (fun t => t ++ [',']) ++ [] = _
  rw [hversion, hidtext, answerFront]
  simp

/-- The key of the result is found where it is. -/
theorem cut_txResponse {id : String} (hid : Clean id.toList) (hidText : IsIdText id.toList)
    (tx : TxRecord) : ∃ rest, cut "\"result\"".toList (txResponse id tx).text =
      some ((txResponse id tx).head, rest) := by
  have hkey : quoted (txResponse id tx).result.key = resultQuoted := by
    show quoted (escape "result".toList) = _
    decide +kernel
  obtain ⟨rest, hrest⟩ : ∃ rest, (txResponse id tx).text =
      (txResponse id tx).head ++ (resultQuoted ++ rest) := by
    rw [Response.text_eq, hkey]
    exact ⟨_, rfl⟩
  have hmatch : cut "\"result\"".toList ([','] ++ (resultQuoted ++ rest)) =
      some ([','], resultQuoted ++ rest) := by
    rw [show "\"result\"".toList = resultQuoted from rfl, resultQuoted, cut_append (by simp),
      cut_of_isPrefix (List.prefix_append _ _)]
    rfl
  rw [hrest, head_txResponse hid, List.append_assoc, cut_answerFront hidText (by simp), hmatch]
  exact ⟨_, rfl⟩

theorem located_txResponse {id : String} (hid : Clean id.toList) (hidText : IsIdText id.toList)
    {tx : TxRecord} (htx : CleanRecord tx) : (txResponse id tx).Located := by
  have hkey : raw (escape "result".toList) = resultKey := by decide +kernel
  obtain ⟨rest, hcut⟩ := cut_txResponse hid hidText tx
  refine Response.located_of_clean hkey (not_isPrefix_of_cut hcut) (List.forall_mem_nil _) ?_
    (memberStrings_clean (cleanEntries_txEntries htx))
  intro m hm c hc
  obtain ⟨e, -, hm⟩ := List.mem_filterMap.mp hm
  obtain ⟨v, -, rfl⟩ := Option.map_eq_some_iff.mp hm
  cases hc

/-- **The response is read**: each member of the transaction that is there, and no other. -/
theorem parseJSONResponse_txResponse {id : String} (hid : Clean id.toList)
    (hidText : IsIdText id.toList) {tx : TxRecord} (htx : CleanRecord tx) :
    parseJSONResponse (txResponse id tx).text = some (entryFields (txEntries tx)) := by
  rw [Response.parseJSONResponse_text (located_txResponse hid hidText htx)]
  exact congrArg some (map_entryMembers (cleanEntries_txEntries htx).keys)

theorem lookup_entryFields {entries : List (String × Option Value)}
    (hnodup : (entries.map Prod.fst).Nodup) {k : String} {o : Option Value}
    (hmem : (k, o) ∈ entries) : (entryFields entries).lookup k.toList = o.map shown := by
  have hkeys : (entries.map fun e => e.1.toList).Nodup := by
    have hmap := hnodup.map (f := String.toList) fun _ _ => String.toList_injective
    rwa [List.map_map] at hmap
  have hlookup : ((entries.filterMap fun e => (e.2.map shown).map fun b =>
      (e.1.toList, b)).reverse).lookup k.toList = o.map shown :=
    lookup_reverse_filterMap hkeys hmem
  rw [← hlookup, entryFields]
  simp only [Option.map_map]
  rfl

/-- An entry that is left out and one that is not there are not found. -/
theorem lookup_entryFields_of_notMem {entries : List (String × Option Value)} {k : String}
    (h : k ∉ entries.map Prod.fst) : (entryFields entries).lookup k.toList = none := by
  refine List.lookup_eq_none_iff.mpr fun p hp => bne_iff_ne.mpr ?_
  obtain ⟨e, he, hp⟩ := List.mem_filterMap.mp (List.mem_reverse.mp hp)
  obtain ⟨v, -, rfl⟩ := Option.map_eq_some_iff.mp hp
  intro heq
  exact h (String.toList_injective heq ▸ List.mem_map_of_mem he)

/-- What the client finds of a string that is left out when it is empty. -/
def shownText (s : String) : Option Text := if s = "" then none else some s.toList

theorem shown_stringValue {s : String} (h : Clean s.toList) : shown (stringValue s) = s.toList :=
  h.raw_escape

theorem shown_omitEmpty {s : String} (h : Clean s.toList) :
    (omitEmpty s).map shown = shownText s := by
  unfold omitEmpty shownText
  split
  · rfl
  · exact congrArg some (shown_stringValue h)

/-- Without a result there is nothing to find. -/
theorem parseJSONResponse_txAnswer_none {id : String} (hidText : IsIdText id.toList) :
    parseJSONResponse (txAnswer id none) = none := by
  have htext : txAnswer id none = answerFront id.toList ++ ['}', '\n'] := by
    unfold txAnswer answerFront
    simp
  have hrest : cut "\"result\"".toList ['}', '\n'] = none := by decide
  rw [parseJSONResponse, htext, cut_answerFront hidText (by simp), hrest]
  rfl

/-! ## What the wallet shows -/

/-- **A transaction that the node does not know is pending.** -/
theorem getTransaction_unknown {id : String} (hidText : IsIdText id.toList) (txid : Text)
    (tx₀ : BHTETransaction) : getTransaction txid (txAnswer id none) tx₀ =
      .ok { tx₀ with txid := txid, status := "pending".toList } := by
  rw [getTransaction, parseJSONResponse_txAnswer_none hidText]

/-- A number that may be left out. -/
def readOr (old : UInt64) (s : String) : Except Thrown UInt64 :=
  (shownText s).elim (.ok old) parseHexToUint64

/-- What the input is read as. -/
def inputBytes (s : String) : Except Thrown (List UInt8) :=
  if 2 < s.toList.length then readBytes (s.toList.drop 2) else .ok []

section Known

variable {tx : TxRecord} (htx : CleanRecord tx) {k s : String}
include htx

theorem lookup_string (hmem : (k, some (stringValue s)) ∈ txEntries tx) (hs : Clean s.toList) :
    (entryFields (txEntries tx)).lookup k.toList = some s.toList := by
  rw [lookup_entryFields (cleanEntries_txEntries htx).nodup hmem, Option.map_some,
    shown_stringValue hs]

theorem lookup_omitEmpty (hmem : (k, omitEmpty s) ∈ txEntries tx) (hs : Clean s.toList) :
    (entryFields (txEntries tx)).lookup k.toList = shownText s := by
  rw [lookup_entryFields (cleanEntries_txEntries htx).nodup hmem, shown_omitEmpty hs]

omit htx in
theorem lookup_notMem (hk : k ∉ txKeys) : (entryFields (txEntries tx)).lookup k.toList = none :=
  lookup_entryFields_of_notMem hk

omit htx in
theorem onField_string {fields : Fields} (h : fields.lookup k.toList = some s.toList)
    (hs : Clean s.toList) (f : Text → BHTETransaction → BHTETransaction) (tx : BHTETransaction) :
    onField fields k (fun text tx => .ok (f (trimQuotes text) tx)) tx = pure (f s.toList tx) := by
  rw [onField, h, Option.elim_some, hs.trimQuotes]
  rfl

omit htx in
theorem onField_absent {fields : Fields} (h : fields.lookup k.toList = none)
    (f : Text → BHTETransaction → Except Thrown BHTETransaction) (tx : BHTETransaction) :
    onField fields k f tx = pure tx := by
  rw [onField, h, Option.elim_none]
  rfl

omit htx in
theorem onNumber_string {fields : Fields} (h : fields.lookup k.toList = some s.toList)
    (f : UInt64 → BHTETransaction → BHTETransaction) (tx : BHTETransaction) :
    onNumber fields k f tx = (fun n => f n tx) <$> parseHexToUint64 s.toList := by
  rw [onNumber, onField, h, Option.elim_some]
  rfl

omit htx in
theorem onNumber_shownText {fields : Fields} (h : fields.lookup k.toList = shownText s)
    (f : UInt64 → BHTETransaction → BHTETransaction) (tx : BHTETransaction) {old : UInt64}
    (hold : f old tx = tx) : onNumber fields k f tx = (fun n => f n tx) <$> readOr old s := by
  rw [onNumber, onField, h, readOr]
  cases shownText s with
  | none => exact congrArg Except.ok hold.symm
  | some text => rfl

omit htx in
/-- A block number that is not null is a number. -/
theorem onField_notNull {fields : Fields} (h : fields.lookup k.toList = shownText s)
    (hs : s ≠ "null") (f : UInt64 → BHTETransaction → BHTETransaction) :
    onField fields k (fun text tx => if text = "null".toList then .ok tx
      else (parseHexToUint64 text).map fun n => f n tx) = onNumber fields k f := by
  funext tx
  rw [onNumber, onField, onField, h, shownText]
  by_cases hempty : s = ""
  · rw [if_pos hempty]
    rfl
  · have hnull : s.toList ≠ "null".toList := fun heq => hs (String.toList_injective heq)
    rw [if_neg hempty, Option.elim_some, Option.elim_some, if_neg hnull]

omit htx in
theorem onField_readInput {fields : Fields} (h : fields.lookup k.toList = shownText s)
    (hs : Clean s.toList) (tx : BHTETransaction) : onField fields k readInput tx =
      (fun bytes => { tx with inputData := tx.inputData ++ bytes }) <$> inputBytes s := by
  rw [onField, h, shownText, inputBytes]
  by_cases hempty : s = ""
  · rw [if_pos hempty, hempty]
    simp
  · rw [if_neg hempty, Option.elim_some, readInput, hs.trimQuotes]
    by_cases hlength : 2 < s.toList.length
    · simp only [hlength, if_true]
      rfl
    · simp [hlength]

/-- **What is shown of a transaction that the node knows**: the addresses, the amount, the nonce,
the block and the input that it has.  The fee and the status stay what they were. -/
theorem getTransaction_known {id : String} (hid : Clean id.toList) (hidText : IsIdText id.toList)
    (hblock : tx.blockNumber ≠ "null") (txid : Text) (tx₀ : BHTETransaction) :
    getTransaction txid (txAnswer id (some tx)) tx₀ = (do
      let amount ← parseHexToUint64 tx.value.toList
      let nonce ← readOr tx₀.nonce tx.nonce
      let blockNumber ← readOr tx₀.blockNumber tx.blockNumber
      let bytes ← inputBytes tx.input
      pure { tx₀ with
        txid := txid
        sender := tx.sender.toList
        recipient := tx.recipient.toList
        amount := amount
        nonce := nonce
        blockNumber := blockNumber
        inputData := tx₀.inputData ++ bytes }) := by
  have hclean := htx
  simp only [CleanRecord, List.forall_mem_cons] at hclean
  obtain ⟨-, hfrom, hto, hvalue, hnonce, -, hinput, -, hblockNumber, -⟩ := hclean
  have hfrom' := onField_string (lookup_string htx (k := "from") (by simp [txEntries]) hfrom) hfrom
    (fun text tx => { tx with sender := text })
  have hto' := onField_string (lookup_string htx (k := "to") (by simp [txEntries]) hto) hto
    (fun text tx => { tx with recipient := text })
  have hvalue' := onNumber_string (lookup_string htx (k := "value") (by simp [txEntries]) hvalue)
    (fun n tx => { tx with amount := n })
  have hgasPrice : ∀ f tx', onNumber (entryFields (txEntries tx)) "gasPrice" f tx' = pure tx' :=
    fun f => onField_absent (lookup_notMem (by decide)) _
  have hstatus : ∀ f tx', onField (entryFields (txEntries tx)) "status" f tx' = pure tx' :=
    onField_absent (lookup_notMem (by decide))
  have hnonce' := fun tx' => onNumber_shownText (lookup_omitEmpty htx (k := "nonce")
    (by simp [txEntries]) hnonce) (fun n tx => { tx with nonce := n }) tx' rfl
  have hinput' := onField_readInput (lookup_omitEmpty htx (k := "input") (by simp [txEntries])
    hinput) hinput
  have hblockNumber' := lookup_omitEmpty htx (k := "blockNumber") (by simp [txEntries]) hblockNumber
  have hnotNull := onField_notNull hblockNumber' hblock
    (fun n tx => { tx with blockNumber := n })
  have hread := fun tx' => onNumber_shownText hblockNumber'
    (fun n tx => { tx with blockNumber := n }) tx' rfl
  have hparse : parseJSONResponse (txAnswer id (some tx)) = some (entryFields (txEntries tx)) :=
    parseJSONResponse_txResponse hid hidText htx
  unfold getTransaction
  rw [hparse]
  simp only [hfrom', hto', hvalue', hnonce', hnotNull, hread, hinput', hgasPrice, hstatus,
    pure_bind, bind_map_left, bind_pure_comp]

end Known

/-! ## Numbers and bytes -/

/-- A quantity of the node is read when it fits. -/
theorem parseHexToUint64_toHex_eq_ite (n : ℕ) : parseHexToUint64 (toHex n).toList =
    if n < 2 ^ 64 then .ok (UInt64.ofNat n) else .error .outOfRange := by
  have hdrop : (toHex n).toList = '0' :: 'x' :: Nat.toDigits 16 n := by simp [toHex]
  rw [parseHexToUint64, hdrop, if_pos (by rfl)]
  refine (stoull16_toDigits_eq_ite n).trans ?_
  by_cases h : n < 2 ^ 64
  · rw [if_pos h, if_neg (not_le.mpr h)]
  · rw [if_neg h, if_pos (not_lt.mp h)]

/-- Two digits are a byte. -/
theorem readByte_digits (b : UInt8) :
    readByte [Nat.digitChar (b.toNat / 16), Nat.digitChar (b.toNat % 16)] = .ok b := by
  have hlt := b.toNat_lt
  have hhigh : b.toNat / 16 < 16 := by omega
  have hlow : b.toNat % 16 < 16 := by omega
  have hdigits : ∀ c ∈ [Nat.digitChar (b.toNat / 16), Nat.digitChar (b.toNat % 16)],
      ∃ d < 16, c = Nat.digitChar d := by
    simp only [List.forall_mem_cons]
    exact ⟨⟨_, hhigh, rfl⟩, ⟨_, hlow, rfl⟩, List.forall_mem_nil _⟩
  have hvalue : (0 * 16 + b.toNat / 16) * 16 + b.toNat % 16 = b.toNat := by omega
  rw [readByte, stoull16_eq_ite (List.cons_ne_nil _ _) hdigits, List.foldl_cons, List.foldl_cons,
    List.foldl_nil, digitVal_digitChar _ hhigh, digitVal_digitChar _ hlow, hvalue,
    if_neg (by omega)]
  exact congrArg Except.ok (by simp)

theorem readBytes_hexEncode (bytes : List UInt8) : readBytes (hexEncode bytes) = .ok bytes := by
  induction bytes with
  | nil => rfl
  | cons b bytes ih =>
      change (do
        let b ← readByte [Nat.digitChar (b.toNat / 16), Nat.digitChar (b.toNat % 16)]
        let bytes ← readBytes (hexEncode bytes)
        pure (b :: bytes)) = _
      rw [readByte_digits, ih]
      rfl

/-- A number that the node may not have. -/
def quantityOr : Option UInt64 → String
  | none => ""
  | some n => toHex n.toNat

/-- The texts of the transaction are these numbers and these bytes. -/
structure Holds (tx : TxRecord) (value : ℕ) (nonce blockNumber : Option UInt64)
    (input : List UInt8) : Prop where
  value : tx.value = toHex value
  nonce : tx.nonce = quantityOr nonce
  blockNumber : tx.blockNumber = quantityOr blockNumber
  input : tx.input = "0x" ++ hexBytes input ∨ tx.input = "" ∧ input = []

theorem toHex_ne (n : ℕ) : toHex n ≠ "" ∧ toHex n ≠ "null" := by
  constructor <;> intro h
  · exact absurd (congrArg String.toList h) (by simp [toHex])
  · exact absurd (congrArg String.toList h) (by simp [toHex])

theorem readOr_quantityOr (old : UInt64) (n : Option UInt64) :
    readOr old (quantityOr n) = .ok (n.getD old) := by
  cases n with
  | none => rfl
  | some n =>
      rw [readOr, shownText, quantityOr, if_neg (toHex_ne _).1]
      exact parseHexToUint64_toHex n

theorem inputBytes_eq {s : String} {input : List UInt8}
    (h : s = "0x" ++ hexBytes input ∨ s = "" ∧ input = []) : inputBytes s = .ok input := by
  rcases h with rfl | ⟨rfl, rfl⟩
  · have htext : ("0x" ++ hexBytes input).toList = '0' :: 'x' :: hexEncode input := by
      simp [hexBytes]
    rw [inputBytes, htext]
    cases input with
    | nil => rfl
    | cons b input =>
        rw [if_pos (by simp [length_hexEncode])]
        exact readBytes_hexEncode (b :: input)
  · rfl

/-! ## Over HTTP -/

/-- The identifier that the client sends. -/
def rpcId (rpcIdPrefix : Node.Bytes) (time : ℕ) : String :=
  String.ofList (generateRPCID rpcIdPrefix time)

theorem clean_rpcId (rpcIdPrefix : Node.Bytes) (time : ℕ) :
    Clean (rpcId rpcIdPrefix time).toList := by
  have hdigit : ∀ d < 16, ' ' ≤ Nat.digitChar d ∧
      Nat.digitChar d ∉ ['"', '\x27', '\\', '{', '}', '[', ']'] := by decide
  rw [rpcId, String.toList_ofList]
  intro c hc
  rcases List.mem_append.mp hc with hc | hc
  · obtain ⟨d, hd, rfl⟩ := exists_digitChar_of_mem_hexEncode c hc
    exact hdigit d hd
  · rcases List.mem_cons.mp hc with rfl | hc
    · decide
    · rcases List.mem_append.mp hc with hc | hc
      · rw [List.eq_of_mem_replicate hc]
        decide
      · obtain ⟨d, hd, rfl⟩ := exists_digitChar_of_mem_toDigits (by decide) c hc
        exact hdigit d hd

theorem isIdText_rpcId (rpcIdPrefix : Node.Bytes) (time : ℕ) :
    IsIdText (rpcId rpcIdPrefix time).toList := by
  rw [rpcId, String.toList_ofList]
  exact isIdText_generateRPCID rpcIdPrefix time

/-- A transaction that the node holds is shown with its numbers, if its amount fits. -/
theorem getTransaction_of_holds {tx : TxRecord} (htx : CleanRecord tx) {value : ℕ}
    {nonce blockNumber : Option UInt64} {input : List UInt8}
    (h : Holds tx value nonce blockNumber input) (rpcIdPrefix : Node.Bytes) (time : ℕ) (txid : Text)
    (tx₀ : BHTETransaction) :
    getTransaction txid (txAnswer (rpcId rpcIdPrefix time) (some tx)) tx₀ =
      if value < 2 ^ 64 then
        .ok { tx₀ with
          txid := txid
          sender := tx.sender.toList
          recipient := tx.recipient.toList
          amount := UInt64.ofNat value
          nonce := nonce.getD tx₀.nonce
          blockNumber := blockNumber.getD tx₀.blockNumber
          inputData := tx₀.inputData ++ input }
      else .error .outOfRange := by
  have hblock : tx.blockNumber ≠ "null" := by
    rw [h.blockNumber]
    cases blockNumber with
    | none => simp [quantityOr]
    | some n => exact (toHex_ne _).2
  rw [getTransaction_known htx (clean_rpcId _ _) (isIdText_rpcId _ _) hblock, h.value,
    parseHexToUint64_toHex_eq_ite, h.nonce, readOr_quantityOr, h.blockNumber, readOr_quantityOr,
    inputBytes_eq h.input]
  by_cases hvalue : value < 2 ^ 64
  · rw [if_pos hvalue, if_pos hvalue]
    rfl
  · rw [if_neg hvalue, if_neg hvalue]
    rfl

/-- A transfer of five wei with two bytes of input. -/
def smallTransfer : Node.Object :=
  Node.object [("from", .str Node.defaultAccount),
    ("to", .str "0x00000000000000000000000000000000000000aa"), ("value", .str "0x5"),
    ("input", .str "0x0102")]

theorem text_smallTransfer [Node.Platform] : Node.text smallTransfer "from" = Node.defaultAccount ∧
    Node.text smallTransfer "to" = "0x00000000000000000000000000000000000000aa" ∧
    Node.text smallTransfer "value" = "0x5" ∧ Node.text smallTransfer "input" = "0x0102" ∧
    Node.text smallTransfer "data" = "<nil>" ∧ Node.text smallTransfer "gas" = "<nil>" :=
  ⟨Node.text_of_str rfl, Node.text_of_str rfl, Node.text_of_str rfl, Node.text_of_str rfl,
    Node.text_of_null rfl, Node.text_of_null rfl⟩

theorem clean_hashHex [Node.Platform] (data : Node.Bytes) : Clean (Node.hashHex data).toList := by
  have hdigit : ∀ d < 16, ' ' ≤ Nat.digitChar d ∧
      Nat.digitChar d ∉ ['"', '\x27', '\\', '{', '}', '[', ']'] := by decide
  have htext : (Node.hashHex data).toList = '0' :: 'x' :: hexEncode (Node.Platform.sha256 data) := by
    rw [Node.hashHex, Node.hexString]
    simp
  rw [htext]
  intro c hc
  rcases List.mem_cons.mp hc with rfl | hc
  · decide
  rcases List.mem_cons.mp hc with rfl | hc
  · decide
  · obtain ⟨d, hd, rfl⟩ := exists_digitChar_of_mem_hexEncode c hc
    exact hdigit d hd

/-- The record of the transfer on a node where nothing was executed. -/
theorem smallTransfer_record [Node.Platform] {n : Node.RpcNode} (ω : Node.Choices)
    (h : n.world.nonces = ∅) :
    let tx := n.txOfObject ω smallTransfer ""
    tx.sender = Node.defaultAccount ∧
      tx.recipient = "0x00000000000000000000000000000000000000aa" ∧ CleanRecord tx ∧
      Holds tx 5 (some 0) none [1, 2] := by
  obtain ⟨hfrom, hto, hvalue, hinput, hdata, hgas⟩ := text_smallTransfer
  have hfive : Node.hexText (Node.parseQuantity "0x5") = "0x5" := by decide +kernel
  have hzero : Node.toHex 0 = "0x0" := by decide +kernel
  rw [Node.RpcNode.txOfObject, hfrom, hto, hvalue, hinput, hdata, hgas, h,
    Node.normalizeAddress_defaultAccount, Node.normalizeAddress_aa, hfive]
  refine ⟨rfl, rfl, ?_, ?_, ?_, rfl, .inl ?_⟩
  · simp only [CleanRecord, List.forall_mem_cons]
    refine ⟨clean_hashHex _, ?_⟩
    rw [show ((∅ : FinMap String ℕ).get? Node.defaultAccount).getD 0 = 0 from rfl, hzero]
    decide
  · show "0x5" = Node.toHex 5
    decide +kernel
  · exact congrArg Node.toHex rfl
  · show Node.stringOrDefault "<nil>" (Node.stringOrDefault "0x0102" "0x") = "0x" ++ hexBytes [1, 2]
    decide +kernel

theorem validate_smallTransfer [Node.Platform] {n : Node.RpcNode}
    (h : n.world = Node.freshWorld Node.manualMining) :
    n.validateTransaction Node.manualMining smallTransfer = .ok () := by
  obtain ⟨hfrom, hto, hvalue, -, -, -⟩ := text_smallTransfer
  have hfive : Node.parseQuantity "0x5" = 5 := by decide +kernel
  refine Node.RpcNode.validateTransaction_of_covered
    (hfrom ▸ Node.normalizeAddress_defaultAccount) (hto ▸ Node.normalizeAddress_aa) (hvalue ▸ hfive)
    rfl (by decide) rfl Node.isHexAddress_defaultAccount (.inr Node.isHexAddress_aa) ?_
  rw [h, Node.balance_freshWorld_manualMining]
  decide

/-- Sending it puts its record on the pending list. -/
theorem send_smallTransfer [Node.Platform] {n : Node.RpcNode}
    (h : n.world = Node.freshWorld Node.manualMining) (ω : Node.Choices) :
    (n.next Node.manualMining ω (.sendTransaction smallTransfer)).pendingTxs =
      n.pendingTxs ++ [n.txOfObject (ω.call 0) smallTransfer ""] := by
  rw [Node.RpcNode.next, Node.RpcNode.sendTransaction, validate_smallTransfer h]
  rfl

theorem transactionByHash_of_pending [Node.Platform] {n : Node.RpcNode} {tx : Node.TxRecord}
    (h : n.pendingTxs = [tx]) : n.transactionByHash tx.hash = some tx := by
  rw [Node.RpcNode.transactionByHash, h]
  simp

theorem pending_smallTransfer [Node.Platform] {n : Node.RpcNode}
    (hworld : n.world = Node.freshWorld Node.manualMining) (hempty : n.pendingTxs = [])
    (ω : Node.Choices) :
    ∃ tx, (n.next Node.manualMining ω (.sendTransaction smallTransfer)).pendingTxs = [tx] ∧
      tx.sender = Node.defaultAccount ∧
      tx.recipient = "0x00000000000000000000000000000000000000aa" ∧ CleanRecord tx ∧
      Holds tx 5 (some 0) none [1, 2] := by
  have hnonces : n.world.nonces = ∅ := by rw [hworld, Node.freshWorld_manualMining]
  refine ⟨n.txOfObject (ω.call 0) smallTransfer "", ?_, smallTransfer_record (ω.call 0) hnonces⟩
  rw [send_smallTransfer hworld ω, hempty, List.nil_append]

end BhtBhte.WalletPro
