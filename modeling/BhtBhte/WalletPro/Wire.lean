import BhtBhte.WalletPro.Layer2Client

/-!
# Amounts between the wallet and the node

The wallet writes the decimal digits of an amount behind `0x`, and the node reads them in base 16,
so that only one digit means the same on both sides.  In the other direction the node writes a
quantity in quotes, and the client gives the quotes to the number reader.  `survives_iff` says what
survives the wire.
-/
namespace BhtBhte.WalletPro

open BhtBhte.Lib
open BhtBhte.Node (parseQuantity parseQuantity_hex toHex)

/-! ## From the wallet to the node -/

/-- The decimal digits of a number, read in base 16. -/
def hexReading (n : ℕ) : ℕ := (Nat.toDigits 10 n).foldl (fun a c => a * 16 + digitVal c) 0

theorem hexReading_of_lt {n : ℕ} (h : n < 10) : hexReading n = n := by
  rw [hexReading, Nat.toDigits_of_lt_base h, List.foldl_cons, List.foldl_nil,
    digitVal_digitChar n (by omega)]
  omega

theorem hexReading_of_le {n : ℕ} (h : 10 ≤ n) :
    hexReading n = hexReading (n / 10) * 16 + n % 10 := by
  have hmod : n % 10 < 10 := Nat.mod_lt n (by decide)
  rw [hexReading, Nat.toDigits_of_base_le (by decide) h, List.foldl_append, List.foldl_cons,
    List.foldl_nil, digitVal_digitChar _ (by omega), hexReading]

theorem le_hexReading (n : ℕ) : n ≤ hexReading n := by
  induction n using Nat.strong_induction_on with
  | _ n ih =>
      by_cases h : n < 10
      · exact (hexReading_of_lt h).ge
      · rw [hexReading_of_le (not_lt.mp h)]
        have hle := ih (n / 10) (by omega)
        omega

/-- **One digit means the same in both bases, more digits do not.** -/
theorem hexReading_eq_iff (n : ℕ) : hexReading n = n ↔ n < 10 := by
  constructor
  · intro heq
    by_contra h
    have hle := le_hexReading (n / 10)
    rw [hexReading_of_le (not_lt.mp h)] at heq
    omega
  · exact hexReading_of_lt

/-- What the node reads. -/
theorem parseQuantity_quantity (amount : UInt64) :
    parseQuantity (quantity amount) = hexReading amount.toNat := by
  have hdigits : ∀ c ∈ Nat.toDigits 10 amount.toNat, ∃ d < 16, c = Nat.digitChar d := by
    intro c hc
    obtain ⟨d, hd, rfl⟩ := exists_digitChar_of_mem_toDigits (by decide) c hc
    exact ⟨d, by omega, rfl⟩
  have hspace : ∀ c ∈ Nat.toDigits 10 amount.toNat, isSpace c = false := by
    intro c hc
    obtain ⟨d, hd, rfl⟩ := hdigits c hc
    exact (digitChar_plain d hd).2.2.1
  rw [quantity, stdToString, parseQuantity_hex hspace,
    bigSetString_digits le_rfl Nat.toDigits_ne_nil hdigits]
  rfl

/-! ## From the node to the wallet -/

/-- A text of an identifier. -/
def IsIdText (id : Text) : Prop := ∀ c ∈ id, c ≠ '"' ∧ c ≠ 'r'

/-- The answer from its result on. -/
def answerTail (result : Text) : Text :=
  '"' :: 'r' :: 'e' :: 's' :: 'u' :: 'l' :: 't' :: '"' :: ':' :: '"' :: result ++ ['"', '}', '\n']

theorem rpcAnswer_eq (id result : Text) : rpcAnswer id result =
    ['{', '"', 'j', 's', 'o', 'n', 'r', 'p', 'c', '"', ':', '"', '2', '.', '0', '"', ',', '"',
      'i', 'd', '"', ':', '"'] ++ (id ++ (['"', ','] ++ answerTail result)) := by
  unfold rpcAnswer answerTail
  simp

/-- Before the key of the result there is no quote with an `r` behind it. -/
theorem cut_rpcAnswer {id : Text} (hid : IsIdText id) (result : Text) :
    ∃ before, cut "\"result\"".toList (rpcAnswer id result) =
      some (before, answerTail result) := by
  have hpattern : "\"result\"".toList = '"' :: 'r' :: ['e', 's', 'u', 'l', 't', '"'] := rfl
  have hhead : (id ++ (['"', ','] ++ answerTail result)).head? ≠ some 'r' := by
    cases id with
    | nil => simp
    | cons c id =>
        intro heq
        exact (hid c List.mem_cons_self).2 (Option.some.inj heq)
  have hmatch : cut ('"' :: 'r' :: ['e', 's', 'u', 'l', 't', '"']) (answerTail result) =
      some ([], answerTail result) := by
    simp [answerTail, cut, List.isPrefixOf]
  rw [rpcAnswer_eq, hpattern, cut_append_of_isChain (by decide) _ hhead,
    cut_append fun c hc => (hid c hc).1, cut_append_of_isChain (by decide) _ (by simp [answerTail]),
    hmatch]
  exact ⟨_, rfl⟩

/-- The value of an answer begins with a quote. -/
theorem parseJSONResponse_rpcAnswer {id : Text} (hid : IsIdText id) (result : Text) :
    ∃ text, parseJSONResponse (rpcAnswer id result) = some [("_value".toList, '"' :: text)] := by
  obtain ⟨before, hcut⟩ := cut_rpcAnswer hid result
  have hcolon : cut [':'] (answerTail result) =
      some (['"', 'r', 'e', 's', 'u', 'l', 't', '"'],
        ':' :: '"' :: result ++ ['"', '}', '\n']) := by
    simp [answerTail, cut, List.isPrefixOf]
  have hvalue : skipBlank ((':' :: '"' :: result ++ ['"', '}', '\n']).drop 1) =
      '"' :: (result ++ ['"', '}', '\n']) := by
    simp [skipBlank]
  refine ⟨(result ++ ['"', '}', '\n']).takeWhile fun c => c ≠ ',' ∧ c ≠ '}', ?_⟩
  unfold parseJSONResponse
  rw [hcut]
  dsimp only [Option.bind_eq_bind, Option.bind_some]
  rw [hcolon]
  dsimp only [Option.bind_some]
  rw [hvalue, if_neg (by simp), if_neg (by simp)]
  simp

theorem parseHexToUint64_quote (text : Text) :
    parseHexToUint64 ('"' :: text) = .error .invalidArgument := by
  rw [parseHexToUint64, if_neg (by simp)]
  exact stoull16_cons (by decide) text

/-- The calls that read a number from an answer. -/
inductive Query where
  | balance
  | nonce
  | chainId

/-- What a query returns for an answer. -/
def Query.read : Query → Text → Option (Except Thrown UInt64)
  | .balance => getBalance
  | .nonce => getNonce
  | .chainId => getChainId

/-- **The client gives the quotes of the answer to the number reader, which throws.** -/
theorem read_rpcAnswer (query : Query) {id : Text} (hid : IsIdText id) (result : Text) :
    query.read (rpcAnswer id result) = some (.error .invalidArgument) := by
  obtain ⟨text, hparse⟩ := parseJSONResponse_rpcAnswer hid result
  have hread : ∀ keys : List String,
      keys.findSome? (fun key => List.lookup key.toList [("_value".toList, '"' :: text)]) =
        some ('"' :: text) →
      readNumber keys (rpcAnswer id result) = some (.error .invalidArgument) := by
    intro keys hkeys
    unfold readNumber
    rw [hparse]
    dsimp only [Option.bind_eq_bind, Option.bind_some]
    rw [hkeys, ← parseHexToUint64_quote text]
    rfl
  cases query with
  | balance => exact hread _ rfl
  | nonce => exact hread _ rfl
  | chainId => exact hread _ rfl

/-- Without the quotes every quantity of the node would be read. -/
theorem parseHexToUint64_toHex (v : UInt64) :
    parseHexToUint64 (toHex v.toNat).toList = .ok v := by
  have hdrop : (toHex v.toNat).toList = '0' :: 'x' :: Nat.toDigits 16 v.toNat := by
    simp [toHex]
  rw [parseHexToUint64, hdrop, if_pos (by rfl)]
  exact (stoull16_toDigits v.toNat_lt).trans (congrArg Except.ok (UInt64.ofNat_toNat))

/-! ## The wire -/

theorem isIdText_generateRPCID (rpcIdPrefix : Node.Bytes) (time : ℕ) :
    IsIdText (generateRPCID rpcIdPrefix time) := by
  have hdigit : ∀ d < 16, Nat.digitChar d ≠ '"' ∧ Nat.digitChar d ≠ 'r' := by decide
  intro c hc
  rcases List.mem_append.mp hc with hc | hc
  · obtain ⟨d, hd, rfl⟩ := exists_digitChar_of_mem_hexEncode c hc
    exact hdigit d hd
  · rcases List.mem_cons.mp hc with rfl | hc
    · decide
    · rcases List.mem_append.mp hc with hc | hc
      · rw [List.eq_of_mem_replicate hc]
        decide
      · obtain ⟨d, hd, rfl⟩ := exists_digitChar_of_mem_toDigits (by decide) c hc
        exact hdigit d hd

/-- An amount on its way to the node in a request, or on its way back in the answer to a request
that was sent with this prefix at this time. -/
inductive Crossing where
  | request (r : Request)
  | answer (query : Query) (rpcIdPrefix : Node.Bytes) (time : ℕ) (v : UInt64)

/-- The other side reads the amount that was written. -/
def Crossing.Survives : Crossing → Prop
  | .request r => ∀ text, (r.amountKey, text) ∈ r.members → parseQuantity text = r.amount.toNat
  | .answer query rpcIdPrefix time v =>
    query.read (rpcAnswer (generateRPCID rpcIdPrefix time) (toHex v.toNat).toList) = some (.ok v)

/-- The amount is the only member behind its key. -/
theorem mem_members_iff (r : Request) (text : String) :
    (r.amountKey, text) ∈ r.members ↔ text = quantity r.amount := by
  cases r with
  | sendTransaction fromAddress toAddress amount fee memo signature =>
      by_cases hmemo : memo = ""
      · simp [Request.amountKey, Request.members, Request.amount, Request.memoMembers, hmemo]
      · simp [Request.amountKey, Request.members, Request.amount, Request.memoMembers, hmemo]
  | depositToLayer2 layer1Txid layer2Address amount proof =>
      simp [Request.amountKey, Request.members, Request.amount]
  | withdrawFromLayer2 layer2Address layer1Address amount signature =>
      simp [Request.amountKey, Request.members, Request.amount]
  | estimateGas fromAddress toAddress amount =>
      simp [Request.amountKey, Request.members, Request.amount]

/-- **Amounts of one digit survive in a request.  Nothing survives in an answer.** -/
theorem survives_iff (crossing : Crossing) :
    crossing.Survives ↔ ∃ r, crossing = .request r ∧ r.amount.toNat < 10 := by
  cases crossing with
  | request r =>
      have hread : Crossing.Survives (.request r) ↔ hexReading r.amount.toNat = r.amount.toNat := by
        simp only [Crossing.Survives, mem_members_iff, forall_eq, parseQuantity_quantity,
          Nat.cast_inj]
      rw [hread, hexReading_eq_iff]
      constructor
      · exact fun h => ⟨r, rfl, h⟩
      · rintro ⟨r, ⟨⟩, h⟩
        exact h
  | answer query rpcIdPrefix time v =>
      constructor
      · intro h
        rw [Crossing.Survives, read_rpcAnswer query (isIdText_generateRPCID rpcIdPrefix time)] at h
        cases h
      · rintro ⟨r, ⟨⟩, -⟩

/-- A transfer of ten units asks for sixteen. -/
theorem not_survives_ten :
    ¬ Crossing.Survives (.request (.sendTransaction "0xaa" "0xbb" 10 1 "" [])) := by
  intro h
  have hread := h (quantity 10) ((mem_members_iff _ _).mpr rfl)
  rw [parseQuantity_quantity] at hread
  exact absurd ((hexReading_eq_iff 10).mp (Int.ofNat.inj hread)) (by decide)

end BhtBhte.WalletPro
