import BhtBhte.Channel.Signatures
import BhtBhte.Lib.Utf8

/-!
# The transactions of the wallet

`wallet.go`.  The text that is hashed and signed is the two addresses, the four numbers in decimal
and the data in hexadecimal digits, with nothing between them.  The addresses have a fixed width;
where one number ends and the next begins is not written down.  Keccak and the secp256k1 functions
are parameters.  `fixed_iff_one_cut`: a transaction is fixed by its text exactly when the text can
be cut in one way only.
-/
namespace BhtBhte.Wallet

open BhtBhte.Lib
open BhtBhte.Channel (ByteArrayOf Address decimal toList_decimal decimal_injective
  isDecimalBelow_word)

/-- The functions of `crypto`; `sigToAddress` is `SigToPub` followed by `PubkeyToAddress`. -/
structure GoCrypto where
  keccak256 : List UInt8 → ByteArrayOf 32
  /-- The signature of a hash with a key. -/
  sign : ByteArrayOf 32 → List UInt8 → Option (List UInt8)
  sigToAddress : ByteArrayOf 32 → List UInt8 → Option Address

/-- An array with the same byte everywhere. -/
def filled (n : ℕ) (b : UInt8) : ByteArrayOf n := ⟨List.replicate n b, List.length_replicate⟩

def zeroHash : ByteArrayOf 32 := filled 32 0

/-- A transaction of the wallet. -/
structure Transaction where
  fromAddress : Address
  toAddress : Address
  value : UInt64
  gasPrice : UInt64
  gasLimit : UInt64
  nonce : UInt64
  data : List UInt8
  signature : List UInt8 := []
  hash : ByteArrayOf 32 := zeroHash

section
variable (C : GoCrypto)

/-- `Address.Hex`: a letter is in upper case where the hash of the lower-case digits has a nibble
above seven. -/
def addressHex (a : Address) : String :=
  let digits := hexEncode a.1
  let hash : List ℕ := (C.keccak256 (encode digits)).1.flatMap fun b =>
    [b.toNat / 16, b.toNat % 16]
  "0x" ++ String.ofList (digits.mapIdx fun i c => if 7 < hash.getD i 0 then c.toUpper else c)

/-- The text that the wallet hashes for a pending transaction. -/
def txData (toAddress : Address) (value gasPrice gasLimit nonce : UInt64) (data : List UInt8) :
    String :=
  addressHex C toAddress ++ decimal value ++ decimal gasPrice ++ decimal gasLimit ++
    decimal nonce ++ String.ofList (hexEncode data)

/-- The hash of a payment. -/
def calculateTxHash (toAddress : Address) (value gasPrice gasLimit nonce : UInt64)
    (data : List UInt8) : ByteArrayOf 32 :=
  C.keccak256 (encode (txData C toAddress value gasPrice gasLimit nonce data).toList)

namespace Transaction

/-- The text that is hashed and signed. -/
def text (t : Transaction) : String :=
  addressHex C t.fromAddress ++ addressHex C t.toAddress ++ decimal t.value ++ decimal t.gasPrice ++
    decimal t.gasLimit ++ decimal t.nonce ++ String.ofList (hexEncode t.data)

/-- The hash that is signed. -/
def calculateHash (t : Transaction) : ByteArrayOf 32 := C.keccak256 (encode (t.text C).toList)

/-- Sign the hash, and keep both. -/
def sign (t : Transaction) (privateKey : List UInt8) : Option Transaction :=
  (C.sign (t.calculateHash C) privateKey).map fun signature =>
    { t with signature := signature, hash := t.calculateHash C }

/-- The signature is one of the sender for the hash. -/
def verifySignature (t : Transaction) : Bool :=
  if t.signature.length ≠ 65 then false
  else
    match C.sigToAddress (t.calculateHash C) t.signature with
    | none => false
    | some signerAddr => decide (signerAddr = t.fromAddress)

end Transaction

/-! ## What the text says -/

theorem length_addressHex (a : Address) : (addressHex C a).toList.length = 42 := by
  simp only [addressHex, String.toList_append, String.toList_ofList, List.length_append,
    List.length_mapIdx, length_hexEncode, a.2]
  rfl

/-- In lower case the digits are those of the address. -/
theorem addressHex_injective : Function.Injective (addressHex C) := by
  intro a b h
  have hlower : ∀ d < 16, (Nat.digitChar d).toLower = Nat.digitChar d := by decide
  have hupper : ∀ d < 16, (Nat.digitChar d).toUpper.toLower = Nat.digitChar d := by decide
  have hlist := congrArg String.toList h
  simp only [addressHex, String.toList_append, String.toList_ofList] at hlist
  have hdigits := congrArg (List.map Char.toLower) (List.append_cancel_left hlist)
  rw [map_mapIdx_toUpper _ _ hlower hupper, map_mapIdx_toUpper _ _ hlower hupper] at hdigits
  exact Subtype.ext (hexEncode_injective hdigits)

end

namespace Transaction

/-- The four numbers and the data as they are printed. -/
def pieces (t : Transaction) : List (List Char) :=
  [(decimal t.value).toList, (decimal t.gasPrice).toList, (decimal t.gasLimit).toList,
    (decimal t.nonce).toList, hexEncode t.data]

/-- What follows the addresses. -/
def tail (t : Transaction) : List Char := t.pieces.flatten

/-- Four 64-bit numbers and some bytes. -/
def formats : List (List Char → Bool) :=
  [isDecimalBelow (2 ^ 64), isDecimalBelow (2 ^ 64), isDecimalBelow (2 ^ 64),
    isDecimalBelow (2 ^ 64), isHexText]

/-- Two transactions differ in their signatures and hashes at most. -/
structure SameContent (t u : Transaction) : Prop where
  fromAddress : t.fromAddress = u.fromAddress
  toAddress : t.toAddress = u.toAddress
  value : t.value = u.value
  gasPrice : t.gasPrice = u.gasPrice
  gasLimit : t.gasLimit = u.gasLimit
  nonce : t.nonce = u.nonce
  data : t.data = u.data

section
variable {C : GoCrypto} {t u : Transaction}

theorem toList_text : (t.text C).toList =
    (addressHex C t.fromAddress).toList ++ ((addressHex C t.toAddress).toList ++ t.tail) := by
  simp only [text, tail, pieces, String.toList_append, String.toList_ofList, List.append_assoc,
    List.flatten_cons, List.flatten_nil, List.append_nil]

/-- **The text says the two addresses, and of the rest only how it is printed.** -/
theorem text_eq_iff :
    u.text C = t.text C ↔
      u.fromAddress = t.fromAddress ∧ u.toAddress = t.toAddress ∧ u.tail = t.tail := by
  rw [← String.toList_inj, toList_text, toList_text]
  constructor
  · intro h
    obtain ⟨hfrom, hrest⟩ := List.append_inj h (by rw [length_addressHex, length_addressHex])
    obtain ⟨hto, htail⟩ := List.append_inj hrest (by rw [length_addressHex, length_addressHex])
    exact ⟨addressHex_injective C (String.toList_inj.mp hfrom),
      addressHex_injective C (String.toList_inj.mp hto), htail⟩
  · rintro ⟨hfrom, hto, htail⟩
    rw [hfrom, hto, htail]

/-- The wallet's own hash is over the same text without the sender. -/
theorem text_eq_txData : t.text C = addressHex C t.fromAddress ++
    txData C t.toAddress t.value t.gasPrice t.gasLimit t.nonce t.data := by
  simp only [text, txData, String.append_assoc]

theorem sameContent_iff :
    u.SameContent t ↔
      u.fromAddress = t.fromAddress ∧ u.toAddress = t.toAddress ∧ u.pieces = t.pieces := by
  constructor
  · rintro ⟨hfrom, hto, hvalue, hgasPrice, hgasLimit, hnonce, hdata⟩
    refine ⟨hfrom, hto, ?_⟩
    rw [pieces, hvalue, hgasPrice, hgasLimit, hnonce, hdata]
    rfl
  · rintro ⟨hfrom, hto, hpieces⟩
    simp only [pieces, List.cons.injEq, String.toList_inj, decimal_injective.eq_iff,
      hexEncode_injective.eq_iff, and_true] at hpieces
    obtain ⟨hvalue, hgasPrice, hgasLimit, hnonce, hdata⟩ := hpieces
    exact ⟨hfrom, hto, hvalue, hgasPrice, hgasLimit, hnonce, hdata⟩

/-! ## The cuts of the text -/

/-- Pieces of these formats are those of a transaction. -/
theorem forall₂_formats_iff {xs : List (List Char)} (a b : Address) :
    List.Forall₂ (fun p x => p x = true) formats xs ↔
      ∃ u : Transaction, u.fromAddress = a ∧ u.toAddress = b ∧ u.pieces = xs := by
  simp only [formats, List.forall₂_cons_left_iff, List.forall₂_nil_left_iff, isDecimalBelow_word,
    isHexText_iff]
  constructor
  · rintro ⟨_, _, ⟨v, rfl⟩, ⟨_, _, ⟨p, rfl⟩, ⟨_, _, ⟨l, rfl⟩, ⟨_, _, ⟨n, rfl⟩, ⟨_, _, ⟨d, rfl⟩, rfl,
      rfl⟩, rfl⟩, rfl⟩, rfl⟩, rfl⟩
    exact ⟨⟨a, b, v, p, l, n, d, [], zeroHash⟩, rfl, rfl, rfl⟩
  · rintro ⟨u, -, -, rfl⟩
    exact ⟨_, _, ⟨u.value, rfl⟩, ⟨_, _, ⟨u.gasPrice, rfl⟩, ⟨_, _, ⟨u.gasLimit, rfl⟩, ⟨_, _,
      ⟨u.nonce, rfl⟩, ⟨_, _, ⟨u.data, rfl⟩, rfl, rfl⟩, rfl⟩, rfl⟩, rfl⟩, rfl⟩

theorem pieces_mem_cuts (t : Transaction) : t.pieces ∈ cuts formats t.tail :=
  mem_cuts.mpr ⟨rfl, (forall₂_formats_iff t.fromAddress t.toAddress).mpr ⟨t, rfl, rfl, rfl⟩⟩

/-- The text is that of no other transaction when what follows the addresses has one cut. -/
theorem text_determines_iff :
    (∀ u : Transaction, u.text C = t.text C → u.SameContent t) ↔
      (cuts formats t.tail).length = 1 := by
  rw [length_cuts_eq_one_iff t.pieces_mem_cuts]
  constructor
  · intro htext xs hxs
    obtain ⟨htail, hformats⟩ := mem_cuts.mp hxs
    obtain ⟨u, hfrom, hto, rfl⟩ := (forall₂_formats_iff t.fromAddress t.toAddress).mp hformats
    exact (sameContent_iff.mp (htext u (text_eq_iff.mpr ⟨hfrom, hto, htail⟩))).2.2
  · intro hcut u hu
    obtain ⟨hfrom, hto, htail⟩ := text_eq_iff.mp hu
    exact sameContent_iff.mpr ⟨hfrom, hto, hcut u.pieces (htail ▸ u.pieces_mem_cuts)⟩

/-! ## What a signature authorises -/

/-- The text is that of no other transaction, and an accepted signature is accepted for no
other. -/
def Fixed (C : GoCrypto) (t : Transaction) : Prop :=
  (∀ u : Transaction, u.text C = t.text C → u.SameContent t) ∧
    (t.verifySignature C = true → ∀ u : Transaction, u.signature = t.signature →
      u.verifySignature C = true → u.SameContent t)

theorem verifySignature_iff : t.verifySignature C = true ↔ t.signature.length = 65 ∧
    C.sigToAddress (t.calculateHash C) t.signature = some t.fromAddress := by
  rw [verifySignature]
  split_ifs with hlength
  · exact iff_of_false id fun h => hlength h.1
  · cases C.sigToAddress (t.calculateHash C) t.signature <;> simp [not_not.mp hlength]

/-- What is signed is accepted, when the key is that of the sender. -/
theorem verifySignature_sign {privateKey : List UInt8} (hsign : t.sign C privateKey = some u)
    (hlength : u.signature.length = 65)
    (hkey : C.sigToAddress (t.calculateHash C) u.signature = some t.fromAddress) :
    u.verifySignature C = true ∧ u.SameContent t ∧ u.hash = t.calculateHash C := by
  obtain ⟨signature, -, rfl⟩ := Option.map_eq_some_iff.mp hsign
  exact ⟨verifySignature_iff.mpr ⟨hlength, hkey⟩, ⟨rfl, rfl, rfl, rfl, rfl, rfl, rfl⟩, rfl⟩

end

/-- **One signature authorises one transaction exactly when the digits after the addresses can be
cut in one way only**, as long as no other text has the hash that was signed and no signature is
accepted for two hashes. -/
theorem fixed_iff_one_cut (C : GoCrypto) (t : Transaction)
    (hcollision : ∀ u : Transaction, u.calculateHash C = t.calculateHash C → u.text C = t.text C)
    (hsignature : ∀ u : Transaction, u.signature = t.signature → u.verifySignature C = true →
      t.verifySignature C = true → u.calculateHash C = t.calculateHash C) :
    t.Fixed C ↔ (cuts formats t.tail).length = 1 := by
  rw [Fixed, text_determines_iff]
  refine and_iff_left_of_imp fun hcut haccepted u hu hverified => ?_
  exact text_determines_iff.mpr hcut u (hcollision u (hsignature u hu hverified haccepted))

/-- The last digit of the value, when it is not zero, can go over to a gas price that has room for
it: the text of such a transaction is that of another one. -/
theorem not_fixed_of_room {C : GoCrypto} {t : Transaction} (hvalue : 10 ≤ t.value.toNat)
    (hlast : t.value.toNat % 10 ≠ 0) (hroom : t.gasPrice.toNat < 10 ^ 18) : ¬ t.Fixed C := by
  intro hfixed
  have hdigit : t.value.toNat % 10 < 10 := Nat.mod_lt _ (by decide)
  have hmoved := cons_toDigits (by decide) (Nat.pos_of_ne_zero hlast) hdigit t.gasPrice.toNat
  have hsplit := Nat.toDigits_of_base_le (by decide) hvalue
  have hlength : (Nat.toDigits 10 t.gasPrice.toNat).length ≤ 18 :=
    (Nat.length_toDigits_le_iff (by decide) (by decide)).mpr hroom
  have hpow : 10 ^ (Nat.toDigits 10 t.gasPrice.toNat).length ≤ 10 ^ 18 :=
    Nat.pow_le_pow_right (by decide) hlength
  have hscaled := Nat.mul_le_mul (Nat.le_of_lt_succ hdigit) hpow
  obtain ⟨price, hprice⟩ : ∃ price, price = t.value.toNat % 10 *
    10 ^ (Nat.toDigits 10 t.gasPrice.toNat).length + t.gasPrice.toNat := ⟨_, rfl⟩
  rw [← hprice] at hmoved
  have hvalueFits : t.value.toNat / 10 < 2 ^ 64 :=
    (Nat.div_le_self _ _).trans_lt t.value.toNat_lt
  have hpriceFits : price < 2 ^ 64 := by omega
  let u : Transaction := { t with value := UInt64.ofNat (t.value.toNat / 10)
                                  gasPrice := UInt64.ofNat price }
  have hnumbers : (decimal u.value).toList ++ (decimal u.gasPrice).toList =
      (decimal t.value).toList ++ (decimal t.gasPrice).toList := by
    simp only [toList_decimal, u, UInt64.toNat_ofNat_of_lt' hvalueFits,
      UInt64.toNat_ofNat_of_lt' hpriceFits]
    rw [← hmoved, hsplit, List.append_assoc, List.singleton_append]
  have htail : u.tail = t.tail := by
    simp only [tail, pieces, List.flatten_cons, ← List.append_assoc, hnumbers]
    rfl
  have hsame := congrArg UInt64.toNat (hfixed.1 u (text_eq_iff.mpr ⟨rfl, rfl, htail⟩)).value
  rw [UInt64.toNat_ofNat_of_lt' hvalueFits] at hsame
  omega

end Transaction

/-! ## Two payments -/

def someSender : Address := filled 20 0x11
def someReceiver : Address := filled 20 0x22

def payment (value gasPrice : UInt64) : Transaction where
  fromAddress := someSender
  toAddress := someReceiver
  value := value
  gasPrice := gasPrice
  gasLimit := 4
  nonce := 5
  data := []
  signature := List.replicate 65 0

def oneHash : ByteArrayOf 32 := filled 32 1

/-- A hash that tells one text from the others, and signatures of it by the sender. -/
def signing (text : List UInt8) : GoCrypto where
  keccak256 data := if data = text then oneHash else zeroHash
  sign _ _ := none
  sigToAddress h _ := if h = oneHash then some someSender else none

/-- There are no letters in such an address. -/
theorem addressHex_of_digits (C C' : GoCrypto) {a : Address}
    (hdigits : ∀ b ∈ a.1, b.toNat / 16 < 10 ∧ b.toNat % 16 < 10) :
    addressHex C a = addressHex C' a := by
  have hdecimal : ∀ d < 10, (Nat.digitChar d).toUpper = Nat.digitChar d := by decide
  have hfixed : ∀ c ∈ hexEncode a.1, c.toUpper = c := by
    intro c hc
    obtain ⟨b, hb, hcb⟩ := List.mem_flatMap.mp hc
    simp only [List.mem_cons, List.not_mem_nil, or_false] at hcb
    rcases hcb with rfl | rfl
    · exact hdecimal _ (hdigits b hb).1
    · exact hdecimal _ (hdigits b hb).2
  have hsame : ∀ p : ℕ → Prop, [DecidablePred p] →
      ((hexEncode a.1).mapIdx fun i c => if p i then c.toUpper else c) = hexEncode a.1 := by
    intro p _
    apply List.ext_getElem (by simp)
    intro i h₁ h₂
    rw [List.getElem_mapIdx, hfixed _ (List.getElem_mem h₂), ite_self]
  simp only [addressHex, hsame]

theorem text_payment (C C' : GoCrypto) (value gasPrice : UInt64) :
    (payment value gasPrice).text C = (payment value gasPrice).text C' := by
  have hfrom := addressHex_of_digits C C' (a := someSender) fun b hb => by
    rw [List.eq_of_mem_replicate hb]
    decide
  have hto := addressHex_of_digits C C' (a := someReceiver) fun b hb => by
    rw [List.eq_of_mem_replicate hb]
    decide
  simp only [Transaction.text, payment, hfrom, hto]

/-- The functions that know the text of a payment. -/
def signingPayment (value gasPrice : UInt64) : GoCrypto :=
  signing (encode ((payment value gasPrice).text (signing [])).toList)

theorem keccak256_signing {text text' : String} :
    (signing (encode text.toList)).keccak256 (encode text'.toList) = oneHash ↔ text' = text := by
  have hne : zeroHash ≠ oneHash := by decide
  simp only [signing]
  split_ifs with h
  · refine iff_of_true rfl (String.toList_inj.mp ?_)
    rw [← runes_encode text'.toList, h, runes_encode]
  · refine iff_of_false hne fun htext => h ?_
    rw [htext]

theorem calculateHash_eq_oneHash {value gasPrice : UInt64} {u : Transaction} :
    u.calculateHash (signingPayment value gasPrice) = oneHash ↔
      u.text (signingPayment value gasPrice) =
        (payment value gasPrice).text (signingPayment value gasPrice) := by
  rw [text_payment (signingPayment value gasPrice) (signing [])]
  exact keccak256_signing

theorem sigToAddress_signing {text : List UInt8} {h : ByteArrayOf 32} {signature : List UInt8}
    {a : Address} :
    (signing text).sigToAddress h signature = some a ↔ h = oneHash ∧ someSender = a := by
  simp only [signing, Option.ite_none_right_eq_some, Option.some.injEq]

/-- A payment with small numbers is the only one that its signature authorises. -/
theorem fixed_payment : (payment 1 2).Fixed (signingPayment 1 2) := by
  refine (Transaction.fixed_iff_one_cut _ _ (fun u hhash => ?_) fun u _ hu ht => ?_).mpr (by decide)
  · have hone := calculateHash_eq_oneHash.mpr (Eq.refl ((payment 1 2).text (signingPayment 1 2)))
    exact calculateHash_eq_oneHash.mp (hhash.trans hone)
  · have hu' := (sigToAddress_signing.mp (Transaction.verifySignature_iff.mp hu).2).1
    exact hu'.trans (sigToAddress_signing.mp (Transaction.verifySignature_iff.mp ht).2).1.symm

/-- `1` and `23` are printed as `12` and `3` are, so one signature authorises two payments. -/
theorem signature_authorises_two :
    (payment 12 3).text (signingPayment 1 23) = (payment 1 23).text (signingPayment 1 23) ∧
      (payment 1 23).verifySignature (signingPayment 1 23) = true ∧
      (payment 12 3).verifySignature (signingPayment 1 23) = true ∧
      (payment 12 3).signature = (payment 1 23).signature ∧
      (payment 12 3).value ≠ (payment 1 23).value := by
  have htext : (payment 12 3).text (signingPayment 1 23) =
      (payment 1 23).text (signingPayment 1 23) :=
    Transaction.text_eq_iff.mpr ⟨rfl, rfl, by decide⟩
  have haccepted : ∀ value gasPrice, (payment value gasPrice).text (signingPayment 1 23) =
      (payment 1 23).text (signingPayment 1 23) →
      (payment value gasPrice).verifySignature (signingPayment 1 23) = true := by
    intro value gasPrice h
    exact Transaction.verifySignature_iff.mpr ⟨List.length_replicate,
      sigToAddress_signing.mpr ⟨calculateHash_eq_oneHash.mpr h, rfl⟩⟩
  exact ⟨htext, haccepted 1 23 rfl, haccepted 12 3 htext, rfl, by decide⟩

end BhtBhte.Wallet
