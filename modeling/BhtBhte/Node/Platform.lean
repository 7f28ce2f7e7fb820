import BhtBhte.Lib.Text
import BhtBhte.Lib.FinMap

/-!
# What the RPC node builds on

The node's text helpers (`normalizeAddress`, `parseQuantity`, `toHex` and the rest) as the
source computes them, over the functions of other packages that the source only calls:
hashes, RLP, blooms and tries.  Those are the fields of `Platform`, with no assumption on
them.
-/
namespace BhtBhte.Node
open BhtBhte.Lib

abbrev Bytes := List UInt8

/-- The account that is encoded as a leaf of the state trie. -/
structure StateAccount where
  nonce : ℕ
  balance : ℕ
  root : Bytes
  codeHash : Bytes

/-- The part of a log that its RLP encoding and its bloom cover. -/
structure ConsensusLog where
  address : Bytes
  topics : List Bytes
  data : Bytes

/-- The part of a receipt that its RLP encoding covers. -/
structure ConsensusReceipt where
  status : ℕ
  cumulativeGasUsed : ℕ
  bloom : Bytes
  logs : List ConsensusLog

/-- A committed trie node: its hash, its path and its blob. -/
structure TrieNode where
  hash : Bytes
  path : Bytes
  blob : Bytes
  deleted : Bool

/-- The updates made to an empty trie, in order. -/
abbrev Trie := List (Bytes × Bytes)

/-- Hashing, RLP, blooms and tries.  `trieNodes` is the node set of a commit, `none` when
the commit returns no set.  The last three are what `fmt.Sprint`, `uint64` and `int` make of the
64-bit float with these bits: outside the range of the integer type the conversion depends on the
processor. -/
class Platform extends CaseTable where
  sha256 : Bytes → Bytes
  keccak256 : Bytes → Bytes
  createAddress : Bytes → ℕ → Bytes
  rlpBytes : Bytes → Bytes
  rlpUint : ℕ → Bytes
  rlpAccount : StateAccount → Bytes
  rlpReceipt : ConsensusReceipt → Bytes
  createBloom : List ConsensusLog → Bytes
  mergeBloom : List Bytes → Bytes
  trieRoot : Trie → Bytes
  trieNodes : Trie → Option (List TrieNode)
  formatFloat : UInt64 → String
  floatToUint64 : UInt64 → UInt64
  floatToInt : UInt64 → Int64

/-! ## Clock and map order -/

/-- One reading of the clock, in nanoseconds, and one order for ranging over maps. -/
structure Choice where
  unixNano : ℤ
  order : RangeOrder

/-- A choice for every call site below a call; `ω.call i` serves its `i`-th callee. -/
def Choices := List ℕ → Choice

namespace Choices

instance : Inhabited Choices := ⟨fun _ => ⟨0, fun _ => Equiv.refl _⟩⟩

/-- What the machine decides in the `i`-th call of this one. -/
def call (ω : Choices) (i : ℕ) : Choices := fun path => ω (i :: path)

def unixNano (ω : Choices) : ℤ := (ω []).unixNano

/-- Seconds since the epoch. -/
def unix (ω : Choices) : ℤ := ω.unixNano / 1000000000

/-- The order in which this call ranges over a map. -/
def order (ω : Choices) : RangeOrder := (ω []).order

end Choices

/-- Conversion to `uint64`. -/
def u64 (v : ℤ) : ℕ := (v % 2 ^ 64).toNat

/-! ## Texts -/

section Text
variable [Platform]

/-- A text, or the fallback when it is missing. -/
def stringOrDefault (value fallback : String) : String :=
  if value = "" ∨ value = "<nil>" then fallback else value

def zeroHash : String := "0x0000000000000000000000000000000000000000000000000000000000000000"

/-- The form under which accounts are looked up. -/
def normalizeAddress (addr : String) : String :=
  let addr := trimSpace (toLower addr)
  if addr = "" ∨ addr = "<nil>" then ""
  else if hasPrefix addr "0x" then addr else "0x" ++ addr

/-- Pad with zeros on the left to 64 digits, or keep the last 64 bytes. -/
def padTo64 (s : String) : String :=
  let s := if 64 < s.utf8ByteSize then lastBytes 64 s else s
  "0x" ++ String.ofList (List.replicate (64 - s.utf8ByteSize) '0') ++ s

/-- The form under which slots are looked up. -/
def normalizeStorageKey (key : String) : String :=
  let key := trimPrefix (toLower (trimSpace key)) "0x"
  padTo64 (if key = "" ∨ key = "<nil>" then "0" else key)

/-- A number, hexadecimal behind `0x` and decimal else; zero when it is neither. -/
def parseQuantity (value : String) : ℤ :=
  let value := trimSpace value
  if value = "" ∨ value = "<nil>" then 0
  else if hasPrefix value "0x" ∨ hasPrefix value "0X" then
    (bigSetString 16 (value.toList.drop 2)).getD 0
  else (bigSetString 10 value.toList).getD 0

/-- The low 64 bits of the magnitude, as `big.Int.Uint64` returns them. -/
def bigUint64 (v : ℤ) : ℕ := v.natAbs % 2 ^ 64

/-- A quantity read as a `uint64`. -/
def quantity64 (value : String) : ℕ := bigUint64 (parseQuantity value)

def toHex (v : ℕ) : String := "0x" ++ String.ofList (Nat.toDigits 16 v)

/-- `"0x" + v.Text(16)`. -/
def hexText (v : ℤ) : String := "0x" ++ String.ofList (bigText 16 v)

def utf8 (s : String) : Bytes := s.toList.flatMap String.utf8EncodeChar

/-- Bytes in the `0x` form that hashes and blobs are kept in. -/
def hexString (b : Bytes) : String := "0x" ++ String.ofList (hexEncode b)

/-- SHA-256 as a text. -/
def hashHex (data : Bytes) : String := hexString (Platform.sha256 data)

def topicHash (name : String) : String := hexString (Platform.keccak256 (utf8 name))

/-- The first four bytes of a call's input, as a text. -/
def abiSelector (input : String) : String :=
  let input := toLower (trimSpace input)
  if ¬ hasPrefix input "0x" ∨ input.utf8ByteSize < 10 then "" else firstBytes 10 input

/-! ## Hexadecimal input of the `common` package -/

def has0xPrefix (s : String) : Bool := hasPrefix s "0x" || hasPrefix s "0X"

def isHexDigit (c : Char) : Bool := digitVal c < 16

/-- Pairs of digits up to the first rune that is none. -/
def decodeHex : List Char → Bytes
  | a :: b :: l =>
      if isHexDigit a && isHexDigit b then UInt8.ofNat (digitVal a * 16 + digitVal b) :: decodeHex l
      else []
  | _ => []

def fromHex (s : String) : Bytes :=
  let s := if has0xPrefix s then String.ofList (s.toList.drop 2) else s
  decodeHex (if s.utf8ByteSize % 2 = 1 then '0' :: s.toList else s.toList)

/-- Fit bytes into a fixed width: the last `k` of them, or zeros in front. -/
def rightAlign (k : ℕ) (b : Bytes) : Bytes :=
  List.replicate (k - b.length) 0 ++ b.drop (b.length - k)

def hexToAddress (s : String) : Bytes := rightAlign 20 (fromHex s)
def hexToHash (s : String) : Bytes := rightAlign 32 (fromHex s)

def isHexAddress (s : String) : Bool :=
  let l := if has0xPrefix s then s.toList.drop 2 else s.toList
  l.length = 40 && l.all isHexDigit

def trimLeftZeroes (b : Bytes) : Bytes := b.dropWhile (· = 0)

/-- `Address.Hex`: the digits, a letter in upper case where the hash of the lower-case
digits has a nibble above seven. -/
def addressHex (a : Bytes) : String :=
  let digits := hexEncode a
  let hash : List ℕ := (Platform.keccak256 (utf8 (String.ofList digits))).flatMap fun b =>
    [b.toNat / 16, b.toNat % 16]
  "0x" ++ String.ofList (digits.mapIdx fun i c => if 7 < hash.getD i 0 then c.toUpper else c)

/-- The address of a created contract, in its checksummed spelling. -/
def contractAddress (sender nonceHex : String) : String :=
  addressHex (Platform.createAddress (hexToAddress sender) (quantity64 nonceHex))

/-! ## Round trips -/

omit [Platform] in
theorem toList_hexPrefix (l : List Char) :
    ("0x" ++ String.ofList l).toList = '0' :: 'x' :: l := by
  rw [String.toList_append, String.toList_ofList (l := l)]
  rfl

omit [Platform] in
theorem hexPrefix_ne {l : List Char} {t : String} (h : t.toList.head? ≠ some '0') :
    "0x" ++ String.ofList l ≠ t := by
  intro heq
  rw [← heq, toList_hexPrefix] at h
  exact h rfl

omit [Platform] in
theorem hasPrefix_hexPrefix (l : List Char) : hasPrefix ("0x" ++ String.ofList l) "0x" = true := by
  rw [hasPrefix, toList_hexPrefix, List.isPrefixOf_iff_prefix]
  exact ⟨l, by have h : "0x".toList = ['0', 'x'] := by decide
               rw [h]; rfl⟩

omit [Platform] in
/-- A `0x` text is trimmed already when it does not end with white space. -/
theorem trimSpace_hexPrefix {l : List Char} (h : ∀ c ∈ l.getLast?, isSpace c = false) :
    trimSpace ("0x" ++ String.ofList l) = "0x" ++ String.ofList l := by
  apply trimSpace_eq_self
  · intro c hc
    rw [toList_hexPrefix] at hc
    cases hc
    decide
  · intro c hc
    rw [toList_hexPrefix] at hc
    cases l with
    | nil =>
        cases hc
        decide
    | cons d l =>
        rw [List.getLast?_cons_cons, List.getLast?_cons_cons] at hc
        exact h c hc

omit [Platform] in
/-- Digits of a number are plain ASCII: no white space, no upper case. -/
theorem digits_plain {n : ℕ} :
    ∀ c ∈ Nat.toDigits 16 n, isSpace c = false ∧ c.toNat < 128 ∧ c.toLower = c := by
  intro c hc
  obtain ⟨d, hd, rfl⟩ := exists_digitChar_of_mem_toDigits (by omega) c hc
  exact ⟨(digitChar_plain d hd).2.2.1, (digitChar_plain d hd).2.2.2.1,
    (digitChar_plain d hd).2.2.2.2⟩

omit [Platform] in
/-- A text `0x…` without white space is parsed in base 16. -/
theorem parseQuantity_hex {l : List Char} (h : ∀ c ∈ l, isSpace c = false) :
    parseQuantity ("0x" ++ String.ofList l) = (bigSetString 16 l).getD 0 := by
  have htrim := trimSpace_hexPrefix fun c hc => h c (List.mem_of_mem_getLast? hc)
  rw [parseQuantity, htrim, if_neg, if_pos (.inl (hasPrefix_hexPrefix l)), toList_hexPrefix]
  · rfl
  · rintro (heq | heq)
    · exact hexPrefix_ne (by decide) heq
    · exact hexPrefix_ne (by decide) heq

omit [Platform] in
theorem parseQuantity_empty : parseQuantity "" = 0 := by decide

omit [Platform] in
theorem parseQuantity_hexText (v : ℤ) : parseQuantity (hexText v) = v := by
  rw [hexText, parseQuantity_hex, bigSetString_bigText (by omega) (by omega)]
  · rfl
  · intro c hc
    rw [bigText] at hc
    split at hc
    · rcases List.mem_cons.mp hc with rfl | hc
      · decide
      · exact (digits_plain c hc).1
    · exact (digits_plain c hc).1

omit [Platform] in
theorem parseQuantity_toHex (v : ℕ) : parseQuantity (toHex v) = v := by
  rw [toHex, parseQuantity_hex fun c hc => (digits_plain c hc).1,
    bigSetString_toDigits (by omega) (by omega)]
  rfl

omit [Platform] in
theorem quantity64_toHex {v : ℕ} (h : v < 2 ^ 64) : quantity64 (toHex v) = v := by
  rw [quantity64, parseQuantity_toHex, bigUint64, Int.natAbs_natCast, Nat.mod_eq_of_lt h]

omit [Platform] in
theorem toHex_injective {v v' : ℕ} (h : toHex v = toHex v') : v = v' := by
  have hquantity := congrArg parseQuantity h
  rw [parseQuantity_toHex, parseQuantity_toHex] at hquantity
  omega

omit [Platform] in
theorem exists_digit_of_mem_toString {v : ℕ} {c : Char} (hc : c ∈ (toString v).toList) :
    ∃ d < 10, c = Nat.digitChar d := by
  have hlist : (toString v).toList = Nat.toDigits 10 v := String.toList_ofList
  rw [hlist] at hc
  exact exists_digitChar_of_mem_toDigits (by omega) c hc

omit [Platform] in
/-- Digits do not begin with anything that is not a digit. -/
theorem hasPrefix_toString (v : ℕ) {t : String} {c : Char} (hc : c ∈ t.toList)
    (hne : ∀ d < 10, c ≠ Nat.digitChar d) : hasPrefix (toString v) t = false := by
  rw [hasPrefix, Bool.eq_false_iff, Ne, List.isPrefixOf_iff_prefix]
  intro hpre
  obtain ⟨d, hd, rfl⟩ := exists_digit_of_mem_toString (hpre.subset hc)
  exact hne d hd rfl

omit [Platform] in
theorem trimSpace_toString (v : ℕ) : trimSpace (toString v) = toString v :=
  trimSpace_of_no_space fun c hc => by
    obtain ⟨d, hd, rfl⟩ := exists_digit_of_mem_toString hc
    exact (digitChar_plain d (by omega)).2.2.1

omit [Platform] in
/-- Decimal digits are read in base 10. -/
theorem quantity64_toString {v : ℕ} (h : v < 2 ^ 64) : quantity64 (toString v) = v := by
  have hlist : (toString v).toList = Nat.toDigits 10 v := String.toList_ofList
  rw [quantity64, parseQuantity, trimSpace_toString, if_neg, if_neg, hlist,
    bigSetString_toDigits (by omega) (by omega)]
  · rw [Option.getD_some, bigUint64, Int.natAbs_natCast, Nat.mod_eq_of_lt h]
  · rw [hasPrefix_toString (c := 'x') v (by decide) (by decide),
      hasPrefix_toString (c := 'X') v (by decide) (by decide)]
    decide
  · rintro (heq | heq)
    · have hnil := congrArg String.toList heq
      rw [hlist] at hnil
      exact Nat.toDigits_ne_nil hnil
    · obtain ⟨d, hd, hc⟩ := exists_digit_of_mem_toString (v := v) (c := '<') (by rw [heq]; decide)
      revert hc
      revert d
      decide

/-! ## Normal forms -/

theorem toLower_hexPrefix (l : List Char) :
    toLower ("0x" ++ String.ofList l) = "0x" ++ String.ofList (l.map CaseTable.lower) := by
  rw [toLower, toList_hexPrefix, List.map_cons, List.map_cons, CaseTable.lower_ascii '0' (by decide),
    CaseTable.lower_ascii 'x' (by decide), ← String.toList_inj, toList_hexPrefix,
    String.toList_ofList]
  rfl

/-- A lower-case text behind `0x` is normal when it does not end with white space. -/
theorem normalizeAddress_hexPrefix {l : List Char}
    (h : ∀ c ∈ (l.map CaseTable.lower).getLast?, isSpace c = false) :
    normalizeAddress ("0x" ++ String.ofList l) =
      "0x" ++ String.ofList (l.map CaseTable.lower) := by
  rw [normalizeAddress, toLower_hexPrefix, trimSpace_hexPrefix h, if_neg, if_pos (hasPrefix_hexPrefix _)]
  rintro (heq | heq)
  · exact hexPrefix_ne (by decide) heq
  · exact hexPrefix_ne (by decide) heq

theorem lower_of_mem_toLower {s : String} {c : Char} (h : c ∈ (toLower s).toList) :
    CaseTable.lower c = c := by
  rw [toLower, String.toList_ofList] at h
  obtain ⟨d, -, rfl⟩ := List.mem_map.mp h
  exact CaseTable.lower_lower d

theorem map_lower_trimSpace (s : String) : (trimSpace (toLower s)).toList.map CaseTable.lower =
    (trimSpace (toLower s)).toList :=
  (List.map_congr_left fun _ hc => lower_of_mem_toLower (mem_of_mem_trimSpace hc)).trans
    (List.map_id _)

omit [Platform] in
theorem trimSpace_trimSpace (s : String) : trimSpace (trimSpace s) = trimSpace s :=
  trimSpace_eq_self (isSpace_head_trimSpace s) (isSpace_getLast_trimSpace s)

@[simp] theorem normalizeAddress_empty : normalizeAddress "" = "" := by
  have h : toLower "" = "" := by rw [toLower_of_ascii] <;> decide
  rw [normalizeAddress, h]
  decide

theorem normalizeAddress_nil : normalizeAddress "<nil>" = "" := by
  rw [normalizeAddress, toLower_of_ascii (by decide)]
  decide

/-- The selector of a call without arguments. -/
theorem abiSelector_eq_self {s : String} (h : toLower (trimSpace s) = s)
    (hs : hasPrefix s "0x" = true ∧ ¬ s.utf8ByteSize < 10 ∧ firstBytes 10 s = s) :
    abiSelector s = s := by
  unfold abiSelector
  rw [h]
  dsimp only
  rw [if_neg (by simp [hs.1, hs.2.1]), hs.2.2]

/-- Normalising twice is normalising once. -/
@[simp] theorem normalizeAddress_normalizeAddress (s : String) :
    normalizeAddress (normalizeAddress s) = normalizeAddress s := by
  rw [normalizeAddress.eq_def s]
  generalize ha : trimSpace (toLower s) = a
  have hmap : a.toList.map CaseTable.lower = a.toList := by rw [← ha, map_lower_trimSpace]
  have hlast : ∀ c ∈ a.toList.getLast?, isSpace c = false := by
    rw [← ha]
    exact isSpace_getLast_trimSpace _
  have htrim : trimSpace a = a := by rw [← ha, trimSpace_trimSpace]
  have hlow : toLower a = a := by rw [toLower, hmap, String.ofList_toList]
  simp only
  split
  · exact normalizeAddress_empty
  · next hne =>
      split
      · next hpre =>
          rw [normalizeAddress, hlow, htrim, if_neg hne, if_pos hpre]
      · have h := normalizeAddress_hexPrefix (l := a.toList) (by rwa [hmap])
        rwa [hmap, String.ofList_toList] at h

omit [Platform] in
/-- Bytes read back from their digits. -/
theorem decodeHex_hexEncode (b : Bytes) : decodeHex (hexEncode b) = b := by
  induction b with
  | nil => rfl
  | cons x b ih =>
      have hlt := x.toNat_lt
      have hhi : digitVal (Nat.digitChar (x.toNat / 16)) = x.toNat / 16 :=
        digitVal_digitChar _ (by omega)
      have hlo : digitVal (Nat.digitChar (x.toNat % 16)) = x.toNat % 16 :=
        digitVal_digitChar _ (by omega)
      have hcons : hexEncode (x :: b) = Nat.digitChar (x.toNat / 16) ::
          Nat.digitChar (x.toNat % 16) :: hexEncode b := rfl
      have hvalue : x.toNat / 16 * 16 + x.toNat % 16 = x.toNat := by omega
      rw [hcons, decodeHex, isHexDigit, isHexDigit, hhi, hlo, ih, if_pos, hvalue, UInt8.ofNat_toNat]
      simp only [Bool.and_eq_true, decide_eq_true_eq]
      omega

omit [Platform] in
theorem utf8ByteSize_hexEncode (b : Bytes) :
    (String.ofList (hexEncode b)).utf8ByteSize = 2 * b.length := by
  have hsize : ∀ d < 16, (String.singleton (Nat.digitChar d)).utf8ByteSize = 1 := by decide
  induction b with
  | nil => rfl
  | cons x b ih =>
      have hlt := x.toNat_lt
      have hcons : String.ofList (hexEncode (x :: b)) =
          String.singleton (Nat.digitChar (x.toNat / 16)) ++
            (String.singleton (Nat.digitChar (x.toNat % 16)) ++ String.ofList (hexEncode b)) := by
        rw [← String.toList_inj]
        simp [hexEncode]
      rw [hcons, String.utf8ByteSize_append, String.utf8ByteSize_append, hsize _ (by omega),
        hsize _ (by omega), ih, List.length_cons]
      omega

omit [Platform] in
/-- Bytes read back from their text. -/
theorem fromHex_hexString (b : Bytes) : fromHex (hexString b) = b := by
  have hpre : has0xPrefix (hexString b) = true := by
    rw [has0xPrefix, hasPrefix, hexString, toList_hexPrefix]
    rfl
  have hdrop : String.ofList ((hexString b).toList.drop 2) = String.ofList (hexEncode b) := by
    rw [hexString, toList_hexPrefix]
    rfl
  rw [fromHex, if_pos hpre, hdrop, utf8ByteSize_hexEncode, if_neg (by omega), String.toList_ofList,
    decodeHex_hexEncode]

omit [Platform] in
theorem hexToHash_hexString {b : Bytes} (h : b.length = 32) : hexToHash (hexString b) = b := by
  rw [hexToHash, fromHex_hexString, rightAlign, h]
  rfl

omit [Platform] in
theorem length_rightAlign (k : ℕ) (b : Bytes) : (rightAlign k b).length = k := by
  rw [rightAlign, List.length_append, List.length_replicate, List.length_drop]
  omega

/-- Lower-case digits fold to themselves, so roots that fold together are equal. -/
theorem eq_of_equalFold_hexString {a b : Bytes}
    (h : equalFold (hexString a) (hexString b) = true) : a = b := by
  have hfold : ∀ c : Bytes, (hexEncode c).map CaseTable.fold = hexEncode c := by
    intro c
    refine (List.map_congr_left fun x hx => ?_).trans (List.map_id _)
    obtain ⟨d, hd, rfl⟩ := exists_digitChar_of_mem_hexEncode x hx
    rw [CaseTable.fold_ascii _ (digitChar_plain d hd).2.2.2.1, (digitChar_plain d hd).2.2.2.2]
    rfl
  rw [equalFold, decide_eq_true_eq, hexString, hexString, toList_hexPrefix, toList_hexPrefix,
    List.map_cons, List.map_cons, List.map_cons, List.map_cons, hfold, hfold] at h
  exact hexEncode_injective (List.cons.inj (List.cons.inj h).2).2

theorem toLower_hexString (a : Bytes) : toLower (hexString a) = hexString a := by
  rw [hexString, toLower_hexPrefix]
  congr 2
  refine (List.map_congr_left fun x hx => ?_).trans (List.map_id _)
  obtain ⟨d, hd, rfl⟩ := exists_digitChar_of_mem_hexEncode x hx
  rw [CaseTable.lower_ascii _ (digitChar_plain d hd).2.2.2.1, (digitChar_plain d hd).2.2.2.2]
  rfl

theorem toLower_hashHex (data : Bytes) : toLower (hashHex data) = hashHex data := by
  rw [hashHex, toLower_hexString]

omit [Platform] in
theorem hexString_injective : Function.Injective hexString := by
  intro a b h
  rw [hexString, hexString, ← String.toList_inj, toList_hexPrefix, toList_hexPrefix] at h
  exact hexEncode_injective (List.cons.inj (List.cons.inj h).2).2

/-- The case of the letters does not matter for the normal form of an address. -/
theorem normalizeAddress_addressHex (a : Bytes) :
    normalizeAddress (addressHex a) = hexString a := by
  have hupper : ∀ d < 16, ((Nat.digitChar d).toUpper.toNat < 128) ∧
      (Nat.digitChar d).toUpper.toLower = Nat.digitChar d := by decide
  have hmap : ∀ p : ℕ → Prop, [DecidablePred p] → ((hexEncode a).mapIdx fun i c =>
      if p i then c.toUpper else c).map CaseTable.lower = hexEncode a := by
    intro p _
    refine map_mapIdx_toUpper p a (fun d hd => ?_) fun d hd => ?_
    · rw [CaseTable.lower_ascii _ (digitChar_plain d hd).2.2.2.1, (digitChar_plain d hd).2.2.2.2]
    · rw [CaseTable.lower_ascii _ (hupper d hd).1, (hupper d hd).2]
  have hlast : ∀ c ∈ (hexEncode a).getLast?, isSpace c = false := by
    intro c hc
    obtain ⟨d, hd, rfl⟩ := exists_digitChar_of_mem_hexEncode c (List.mem_of_mem_getLast? hc)
    exact (digitChar_plain d hd).2.2.1
  rw [addressHex]
  generalize (Platform.keccak256 _).flatMap _ = hash
  have h := hmap fun i => 7 < hash.getD i 0
  rw [normalizeAddress_hexPrefix (by rwa [h]), h]
  rfl

/-- Two spellings of a contract address with the same normal form are the same text. -/
theorem contractAddress_eq_of_normalizeAddress {s s' nonce nonce' : String}
    (h : normalizeAddress (contractAddress s nonce) =
      normalizeAddress (contractAddress s' nonce')) :
    contractAddress s nonce = contractAddress s' nonce' := by
  rw [contractAddress, contractAddress, normalizeAddress_addressHex, normalizeAddress_addressHex] at h
  rw [contractAddress, contractAddress, hexString_injective h]

omit [Platform] in
theorem zeroHash_eq_replicate : zeroHash = "0x" ++ String.ofList (List.replicate 64 '0') := by
  rfl

theorem toLower_zeroHash : toLower zeroHash = zeroHash := by
  rw [zeroHash_eq_replicate, toLower_hexPrefix, List.map_replicate,
    CaseTable.lower_ascii '0' (by decide)]
  rfl

theorem normalizeStorageKey_zeroHash : normalizeStorageKey zeroHash = zeroHash := by
  have htrim : trimSpace zeroHash = zeroHash := by
    rw [zeroHash_eq_replicate]
    refine trimSpace_hexPrefix fun c hc => ?_
    rw [List.eq_of_mem_replicate (List.mem_of_mem_getLast? hc)]
    decide
  rw [normalizeStorageKey, htrim, toLower_zeroHash]
  decide

end Text

/-! ## Decoded JSON parameters -/

/-- A decoded JSON value: a number is a 64-bit float, and of a list or an object there is the
text that `fmt.Sprint` gives it. -/
inductive Value
  | null
  | number (bits : UInt64)
  | str (s : String)
  | other (text : String)
deriving DecidableEq

abbrev Object := FinMap String Value

section Objects
variable [Platform]

/-- `fmt.Sprint` of a decoded value. -/
def Value.sprint : Value → String
  | null => "<nil>"
  | number bits => Platform.formatFloat bits
  | str s => s
  | other text => text

/-- A field of an object, `null` when it is absent. -/
def field (o : Object) (name : String) : Value := (o.get? name).getD .null

/-- The text of a field. -/
def text (o : Object) (name : String) : String := (field o name).sprint

/-- `fmt.Sprint` of an object: keys in order. -/
def sprintObject (o : Object) : String :=
  "map[" ++ String.intercalate " " (o.entries.map fun e => e.1 ++ ":" ++ e.2.sprint) ++ "]"

/-- The number of a decoded value, of which the low 64 bits are kept. -/
def quantityFromInterface : Value → ℕ
  | .number bits => (Platform.floatToUint64 bits).toNat
  | v => quantity64 v.sprint

variable {o : Object} {name s : String}

theorem text_of_str (h : field o name = .str s) : text o name = s := congrArg Value.sprint h

theorem text_of_null (h : field o name = .null) : text o name = "<nil>" := congrArg Value.sprint h

theorem quantityFromInterface_of_null (h : field o name = .null) :
    quantityFromInterface (field o name) = 0 := by
  have hzero : quantity64 "<nil>" = 0 := by decide +kernel
  rw [h]
  exact hzero

end Objects

def object (l : List (String × Value)) : Object := l.foldl (fun o e => o.insert e.1 e.2) ∅

-- Texts are read through the lemmas above; unfolding them on symbolic strings only costs time.
attribute [irreducible] normalizeAddress normalizeStorageKey parseQuantity quantity64 toHex hexText
  hashHex topicHash abiSelector contractAddress isHexAddress

/-! ## A platform to evaluate on -/

/-- The bytes of a number, most significant first. -/
def beBytes : ℕ → ℕ → Bytes
  | 0, _ => []
  | k + 1, v => beBytes k (v / 256) ++ [UInt8.ofNat (v % 256)]

/-- A 32-byte checksum of some bytes, which begins with the first of them. -/
def checksum (b : Bytes) : Bytes :=
  let sum := b.foldl (fun a x => (a * 257 + x.toNat + 1) % (2 ^ 61 - 1)) 0
  b.headD 0 :: (beBytes 7 sum ++ beBytes 8 sum ++ beBytes 8 sum ++ beBytes 8 sum)

/-- Bytes with an end mark, so that a sequence of them can be read back. -/
def delimit (b : Bytes) : Bytes := b.flatMap (fun x => [1, x]) ++ [0]

/-- The listed updates, each key and each value with its end mark. -/
def listUpdates (t : Trie) : Bytes := t.flatMap fun e => delimit e.1 ++ delimit e.2

theorem delimit_append_inj {b b' r r' : Bytes} (h : delimit b ++ r = delimit b' ++ r') :
    b = b' ∧ r = r' := by
  induction b generalizing b' with
  | nil =>
      cases b' with
      | nil => exact ⟨rfl, (List.cons.inj h).2⟩
      | cons y b' => exact absurd (List.cons.inj h).1 (by decide)
  | cons x b ih =>
      cases b' with
      | nil => exact absurd (List.cons.inj h).1 (by decide)
      | cons y b' =>
          obtain ⟨hx, htail⟩ := List.cons.inj (List.cons.inj h).2
          obtain ⟨hb, hr⟩ := ih htail
          exact ⟨by rw [hx, hb], hr⟩

theorem listUpdates_injective : Function.Injective listUpdates := by
  intro t
  induction t with
  | nil =>
      intro t' h
      cases t' with
      | nil => rfl
      | cons e t' =>
          have hlen := congrArg List.length h
          simp [listUpdates, delimit] at hlen
  | cons e t ih =>
      intro t' h
      cases t' with
      | nil =>
          have hlen := congrArg List.length h
          simp [listUpdates, delimit] at hlen
      | cons e' t' =>
          rw [listUpdates, listUpdates, List.flatMap_cons, List.flatMap_cons, List.append_assoc,
            List.append_assoc] at h
          obtain ⟨hkey, hrest⟩ := delimit_append_inj h
          obtain ⟨hvalue, htail⟩ := delimit_append_inj hrest
          rw [ih htail, Prod.ext hkey hvalue]

theorem toLower_toLower_char (c : Char) : c.toLower.toLower = c.toLower := by
  have hascii : ∀ k < 128, (Char.ofNat k).toLower.toLower = (Char.ofNat k).toLower := by decide
  by_cases h : c.toNat < 128
  · have := hascii c.toNat h
    rwa [Char.ofNat_toNat] at this
  · have hletter : ¬ (c.val ≥ 'A'.val ∧ c.val ≤ 'Z'.val) := by
      rintro ⟨-, hle⟩
      have : c.toNat ≤ 'Z'.toNat := hle
      have hz : 'Z'.toNat = 90 := rfl
      omega
    have hfix : c.toLower = c := dif_neg hletter
    rw [hfix, hfix]

/-- The integer part of the 64-bit float with these bits. -/
def truncFloat (bits : UInt64) : ℤ :=
  let exponent := bits.toNat / 2 ^ 52 % 2048
  let significand := bits.toNat % 2 ^ 52 + if exponent = 0 then 0 else 2 ^ 52
  let size : ℕ := significand * 2 ^ exponent / 2 ^ 1075
  if 2 ^ 63 ≤ bits.toNat then -size else size

/-- ASCII case tables, checksums for digests, and encodings that list their fields; the root
of a trie lists its updates, so that it determines them.  Numbers are cut to their integer
part. -/
@[reducible] def Platform.checksums : Platform where
  lower := Char.toLower
  fold := Char.toLower
  lower_ascii _ _ := rfl
  fold_ascii _ _ := rfl
  lower_lower := toLower_toLower_char
  sha256 := checksum
  keccak256 := checksum
  createAddress a nonce := rightAlign 20 (checksum (a ++ beBytes 8 nonce))
  rlpBytes b := b
  rlpUint i := beBytes 8 i
  rlpAccount a := beBytes 8 a.nonce ++ beBytes 32 a.balance ++ a.root ++ a.codeHash
  rlpReceipt r := beBytes 1 r.status ++ r.bloom ++ r.logs.flatMap fun lg => lg.address ++ lg.data
  createBloom logs := checksum (logs.flatMap fun lg => lg.address ++ lg.topics.flatten)
  mergeBloom blooms := checksum blooms.flatten
  trieRoot := listUpdates
  trieNodes t := if t = [] then none else some []
  formatFloat bits := toString (truncFloat bits)
  floatToUint64 bits := UInt64.ofNat (truncFloat bits).toNat
  floatToInt bits := Int64.ofInt (truncFloat bits)

end BhtBhte.Node
