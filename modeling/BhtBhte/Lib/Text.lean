import Mathlib.Algebra.Order.Ring.Int
import Mathlib.Data.List.DropRight
import Mathlib.Data.String.Basic
import Mathlib.Tactic.Common

/-!
# Strings as a Go program handles them

Case mapping, trimming, prefixes and number texts, over the runes of a string.

## Main definitions

* `CaseTable` — the Unicode tables behind `ToLower` and `EqualFold`.
* `trimSpace`, `toLower`, `equalFold`, `hasPrefix`, `contains`.
* `bigText b v` and `bigSetString b s` — printing and parsing an integer in base `b`.
* `hexEncode` — bytes as lower-case hexadecimal digits.
-/
namespace BhtBhte.Lib

/-- The Unicode case tables: `lower` maps one rune, `fold` picks one rune of each
simple-folding orbit.  On ASCII both are the usual lower-case letter. -/
class CaseTable where
  lower : Char → Char
  fold : Char → Char
  lower_ascii : ∀ c : Char, c.toNat < 128 → lower c = c.toLower
  fold_ascii : ∀ c : Char, c.toNat < 128 → fold c = c.toLower
  lower_lower : ∀ c, lower (lower c) = lower c

/-- White space as `unicode.IsSpace` decides it. -/
def isSpace (c : Char) : Bool :=
  c ∈ ['\t', '\n', '\x0b', '\x0c', '\r', ' ', '\u0085', '\u00a0', '\u1680', '\u2028', '\u2029',
    '\u202f', '\u205f', '\u3000'] || (0x2000 ≤ c.toNat && c.toNat ≤ 0x200a)

/-- `strings.TrimSpace`. -/
def trimSpace (s : String) : String :=
  String.ofList ((s.toList.dropWhile isSpace).rdropWhile isSpace)

/-- `strings.HasPrefix`. -/
def hasPrefix (s p : String) : Bool := p.toList.isPrefixOf s.toList

/-- Drop a leading `p`, when it is there. -/
def trimPrefix (s p : String) : String :=
  if hasPrefix s p then String.ofList (s.toList.drop p.toList.length) else s

/-- `sub` occurs somewhere in `s`. -/
def contains (s sub : String) : Bool := s.toList.tails.any sub.toList.isPrefixOf

/-- The last `k` bytes.  Of a rune that the cut splits, the bytes that stay are not a
rune and read as the replacement character. -/
def lastBytes (k : ℕ) (s : String) : String :=
  go k s.toList.reverse []
where
  go : ℕ → List Char → List Char → String
    | _, [], acc => String.ofList acc
    | k, c :: cs, acc =>
        if c.utf8Size ≤ k then go (k - c.utf8Size) cs (c :: acc)
        else String.ofList (List.replicate k '\ufffd' ++ acc)

/-- The first `k` bytes, with a split rune treated as in `lastBytes`. -/
def firstBytes (k : ℕ) (s : String) : String :=
  go k s.toList []
where
  go : ℕ → List Char → List Char → String
    | _, [], acc => String.ofList acc.reverse
    | k, c :: cs, acc =>
        if c.utf8Size ≤ k then go (k - c.utf8Size) cs (c :: acc)
        else String.ofList (acc.reverse ++ List.replicate k '\ufffd')

/-! ## Trimming -/

theorem toList_trimSpace (s : String) :
    (trimSpace s).toList = (s.toList.dropWhile isSpace).rdropWhile isSpace := by
  rw [trimSpace, String.toList_ofList]

/-- Trimming leaves a text alone that neither starts nor ends with white space. -/
theorem trimSpace_eq_self {s : String} (hhead : ∀ c ∈ s.toList.head?, isSpace c = false)
    (hlast : ∀ c ∈ s.toList.getLast?, isSpace c = false) : trimSpace s = s := by
  have hdrop : s.toList.dropWhile isSpace = s.toList := by
    rw [List.dropWhile_eq_self_iff]
    intro hl
    have := hhead s.toList[0] (by rw [List.head?_eq_getElem?, List.getElem?_eq_getElem hl]; rfl)
    simp [this]
  have hrdrop : s.toList.rdropWhile isSpace = s.toList := by
    rw [List.rdropWhile_eq_self_iff]
    intro hl
    have := hlast (s.toList.getLast hl) (by rw [List.getLast?_eq_getLast_of_ne_nil hl]; rfl)
    simp [this]
  rw [trimSpace, hdrop, hrdrop, String.ofList_toList]

theorem trimSpace_of_no_space {s : String} (h : ∀ c ∈ s.toList, isSpace c = false) :
    trimSpace s = s :=
  trimSpace_eq_self (fun c hc => h c (List.mem_of_mem_head? hc))
    fun c hc => h c (List.mem_of_mem_getLast? hc)

theorem isSpace_head_trimSpace (s : String) :
    ∀ c ∈ (trimSpace s).toList.head?, isSpace c = false := by
  intro c hc
  rw [toList_trimSpace, Option.mem_def, ← List.singleton_prefix_iff_head?_eq_some] at hc
  have hdrop := hc.trans (List.rdropWhile_prefix isSpace _)
  rw [List.singleton_prefix_iff_head?_eq_some] at hdrop
  have hnot := List.head?_dropWhile_not isSpace s.toList
  rw [hdrop] at hnot
  exact hnot

theorem isSpace_getLast_trimSpace (s : String) :
    ∀ c ∈ (trimSpace s).toList.getLast?, isSpace c = false := by
  intro c hc
  rw [toList_trimSpace] at hc
  by_cases hne : (s.toList.dropWhile isSpace).rdropWhile isSpace = []
  · rw [hne] at hc
    cases hc
  · have h := List.rdropWhile_last_not isSpace (s.toList.dropWhile isSpace) hne
    rw [List.getLast?_eq_getLast_of_ne_nil hne] at hc
    cases hc
    simpa using h

theorem mem_of_mem_trimSpace {s : String} {c : Char} (h : c ∈ (trimSpace s).toList) :
    c ∈ s.toList := by
  rw [toList_trimSpace] at h
  exact (List.dropWhile_sublist isSpace).mem ((List.rdropWhile_prefix isSpace _).subset h)

section Case
variable [CaseTable]

/-- `strings.ToLower`, rune by rune. -/
def toLower (s : String) : String := String.ofList (s.toList.map CaseTable.lower)

/-- `strings.EqualFold`: equal up to the simple case folding of runes. -/
def equalFold (s t : String) : Bool :=
  s.toList.map CaseTable.fold = t.toList.map CaseTable.fold

@[simp] theorem toLower_toLower (s : String) : toLower (toLower s) = toLower s := by
  have h : CaseTable.lower ∘ CaseTable.lower = CaseTable.lower :=
    funext CaseTable.lower_lower
  simp [toLower, h]

@[simp] theorem equalFold_refl (s : String) : equalFold s s = true := by
  simp [equalFold]

/-- Only the empty string folds to the empty string. -/
theorem equalFold_empty {s : String} (h : equalFold s "" = true) : s = "" := by
  simp only [equalFold, decide_eq_true_eq] at h
  have : s.toList = [] := List.map_eq_nil_iff.mp h
  rwa [String.toList_eq_nil_iff] at this

/-- On ASCII text lowering is the ASCII map. -/
theorem toLower_of_ascii {s : String} (h : (s.toList.all fun c => c.toNat < 128) = true) :
    toLower s = String.ofList (s.toList.map Char.toLower) := by
  rw [toLower]
  congr 1
  refine List.map_congr_left fun c hc => CaseTable.lower_ascii c ?_
  simpa using List.all_eq_true.mp h c hc

end Case

/-! ## Number texts -/

/-- The value of a digit in bases up to 36; `36` when the rune is no digit. -/
def digitVal (c : Char) : ℕ :=
  if '0' ≤ c ∧ c ≤ '9' then c.toNat - '0'.toNat
  else if 'a' ≤ c ∧ c ≤ 'z' then c.toNat - 'a'.toNat + 10
  else if 'A' ≤ c ∧ c ≤ 'Z' then c.toNat - 'A'.toNat + 10
  else 36

/-- A non-empty text of base-`b` digits. -/
def parseDigits (b : ℕ) (l : List Char) : Option ℕ :=
  if l ≠ [] ∧ (l.all fun c => digitVal c < b) then some (l.foldl (fun a c => a * b + digitVal c) 0)
  else none

/-- `big.Int.SetString` for a base other than zero: an optional sign, then digits. -/
def bigSetString (b : ℕ) : List Char → Option ℤ
  | '-' :: l => (parseDigits b l).map fun n : ℕ => -(n : ℤ)
  | '+' :: l => (parseDigits b l).map fun n : ℕ => (n : ℤ)
  | l => (parseDigits b l).map fun n : ℕ => (n : ℤ)

/-- `big.Int.Text`. -/
def bigText (b : ℕ) (v : ℤ) : List Char :=
  if v < 0 then '-' :: Nat.toDigits b v.natAbs else Nat.toDigits b v.natAbs

theorem digitVal_digitChar : ∀ d < 16, digitVal (Nat.digitChar d) = d := by decide

/-- The digits of a number are digit characters below the base. -/
theorem exists_digitChar_of_mem_toDigits {b n : ℕ} (hb : 1 < b) :
    ∀ c ∈ Nat.toDigits b n, ∃ d < b, c = Nat.digitChar d := by
  induction n using Nat.strong_induction_on with
  | _ n ih =>
      rw [Nat.toDigits_eq_if hb]
      split
      · next h =>
          intro c hc
          exact ⟨n, h, List.mem_singleton.mp hc⟩
      · next h =>
          intro c hc
          rcases List.mem_append.mp hc with hc | hc
          · exact ih (n / b) (Nat.div_lt_self (by omega) hb) c hc
          · exact ⟨n % b, Nat.mod_lt _ (by omega), List.mem_singleton.mp hc⟩

theorem foldl_toDigits {b : ℕ} (hb : 1 < b) (hb' : b ≤ 16) (n : ℕ) :
    (Nat.toDigits b n).foldl (fun a c => a * b + digitVal c) 0 = n := by
  induction n using Nat.strong_induction_on with
  | _ n ih =>
      rw [Nat.toDigits_eq_if hb]
      split
      · next h =>
          rw [List.foldl_cons, List.foldl_nil, digitVal_digitChar n (by omega)]
          omega
      · next h =>
          have hmod : n % b < b := Nat.mod_lt _ (by omega)
          rw [List.foldl_append, ih (n / b) (Nat.div_lt_self (by omega) hb), List.foldl_cons,
            List.foldl_nil, digitVal_digitChar _ (by omega), Nat.mul_comm]
          exact Nat.div_add_mod n b

theorem parseDigits_toDigits {b : ℕ} (hb : 1 < b) (hb' : b ≤ 16) (n : ℕ) :
    parseDigits b (Nat.toDigits b n) = some n := by
  rw [parseDigits, if_pos, foldl_toDigits hb hb']
  refine ⟨Nat.toDigits_ne_nil, List.all_eq_true.mpr fun c hc => ?_⟩
  obtain ⟨d, hd, rfl⟩ := exists_digitChar_of_mem_toDigits hb c hc
  rw [digitVal_digitChar d (by omega), decide_eq_true_eq]
  exact hd

/-- A digit character is neither a sign nor white space. -/
theorem digitChar_plain : ∀ d < 16, Nat.digitChar d ≠ '-' ∧ Nat.digitChar d ≠ '+' ∧
    isSpace (Nat.digitChar d) = false ∧ (Nat.digitChar d).toNat < 128 ∧
      (Nat.digitChar d).toLower = Nat.digitChar d := by decide

/-- A text of digits has no sign. -/
theorem bigSetString_digits {b : ℕ} (hb : b ≤ 16) {l : List Char} (hne : l ≠ [])
    (h : ∀ c ∈ l, ∃ d < b, c = Nat.digitChar d) :
    bigSetString b l = some ((l.foldl (fun a c => a * b + digitVal c) 0 : ℕ) : ℤ) := by
  have hpar : parseDigits b l = some (l.foldl (fun a c => a * b + digitVal c) 0) := by
    refine if_pos ⟨hne, List.all_eq_true.mpr fun c hc => ?_⟩
    obtain ⟨d, hd, rfl⟩ := h c hc
    rw [digitVal_digitChar d (by omega), decide_eq_true_eq]
    exact hd
  have hhead : ∀ c ∈ l, c ≠ '-' ∧ c ≠ '+' := by
    intro c hc
    obtain ⟨d, hd, rfl⟩ := h c hc
    exact ⟨(digitChar_plain d (by omega)).1, (digitChar_plain d (by omega)).2.1⟩
  rw [bigSetString.eq_def]
  split
  · next heq => exact absurd rfl (hhead '-' List.mem_cons_self).1
  · next heq => exact absurd rfl (hhead '+' List.mem_cons_self).2
  · rw [hpar]
    rfl

theorem bigSetString_toDigits {b : ℕ} (hb : 1 < b) (hb' : b ≤ 16) (n : ℕ) :
    bigSetString b (Nat.toDigits b n) = some (n : ℤ) := by
  rw [bigSetString_digits hb' Nat.toDigits_ne_nil (exists_digitChar_of_mem_toDigits hb),
    foldl_toDigits hb hb']

/-- Printing then parsing an integer gives it back. -/
theorem bigSetString_bigText {b : ℕ} (hb : 1 < b) (hb' : b ≤ 16) (v : ℤ) :
    bigSetString b (bigText b v) = some v := by
  rw [bigText]
  split
  · next h =>
      rw [bigSetString, parseDigits_toDigits hb hb', Option.map_some, Option.some.injEq]
      omega
  · next h =>
      rw [bigSetString_toDigits hb hb', Option.some.injEq]
      omega

/-- Bytes as two lower-case hexadecimal digits each. -/
def hexEncode (l : List UInt8) : List Char :=
  l.flatMap fun x => [Nat.digitChar (x.toNat / 16), Nat.digitChar (x.toNat % 16)]

theorem length_hexEncode (l : List UInt8) : (hexEncode l).length = 2 * l.length := by
  induction l with
  | nil => rfl
  | cons x l ih =>
      simp only [hexEncode, List.flatMap_cons, List.length_append, List.length_cons,
        List.length_nil] at ih ⊢
      omega

theorem exists_digitChar_of_mem_hexEncode {a : List UInt8} :
    ∀ c ∈ hexEncode a, ∃ d < 16, c = Nat.digitChar d := by
  intro c hc
  obtain ⟨b, -, hb⟩ := List.mem_flatMap.mp hc
  have := b.toNat_lt
  simp only [List.mem_cons, List.not_mem_nil, or_false] at hb
  rcases hb with rfl | rfl
  · exact ⟨b.toNat / 16, by omega, rfl⟩
  · exact ⟨b.toNat % 16, by omega, rfl⟩

/-- Letters put in upper case here and there, and back. -/
theorem map_mapIdx_toUpper {f : Char → Char} (p : ℕ → Prop) [DecidablePred p] (a : List UInt8)
    (hlower : ∀ d < 16, f (Nat.digitChar d) = Nat.digitChar d)
    (hupper : ∀ d < 16, f (Nat.digitChar d).toUpper = Nat.digitChar d) :
    ((hexEncode a).mapIdx fun i c => if p i then c.toUpper else c).map f = hexEncode a := by
  apply List.ext_getElem (by simp)
  intro i h₁ h₂
  obtain ⟨d, hd, hc⟩ := exists_digitChar_of_mem_hexEncode (hexEncode a)[i] (List.getElem_mem h₂)
  simp only [List.getElem_map, List.getElem_mapIdx, hc]
  split
  · rw [hupper d hd]
  · rw [hlower d hd]

theorem hexEncode_injective : Function.Injective hexEncode := by
  intro l
  induction l with
  | nil =>
      intro l' h
      cases l' with
      | nil => rfl
      | cons y l' => simp [hexEncode] at h
  | cons x l ih =>
      intro l' h
      cases l' with
      | nil => simp [hexEncode] at h
      | cons y l' =>
          simp only [hexEncode, List.flatMap_cons, List.cons_append, List.nil_append,
            List.cons.injEq] at h
          obtain ⟨hhi, hlo, htail⟩ := h
          have hx := x.toNat_lt
          have hy := y.toNat_lt
          have h₁ := congrArg digitVal hhi
          have h₂ := congrArg digitVal hlo
          rw [digitVal_digitChar _ (by omega), digitVal_digitChar _ (by omega)] at h₁ h₂
          have hxy : x = y := UInt8.toNat_inj.mp (by omega)
          rw [hxy, ih htail]

end BhtBhte.Lib
