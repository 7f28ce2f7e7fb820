import BhtBhte.Lib.Text
import Mathlib.Algebra.Ring.Nat
import Mathlib.Tactic.IntervalCases

/-!
# Numbers as `fmt.Sscanf` scans them

The verb `%d` takes blanks, then as many digits as there are, and leaves the rest of the text
unread.

## Main definitions

* `scanUint bits s` — an unsigned number scanned with `%d`.
* `scanHex width bits s` — one scanned with `%x` of a width, with the text of the error.
* `Scans bits s n` — blanks, the digits of `n`, and anything else.
-/
namespace BhtBhte.Lib

/-- How many runes one scan reads. -/
def hugeWid : ℕ := 2 ^ 30

def decimalDigits : List Char := ['0', '1', '2', '3', '4', '5', '6', '7', '8', '9']

/-- The value of a text of digits. -/
def decimalValue (l : List Char) : ℕ := l.foldl (fun a c => a * 10 + digitVal c) 0

/-- Blanks are skipped; a newline among them is an error. -/
def skipSpace : List Char → Option (List Char)
  | [] => some []
  | c :: s => if c = '\n' then none else if isSpace c then skipSpace s else some (c :: s)

/-- `%d` into an unsigned integer of `bits` bits, where no sign is taken. -/
def scanUint (bits : ℕ) (s : List Char) : Option ℕ :=
  match skipSpace (s.take hugeWid) with
  | none => none
  | some s =>
      let tok := s.takeWhile (· ∈ decimalDigits)
      if tok = [] then none
      else if decimalValue tok < 2 ^ bits then some (decimalValue tok)
      else none

/-- Blanks, the digits of `n`, and then anything that is no digit. -/
def Scans (bits : ℕ) (s : List Char) (n : ℕ) : Prop :=
  ∃ blanks digits rest, s.take hugeWid = blanks ++ (digits ++ rest) ∧
    (∀ c ∈ blanks, isSpace c = true ∧ c ≠ '\n') ∧ digits ≠ [] ∧ (∀ c ∈ digits, c ∈ decimalDigits) ∧
    (∀ c ∈ rest.head?, c ∉ decimalDigits) ∧ decimalValue digits = n ∧ n < 2 ^ bits

variable {bits n : ℕ} {s : List Char}

theorem not_isSpace_of_mem_decimalDigits : ∀ c ∈ decimalDigits, isSpace c = false := by
  simp [decimalDigits, isSpace]

theorem digitChar_mem_decimalDigits (d : ℕ) (hd : d < 10) : Nat.digitChar d ∈ decimalDigits := by
  interval_cases d <;> decide

theorem mem_decimalDigits_of_mem_toDigits {c : Char} (h : c ∈ Nat.toDigits 10 n) :
    c ∈ decimalDigits := by
  obtain ⟨d, hd, rfl⟩ := exists_digitChar_of_mem_toDigits (by decide : 1 < 10) c h
  exact digitChar_mem_decimalDigits d hd

theorem decimalValue_toDigits (n : ℕ) : decimalValue (Nat.toDigits 10 n) = n :=
  foldl_toDigits (by decide) (by decide) n

/-! ## Blanks -/

theorem skipSpace_append {blanks : List Char} (h : ∀ c ∈ blanks, isSpace c = true ∧ c ≠ '\n')
    (s : List Char) : skipSpace (blanks ++ s) = skipSpace s := by
  induction blanks with
  | nil => rfl
  | cons c blanks ih =>
      obtain ⟨hspace, hnl⟩ := h c List.mem_cons_self
      rw [List.cons_append, skipSpace, if_neg hnl, if_pos hspace,
        ih fun c' hc' => h c' (List.mem_cons_of_mem _ hc')]

theorem skipSpace_of_not_space (h : ∀ c ∈ s.head?, isSpace c = false) : skipSpace s = some s := by
  cases s with
  | nil => rfl
  | cons c s =>
      have hspace : isSpace c = false := h c rfl
      have hnl : c ≠ '\n' := by
        rintro rfl
        exact absurd hspace (by decide)
      rw [skipSpace, if_neg hnl, if_neg (by rw [hspace]; decide)]

/-- What is left begins with no blank. -/
theorem exists_blanks_of_skipSpace {s' : List Char} (h : skipSpace s = some s') :
    ∃ blanks, s = blanks ++ s' ∧ ∀ c ∈ blanks, isSpace c = true ∧ c ≠ '\n' := by
  induction s with
  | nil =>
      cases h
      exact ⟨[], rfl, by simp⟩
  | cons c s ih =>
      rw [skipSpace] at h
      split at h
      · cases h
      · next hnl =>
          split at h
          · next hspace =>
              obtain ⟨blanks, rfl, hblanks⟩ := ih h
              refine ⟨c :: blanks, rfl, fun c' hc' => ?_⟩
              rcases List.mem_cons.mp hc' with rfl | hc'
              · exact ⟨hspace, hnl⟩
              · exact hblanks c' hc'
          · cases h
            exact ⟨[], rfl, by simp⟩

/-! ## What is scanned -/

/-- The digits that are taken are all there are. -/
theorem takeWhile_digits {digits rest : List Char} (h : ∀ c ∈ digits, c ∈ decimalDigits)
    (hrest : ∀ c ∈ rest.head?, c ∉ decimalDigits) :
    (digits ++ rest).takeWhile (· ∈ decimalDigits) = digits := by
  rw [List.takeWhile_append_of_pos fun c hc => decide_eq_true (h c hc)]
  cases rest with
  | nil => rw [List.takeWhile_nil, List.append_nil]
  | cons c rest =>
      rw [List.takeWhile_cons_of_neg (by simpa using hrest c rfl), List.append_nil]

/-- **The scanner takes blanks, the digits, and whatever stands behind them.** -/
theorem scanUint_eq_some_iff : scanUint bits s = some n ↔ Scans bits s n := by
  constructor
  · intro h
    rw [scanUint] at h
    cases hskip : skipSpace (s.take hugeWid) with
    | none =>
        rw [hskip] at h
        cases h
    | some s' =>
        simp only [hskip] at h
        obtain ⟨blanks, hs, hblanks⟩ := exists_blanks_of_skipSpace hskip
        split at h
        · cases h
        · next hne =>
            split at h
            · next hlt =>
                cases h
                refine ⟨blanks, s'.takeWhile (· ∈ decimalDigits),
                  s'.dropWhile (· ∈ decimalDigits), ?_, hblanks, hne, fun c hc => ?_,
                  fun c hc => ?_, rfl, hlt⟩
                · rw [List.takeWhile_append_dropWhile, hs]
                · simpa using List.mem_takeWhile_imp hc
                · have hnot := List.head?_dropWhile_not (· ∈ decimalDigits) s'
                  rw [Option.mem_def] at hc
                  rw [hc] at hnot
                  simpa using hnot
            · cases h
  · rintro ⟨blanks, digits, rest, hs, hblanks, hne, hdigits, hrest, rfl, hlt⟩
    have hhead : ∀ c ∈ (digits ++ rest).head?, isSpace c = false := by
      intro c hc
      rw [List.head?_append_of_ne_nil _ hne] at hc
      exact not_isSpace_of_mem_decimalDigits c (hdigits c (List.mem_of_mem_head? hc))
    rw [scanUint, hs, skipSpace_append hblanks, skipSpace_of_not_space hhead]
    simp only [takeWhile_digits hdigits hrest, if_neg hne, if_pos hlt]

theorem Scans.ne_nil (h : Scans bits s n) : s ≠ [] := by
  rintro rfl
  obtain ⟨blanks, digits, rest, hs, -, hne, -⟩ := h
  rw [List.take_nil] at hs
  exact hne (List.append_eq_nil_iff.mp (List.append_eq_nil_iff.mp hs.symm).2).1

/-- A text of digits that is read whole. -/
theorem scanUint_digits (hlen : s.length ≤ hugeWid) (hne : s ≠ [])
    (h : ∀ c ∈ s, c ∈ decimalDigits) (hlt : decimalValue s < 2 ^ bits) :
    scanUint bits s = some (decimalValue s) :=
  scanUint_eq_some_iff.mpr ⟨[], s, [], by rw [List.take_of_length_le hlen]; simp, by simp, hne, h,
    by simp, rfl, hlt⟩

theorem scanUint_toDigits (hlt : n < 2 ^ bits) (hbits : bits ≤ 64) :
    scanUint bits (Nat.toDigits 10 n) = some n := by
  have hlen : (Nat.toDigits 10 n).length ≤ 20 := by
    rw [Nat.length_toDigits_le_iff (by decide) (by decide)]
    calc n < 2 ^ bits := hlt
      _ ≤ 2 ^ 64 := Nat.pow_le_pow_right (by decide) hbits
      _ ≤ 10 ^ 20 := by decide
  have hscan : scanUint bits (Nat.toDigits 10 n) = some (decimalValue (Nat.toDigits 10 n)) :=
    scanUint_digits (hlen.trans (by decide)) Nat.toDigits_ne_nil
      (fun c hc => mem_decimalDigits_of_mem_toDigits hc) (by rwa [decimalValue_toDigits])
  rwa [decimalValue_toDigits] at hscan

/-! ## Hexadecimal digits -/

def hexadecimalDigits : List Char :=
  ['0', '1', '2', '3', '4', '5', '6', '7', '8', '9', 'a', 'A', 'b', 'B', 'c', 'C', 'd', 'D', 'e', 'E',
    'f', 'F']

/-- The value of a text of hexadecimal digits. -/
def hexadecimalValue (l : List Char) : ℕ := l.foldl (fun a c => a * 16 + digitVal c) 0

/-- `%x` of the width into an unsigned integer of `bits` bits.  The width counts from the first rune
that is no blank. -/
def scanHex (width bits : ℕ) (s : List Char) : Except String ℕ :=
  match skipSpace s with
  | none => .error "unexpected newline"
  | some [] => .error "EOF"
  | some s =>
      let tok := (s.take width).takeWhile (· ∈ hexadecimalDigits)
      if tok = [] then .error "expected integer"
      else if hexadecimalValue tok < 2 ^ bits then .ok (hexadecimalValue tok)
      else .error ("unsigned integer overflow on token " ++ String.ofList tok)

theorem digitChar_mem_hexadecimalDigits (d : ℕ) (hd : d < 16) :
    Nat.digitChar d ∈ hexadecimalDigits ∧ isSpace (Nat.digitChar d) = false := by
  interval_cases d <;> decide

theorem scanHex_hexEncode (b : UInt8) : scanHex 2 8 (hexEncode [b]) = .ok b.toNat := by
  have hb := b.toNat_lt
  obtain ⟨hhigh, hblank⟩ := digitChar_mem_hexadecimalDigits (b.toNat / 16) (by omega)
  have hlow := (digitChar_mem_hexadecimalDigits (b.toNat % 16) (by omega)).1
  have hvalue : hexadecimalValue (hexEncode [b]) = b.toNat := by
    simp only [hexadecimalValue, hexEncode, List.flatMap_cons, List.flatMap_nil, List.append_nil,
      List.foldl_cons, List.foldl_nil, digitVal_digitChar (b.toNat / 16) (by omega),
      digitVal_digitChar (b.toNat % 16) (by omega)]
    omega
  have hskip : skipSpace (hexEncode [b]) = some (hexEncode [b]) :=
    skipSpace_of_not_space fun c hc => by cases hc; exact hblank
  have htok : ((hexEncode [b]).take 2).takeWhile (· ∈ hexadecimalDigits) = hexEncode [b] := by
    simp [hexEncode, hhigh, hlow]
  rw [scanHex, hskip]
  change (if ((hexEncode [b]).take 2).takeWhile (· ∈ hexadecimalDigits) = [] then _ else _) = _
  have hne : hexEncode [b] ≠ [] := List.cons_ne_nil _ _
  rw [htok, if_neg hne, hvalue, if_pos hb]

end BhtBhte.Lib
