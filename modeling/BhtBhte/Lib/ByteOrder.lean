import Mathlib.Data.Nat.Digits.Defs
import Mathlib.Tactic.Common
import Mathlib.Tactic.Ring

/-!
# Byte strings in order

The order that decides at the first byte where two strings differ, the order of the numbers that
they stand for with the low byte first, and what the front of a string decides whatever follows
it: in the one order the front counts most, in the other it counts least.

## Main definitions

* `lexLE` — the comparison loop.
* `bytesValue` — the number that a byte string stands for.
* `leBytes` — a number in so many bytes.
-/
namespace BhtBhte.Lib

/-! ## The first difference -/

/-- The loop over two byte strings of one length: the first difference decides. -/
def lexLE : List UInt8 → List UInt8 → Bool
  | a :: as, b :: bs => if a < b then true else if a > b then false else lexLE as bs
  | _, _ => true

theorem lexLE_cons (a b : UInt8) (as bs : List UInt8) :
    lexLE (a :: as) (b :: bs) = true ↔ a.toNat < b.toNat ∨ a = b ∧ lexLE as bs = true := by
  rw [lexLE, ← UInt8.toNat_inj]
  split_ifs with hlt hgt
  · simp [UInt8.lt_iff_toNat_lt.mp hlt]
  · have := UInt8.lt_iff_toNat_lt.mp hgt
    simp only [false_iff]
    omega
  · have heq : a.toNat = b.toNat := by
      rw [UInt8.lt_iff_toNat_lt] at hlt
      rw [gt_iff_lt, UInt8.lt_iff_toNat_lt] at hgt
      omega
    simp [heq]

/-- The front decides, and where it is equal the rest. -/
theorem lexLE_append {a b : List UInt8} (h : a.length = b.length) (c d : List UInt8) :
    lexLE (a ++ c) (b ++ d) = true ↔ lexLE a b = true ∧ (a = b → lexLE c d = true) := by
  induction a generalizing b with
  | nil =>
      obtain rfl := List.length_eq_zero_iff.mp h.symm
      simp [lexLE]
  | cons x a ih =>
      cases b with
      | nil => cases h
      | cons y b =>
          rw [List.cons_append, List.cons_append, lexLE_cons, lexLE_cons, ih (Nat.succ.inj h),
            List.cons.injEq]
          by_cases hxy : x = y
          · simp [hxy]
          · simp [hxy]

/-- Zeros come first. -/
theorem lexLE_zeros (t : List UInt8) : lexLE (List.replicate t.length 0) t = true := by
  induction t with
  | nil => rfl
  | cons y t ih =>
      rw [List.length_cons, List.replicate_succ, lexLE_cons, ← UInt8.toNat_inj]
      simp only [ih, UInt8.toNat_zero, and_true]
      omega

/-- Nothing comes after a string of the largest byte. -/
theorem lexLE_ones (c : List UInt8) : lexLE c (List.replicate c.length 255) = true := by
  induction c with
  | nil => rfl
  | cons x c ih =>
      rw [List.length_cons, List.replicate_succ, lexLE_cons, ← UInt8.toNat_inj]
      have hx : x.toNat < 256 := x.toNat_lt
      have hones : (255 : UInt8).toNat = 255 := rfl
      simp only [ih, and_true]
      omega

theorem eq_ones_of_lexLE {t : List UInt8} (h : lexLE (List.replicate t.length 255) t = true) :
    t = List.replicate t.length 255 := by
  induction t with
  | nil => rfl
  | cons y t ih =>
      rw [List.length_cons, List.replicate_succ, lexLE_cons] at h
      have hy : y.toNat < 256 := y.toNat_lt
      have hones : (255 : UInt8).toNat = 255 := rfl
      rcases h with hlt | ⟨rfl, htail⟩
      · omega
      · rw [List.length_cons, List.replicate_succ, ← ih htail]

section Tails
variable {d h t : List UInt8}

/-- A front that is at most another, whatever follows it. -/
theorem forall_lexLE_append (hlen : d.length = h.length) :
    (∀ c : List UInt8, c.length = t.length → lexLE (d ++ c) (h ++ t) = true) ↔
      lexLE d h = true ∧ (d = h → t = List.replicate t.length 255) := by
  constructor
  · intro hall
    have hones := (lexLE_append hlen _ t).mp (hall (List.replicate t.length 255)
      List.length_replicate)
    exact ⟨hones.1, fun heq => eq_ones_of_lexLE (hones.2 heq)⟩
  · rintro ⟨hfront, htail⟩ c hc
    refine (lexLE_append hlen c t).mpr ⟨hfront, fun heq => ?_⟩
    rw [htail heq, ← hc]
    exact lexLE_ones c

/-- A front that is more than another, whatever follows it. -/
theorem forall_not_lexLE_append (hlen : d.length = h.length) :
    (∀ c : List UInt8, c.length = t.length → lexLE (d ++ c) (h ++ t) = false) ↔
      lexLE d h = false := by
  constructor
  · intro hall
    have hzeros := hall (List.replicate t.length 0) List.length_replicate
    rw [← Bool.not_eq_true, lexLE_append hlen] at hzeros
    rw [← Bool.not_eq_true]
    exact fun hfront => hzeros ⟨hfront, fun _ => lexLE_zeros t⟩
  · intro hfront c _
    rw [← Bool.not_eq_true, lexLE_append hlen]
    exact fun hboth => by simp [hfront] at hboth

end Tails

/-! ## The numbers -/

/-- The number that a byte string stands for, low byte first. -/
def bytesValue (b : List UInt8) : ℕ := Nat.ofDigits 256 (b.map UInt8.toNat)

@[simp] theorem bytesValue_nil : bytesValue [] = 0 := rfl

theorem bytesValue_cons (x : UInt8) (b : List UInt8) :
    bytesValue (x :: b) = x.toNat + 256 * bytesValue b := Nat.ofDigits_cons

theorem bytesValue_append (a b : List UInt8) :
    bytesValue (a ++ b) = bytesValue a + 256 ^ a.length * bytesValue b := by
  rw [bytesValue, List.map_append, Nat.ofDigits_append, List.length_map]
  rfl

theorem bytesValue_append_singleton (b : List UInt8) (x : UInt8) :
    bytesValue (b ++ [x]) = bytesValue b + 256 ^ b.length * x.toNat := by
  rw [bytesValue_append, bytesValue_cons, bytesValue_nil, Nat.mul_zero, Nat.add_zero]

theorem bytesValue_lt (b : List UInt8) : bytesValue b < 256 ^ b.length := by
  have hlt : ∀ x ∈ b.map UInt8.toNat, x < 256 := by
    intro x hx
    obtain ⟨y, -, rfl⟩ := List.mem_map.mp hx
    exact y.toNat_lt
  have h := Nat.ofDigits_lt_base_pow_length (by decide) hlt
  rwa [List.length_map] at h

/-- Byte strings of one length are equal when they stand for the same number. -/
theorem eq_of_bytesValue_eq {a b : List UInt8} (hlen : a.length = b.length)
    (h : bytesValue a = bytesValue b) : a = b := by
  have hlt : ∀ l : List UInt8, ∀ x ∈ l.map UInt8.toNat, x < 256 := by
    intro l x hx
    obtain ⟨y, -, rfl⟩ := List.mem_map.mp hx
    exact y.toNat_lt
  have hmap := Nat.ofDigits_inj_of_len_eq (by decide) (by simpa using hlen) (hlt a) (hlt b) h
  exact List.map_inj_right (fun _ _ => UInt8.toNat_inj.mp) |>.mp hmap

theorem bytesValue_zeros (n : ℕ) : bytesValue (List.replicate n 0) = 0 := by
  induction n with
  | zero => rfl
  | succ n ih => rw [List.replicate_succ, bytesValue_cons, ih, UInt8.toNat_zero]

theorem bytesValue_ones (n : ℕ) : bytesValue (List.replicate n 255) + 1 = 256 ^ n := by
  induction n with
  | zero => rfl
  | succ n ih =>
      have hones : (255 : UInt8).toNat = 255 := rfl
      rw [List.replicate_succ, bytesValue_cons, hones, pow_succ]
      omega

theorem eq_zeros_of_bytesValue {t : List UInt8} (h : bytesValue t = 0) :
    t = List.replicate t.length 0 :=
  eq_of_bytesValue_eq List.length_replicate.symm (h.trans (bytesValue_zeros _).symm)

theorem eq_ones_of_bytesValue {t : List UInt8} (h : bytesValue t + 1 = 256 ^ t.length) :
    t = List.replicate t.length 255 :=
  eq_of_bytesValue_eq List.length_replicate.symm
    (Nat.succ.inj (h.trans (bytesValue_ones t.length).symm))

/-- The low bytes of a number, the lowest first. -/
def leBytes : ℕ → ℕ → List UInt8
  | 0, _ => []
  | n + 1, x => x.toUInt8 :: leBytes n (x / 256)

@[simp] theorem length_leBytes (n x : ℕ) : (leBytes n x).length = n := by
  induction n generalizing x with
  | zero => rfl
  | succ n ih => rw [leBytes, List.length_cons, ih]

theorem bytesValue_leBytes (n x : ℕ) : bytesValue (leBytes n x) = x % 256 ^ n := by
  induction n generalizing x with
  | zero => rw [leBytes, bytesValue_nil, Nat.pow_zero, Nat.mod_one]
  | succ n ih =>
      rw [leBytes, bytesValue_cons, ih, Nat.pow_succ', Nat.mod_mul]
      exact congrArg (· + _) (UInt8.toNat_ofNat' ..)

theorem getElem_leBytes (n x : ℕ) {i : ℕ} (hi : i < (leBytes n x).length) :
    (leBytes n x)[i] = (x / 256 ^ i).toUInt8 := by
  induction n generalizing x i with
  | zero => exact absurd hi (Nat.not_lt_zero i)
  | succ n ih =>
      cases i with
      | zero => simp [leBytes]
      | succ i =>
          simp only [leBytes, List.getElem_cons_succ]
          rw [ih, Nat.div_div_eq_div_mul, ← Nat.pow_succ']

section Values
variable {d h t : List UInt8}

/-- A number that is at most another, whatever follows its low bytes. -/
theorem forall_bytesValue_le_append (hlen : d.length = h.length) :
    (∀ c : List UInt8, c.length = t.length → bytesValue (d ++ c) ≤ bytesValue (h ++ t)) ↔
      t = List.replicate t.length 255 ∧ bytesValue d ≤ bytesValue h := by
  have hh := bytesValue_lt h
  have ht := bytesValue_lt t
  have hvalue := bytesValue_ones t.length
  simp only [bytesValue_append, hlen]
  constructor
  · intro hall
    have hones := hall (List.replicate t.length 255) List.length_replicate
    have htail : bytesValue t + 1 = 256 ^ t.length := by
      by_contra hne
      have hstep : 256 ^ h.length * (bytesValue t + 1) ≤
          256 ^ h.length * bytesValue (List.replicate t.length 255) :=
        Nat.mul_le_mul_left _ (by omega)
      rw [Nat.mul_add, Nat.mul_one] at hstep
      omega
    rw [← eq_ones_of_bytesValue htail] at hones
    exact ⟨eq_ones_of_bytesValue htail, by omega⟩
  · rintro ⟨htail, hfront⟩ c hc
    rw [← htail, ← hc] at hvalue
    have hle : bytesValue c ≤ bytesValue t := by
      have := bytesValue_lt c
      omega
    exact Nat.add_le_add hfront (Nat.mul_le_mul_left _ hle)

/-- A number that exceeds another, whatever follows its low bytes. -/
theorem forall_lt_bytesValue_append (hlen : d.length = h.length) :
    (∀ c : List UInt8, c.length = t.length → bytesValue (h ++ t) < bytesValue (d ++ c)) ↔
      t = List.replicate t.length 0 ∧ bytesValue h < bytesValue d := by
  have hd := bytesValue_lt d
  simp only [bytesValue_append, hlen] at hd ⊢
  constructor
  · intro hall
    have hzeros := hall (List.replicate t.length 0) List.length_replicate
    rw [bytesValue_zeros, Nat.mul_zero, Nat.add_zero] at hzeros
    have htail : bytesValue t = 0 := by
      by_contra hne
      have hstep : 256 ^ h.length * 1 ≤ 256 ^ h.length * bytesValue t :=
        Nat.mul_le_mul_left _ (by omega)
      omega
    exact ⟨eq_zeros_of_bytesValue htail, by omega⟩
  · rintro ⟨htail, hfront⟩ c _
    rw [htail, bytesValue_zeros, Nat.mul_zero, Nat.add_zero]
    exact hfront.trans_le (Nat.le_add_right _ _)

end Values

end BhtBhte.Lib
