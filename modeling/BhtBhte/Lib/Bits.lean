import BhtBhte.Lib.Lists
import Mathlib.Data.Nat.Bitwise
import Mathlib.Data.Nat.Digits.Defs

/-!
# Bit strings of numbers and bytes

Standards of hash functions speak of bit strings, programs of bytes and words.  One family of
standards writes the lowest bit of a byte first, the other one the highest.

## Main definitions

* `bitsLE`, `bitsBE` — the bits of a number, the lowest or the highest first.
* `bytesBitsLE`, `bytesBitsBE` — the bits of a byte string.
* `bitsValue` — the number with these bits, the lowest first.
-/
namespace BhtBhte.Lib

/-- A bit string, its first bit in front. -/
abbrev Bits := List Bool

/-! ## Numbers -/

/-- The `w` lowest bits, the lowest one first. -/
def bitsLE (w n : ℕ) : Bits := (List.range w).map n.testBit

/-- The `w` lowest bits, the highest one first. -/
def bitsBE (w n : ℕ) : Bits := (bitsLE w n).reverse

/-- The number with these bits, the lowest one first. -/
def bitsValue (b : Bits) : ℕ := Nat.ofDigits 2 (b.map Bool.toNat)

@[simp] theorem length_bitsLE (w n : ℕ) : (bitsLE w n).length = w := by simp [bitsLE]

@[simp] theorem length_bitsBE (w n : ℕ) : (bitsBE w n).length = w := by simp [bitsBE]

theorem bitsLE_add (a b n : ℕ) : bitsLE (a + b) n = bitsLE a n ++ bitsLE b (n / 2 ^ a) := by
  rw [bitsLE, List.range_add, List.map_append, List.map_map]
  refine congrArg (bitsLE a n ++ ·) (List.map_congr_left fun i _ => ?_)
  rw [Nat.testBit_div_two_pow, Nat.add_comm]
  rfl

theorem bitsBE_add (a b n : ℕ) : bitsBE (a + b) n = bitsBE b (n / 2 ^ a) ++ bitsBE a n := by
  rw [bitsBE, bitsLE_add, List.reverse_append]
  rfl

theorem bitsLE_succ (w n : ℕ) : bitsLE (w + 1) n = n.testBit 0 :: bitsLE w (n / 2) := by
  rw [Nat.add_comm, bitsLE_add]
  rfl

/-- Higher bits do not matter. -/
theorem bitsLE_mod (w n : ℕ) : bitsLE w (n % 2 ^ w) = bitsLE w n := by
  refine List.map_congr_left fun i hi => ?_
  rw [Nat.testBit_mod_two_pow, decide_eq_true (List.mem_range.mp hi), Bool.true_and]

theorem bitsBE_mod (w n : ℕ) : bitsBE w (n % 2 ^ w) = bitsBE w n := by
  rw [bitsBE, bitsLE_mod, bitsBE]

theorem bitsLE_xor (w m n : ℕ) :
    bitsLE w (m ^^^ n) = List.zipWith xor (bitsLE w m) (bitsLE w n) := by
  rw [bitsLE, bitsLE, bitsLE, List.zipWith_map, List.zipWith_self]
  exact List.map_congr_left fun i _ => Nat.testBit_xor m n i

/-- **The bits of a number give it back** as far as they go. -/
theorem bitsValue_bitsLE (w n : ℕ) : bitsValue (bitsLE w n) = n % 2 ^ w := by
  induction w generalizing n with
  | zero => exact (Nat.mod_one n).symm
  | succ w ih =>
      have hlow : (n.testBit 0).toNat = n % 2 := by
        rw [Nat.testBit_zero]
        rcases Nat.mod_two_eq_zero_or_one n with h | h
        · rw [h]; rfl
        · rw [h]; rfl
      have hrest : Nat.ofDigits 2 ((bitsLE w (n / 2)).map Bool.toNat) = n / 2 % 2 ^ w := ih (n / 2)
      rw [bitsLE_succ, bitsValue, List.map_cons, Nat.ofDigits_cons, hrest, hlow, Nat.pow_succ',
        Nat.mod_mul]

theorem bitsValue_reverse_bitsBE (w n : ℕ) : bitsValue (bitsBE w n).reverse = n % 2 ^ w := by
  rw [bitsBE, List.reverse_reverse, bitsValue_bitsLE]

/-- Many fields of `w` bits. -/
theorem bitsLE_mul (w m n : ℕ) :
    bitsLE (w * m) n = (List.range m).flatMap fun j => bitsLE w (n / 2 ^ (w * j)) := by
  induction m with
  | zero => rfl
  | succ m ih =>
      rw [Nat.mul_succ, bitsLE_add, ih, List.range_succ, List.flatMap_append,
        List.flatMap_singleton]

theorem bitsBE_mul (w m n : ℕ) : bitsBE (w * m) n =
    (List.range m).flatMap fun j => bitsBE w (n / 2 ^ (w * (m - 1 - j))) := by
  induction m with
  | zero => rfl
  | succ m ih =>
      have hrest : ∀ j, m + 1 - 1 - (j + 1) = m - 1 - j := fun j => by omega
      rw [Nat.mul_succ, bitsBE_add, ih, List.range_succ_eq_map, List.flatMap_cons,
        List.flatMap_map]
      simp only [hrest]
      rfl

/-! ## Bytes -/

/-- The bits of a byte string, the lowest bit of each byte first. -/
def bytesBitsLE (bytes : List UInt8) : Bits := bytes.flatMap fun b => bitsLE 8 b.toNat

/-- The bits of a byte string, the highest bit of each byte first. -/
def bytesBitsBE (bytes : List UInt8) : Bits := bytes.flatMap fun b => bitsBE 8 b.toNat

theorem bytesBitsLE_cons (b : UInt8) (bytes : List UInt8) :
    bytesBitsLE (b :: bytes) = bitsLE 8 b.toNat ++ bytesBitsLE bytes := rfl

theorem bytesBitsBE_cons (b : UInt8) (bytes : List UInt8) :
    bytesBitsBE (b :: bytes) = bitsBE 8 b.toNat ++ bytesBitsBE bytes := rfl

theorem bytesBitsLE_append (a b : List UInt8) :
    bytesBitsLE (a ++ b) = bytesBitsLE a ++ bytesBitsLE b := List.flatMap_append

theorem bytesBitsBE_append (a b : List UInt8) :
    bytesBitsBE (a ++ b) = bytesBitsBE a ++ bytesBitsBE b := List.flatMap_append

@[simp] theorem length_bytesBitsLE (bytes : List UInt8) :
    (bytesBitsLE bytes).length = 8 * bytes.length := by
  induction bytes with
  | nil => rfl
  | cons b bytes ih =>
      rw [bytesBitsLE_cons, List.length_append, length_bitsLE, ih, List.length_cons]
      omega

@[simp] theorem length_bytesBitsBE (bytes : List UInt8) :
    (bytesBitsBE bytes).length = 8 * bytes.length := by
  induction bytes with
  | nil => rfl
  | cons b bytes ih =>
      rw [bytesBitsBE_cons, List.length_append, length_bitsBE, ih, List.length_cons]
      omega

theorem bytesBitsLE_zeros (n : ℕ) :
    bytesBitsLE (List.replicate n 0) = List.replicate (8 * n) false := by
  have hbyte : bitsLE 8 (0 : UInt8).toNat = List.replicate 8 false := rfl
  rw [bytesBitsLE, List.flatMap_replicate, hbyte, List.flatten_replicate_replicate, Nat.mul_comm]

theorem bytesBitsBE_zeros (n : ℕ) :
    bytesBitsBE (List.replicate n 0) = List.replicate (8 * n) false := by
  have hbyte : bitsBE 8 (0 : UInt8).toNat = List.replicate 8 false := rfl
  rw [bytesBitsBE, List.flatMap_replicate, hbyte, List.flatten_replicate_replicate, Nat.mul_comm]

theorem zipWith_xor_bytesBitsLE {a b : List UInt8} (h : a.length = b.length) :
    List.zipWith xor (bytesBitsLE a) (bytesBitsLE b) =
      bytesBitsLE (List.zipWith (fun x y => x ^^^ y) a b) := by
  induction a generalizing b with
  | nil => rfl
  | cons x a ih =>
      cases b with
      | nil => cases h
      | cons y b =>
          rw [bytesBitsLE_cons, bytesBitsLE_cons, List.zipWith_append (by simp),
            ih (Nat.succ.inj h), ← bitsLE_xor, ← UInt8.toNat_xor]
          rfl

/-- A piece of whole bytes. -/
theorem slice_bytesBitsLE (bytes : List UInt8) (off n : ℕ) :
    slice (bytesBitsLE bytes) (8 * off) (8 * n) = bytesBitsLE (slice bytes off n) := by
  have hsize : ∀ b : UInt8, (bitsLE 8 b.toNat).length = 8 := fun b => length_bitsLE 8 b.toNat
  unfold bytesBitsLE
  exact slice_flatMap_mul hsize bytes off n

theorem take_bytesBitsLE (bytes : List UInt8) (n : ℕ) :
    (bytesBitsLE bytes).take (8 * n) = bytesBitsLE (bytes.take n) := slice_bytesBitsLE bytes 0 n

theorem slice_bytesBitsBE (bytes : List UInt8) (off n : ℕ) :
    slice (bytesBitsBE bytes) (8 * off) (8 * n) = bytesBitsBE (slice bytes off n) := by
  have hsize : ∀ b : UInt8, (bitsBE 8 b.toNat).length = 8 := fun b => length_bitsBE 8 b.toNat
  unfold bytesBitsBE
  exact slice_flatMap_mul hsize bytes off n

end BhtBhte.Lib
