import BhtBhte.Lib.Bits
import Mathlib.Analysis.SpecialFunctions.Pow.NthRootLemmas
import Mathlib.Data.BitVec

/-!
# SHA-256

The hash of FIPS 180-4, on bit strings.  The constants are computed as the standard describes
them, from the roots of the first prime numbers.

## Main definitions

* `Sha256.pad` — the padding of section 5.1.1.
* `Sha256.schedule`, `Sha256.round`, `Sha256.compress` — the computation of section 6.2.2.
* `Sha256.hash` — the digest.
-/
namespace BhtBhte.Lib.Sha256

/-- A word of 32 bits. -/
abbrev Word := BitVec 32

/-! ## Functions and constants -/

/-- `Ch` of section 4.1.2: bits of `y` where `x` has a one, else of `z`. -/
def ch (x y z : Word) : Word := (x &&& y) ^^^ (~~~x &&& z)

/-- `Maj` of section 4.1.2: the bit that two of the three have. -/
def maj (x y z : Word) : Word := (x &&& y) ^^^ (x &&& z) ^^^ (y &&& z)

/-- `Σ₀` of section 4.1.2. -/
def bigSigma0 (x : Word) : Word := x.rotateRight 2 ^^^ x.rotateRight 13 ^^^ x.rotateRight 22

def bigSigma1 (x : Word) : Word := x.rotateRight 6 ^^^ x.rotateRight 11 ^^^ x.rotateRight 25

/-- `σ₀` of section 4.1.2. -/
def smallSigma0 (x : Word) : Word := x.rotateRight 7 ^^^ x.rotateRight 18 ^^^ (x >>> 3)

def smallSigma1 (x : Word) : Word := x.rotateRight 17 ^^^ x.rotateRight 19 ^^^ (x >>> 10)

/-- The first sixty-four prime numbers.  None of them is above `18 ^ 2`, so divisors below 18 are
enough. -/
def primes : List ℕ :=
  (List.range 312).filter fun n =>
    2 ≤ n && (List.range 18).all fun d => d < 2 || n ≤ d || n % d != 0

/-- The first 32 bits of the fractional part of the root. -/
def rootBits (degree n : ℕ) : Word :=
  BitVec.ofNat 32 (Nat.nthRoot degree (n * 2 ^ (32 * degree)))

/-- The constants of the rounds, from cube roots. -/
def K (t : ℕ) : Word := rootBits 3 (primes.getD t 0)

/-! ## Padding -/

/-- The number of zeros in the padding, as small as it can be. -/
def zeros (l : ℕ) : ℕ := ((447 - (l : ℤ)) % 512).toNat

/-- A one, zeros, and the length in 64 bits. -/
def pad (M : Bits) : Bits :=
  M ++ true :: (List.replicate (zeros M.length) false ++ bitsBE 64 M.length)

/-- The word with these bits, the highest one first. -/
def word (b : Bits) : Word := BitVec.ofNat 32 (bitsValue b.reverse)

/-- The word `t` of the block `i`. -/
def blockWord (P : Bits) (i t : ℕ) : Word := word (slice P (512 * i + 32 * t) 32)

/-! ## The computation -/

/-- The eight working variables, also the eight words of a hash value. -/
structure Vars where
  a : Word
  b : Word
  c : Word
  d : Word
  e : Word
  f : Word
  g : Word
  h : Word

/-- The initial hash value, from square roots. -/
def initial : Vars where
  a := rootBits 2 (primes.getD 0 0)
  b := rootBits 2 (primes.getD 1 0)
  c := rootBits 2 (primes.getD 2 0)
  d := rootBits 2 (primes.getD 3 0)
  e := rootBits 2 (primes.getD 4 0)
  f := rootBits 2 (primes.getD 5 0)
  g := rootBits 2 (primes.getD 6 0)
  h := rootBits 2 (primes.getD 7 0)

/-- The message schedule. -/
def schedule (M : ℕ → Word) (t : ℕ) : Word :=
  if t < 16 then M t
  else smallSigma1 (schedule M (t - 2)) + schedule M (t - 7) + smallSigma0 (schedule M (t - 15)) +
    schedule M (t - 16)
  termination_by t

def round (W : ℕ → Word) (v : Vars) (t : ℕ) : Vars :=
  let T1 := v.h + bigSigma1 v.e + ch v.e v.f v.g + K t + W t
  let T2 := bigSigma0 v.a + maj v.a v.b v.c
  { h := v.g, g := v.f, f := v.e, e := v.d + T1, d := v.c, c := v.b, b := v.a, a := T1 + T2 }

def compress (P : Bits) (H : Vars) (i : ℕ) : Vars :=
  let v := (List.range 64).foldl (round (schedule (blockWord P i))) H
  { a := v.a + H.a, b := v.b + H.b, c := v.c + H.c, d := v.d + H.d, e := v.e + H.e,
    f := v.f + H.f, g := v.g + H.g, h := v.h + H.h }

/-- The digest of a message of fewer than `2 ^ 64` bits. -/
def hash (M : Bits) : Bits :=
  let P := pad M
  let H := (List.range (P.length / 512)).foldl (compress P) initial
  [H.a, H.b, H.c, H.d, H.e, H.f, H.g, H.h].flatMap fun w : Word => bitsBE 32 w.toNat

/-! ## Words -/

/-- A word that stands behind the whole part of a root. -/
def IsRootBits (degree n : ℕ) (v : Word) : Prop :=
  ∃ q < 32, (q * 2 ^ 32 + v.toNat) ^ degree ≤ n * 2 ^ (32 * degree) ∧
    n * 2 ^ (32 * degree) < (q * 2 ^ 32 + v.toNat + 1) ^ degree

instance (degree n : ℕ) (v : Word) : Decidable (IsRootBits degree n v) :=
  inferInstanceAs (Decidable (∃ q < 32, _))

theorem IsRootBits.eq {degree n : ℕ} {v : Word} (h : IsRootBits degree n v) :
    v = rootBits degree n := by
  obtain ⟨q, -, hle, hlt⟩ := h
  refine BitVec.eq_of_toNat_eq ?_
  rw [rootBits, Nat.nthRoot_eq_of_le_of_lt hle hlt, BitVec.toNat_ofNat, Nat.mul_add_mod_self_right,
    Nat.mod_eq_of_lt v.isLt]

theorem schedule_of_lt {M : ℕ → Word} {t : ℕ} (h : t < 16) : schedule M t = M t := by
  rw [schedule, if_pos h]

theorem schedule_add (M : ℕ → Word) (t : ℕ) :
    schedule M (t + 16) = schedule M t + smallSigma0 (schedule M (t + 1)) + schedule M (t + 9) +
      smallSigma1 (schedule M (t + 14)) := by
  rw [schedule, if_neg (by omega)]
  show smallSigma1 (schedule M (t + 14)) + schedule M (t + 9) +
    smallSigma0 (schedule M (t + 1)) + schedule M t = _
  ac_rfl

theorem word_bitsBE (n : ℕ) : word (bitsBE 32 n) = BitVec.ofNat 32 n := by
  rw [word, bitsValue_reverse_bitsBE]
  exact BitVec.eq_of_toNat_eq (by rw [BitVec.toNat_ofNat, BitVec.toNat_ofNat, Nat.mod_mod])

end BhtBhte.Lib.Sha256
