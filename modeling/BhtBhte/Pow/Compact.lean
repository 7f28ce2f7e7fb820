import BhtBhte.Lib.Compact
import BhtBhte.Spv.Work
import Mathlib.Data.Nat.Bitwise

/-!
# Writing a compact target

`arith_uint256::GetCompact` keeps the leading bytes of a number.  The highest bit of the
mantissa is the sign, so a mantissa that would set it gives up its last byte.  Reading the
result back rounds the number down.
-/
namespace BhtBhte.Pow

open BhtBhte.Lib
open BhtBhte.Spv (setCompact)

/-- `arith_uint256::GetCompact` of a number that is not negative. -/
def getCompact (n : ℕ) : UInt32 :=
  let nSize := (bits n + 7) / 8
  let nCompact : UInt32 :=
    if nSize ≤ 3 then UInt32.ofNat (n <<< (8 * (3 - nSize)))
    else UInt32.ofNat (n >>> (8 * (nSize - 3)))
  if nCompact &&& 0x00800000 ≠ 0 then
    (nCompact >>> 8) ||| (UInt32.ofNat (nSize + 1) <<< 24)
  else nCompact ||| (UInt32.ofNat nSize <<< 24)

/-- A mantissa and a size as one word. -/
theorem toNat_pack {w : UInt32} {s : ℕ} (hw : w.toNat < 2 ^ 23) (hs : s < 256) :
    (w ||| (UInt32.ofNat s <<< 24)).toNat = s * 2 ^ 24 + w.toNat := by
  have hshift : (UInt32.ofNat s <<< 24).toNat = s <<< 24 := by
    have hsmall : s < 2 ^ 32 := by omega
    rw [UInt32.toNat_shiftLeft, UInt32.toNat_ofNat', Nat.mod_eq_of_lt hsmall,
      show (24 : UInt32).toNat % 32 = 24 from rfl, Nat.shiftLeft_eq]
    exact Nat.mod_eq_of_lt (by omega)
  rw [UInt32.toNat_or, hshift, Nat.or_comm,
    ← Nat.shiftLeft_add_eq_or_of_lt (by omega : w.toNat < 2 ^ 24), Nat.shiftLeft_eq]

/-- The size is read back. -/
theorem toNat_pack_size {w : UInt32} {s : ℕ} (hw : w.toNat < 2 ^ 23) (hs : s < 256) :
    ((w ||| (UInt32.ofNat s <<< 24)) >>> 24).toNat = s := by
  have hcount : (24 : UInt32).toNat % 32 = 24 := rfl
  rw [UInt32.toNat_shiftRight, toNat_pack hw hs, hcount, Nat.shiftRight_eq_div_pow]
  omega

/-- The mantissa is read back. -/
theorem toNat_pack_word {w : UInt32} {s : ℕ} (hw : w.toNat < 2 ^ 23) (hs : s < 256) :
    ((w ||| (UInt32.ofNat s <<< 24)) &&& 0x007fffff).toNat = w.toNat := by
  have hmask : (0x007fffff : UInt32).toNat = 2 ^ 23 - 1 := rfl
  rw [UInt32.toNat_and, toNat_pack hw hs, hmask, Nat.and_two_pow_sub_one_eq_mod]
  omega

/-- What `SetCompact` reads from a mantissa and a size. -/
theorem setCompact_pack {w : UInt32} {s : ℕ} (hw : w.toNat < 2 ^ 23) (hs : s < 256) :
    (setCompact (w ||| (UInt32.ofNat s <<< 24))).1 =
      if s ≤ 3 then w.toNat / 256 ^ (3 - s) else w.toNat * 256 ^ (s - 3) % 2 ^ 256 := by
  rw [setCompact, toNat_pack_size hw hs, toNat_pack_word hw hs]
  split
  · rw [Nat.shiftRight_eq_div_pow, Nat.pow_mul]
  · rw [Nat.shiftLeft_eq, Nat.pow_mul]

/-- The bit above a mantissa. -/
theorem toNat_and_sign (w : UInt32) :
    (w &&& 0x00800000).toNat = (w.toNat / 2 ^ 23 % 2) * 2 ^ 23 := by
  have hmask : (0x00800000 : UInt32).toNat = 2 ^ 23 := rfl
  rw [UInt32.toNat_and, hmask, Nat.and_two_pow, Nat.testBit_eq_decide_div_mod_eq]
  rcases Nat.mod_two_eq_zero_or_one (w.toNat / 2 ^ 23) with h | h <;> rw [h] <;> rfl

/-- The sign bit of a mantissa of three bytes. -/
theorem sign_iff {w : UInt32} (hw : w.toNat < 2 ^ 24) :
    w &&& 0x00800000 ≠ 0 ↔ 2 ^ 23 ≤ w.toNat := by
  rw [ne_eq, ← UInt32.toNat_inj, toNat_and_sign]
  simp only [UInt32.toNat_zero]
  omega

/-- A mantissa that gives up its last byte. -/
theorem toNat_shiftRight_byte (w : UInt32) : (w >>> 8).toNat = w.toNat / 256 := by
  have hcount : (8 : UInt32).toNat % 32 = 8 := rfl
  rw [UInt32.toNat_shiftRight, hcount, Nat.shiftRight_eq_div_pow]

/-- The digits that a number of a given length loses. -/
theorem trunc_of_length {n k : ℕ} (h : bits n / 8 - 2 = k) : trunc n = n / 256 ^ k * 256 ^ k := by
  rw [trunc, unit, h]

theorem trunc_of_short {n : ℕ} (h : bits n < 24) : trunc n = n := by
  rw [trunc_of_length (show bits n / 8 - 2 = 0 by omega), pow_zero, Nat.div_one, Nat.mul_one]

/-- A mantissa that would set the sign gives up its last byte. -/
theorem setCompact_split {w : UInt32} {s : ℕ} (hw : w.toNat < 2 ^ 24) (hs : s < 255) :
    (setCompact (if w &&& 0x00800000 ≠ 0 then (w >>> 8) ||| (UInt32.ofNat (s + 1) <<< 24)
      else w ||| (UInt32.ofNat s <<< 24))).1 =
      if 2 ^ 23 ≤ w.toNat then
        if s + 1 ≤ 3 then w.toNat / 256 / 256 ^ (3 - (s + 1))
        else w.toNat / 256 * 256 ^ (s + 1 - 3) % 2 ^ 256
      else if s ≤ 3 then w.toNat / 256 ^ (3 - s) else w.toNat * 256 ^ (s - 3) % 2 ^ 256 := by
  have hshift := toNat_shiftRight_byte w
  by_cases hsign : 2 ^ 23 ≤ w.toNat
  · rw [if_pos ((sign_iff hw).mpr hsign), if_pos hsign,
      setCompact_pack (by rw [hshift]; omega) (by omega), hshift]
  · rw [if_neg fun h => hsign ((sign_iff hw).mp h), if_neg hsign,
      setCompact_pack (not_le.mp hsign) (by omega)]

theorem pow_256 (k : ℕ) : (256 : ℕ) ^ k = 2 ^ (8 * k) := by
  rw [pow_mul]
  rfl

/-- The mantissa of a number of at most three bytes. -/
theorem toNat_shifted_up {n s : ℕ} (hlength : n < 2 ^ (8 * s)) (hs : s ≤ 3) :
    (UInt32.ofNat (n <<< (8 * (3 - s)))).toNat = n * 256 ^ (3 - s) ∧
      n * 256 ^ (3 - s) < 2 ^ 24 := by
  have hword : n * 256 ^ (3 - s) < 2 ^ 24 := calc
    n * 256 ^ (3 - s) < 2 ^ (8 * s) * 256 ^ (3 - s) :=
      Nat.mul_lt_mul_of_pos_right hlength (Nat.pow_pos (by decide))
    _ = 2 ^ (8 * s + 8 * (3 - s)) := by rw [pow_256, pow_add]
    _ = 2 ^ 24 := by rw [show 8 * s + 8 * (3 - s) = 24 by omega]
  refine ⟨?_, hword⟩
  rw [Nat.shiftLeft_eq, pow_256, UInt32.toNat_ofNat', ← pow_256]
  exact Nat.mod_eq_of_lt (hword.trans (by decide))

/-- The mantissa of a longer number. -/
theorem toNat_shifted_down {n s : ℕ} (hlength : n < 2 ^ (8 * s)) (hs : ¬ s ≤ 3) :
    (UInt32.ofNat (n >>> (8 * (s - 3)))).toNat = n / 256 ^ (s - 3) ∧
      n / 256 ^ (s - 3) < 2 ^ 24 := by
  have hword : n / 256 ^ (s - 3) < 2 ^ 24 := by
    rw [Nat.div_lt_iff_lt_mul (Nat.pow_pos (by decide)), pow_256, ← pow_add,
      show 24 + 8 * (s - 3) = 8 * s by omega]
    exact hlength
  refine ⟨?_, hword⟩
  rw [Nat.shiftRight_eq_div_pow, ← pow_256, UInt32.toNat_ofNat']
  exact Nat.mod_eq_of_lt (hword.trans (by decide))

/-- **What is read back is the number rounded down.** -/
theorem setCompact_getCompact {n : ℕ} (hn : n < 2 ^ 256) :
    (setCompact (getCompact n)).1 = trunc n := by
  have hbits : bits n ≤ 256 := bits_le_iff.mpr hn
  unfold getCompact
  generalize hs : (bits n + 7) / 8 = s
  have hlength : n < 2 ^ (8 * s) := bits_le_iff.mp (by omega)
  by_cases hsmall : s ≤ 3
  · obtain ⟨htoNat, hword⟩ := toNat_shifted_up hlength hsmall
    dsimp only
    rw [if_pos hsmall, setCompact_split (by rw [htoNat]; exact hword) (by omega), htoNat,
      if_pos hsmall]
    rcases Nat.lt_or_ge s 3 with hlt | hge
    · have hback : n * 256 ^ (3 - s) / 256 / 256 ^ (3 - (s + 1)) = n := by
        rw [Nat.div_div_eq_div_mul, ← pow_succ', show 3 - (s + 1) + 1 = 3 - s by omega]
        exact Nat.mul_div_cancel _ (Nat.pow_pos (by decide))
      rw [if_pos (show s + 1 ≤ 3 by omega), hback, Nat.mul_div_cancel _ (Nat.pow_pos (by decide)),
        ite_self, trunc_of_short (by omega)]
    · obtain rfl : s = 3 := by omega
      simp only [Nat.sub_self, pow_zero, Nat.mul_one, Nat.div_one, Nat.reduceAdd, Nat.reduceSub,
        Nat.reduceLeDiff, if_false, pow_one]
      split
      · next hsign =>
        have hfull := lt_bits_iff.mpr hsign
        rw [trunc_of_length (show bits n / 8 - 2 = 1 by omega), pow_one]
        exact Nat.mod_eq_of_lt ((Nat.div_mul_le_self n 256).trans_lt hn)
      · next hsign =>
        have hfree := bits_le_iff.mpr (not_le.mp hsign)
        exact (trunc_of_short (by omega)).symm
  · obtain ⟨htoNat, hword⟩ := toNat_shifted_down hlength hsmall
    dsimp only
    rw [if_neg hsmall, setCompact_split (by rw [htoNat]; exact hword) (by omega), htoNat,
      if_neg (show ¬ s + 1 ≤ 3 by omega), if_neg hsmall]
    have hstep : n / 256 ^ (s - 3) / 256 = n / 256 ^ (s - 2) := by
      rw [Nat.div_div_eq_div_mul, ← pow_succ, show s - 3 + 1 = s - 2 by omega]
    split
    · next hsign =>
      rw [Nat.le_div_iff_mul_le (Nat.pow_pos (by decide)), pow_256, ← pow_add] at hsign
      have hfull := lt_bits_iff.mpr hsign
      rw [hstep, show s + 1 - 3 = s - 2 by omega,
        ← trunc_of_length (show bits n / 8 - 2 = s - 2 by omega)]
      exact Nat.mod_eq_of_lt ((trunc_le n).trans_lt hn)
    · next hsign =>
      rw [not_le, Nat.div_lt_iff_lt_mul (Nat.pow_pos (by decide)), pow_256, ← pow_add] at hsign
      have hfree := bits_le_iff.mpr hsign
      rw [← trunc_of_length (show bits n / 8 - 2 = s - 3 by omega)]
      exact Nat.mod_eq_of_lt ((trunc_le n).trans_lt hn)

end BhtBhte.Pow
