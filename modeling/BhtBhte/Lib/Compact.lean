import Mathlib.Algebra.Order.Ring.Nat
import Mathlib.Data.Nat.Log
import Mathlib.Tactic.Common
import Mathlib.Tactic.Ring

/-!
# Numbers with a short mantissa

A format that keeps the leading two or three bytes of a number, and no more than 23 bits of
them, rounds down to a multiple of a unit: a power of 256 that depends on the length of the
number.  Rounding down is monotone, also where the unit changes, so it can be read as a floor:
`trunc x ≤ y` says that `x` lies below the number that follows `y` in the format.

## Main definitions

* `bits n` — the length of a number.
* `unit n`, `trunc n` — the unit and the number rounded down to a multiple of it.
-/
namespace BhtBhte.Lib

/-- The position of the highest bit, counted from one. -/
def bits (n : ℕ) : ℕ := if n = 0 then 0 else n.log2 + 1

/-- The weight of the last digit that is kept. -/
def unit (n : ℕ) : ℕ := 256 ^ (bits n / 8 - 2)

/-- The number with the digits below its unit set to zero. -/
def trunc (n : ℕ) : ℕ := n / unit n * unit n

variable {k n x y : ℕ}

theorem lt_bits_iff : k < bits n ↔ 2 ^ k ≤ n := by
  unfold bits
  split
  · next hzero =>
    subst hzero
    simp
  · next hne => rw [Nat.lt_succ_iff, Nat.le_log2 hne]

theorem bits_le_iff : bits n ≤ k ↔ n < 2 ^ k := by
  rw [← not_lt, lt_bits_iff, not_le]

theorem bits_mono (h : x ≤ y) : bits x ≤ bits y :=
  bits_le_iff.mpr (h.trans_lt (bits_le_iff.mp le_rfl))

theorem unit_pos (n : ℕ) : 0 < unit n := Nat.pow_pos (by decide)

theorem unit_eq (n : ℕ) : unit n = 2 ^ (8 * (bits n / 8 - 2)) := by
  rw [unit, pow_mul]
  rfl

theorem unit_dvd (h : x ≤ y) : unit x ∣ unit y :=
  pow_dvd_pow _ (Nat.sub_le_sub_right (Nat.div_le_div_right (bits_mono h)) 2)

theorem unit_dvd_trunc (n : ℕ) : unit n ∣ trunc n := Nat.dvd_mul_left _ _

theorem trunc_le (n : ℕ) : trunc n ≤ n := Nat.div_mul_le_self _ _

/-- A multiple of the unit is not rounded past. -/
theorem le_trunc_of_dvd (hdvd : unit n ∣ k) (h : k ≤ n) : k ≤ trunc n := by
  obtain ⟨m, rfl⟩ := hdvd
  rw [trunc, Nat.mul_comm]
  exact Nat.mul_le_mul_right _ ((Nat.le_div_iff_mul_le (unit_pos n)).mpr (Nat.mul_comm m _ ▸ h))

/-- A multiple of the unit past the number is a whole unit past the rounded one. -/
theorem trunc_add_unit_le (hdvd : unit n ∣ k) (h : n < k) : trunc n + unit n ≤ k := by
  obtain ⟨m, rfl⟩ := hdvd
  have hm : n / unit n < m := by
    rw [Nat.div_lt_iff_lt_mul (unit_pos n), Nat.mul_comm]
    exact h
  calc trunc n + unit n = (n / unit n + 1) * unit n := by rw [trunc, Nat.succ_mul]
    _ ≤ m * unit n := Nat.mul_le_mul_right _ hm
    _ = unit n * m := Nat.mul_comm _ _

theorem lt_trunc_add_unit (n : ℕ) : n < trunc n + unit n := by
  have h := Nat.div_add_mod n (unit n)
  have hmod := Nat.mod_lt n (unit_pos n)
  rw [trunc, Nat.mul_comm]
  omega

/-- Where the unit grows, the larger number starts at a multiple of its own unit. -/
theorem trunc_mono (h : x ≤ y) : trunc x ≤ trunc y := by
  rcases Nat.lt_or_ge (bits x / 8 - 2) (bits y / 8 - 2) with hlt | hge
  · have hstart : 2 ^ (8 * (bits y / 8 - 2) + 15) ≤ y := lt_bits_iff.mp (by omega)
    have hbelow : x < 2 ^ (8 * (bits y / 8 - 2) + 15) := bits_le_iff.mp (by omega)
    have hdvd : unit y ∣ 2 ^ (8 * (bits y / 8 - 2) + 15) := by
      rw [unit_eq]
      exact pow_dvd_pow _ (Nat.le_add_right _ _)
    exact (trunc_le x).trans (hbelow.le.trans (le_trunc_of_dvd hdvd hstart))
  · have hunit : unit x = unit y := by
      have hle := Nat.div_le_div_right (c := 8) (bits_mono h)
      rw [unit, unit, show bits x / 8 - 2 = bits y / 8 - 2 by omega]
    exact le_trunc_of_dvd (hunit ▸ unit_dvd_trunc x) ((trunc_le x).trans h)

/-- A number that its unit divides is kept. -/
theorem trunc_eq_self (h : unit n ∣ n) : trunc n = n :=
  Nat.div_mul_cancel h

theorem trunc_trunc (n : ℕ) : trunc (trunc n) = trunc n :=
  trunc_eq_self ((unit_dvd (trunc_le n)).trans (unit_dvd_trunc n))

theorem trunc_le_trunc_iff : trunc x ≤ trunc y ↔ trunc x ≤ y :=
  ⟨fun h => h.trans (trunc_le y), fun h => trunc_trunc x ▸ trunc_mono h⟩

/-- Rounding down keeps what numbers of the format can tell. -/
theorem trunc_le_trunc_iff_forall :
    trunc x ≤ trunc y ↔ ∀ c, trunc c = c → c ≤ x → c ≤ y := by
  constructor
  · intro h c hc hle
    calc c = trunc c := hc.symm
      _ ≤ trunc x := trunc_mono hle
      _ ≤ y := trunc_le_trunc_iff.mp h
  · exact fun h => trunc_le_trunc_iff.mpr (h _ (trunc_trunc x) (trunc_le x))

/-- The number that follows in the format is in the format. -/
theorem trunc_next (n : ℕ) : trunc (trunc n + unit n) = trunc n + unit n := by
  set e := bits n / 8 - 2 with he
  have hunit : unit n = 2 ^ (8 * e) := unit_eq n
  have hlt : n < 2 ^ (8 * e + 23) := bits_le_iff.mp (by omega)
  have hle : trunc n + unit n ≤ 2 ^ (8 * e + 23) := by
    refine trunc_add_unit_le ?_ hlt
    rw [hunit]
    exact pow_dvd_pow _ (Nat.le_add_right _ _)
  refine trunc_eq_self ?_
  rcases Nat.lt_or_ge (trunc n + unit n) (2 ^ (8 * e + 23)) with hshort | hfull
  · have hbits := bits_le_iff.mpr hshort
    have hdvd : unit (trunc n + unit n) ∣ unit n := by
      generalize trunc n + unit n = next at hbits
      rw [unit_eq, unit_eq]
      exact pow_dvd_pow _ (by omega)
    exact hdvd.trans (Nat.dvd_add (unit_dvd_trunc n) (dvd_refl _))
  · -- the mantissa overflows into a longer number, whose unit still divides it
    have heq : trunc n + unit n = 2 ^ (8 * e + 23) := Nat.le_antisymm hle hfull
    have hbits : bits (2 ^ (8 * e + 23)) ≤ 8 * e + 24 :=
      bits_le_iff.mpr (Nat.pow_lt_pow_right (by decide) (by omega))
    rw [heq, unit_eq]
    exact pow_dvd_pow _ (by omega)

/-- A number rounds down to at most `y` when it is below what follows `y` in the format. -/
theorem trunc_le_iff : trunc x ≤ y ↔ x < trunc y + unit y := by
  constructor
  · intro h
    by_contra hge
    have hnext := trunc_mono (not_lt.mp hge)
    rw [trunc_next] at hnext
    exact absurd (lt_trunc_add_unit y) (not_lt.mpr (hnext.trans h))
  · intro h
    by_contra hlt
    have hyx : y ≤ x := (not_le.mp hlt).le.trans (trunc_le x)
    have hnext := trunc_add_unit_le ((unit_dvd hyx).trans (unit_dvd_trunc x)) (not_le.mp hlt)
    exact absurd (hnext.trans (trunc_le x)) (not_le.mpr h)

end BhtBhte.Lib
