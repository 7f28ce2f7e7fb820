import Mathlib.Algebra.Ring.Nat
import Mathlib.Tactic.Common

/-!
# Differences of words

A difference of words wraps when the second is the larger, so a bound on it says how far the first
is above the second only where it does not wrap to something large.  `le_sub_iff` and
`le_sub_imp_iff` say where.
-/
namespace BhtBhte.Lib

variable {a b k : UInt64}

/-- A difference reaches a bound by being that far above, or by wrapping. -/
theorem le_sub_iff : k ≤ a - b ↔ b.toNat + k.toNat ≤ a.toNat ∨
    a.toNat < b.toNat ∧ b.toNat + k.toNat ≤ a.toNat + 2 ^ 64 := by
  have ha := a.toNat_lt
  have hb := b.toNat_lt
  rw [UInt64.le_iff_toNat_le, UInt64.toNat_sub]
  omega

/-- **Reaching a bound means being that far above exactly where the difference does not wrap, or
wraps below the bound.** -/
theorem le_sub_imp_iff : (k ≤ a - b → b.toNat + k.toNat ≤ a.toNat) ↔
    b ≤ a ∨ a.toNat + 2 ^ 64 < b.toNat + k.toNat := by
  have ha := a.toNat_lt
  rw [le_sub_iff, UInt64.le_iff_toNat_le]
  omega

/-- A difference exceeds a bound by being further above, or by wrapping. -/
theorem lt_sub_iff : k < a - b ↔ b.toNat + k.toNat < a.toNat ∨
    a.toNat < b.toNat ∧ b.toNat + k.toNat < a.toNat + 2 ^ 64 := by
  have ha := a.toNat_lt
  have hb := b.toNat_lt
  rw [UInt64.lt_iff_toNat_lt, UInt64.toNat_sub]
  omega

end BhtBhte.Lib
