import Mathlib.Algebra.Ring.Nat
import Mathlib.Tactic.Common

/-!
# Loops that count up to a word, inclusively

A loop `for h := start; h <= last; h++` over words visits the numbers from `start` to `last`.
When `last` is the largest word no number is above it, so the loop goes round without end.

## Main definitions

* `rounds` — the values of the counter, up to a number of rounds.
-/
namespace BhtBhte.Lib

/-- The counter of each round; `fuel` bounds the rounds. -/
def rounds : ℕ → UInt64 → UInt64 → List UInt64
  | 0, _, _ => []
  | fuel + 1, h, last => if h ≤ last then h :: rounds fuel (h + 1) last else []

variable {h last k : UInt64}

/-- Below the largest word counting is exact. -/
theorem toNat_succ (hlt : h.toNat < 2 ^ 64 - 1) : (h + 1).toNat = h.toNat + 1 := by
  have hone : (1 : UInt64).toNat = 1 := rfl
  rw [UInt64.toNat_add, hone, Nat.mod_eq_of_lt (by omega)]

/-- A range that ends before it starts is never entered. -/
theorem rounds_of_lt (hlt : last < h) (fuel : ℕ) : rounds fuel h last = [] := by
  cases fuel with
  | zero => rfl
  | succ fuel => rw [rounds, if_neg (UInt64.not_le.mpr hlt)]

theorem le_of_mem_rounds {fuel : ℕ} (hmem : k ∈ rounds fuel h last) : k ≤ last := by
  induction fuel generalizing h with
  | zero => cases hmem
  | succ fuel ih =>
      rw [rounds] at hmem
      split_ifs at hmem with hle
      · rcases List.mem_cons.mp hmem with rfl | hmem
        · exact hle
        · exact ih hmem
      · cases hmem

/-- The loop comes to every number of its range. -/
theorem mem_rounds {d : ℕ} (hk : h.toNat + d = k.toNat) (hle : k ≤ last) :
    k ∈ rounds (d + 1) h last := by
  have hle' := UInt64.le_iff_toNat_le.mp hle
  induction d generalizing h with
  | zero =>
      obtain rfl : h = k := UInt64.toNat_inj.mp hk
      rw [rounds, if_pos hle]
      exact List.mem_cons_self
  | succ d ih =>
      have hlt := k.toNat_lt
      have hentered : h ≤ last := UInt64.le_iff_toNat_le.mpr (by omega)
      rw [rounds, if_pos hentered]
      exact List.mem_cons_of_mem _ (ih (by rw [toNat_succ (by omega)]; omega))

/-- **A loop that starts at or below a number comes to it exactly when its range contains it.** -/
theorem exists_mem_rounds_iff (hle : h ≤ k) : (∃ fuel, k ∈ rounds fuel h last) ↔ k ≤ last := by
  constructor
  · rintro ⟨fuel, hmem⟩
    exact le_of_mem_rounds hmem
  · intro hlast
    have hle' := UInt64.le_iff_toNat_le.mp hle
    exact ⟨_, mem_rounds (Nat.add_sub_cancel' hle') hlast⟩

/-- Below the largest word the loop visits just its range. -/
theorem mem_rounds_iff {fuel : ℕ} (hlast : last.toNat < 2 ^ 64 - 1)
    (hfuel : last.toNat < h.toNat + fuel) : k ∈ rounds fuel h last ↔ h ≤ k ∧ k ≤ last := by
  rw [UInt64.le_iff_toNat_le, UInt64.le_iff_toNat_le]
  induction fuel generalizing h with
  | zero =>
      rw [rounds]
      refine ⟨fun hmem => absurd hmem List.not_mem_nil, fun hin => ?_⟩
      omega
  | succ fuel ih =>
      rw [rounds]
      by_cases hle : h ≤ last
      · have hle' := UInt64.le_iff_toNat_le.mp hle
        have hsucc := toNat_succ (Nat.lt_of_le_of_lt hle' hlast)
        have hrest := ih (h := h + 1) (by omega)
        rw [if_pos hle, List.mem_cons, hrest, hsucc, ← UInt64.toNat_inj]
        omega
      · have hlt := UInt64.lt_iff_toNat_lt.mp (UInt64.not_le.mp hle)
        rw [if_neg hle]
        refine ⟨fun hmem => absurd hmem List.not_mem_nil, fun hin => ?_⟩
        omega

end BhtBhte.Lib
