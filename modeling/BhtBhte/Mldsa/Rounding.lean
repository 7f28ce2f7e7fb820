import BhtBhte.Mldsa.Scheme
import Mathlib.Algebra.Order.Group.Unbundled.Int
import Mathlib.Data.Int.ModEq
import Mathlib.Tactic.Linarith

/-!
# Reduction, rounding and hints

The remainders of the language are truncated; behind the corrections that the code makes they are
the ones of the integers.  For the two values of `gamma2` a coefficient is `2 * gamma2` times its
high bits plus its low bits, and one bit tells the high bits of a sum from those of a summand.
`rounding_and_hint` states the two roundings and the hint for the whole circle modulo `Q`.
-/
namespace BhtBhte.Mldsa

/-- A truncated remainder with the correction for negative ones. -/
theorem tmod_corrected (x : ℤ) {m : ℤ} (hm : 0 < m) :
    (if x.tmod m < 0 then x.tmod m + m else x.tmod m) = x % m := by
  have hnonneg := Int.emod_nonneg x (ne_of_gt hm)
  have hlt := Int.emod_lt_of_pos x hm
  rw [Int.tmod_eq_emod]
  split_ifs <;> omega

theorem modQ_eq (a : ℤ) : modQ a = a % Q := tmod_corrected a (by decide)

theorem modQ_bounds (a : ℤ) : 0 ≤ modQ a ∧ modQ a < Q := by
  rw [modQ_eq]
  simp only [Q]
  omega

theorem centered_modQ_bounds (a : ℤ) : -(Q / 2) ≤ centered (modQ a) ∧ centered (modQ a) ≤ Q / 2 := by
  have h := modQ_bounds a
  rw [centered]
  simp only [Q] at *
  split_ifs <;> omega

/-- The centred representative is the one of small absolute value. -/
theorem centered_modQ_eq {a c : ℤ} (h : (a - c) % Q = 0) (hlow : -(Q / 2) ≤ c) (hhigh : c ≤ Q / 2) :
    centered (modQ a) = c := by
  rw [centered, modQ_eq]
  simp only [Q] at *
  split_ifs <;> omega

theorem power2Round_spec (r : ℤ) :
    (power2Round r).1 * 2 ^ 13 + (power2Round r).2 = modQ r ∧
      0 ≤ (power2Round r).1 ∧ (power2Round r).1 < 2 ^ 10 ∧
      -2 ^ 12 < (power2Round r).2 ∧ (power2Round r).2 ≤ 2 ^ 12 := by
  have h := modQ_bounds r
  rw [power2Round]
  generalize modQ r = s at *
  have hand : ((s.toNat &&& (1 <<< D - 1) : ℕ) : ℤ) = s % 2 ^ 13 := by
    rw [show (1 <<< D - 1 : ℕ) = 2 ^ 13 - 1 from rfl, Nat.and_two_pow_sub_one_eq_mod]
    omega
  dsimp only
  rw [hand, Int.shiftRight_eq_div_pow, show (1 <<< (D - 1) : ℤ) = 2 ^ 12 from rfl,
    show (1 <<< D : ℤ) = 2 ^ 13 from rfl]
  simp only [Q, D] at *
  split_ifs <;> omega

/-- The two values of `gamma2`. -/
def IsGamma2 (gamma2 : ℤ) : Prop := gamma2 = 95232 ∨ gamma2 = 261888

theorem isGamma2_info (m : ParameterSet) : IsGamma2 m.info.gamma2 := by
  cases m
  · exact .inl (by decide)
  · exact .inr (by decide)
  · exact .inr (by decide)

/-- A coefficient is a multiple of `2 * gamma2` and a centred remainder; at the top of the range
the high bits wrap to zero. -/
theorem decompose_cases {gamma2 : ℤ} (h : IsGamma2 gamma2) (r : ℤ) :
    ∃ u v, modQ r = u * (2 * gamma2) + v ∧ -gamma2 < v ∧ v ≤ gamma2 ∧ 0 ≤ u ∧
      u * (2 * gamma2) ≤ Q - 1 ∧
      decompose r gamma2 = if u * (2 * gamma2) = Q - 1 then (0, v - 1) else (u, v) := by
  have hbounds := modQ_bounds r
  rw [decompose]
  generalize modQ r = s at *
  have hmod : ∀ alpha : ℤ, s.tmod alpha = s % alpha := fun alpha =>
    Int.tmod_eq_emod_of_nonneg hbounds.1
  rw [hmod, Int.mul_tdiv_cancel_left _ (by decide)]
  obtain ⟨v, hv⟩ : ∃ v, v = if gamma2 < s % (2 * gamma2) then
      s % (2 * gamma2) - 2 * gamma2 else s % (2 * gamma2) := ⟨_, rfl⟩
  rw [← hv]
  obtain ⟨u, hu⟩ : ∃ u, s = u * (2 * gamma2) + v := by
    refine ⟨if gamma2 < s % (2 * gamma2) then s / (2 * gamma2) + 1
      else s / (2 * gamma2), ?_⟩
    have hdiv := Int.mul_ediv_add_emod s (2 * gamma2)
    rw [hv]
    split_ifs
    · linarith
    · linarith
  have hsub : s - v = u * (2 * gamma2) := by omega
  have hquot : 0 ≤ u → (s - v).tdiv (2 * gamma2) = u := by
    intro hpos
    rw [hsub]
    refine Int.mul_tdiv_cancel _ ?_
    rcases h with rfl | rfl <;> decide
  have hrange : -gamma2 < v ∧ v ≤ gamma2 ∧ 0 ≤ u ∧ u * (2 * gamma2) ≤ Q - 1 := by
    rcases h with rfl | rfl
    · norm_num at hv hu
      simp only [Q] at *
      split_ifs at hv <;> omega
    · norm_num at hv hu
      simp only [Q] at *
      split_ifs at hv <;> omega
  refine ⟨u, v, hu, hrange.1, hrange.2.1, hrange.2.2.1, hrange.2.2.2, ?_⟩
  rw [hquot hrange.2.2.1, hsub]

/-- The difference of two residues is one of the three multiples next to zero. -/
theorem modQ_sub_cases {r c : ℤ} (h : -(Q / 2) ≤ c ∧ c ≤ Q / 2) :
    modQ (r - c) = modQ r - c ∨ modQ (r - c) = modQ r - c + Q ∨ modQ (r - c) = modQ r - c - Q := by
  rw [modQ_eq, modQ_eq]
  simp only [Q] at *
  omega

/-- **Hints.** One bit recovers the high bits from before a change of at most `gamma2`. -/
theorem useHint_eq {gamma2 : ℤ} (h : IsGamma2 gamma2) {r c : ℤ} (hc : -gamma2 ≤ c ∧ c ≤ gamma2) :
    useHint (if highBits r gamma2 ≠ highBits (r - c) gamma2 then 1 else 0) r gamma2 =
      highBits (r - c) gamma2 := by
  have hdiff : modQ (r - c) = modQ r - c ∨ modQ (r - c) = modQ r - c + Q ∨
      modQ (r - c) = modQ r - c - Q := by
    apply modQ_sub_cases
    rcases h with rfl | rfl <;> simp only [Q] <;> omega
  obtain ⟨u, v, hr, hv, hv', hu, hu', heq⟩ := decompose_cases h r
  obtain ⟨x, y, hs, hy, hy', hx, hx', heq'⟩ := decompose_cases h (r - c)
  rw [hr, hs] at hdiff
  by_cases hsame : highBits r gamma2 = highBits (r - c) gamma2
  · rw [if_neg (not_not_intro hsame), useHint, if_pos rfl]
    exact hsame
  · rw [if_pos hsame, useHint, if_neg one_ne_zero]
    rw [highBits, highBits, heq, heq'] at hsame
    rw [highBits, heq, heq']
    rcases h with rfl | rfl
    · dsimp only
      rw [show (Q - 1).tdiv (2 * 95232) = 44 by decide, tmod_corrected _ (by decide)]
      simp only [Q] at *
      split_ifs at * <;> omega
    · dsimp only
      rw [show (Q - 1).tdiv (2 * 261888) = 16 by decide, tmod_corrected _ (by decide)]
      simp only [Q] at *
      split_ifs at * <;> omega

/-- High bits stay when the change keeps the low bits inside `gamma2`. -/
theorem highBits_sub {gamma2 beta : ℤ} (h : IsGamma2 gamma2) {r c : ℤ} (hbeta : beta < gamma2)
    (hc : -beta ≤ c ∧ c ≤ beta)
    (hlow : -(gamma2 - beta) < lowBits (r - c) gamma2 ∧ lowBits (r - c) gamma2 < gamma2 - beta) :
    highBits (r - c) gamma2 = highBits r gamma2 := by
  have hdiff : modQ (r - c) = modQ r - c ∨ modQ (r - c) = modQ r - c + Q ∨
      modQ (r - c) = modQ r - c - Q := by
    apply modQ_sub_cases
    rcases h with rfl | rfl <;> simp only [Q] <;> omega
  obtain ⟨u, v, hr, hv, hv', hu, hu', heq⟩ := decompose_cases h r
  obtain ⟨x, y, hs, hy, hy', hx, hx', heq'⟩ := decompose_cases h (r - c)
  rw [hr, hs] at hdiff
  rw [lowBits, heq'] at hlow
  rw [highBits, highBits, heq, heq']
  rcases h with rfl | rfl
  · simp only [Q] at *
    split_ifs at * <;> omega
  · simp only [Q] at *
    split_ifs at * <;> omega

/-! ## The three together -/

/-- `decompose` cuts a coefficient into high bits below their number and small low bits. -/
structure Decomposes (r gamma2 : ℤ) : Prop where
  congruent : r ≡ (decompose r gamma2).1 * (2 * gamma2) + (decompose r gamma2).2 [ZMOD Q]
  high_nonneg : 0 ≤ highBits r gamma2
  high_lt : highBits r gamma2 < (Q - 1) / (2 * gamma2)
  low : |lowBits r gamma2| ≤ gamma2

/-- `power2Round` cuts a coefficient into ten high bits and a centred remainder. -/
structure RoundsToPowerOfTwo (r : ℤ) : Prop where
  eq : r % Q = (power2Round r).1 * 2 ^ 13 + (power2Round r).2
  high_nonneg : 0 ≤ (power2Round r).1
  high_lt : (power2Round r).1 < 2 ^ 10
  low_lt : -2 ^ 12 < (power2Round r).2
  low_le : (power2Round r).2 ≤ 2 ^ 12

theorem decomposes {gamma2 : ℤ} (h : IsGamma2 gamma2) (r : ℤ) : Decomposes r gamma2 := by
  obtain ⟨u, v, hr, hv, hv', hu, hu', heq⟩ := decompose_cases h r
  have hmod : modQ r ≡ r [ZMOD Q] := by
    rw [modQ_eq]
    exact Int.mod_modEq r Q
  by_cases htop : u * (2 * gamma2) = Q - 1
  · -- the top of the range is one below zero
    rw [if_pos htop] at heq
    refine ⟨?_, ?_, ?_, ?_⟩
    · have hone : modQ r = 0 * (2 * gamma2) + (v - 1) + Q := by rw [hr, htop]; omega
      rw [heq]
      refine hmod.symm.trans ?_
      rw [hone]
      exact Int.add_modEq_right
    · rw [highBits, heq]
    · rw [highBits, heq]
      dsimp only
      rcases h with rfl | rfl <;> decide
    · rw [lowBits, heq, abs_le]
      omega
  · rw [if_neg htop] at heq
    refine ⟨?_, ?_, ?_, ?_⟩
    · rw [heq, ← hr]
      exact hmod.symm
    · rw [highBits, heq]
      exact hu
    · rw [highBits, heq]
      rcases h with rfl | rfl
      · simp only [Q] at *
        omega
      · simp only [Q] at *
        omega
    · rw [lowBits, heq, abs_le]
      exact ⟨hv.le, hv'⟩

theorem roundsToPowerOfTwo (r : ℤ) : RoundsToPowerOfTwo r := by
  obtain ⟨heq, hnonneg, hlt, hlow, hhigh⟩ := power2Round_spec r
  exact ⟨by rw [heq, modQ_eq], hnonneg, hlt, hlow, hhigh⟩

/-- **Rounding and hints.**  For both values of `gamma2` and every coefficient the roundings cut
as they should, and the hint for a change of at most `gamma2` gives the high bits behind it. -/
theorem rounding_and_hint {gamma2 : ℤ} (h : IsGamma2 gamma2) (r : ℤ) :
    Decomposes r gamma2 ∧ RoundsToPowerOfTwo r ∧ ∀ z, |z| ≤ gamma2 →
      useHint (if highBits r gamma2 ≠ highBits (r + z) gamma2 then 1 else 0) r gamma2 =
        highBits (r + z) gamma2 := by
  refine ⟨decomposes h r, roundsToPowerOfTwo r, fun z hz => ?_⟩
  obtain ⟨hlow, hhigh⟩ := abs_le.mp hz
  have hhint := useHint_eq h (r := r) (c := -z) ⟨by omega, by omega⟩
  rw [sub_neg_eq_add] at hhint
  exact hhint

/-- At the top of the range, with a change that goes round the circle. -/
theorem rounding_and_hint_top : Decomposes (Q - 1) 95232 ∧ RoundsToPowerOfTwo (Q - 1) ∧
    useHint (if highBits (Q - 1) 95232 ≠ highBits (Q - 1 + 95232) 95232 then 1 else 0)
      (Q - 1) 95232 = highBits (Q - 1 + 95232) 95232 := by
  obtain ⟨hdecompose, hround, hhint⟩ := rounding_and_hint (.inl rfl) (Q - 1)
  exact ⟨hdecompose, hround, hhint 95232 (by decide)⟩

end BhtBhte.Mldsa
