import BhtBhte.Pow.Difficulty

/-!
# The direction of the difficulty feedback

`LWMA::Calculate` divides by the average solve time where `CalculateNextWorkRequired` multiplies by
it, so the feedback is turned around: a slower window lowers the target.  The target stays where it
is only while the clamp, the truncated average, the limit or the compact form hide the change.
`calculate_iff` says where.
-/
namespace BhtBhte.Pow

open BhtBhte.Lib
open BhtBhte.Spv (setCompact uintToArith256)

/-- One solve time is longer, by `d` seconds, and all else is equal.  Read from right to left,
one block is sped up. -/
structure Slower (chain chain' : List BlockIndex) : Prop where
  bits : chain'.map BlockIndex.nBits = chain.map BlockIndex.nBits
  times : ∃ k d : ℕ, solveTimes chain' = (solveTimes chain).modify k (· + (d : ℤ))

theorem Slower.length {chain chain' : List BlockIndex} (h : Slower chain chain') :
    chain'.length = chain.length := by
  have hbits := congrArg List.length h.bits
  rwa [List.length_map, List.length_map] at hbits

theorem clampTimespan_mono {s t : ℤ} (h : s ≤ t) : clampTimespan s ≤ clampTimespan t :=
  min_le_min_right _ (max_le_max_right _ h)

/-- A longer time in a window with positive weights raises the sum, or leaves it. -/
theorem weightedSum_modify (d : ℕ) : ∀ (times : List ℤ) (weight : ℤ) (k : ℕ),
    (times.length : ℤ) ≤ weight →
      weightedSum weight times ≤ weightedSum weight (times.modify k (· + (d : ℤ))) := by
  intro times
  induction times with
  | nil =>
      intro weight k _
      simp
  | cons timespan times ih =>
      intro weight k hle
      rw [List.length_cons] at hle
      push_cast at hle
      cases k with
      | zero =>
          rw [List.modify_zero_cons, weightedSum, weightedSum]
          have hclamp : clampTimespan timespan ≤ clampTimespan (timespan + d) :=
            clampTimespan_mono (by omega)
          exact add_le_add_left (mul_le_mul_of_nonneg_right hclamp (by omega)) _
      | succ k =>
          rw [List.modify_succ_cons, weightedSum, weightedSum]
          exact add_le_add_right (ih (weight - 1) k (by omega)) _

theorem averageSolveTime_le {chain chain' : List BlockIndex} (h : Slower chain chain') :
    averageSolveTime chain ≤ averageSolveTime chain' := by
  obtain ⟨k, d, htimes⟩ := h.times
  have hsum : weightedSum windowSize ((solveTimes chain).take (windowSize - 1)) ≤
      weightedSum windowSize ((solveTimes chain').take (windowSize - 1)) := by
    have htake : (solveTimes chain').take (windowSize - 1) =
        ((solveTimes chain).take (windowSize - 1)).modify k (· + (d : ℤ)) := by
      rw [htimes, List.take_modify]
    rw [htake]
    refine weightedSum_modify d _ _ k ?_
    rw [List.length_take]
    unfold windowSize
    omega
  unfold averageSolveTime
  exact Int.toNat_le_toNat (Int.ediv_le_ediv (by decide) hsum)

section Feedback
variable (params : ConsensusParams) {pindexLast pindexLast' : BlockIndex}
  {ancestors ancestors' : List BlockIndex}

/-- **The slower chain never gets the larger target.** -/
theorem calculate_antitone (h : Slower (pindexLast :: ancestors) (pindexLast' :: ancestors')) :
    (setCompact (calculate params (pindexLast' :: ancestors'))).1 ≤
      (setCompact (calculate params (pindexLast :: ancestors))).1 := by
  have hlength : ancestors'.length = ancestors.length := Nat.succ.inj h.length
  have hbits : pindexLast'.nBits = pindexLast.nBits := (List.cons.inj h.bits).1
  rcases Nat.lt_or_ge ancestors.length windowSize with hshort | hwindow
  · rw [calculate_early params hshort, calculate_early params (hlength ▸ hshort)]
  · have hpos := (@averageSolveTime_bounds (pindexLast :: ancestors)
      (Nat.lt_succ_of_le hwindow)).1
    rw [target_calculate params hwindow, target_calculate params (hlength ▸ hwindow), hbits]
    exact trunc_mono (min_le_min_right _
      (Nat.div_le_div_left (averageSolveTime_le h) (by omega)))

/-- **The slower chain gets no smaller target exactly when there is no full window yet, or no
number in compact form, up to the limit, fits `a` times but not `a'` times into `600` times the
target of the tip, where the average solve time rises from `a` to `a'`.** -/
theorem calculate_iff (h : Slower (pindexLast :: ancestors) (pindexLast' :: ancestors')) :
    (setCompact (calculate params (pindexLast :: ancestors))).1 ≤
        (setCompact (calculate params (pindexLast' :: ancestors'))).1 ↔
      ancestors.length < windowSize ∨
        ∀ c, trunc c = c → c ≤ uintToArith256 params.powLimit →
          averageSolveTime (pindexLast :: ancestors) * c ≤
            (setCompact pindexLast.nBits).1 * targetSpacing % 2 ^ 256 →
          averageSolveTime (pindexLast' :: ancestors') * c ≤
            (setCompact pindexLast.nBits).1 * targetSpacing % 2 ^ 256 := by
  have hlength : ancestors'.length = ancestors.length := Nat.succ.inj h.length
  have hbits : pindexLast'.nBits = pindexLast.nBits := (List.cons.inj h.bits).1
  rcases Nat.lt_or_ge ancestors.length windowSize with hshort | hwindow
  · rw [calculate_early params hshort, calculate_early params (hlength ▸ hshort)]
    exact iff_of_true le_rfl (.inl hshort)
  · have hpos := (@averageSolveTime_bounds (pindexLast :: ancestors)
      (Nat.lt_succ_of_le hwindow)).1
    have hpos' := (@averageSolveTime_bounds (pindexLast' :: ancestors')
      (Nat.lt_succ_of_le (hlength ▸ hwindow))).1
    rw [target_calculate params hwindow, target_calculate params (hlength ▸ hwindow), hbits,
      or_iff_right (not_lt.mpr hwindow), trunc_le_trunc_iff_forall]
    have hfit : ∀ {a : ℕ} (c P : ℕ), 60 ≤ a → (c ≤ P / a ↔ a * c ≤ P) := fun c P ha => by
      rw [Nat.le_div_iff_mul_le (by omega), Nat.mul_comm]
    simp only [le_min_iff, hfit _ _ hpos, hfit _ _ hpos']
    constructor
    · exact fun h c hc hlimit hle => (h c hc ⟨hle, hlimit⟩).1
    · exact fun h c hc hle => ⟨h c hc hle.2 hle.1, hle.2⟩

end Feedback

/-! ## A chain at the nominal spacing -/

/-- So many blocks at the same spacing. -/
def spaced (spacing : ℕ) : ℕ → List BlockIndex
  | 0 => []
  | n + 1 => { nTime := UInt32.ofNat (spacing * n), nBits := 0x1d00ffff } :: spaced spacing n

/-- The last of `46` blocks comes late. -/
def late (d : ℕ) : BlockIndex := { nTime := UInt32.ofNat (600 * 45 + d), nBits := 0x1d00ffff }

theorem slower_late {d : ℕ} (hd : d < 2 ^ 31) :
    Slower (late 0 :: spaced 600 45) (late d :: spaced 600 45) where
  bits := rfl
  times := by
    have htime : ∀ d : ℕ, d < 2 ^ 31 → (late d).getBlockTime = 600 * 45 + (d : ℤ) := by
      intro d hd
      have hword : 600 * 45 + d < 2 ^ 32 := by omega
      rw [BlockIndex.getBlockTime, late, UInt32.toNat_ofNat', Nat.mod_eq_of_lt hword]
      push_cast
      rfl
    refine ⟨0, d, ?_⟩
    rw [spaced, solveTimes, solveTimes, List.modify_zero_cons, htime d hd, htime 0 (by decide)]
    congr 1
    omega

/-- A second that the truncated average hides. -/
theorem calculate_late : (setCompact (calculate mainParams (late 0 :: spaced 600 45))).1 ≤
    (setCompact (calculate mainParams (late 1 :: spaced 600 45))).1 := by
  have haverage : averageSolveTime (late 1 :: spaced 600 45) =
      averageSolveTime (late 0 :: spaced 600 45) := by decide +kernel
  refine (calculate_iff mainParams (slower_late (by decide))).mpr (.inr fun c _ _ h => ?_)
  rwa [haverage]

/-- **A last block that comes `1034` seconds late makes the next one harder.** -/
theorem calculate_slowed : Slower (late 0 :: spaced 600 45) (late 1034 :: spaced 600 45) ∧
    (setCompact (calculate mainParams (late 1034 :: spaced 600 45))).1 <
      (setCompact (calculate mainParams (late 0 :: spaced 600 45))).1 :=
  ⟨slower_late (by decide), by decide +kernel⟩

end BhtBhte.Pow
