import BhtBhte.Pow.Feedback

/-!
# The difficulty rule and its checker

`PermittedDifficultyTransition` allows a retarget to change the target by a factor between a quarter
and four.  `LWMA::Calculate` knows no such bound: the average solve time of its window may lie
anywhere between one minute and an hour, and before there is a full window it answers with the
limit.  The two agree while the average lies in a range that the checker leaves it.  `permitted_iff`
says which that is.
-/
namespace BhtBhte.Pow

open BhtBhte.Lib
open BhtBhte.Spv (setCompact uintToArith256 deriveTarget)

/-- The smallest target that the checker accepts after a target. -/
def smallestPermitted (params : ConsensusParams) (target : ℕ) : ℕ :=
  trunc (min (mulTimespan target (params.nPowTargetTimespan / 4) / params.nPowTargetTimespan)
    (uintToArith256 params.powLimit))

/-- The first number in compact form above four times a target. -/
def abovePermitted (params : ConsensusParams) (target : ℕ) : ℕ :=
  let largest := mulTimespan target (params.nPowTargetTimespan * 4) / params.nPowTargetTimespan
  trunc largest + unit largest

section Transition
variable {params : ConsensusParams} {pindexLast : BlockIndex} {ancestors : List BlockIndex}

/-- What the checker accepts at a retarget height. -/
theorem permitted_retarget {height : ℕ} {old new : UInt32} {q : ℕ}
    (hmin : params.fPowAllowMinDifficultyBlocks = false)
    (hheight : height % params.difficultyAdjustmentInterval = 0)
    (hq : q ≤ uintToArith256 params.powLimit) (hnew : (setCompact new).1 = trunc q) :
    permittedDifficultyTransition params height old new = true ↔
      q < abovePermitted params (setCompact old).1 ∧
        smallestPermitted params (setCompact old).1 ≤ q := by
  have hlimit := params.powLimit_lt
  have hclamp : ∀ n, (setCompact (getCompact (if n > uintToArith256 params.powLimit then
      uintToArith256 params.powLimit else n))).1 =
        trunc (min n (uintToArith256 params.powLimit)) := by
    intro n
    have heq : (if n > uintToArith256 params.powLimit then uintToArith256 params.powLimit
        else n) = min n (uintToArith256 params.powLimit) := by
      rw [min_def]
      split_ifs <;> omega
    rw [heq, setCompact_getCompact ((min_le_right _ _).trans_lt hlimit)]
  rw [permittedDifficultyTransition, hmin, if_neg Bool.false_ne_true, if_pos hheight]
  simp only [hclamp, hnew]
  have habove : trunc q ≤ trunc (min (mulTimespan (setCompact old).1
      (params.nPowTargetTimespan * 4) / params.nPowTargetTimespan)
      (uintToArith256 params.powLimit)) ↔ q < abovePermitted params (setCompact old).1 := by
    rw [trunc_le_trunc_iff, le_min_iff, and_iff_left ((trunc_le q).trans hq), trunc_le_iff]
    rfl
  have hsmallest : smallestPermitted params (setCompact old).1 ≤ trunc q ↔
      smallestPermitted params (setCompact old).1 ≤ q := trunc_le_trunc_iff
  rw [← habove, ← hsmallest, smallestPermitted]
  split_ifs <;> simp <;> omega

/-- A target is asked for at a retarget height. -/
theorem getNextWorkRequired_retarget {blockTime : UInt32}
    (hretarget : params.fPowNoRetargeting = false)
    (hheight : (ancestors.length + 1) % params.difficultyAdjustmentInterval = 0) :
    getNextWorkRequired params pindexLast ancestors blockTime =
      calculate params (pindexLast :: ancestors) := by
  rw [getNextWorkRequired]
  simp only [hheight, ne_eq, not_true_eq_false, if_false, calculateNextWorkRequiredLWMA,
    hretarget, Bool.false_eq_true]

/-- Between the retarget heights the target stays, and the checker accepts it. -/
theorem permitted_between (hmin : params.fPowAllowMinDifficultyBlocks = false)
    (hheight : (ancestors.length + 1) % params.difficultyAdjustmentInterval ≠ 0)
    (blockTime : UInt32) :
    permittedDifficultyTransition params (ancestors.length + 1) pindexLast.nBits
      (getNextWorkRequired params pindexLast ancestors blockTime) = true := by
  rw [getNextWorkRequired, if_pos hheight, hmin, if_neg Bool.false_ne_true,
    permittedDifficultyTransition, hmin, if_neg Bool.false_ne_true, if_neg hheight,
    if_neg (not_not.mpr rfl)]

theorem smallestPermitted_le (params : ConsensusParams) (target : ℕ) :
    smallestPermitted params target ≤ uintToArith256 params.powLimit :=
  (trunc_le _).trans (min_le_right _ _)

/-- After a full window the average decides. -/
theorem permitted_window (hmin : params.fPowAllowMinDifficultyBlocks = false)
    (hretarget : params.fPowNoRetargeting = false)
    (hheight : (ancestors.length + 1) % params.difficultyAdjustmentInterval = 0)
    (hwindow : windowSize ≤ ancestors.length) {target : ℕ}
    (hvalue : (setCompact pindexLast.nBits).1 = target) (blockTime : UInt32) :
    permittedDifficultyTransition params (ancestors.length + 1) pindexLast.nBits
        (getNextWorkRequired params pindexLast ancestors blockTime) = true ↔
      averageSolveTime (pindexLast :: ancestors) * smallestPermitted params target ≤
          target * targetSpacing % 2 ^ 256 ∧
        (uintToArith256 params.powLimit < abovePermitted params target ∨
          target * targetSpacing % 2 ^ 256 <
            averageSolveTime (pindexLast :: ancestors) * abovePermitted params target) := by
  have hpos := (@averageSolveTime_bounds (pindexLast :: ancestors)
    (Nat.lt_succ_of_le hwindow)).1
  rw [getNextWorkRequired_retarget hretarget hheight,
    permitted_retarget hmin hheight (min_le_right _ _) (target_calculate params hwindow),
    hvalue, min_lt_iff, le_min_iff, and_iff_left (smallestPermitted_le params target),
    Nat.le_div_iff_mul_le (by omega), Nat.div_lt_iff_lt_mul (by omega),
    Nat.mul_comm (smallestPermitted params target),
    Nat.mul_comm (abovePermitted params target), and_comm, or_comm]

theorem setCompact_of_deriveTarget {nBits : UInt32} {powLimit : Node.Bytes} {target : ℕ}
    (h : deriveTarget nBits powLimit = some target) : (setCompact nBits).1 = target := by
  unfold deriveTarget at h
  dsimp only at h
  split_ifs at h
  exact Option.some.inj h

/-- **The checker accepts the target that was asked for exactly when the next height is no
retarget height, or the limit that an early chain gets is not above its range, or the average
solve time of the window keeps the target within its range.** -/
theorem permitted_iff (hmin : params.fPowAllowMinDifficultyBlocks = false)
    (hretarget : params.fPowNoRetargeting = false) {target : ℕ}
    (htarget : deriveTarget pindexLast.nBits params.powLimit = some target)
    (blockTime : UInt32) :
    permittedDifficultyTransition params (ancestors.length + 1) pindexLast.nBits
        (getNextWorkRequired params pindexLast ancestors blockTime) = true ↔
      (ancestors.length + 1) % params.difficultyAdjustmentInterval ≠ 0 ∨
      (ancestors.length < windowSize ∧
        uintToArith256 params.powLimit < abovePermitted params target) ∨
      (windowSize ≤ ancestors.length ∧
        averageSolveTime (pindexLast :: ancestors) * smallestPermitted params target ≤
          target * targetSpacing % 2 ^ 256 ∧
        (uintToArith256 params.powLimit < abovePermitted params target ∨
          target * targetSpacing % 2 ^ 256 <
            averageSolveTime (pindexLast :: ancestors) * abovePermitted params target)) := by
  have hvalue := setCompact_of_deriveTarget htarget
  by_cases hheight : (ancestors.length + 1) % params.difficultyAdjustmentInterval = 0
  · rw [or_iff_right (not_not.mpr hheight)]
    rcases Nat.lt_or_ge ancestors.length windowSize with hshort | hwindow
    · have hlimit : (setCompact (calculate params (pindexLast :: ancestors))).1 =
          trunc (uintToArith256 params.powLimit) := by
        rw [calculate_early params hshort, setCompact_getCompact params.powLimit_lt]
      rw [getNextWorkRequired_retarget hretarget hheight,
        permitted_retarget hmin hheight le_rfl hlimit, hvalue,
        and_iff_left (smallestPermitted_le params target),
        or_iff_left fun h => absurd h.1 (not_le.mpr hshort), and_iff_right hshort]
    · rw [permitted_window hmin hretarget hheight hwindow hvalue]
      constructor
      · exact fun h => .inr ⟨hwindow, h⟩
      · rintro (⟨hshort, -⟩ | ⟨-, h⟩)
        · exact absurd hshort (not_lt.mpr hwindow)
        · exact h
  · exact iff_of_true (permitted_between hmin hheight blockTime) (.inl hheight)

/-- What the checker rejects below is less than a quarter of the target. -/
theorem four_smallestPermitted_le (params : ConsensusParams) (target : ℕ) :
    4 * smallestPermitted params target ≤ target := by
  have hpos : 0 < params.nPowTargetTimespan := params.spacing_pos.trans_le params.spacing_le
  have hround : smallestPermitted params target ≤
      mulTimespan target (params.nPowTargetTimespan / 4) / params.nPowTargetTimespan :=
    (trunc_le _).trans (min_le_left _ _)
  have hmul : mulTimespan target (params.nPowTargetTimespan / 4) ≤
      target * (params.nPowTargetTimespan / 4) :=
    (Nat.mod_le _ _).trans (Nat.mul_le_mul_left _ (Nat.mod_le _ _))
  have hdiv : smallestPermitted params target * params.nPowTargetTimespan ≤
      target * (params.nPowTargetTimespan / 4) :=
    ((Nat.le_div_iff_mul_le hpos).mp hround).trans hmul
  have hfloor : target * (params.nPowTargetTimespan / 4) * 4 ≤
      target * params.nPowTargetTimespan := by
    rw [Nat.mul_assoc]
    exact Nat.mul_le_mul_left _ (Nat.div_mul_le_self _ 4)
  refine Nat.le_of_mul_le_mul_right ?_ hpos
  calc 4 * smallestPermitted params target * params.nPowTargetTimespan
      = smallestPermitted params target * params.nPowTargetTimespan * 4 := by ring
    _ ≤ target * (params.nPowTargetTimespan / 4) * 4 := Nat.mul_le_mul_right 4 hdiv
    _ ≤ target * params.nPowTargetTimespan := hfloor

/-- Where no product wraps around, four times the target is in the range. -/
theorem four_lt_abovePermitted {target : ℕ} (htimespan : params.nPowTargetTimespan * 4 < 2 ^ 32)
    (hlarge : target * (params.nPowTargetTimespan * 4) < 2 ^ 256) :
    4 * target < abovePermitted params target := by
  have hpos : 0 < params.nPowTargetTimespan := params.spacing_pos.trans_le params.spacing_le
  have hfour : mulTimespan target (params.nPowTargetTimespan * 4) / params.nPowTargetTimespan =
      4 * target := by
    rw [mulTimespan, Nat.mod_eq_of_lt htimespan, Nat.mod_eq_of_lt hlarge,
      show target * (params.nPowTargetTimespan * 4) = 4 * target * params.nPowTargetTimespan by
        ring, Nat.mul_div_cancel _ hpos]
  have h := lt_trunc_add_unit
    (mulTimespan target (params.nPowTargetTimespan * 4) / params.nPowTargetTimespan)
  rw [hfour] at h
  rw [abovePermitted, hfour]
  exact h

/-- Where no product wraps around, an average between `150` and `2400` seconds keeps the target
within the range of the checker. -/
theorem permitted_of_average (hmin : params.fPowAllowMinDifficultyBlocks = false)
    (hretarget : params.fPowNoRetargeting = false) {target : ℕ}
    (htarget : deriveTarget pindexLast.nBits params.powLimit = some target)
    (htimespan : params.nPowTargetTimespan * 4 < 2 ^ 32)
    (hlarge : target * (params.nPowTargetTimespan * 4) < 2 ^ 256)
    (hspacing : target * targetSpacing < 2 ^ 256) (hwindow : windowSize ≤ ancestors.length)
    (hlow : 150 ≤ averageSolveTime (pindexLast :: ancestors))
    (hhigh : averageSolveTime (pindexLast :: ancestors) ≤ 2400) (blockTime : UInt32) :
    permittedDifficultyTransition params (ancestors.length + 1) pindexLast.nBits
      (getNextWorkRequired params pindexLast ancestors blockTime) = true := by
  by_cases hheight : (ancestors.length + 1) % params.difficultyAdjustmentInterval = 0
  swap
  · exact permitted_between hmin hheight blockTime
  have hquarter := four_smallestPermitted_le params target
  have habove := four_lt_abovePermitted htimespan hlarge
  refine (permitted_window hmin hretarget hheight hwindow (setCompact_of_deriveTarget htarget)
    blockTime).mpr ⟨?_, .inr ?_⟩
  · rw [Nat.mod_eq_of_lt hspacing]
    calc averageSolveTime (pindexLast :: ancestors) * smallestPermitted params target
        ≤ 2400 * smallestPermitted params target := Nat.mul_le_mul_right _ hhigh
      _ = 4 * smallestPermitted params target * targetSpacing := by rw [targetSpacing]; ring
      _ ≤ target * targetSpacing := Nat.mul_le_mul_right _ hquarter
  · rw [Nat.mod_eq_of_lt hspacing]
    calc target * targetSpacing = 150 * (4 * target) := by rw [targetSpacing]; ring
      _ < 150 * abovePermitted params target := Nat.mul_lt_mul_of_pos_left habove (by decide)
      _ ≤ averageSolveTime (pindexLast :: ancestors) * abovePermitted params target :=
        Nat.mul_le_mul_right _ hlow

end Transition

/-! ## Two chains at a retarget height -/

theorem length_spaced (spacing : ℕ) : ∀ n, (spaced spacing n).length = n
  | 0 => rfl
  | n + 1 => by rw [spaced, List.length_cons, length_spaced spacing n]

/-- The tip of a chain of `2016` blocks. -/
def retargetTip (spacing : ℕ) : BlockIndex :=
  { nTime := UInt32.ofNat (spacing * 2015), nBits := 0x1d00ffff }

theorem deriveTarget_tip (spacing : ℕ) :
    deriveTarget (retargetTip spacing).nBits mainParams.powLimit = some (0xffff * 256 ^ 26) := by
  show deriveTarget 0x1d00ffff mainParams.powLimit = _
  decide +kernel

/-- A chain at the nominal spacing is accepted. -/
theorem permitted_nominal : permittedDifficultyTransition mainParams 2016 0x1d00ffff
    (getNextWorkRequired mainParams (retargetTip 600) (spaced 600 2015) 0) = true := by
  have h := @permitted_iff mainParams (retargetTip 600) (spaced 600 2015) rfl rfl _
    (deriveTarget_tip 600) 0
  rw [length_spaced] at h
  exact h.mpr (.inr (.inr ⟨by decide, by decide +kernel, .inr (by decide +kernel)⟩))

/-- **A block every hour asks for a sixth of the target, and the checker rejects it.** -/
theorem not_permitted_hourly :
    deriveTarget (retargetTip 3600).nBits mainParams.powLimit = some (0xffff * 256 ^ 26) ∧
      permittedDifficultyTransition mainParams ((spaced 3600 2015).length + 1) 0x1d00ffff
        (getNextWorkRequired mainParams (retargetTip 3600) (spaced 3600 2015) 0) = false := by
  have hlen : windowSize ≤ (spaced 3600 2015).length := by
    rw [length_spaced]
    decide
  have haverage : averageSolveTime (retargetTip 3600 :: spaced 3600 2015) = 3600 := by
    decide +kernel
  refine ⟨deriveTarget_tip 3600, ?_⟩
  rw [getNextWorkRequired_retarget rfl (by rw [length_spaced]; decide),
    calculate_window mainParams hlen, haverage, length_spaced]
  decide +kernel

end BhtBhte.Pow
