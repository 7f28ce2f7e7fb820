import BhtBhte.Pow.Compact

/-!
# The difficulty rules

`GetNextWorkRequired` asks for the target of the next block, with the weighted average of
`LWMA::Calculate` at every retarget height, and `PermittedDifficultyTransition` checks a target
that was asked for.  A chain is the list of its blocks, the tip first, and the height of a
block is the number of blocks behind it.  Targets are numbers below `2 ^ 256`; a product with
a signed 64-bit integer takes its low 32 bits and wraps around.
-/
namespace BhtBhte.Pow

open BhtBhte.Lib
open BhtBhte.Node (Bytes)
open BhtBhte.Spv (setCompact uintToArith256 uintToArith256_lt mainPowLimit)

/-- A block, as far as the difficulty is concerned. -/
structure BlockIndex where
  nTime : UInt32
  nBits : UInt32
  deriving DecidableEq

/-- The time of a block, in seconds. -/
def BlockIndex.getBlockTime (pindex : BlockIndex) : ℤ := pindex.nTime.toNat

/-- Times are seconds.  A retarget interval has at least one block. -/
structure ConsensusParams where
  powLimit : Bytes
  nPowTargetSpacing : ℕ
  nPowTargetTimespan : ℕ
  fPowAllowMinDifficultyBlocks : Bool
  fPowNoRetargeting : Bool
  length_powLimit : powLimit.length = 32
  spacing_pos : 0 < nPowTargetSpacing
  spacing_le : nPowTargetSpacing ≤ nPowTargetTimespan
  timespan_lt : nPowTargetTimespan < 2 ^ 61

/-- The blocks from one retarget height to the next. -/
def ConsensusParams.difficultyAdjustmentInterval (params : ConsensusParams) : ℕ :=
  params.nPowTargetTimespan / params.nPowTargetSpacing

theorem ConsensusParams.powLimit_lt (params : ConsensusParams) :
    uintToArith256 params.powLimit < 2 ^ 256 := by
  have h := uintToArith256_lt params.powLimit
  rwa [params.length_powLimit, show 256 ^ 32 = 2 ^ 256 by decide] at h

/-- The main network. -/
def mainParams : ConsensusParams where
  powLimit := mainPowLimit
  nPowTargetSpacing := 10 * 60
  nPowTargetTimespan := 14 * 24 * 60 * 60
  fPowAllowMinDifficultyBlocks := false
  fPowNoRetargeting := false
  length_powLimit := rfl
  spacing_pos := by decide
  spacing_le := by decide
  timespan_lt := by decide

/-! ## The weighted average -/

def targetSpacing : ℕ := 600
def windowSize : ℕ := 45
def minActualTimespan : ℤ := 60
def maxActualTimespan : ℤ := 3600

/-- The rounds of the loop of `LWMA::Calculate` that are left, the weight of the next one, the
chain from the block it looks at, and the two totals. -/
def totals : ℕ → ℤ → List BlockIndex → ℤ × ℤ → ℤ × ℤ
  | n + 1, weight, pindex :: pindexPrev :: rest, (totalTimespan, totalWeight) =>
    let timespan := pindex.getBlockTime - pindexPrev.getBlockTime
    let timespan := if timespan < minActualTimespan then minActualTimespan else timespan
    let timespan := if timespan > maxActualTimespan then maxActualTimespan else timespan
    totals n (weight - 1) (pindexPrev :: rest)
      (totalTimespan + timespan * weight, totalWeight + weight)
  | _, _, _, result => result

/-- `LWMA::Calculate`. -/
def calculate (params : ConsensusParams) (chain : List BlockIndex) : UInt32 :=
  let powLimit := uintToArith256 params.powLimit
  match chain with
  | [] => getCompact powLimit
  | pindexLast :: ancestors =>
    if ancestors.length < windowSize then getCompact powLimit
    else if (chain.drop (windowSize - 1)).isEmpty then getCompact powLimit
    else
      let (totalTimespan, totalWeight) := totals (windowSize - 1) windowSize chain (0, 0)
      if totalWeight = 0 then getCompact powLimit
      else
        let avgTimespan := totalTimespan.tdiv totalWeight
        let bnNew := (setCompact pindexLast.nBits).1
        let avgTimespan :=
          if avgTimespan < 1 then 1 else if avgTimespan > 3600 then 3600 else avgTimespan
        let bnNew := bnNew * targetSpacing % 2 ^ 256
        let bnNew := bnNew / avgTimespan.toNat
        let bnNew := if bnNew > powLimit then powLimit else bnNew
        getCompact bnNew

/-- The rule at a retarget height: the weighted average, unless there is no retargeting. -/
def calculateNextWorkRequiredLWMA (params : ConsensusParams) (pindexLast : BlockIndex)
    (ancestors : List BlockIndex) : UInt32 :=
  if params.fPowNoRetargeting then pindexLast.nBits else calculate params (pindexLast :: ancestors)

/-! ## Asking for a target and checking it -/

/-- The last block that was not found under the rule for easy blocks. -/
def lastRegularBits (params : ConsensusParams) (nProofOfWorkLimit : UInt32) :
    BlockIndex → List BlockIndex → UInt32
  | pindex, [] => pindex.nBits
  | pindex, pprev :: ancestors =>
    if (pprev :: ancestors).length % params.difficultyAdjustmentInterval ≠ 0 ∧
        pindex.nBits = nProofOfWorkLimit then
      lastRegularBits params nProofOfWorkLimit pprev ancestors
    else pindex.nBits

/-- `blockTime` is the time of the block that is asked about. -/
def getNextWorkRequired (params : ConsensusParams) (pindexLast : BlockIndex)
    (ancestors : List BlockIndex) (blockTime : UInt32) : UInt32 :=
  let nProofOfWorkLimit := getCompact (uintToArith256 params.powLimit)
  if (ancestors.length + 1) % params.difficultyAdjustmentInterval ≠ 0 then
    if params.fPowAllowMinDifficultyBlocks then
      if (blockTime.toNat : ℤ) > pindexLast.getBlockTime + params.nPowTargetSpacing * 2 then
        nProofOfWorkLimit
      else lastRegularBits params nProofOfWorkLimit pindexLast ancestors
    else pindexLast.nBits
  else calculateNextWorkRequiredLWMA params pindexLast ancestors

/-- A product of a target with a signed integer takes the low 32 bits of the integer. -/
def mulTimespan (target timespan : ℕ) : ℕ := target * (timespan % 2 ^ 32) % 2 ^ 256

/-- Whether a target may follow another one at a height. -/
def permittedDifficultyTransition (params : ConsensusParams) (height : ℕ)
    (old_nbits new_nbits : UInt32) : Bool :=
  if params.fPowAllowMinDifficultyBlocks then true
  else if height % params.difficultyAdjustmentInterval = 0 then
    let smallest_timespan := params.nPowTargetTimespan / 4
    let largest_timespan := params.nPowTargetTimespan * 4
    let pow_limit := uintToArith256 params.powLimit
    let observed_new_target := (setCompact new_nbits).1
    let largest_difficulty_target :=
      mulTimespan (setCompact old_nbits).1 largest_timespan / params.nPowTargetTimespan
    let largest_difficulty_target :=
      if largest_difficulty_target > pow_limit then pow_limit else largest_difficulty_target
    let maximum_new_target := (setCompact (getCompact largest_difficulty_target)).1
    if maximum_new_target < observed_new_target then false
    else
      let smallest_difficulty_target :=
        mulTimespan (setCompact old_nbits).1 smallest_timespan / params.nPowTargetTimespan
      let smallest_difficulty_target :=
        if smallest_difficulty_target > pow_limit then pow_limit else smallest_difficulty_target
      let minimum_new_target := (setCompact (getCompact smallest_difficulty_target)).1
      if minimum_new_target > observed_new_target then false else true
  else if old_nbits ≠ new_nbits then false
  else true

/-! ## The average as a sum -/

/-- The times between the blocks of a chain, the last one first. -/
def solveTimes : List BlockIndex → List ℤ
  | pindex :: pindexPrev :: rest =>
      (pindex.getBlockTime - pindexPrev.getBlockTime) :: solveTimes (pindexPrev :: rest)
  | _ => []

/-- A solve time, kept between the least and the greatest one that count. -/
def clampTimespan (timespan : ℤ) : ℤ := min (max timespan minActualTimespan) maxActualTimespan

/-- The sum of the clamped times, the first one with the given weight, the next one with one
less, and so on. -/
def weightedSum : ℤ → List ℤ → ℤ
  | _, [] => 0
  | weight, timespan :: rest => clampTimespan timespan * weight + weightedSum (weight - 1) rest

/-- The weights of the window sum to `1034`. -/
def averageSolveTime (chain : List BlockIndex) : ℕ :=
  (weightedSum windowSize ((solveTimes chain).take (windowSize - 1)) / 1034).toNat

/-- The sum of so many weights. -/
def sumWeights : ℕ → ℤ → ℤ
  | 0, _ => 0
  | n + 1, weight => weight + sumWeights n (weight - 1)

theorem length_solveTimes : ∀ chain, (solveTimes chain).length = chain.length - 1
  | [] => rfl
  | [_] => rfl
  | _ :: pindexPrev :: rest => by
      rw [solveTimes, List.length_cons, length_solveTimes]
      rfl

theorem clamp_eq (timespan : ℤ) :
    (let t := if timespan < minActualTimespan then minActualTimespan else timespan
      if t > maxActualTimespan then maxActualTimespan else t) = clampTimespan timespan := by
  unfold clampTimespan minActualTimespan maxActualTimespan
  dsimp only
  split_ifs <;> omega

theorem totals_eq : ∀ (n : ℕ) (weight : ℤ) (chain : List BlockIndex) (timespan total : ℤ),
    n ≤ (solveTimes chain).length → totals n weight chain (timespan, total) =
      (timespan + weightedSum weight ((solveTimes chain).take n), total + sumWeights n weight) := by
  intro n
  induction n with
  | zero =>
      intro weight chain timespan total _
      simp [totals, weightedSum, sumWeights]
  | succ n ih =>
      intro weight chain timespan total hlen
      match chain with
      | [] => simp [solveTimes] at hlen
      | [b] => simp [solveTimes] at hlen
      | pindex :: pindexPrev :: rest =>
          rw [solveTimes, List.length_cons] at hlen
          rw [totals, ih _ _ _ _ (Nat.le_of_succ_le_succ hlen), solveTimes, List.take_succ_cons,
            weightedSum, sumWeights]
          have hclamp := clamp_eq (pindex.getBlockTime - pindexPrev.getBlockTime)
          dsimp only at hclamp
          rw [hclamp, add_assoc, add_assoc]

/-- **The loop of `LWMA::Calculate` computes the weighted sum over its window.** -/
theorem totals_window {chain : List BlockIndex} (hlen : windowSize < chain.length) :
    totals (windowSize - 1) windowSize chain (0, 0) =
      (weightedSum windowSize ((solveTimes chain).take (windowSize - 1)), 1034) := by
  rw [totals_eq _ _ _ _ _ (by rw [length_solveTimes]; omega), zero_add, zero_add]
  rfl

/-- A sum of clamped times lies between the sums of the bounds. -/
theorem weightedSum_bounds : ∀ (times : List ℤ) (weight : ℤ), (times.length : ℤ) ≤ weight →
    minActualTimespan * sumWeights times.length weight ≤ weightedSum weight times ∧
      weightedSum weight times ≤ maxActualTimespan * sumWeights times.length weight := by
  intro times
  induction times with
  | nil =>
      intro weight _
      simp [weightedSum, sumWeights]
  | cons timespan times ih =>
      intro weight hle
      rw [List.length_cons] at hle
      push_cast at hle
      obtain ⟨hlow, hhigh⟩ := ih (weight - 1) (by omega)
      have hweight : 0 ≤ weight := by omega
      have hmin : minActualTimespan ≤ clampTimespan timespan :=
        le_min (le_max_right _ _) (by decide)
      have hmax : clampTimespan timespan ≤ maxActualTimespan := min_le_right _ _
      have hmin' := mul_le_mul_of_nonneg_right hmin hweight
      have hmax' := mul_le_mul_of_nonneg_right hmax hweight
      rw [weightedSum, List.length_cons, sumWeights, mul_add, mul_add]
      exact ⟨add_le_add hmin' hlow, add_le_add hmax' hhigh⟩

/-- The average of a window lies between the bounds of one time. -/
theorem averageSolveTime_bounds {chain : List BlockIndex} (hlen : windowSize < chain.length) :
    60 ≤ averageSolveTime chain ∧ averageSolveTime chain ≤ 3600 ∧
      (averageSolveTime chain : ℤ) =
        weightedSum windowSize ((solveTimes chain).take (windowSize - 1)) / 1034 := by
  have htake : ((solveTimes chain).take (windowSize - 1)).length = 44 := by
    rw [List.length_take, length_solveTimes]
    unfold windowSize at hlen ⊢
    omega
  obtain ⟨hlow, hhigh⟩ := weightedSum_bounds ((solveTimes chain).take (windowSize - 1)) windowSize
    (by rw [htake]; decide)
  rw [htake, show sumWeights 44 windowSize = 1034 from rfl] at hlow hhigh
  unfold averageSolveTime minActualTimespan maxActualTimespan at *
  omega

/-- The target after a full window, before it is written in compact form. -/
theorem calculate_window (params : ConsensusParams) {pindexLast : BlockIndex}
    {ancestors : List BlockIndex} (hlen : windowSize ≤ ancestors.length) :
    calculate params (pindexLast :: ancestors) = getCompact
      (min ((setCompact pindexLast.nBits).1 * targetSpacing % 2 ^ 256 /
        averageSolveTime (pindexLast :: ancestors)) (uintToArith256 params.powLimit)) := by
  have hchain : windowSize < (pindexLast :: ancestors).length := Nat.lt_succ_of_le hlen
  obtain ⟨hlow, hhigh, havg⟩ := averageSolveTime_bounds hchain
  have hdrop : ((pindexLast :: ancestors).drop (windowSize - 1)).isEmpty = false := by
    rw [List.isEmpty_eq_false_iff, ne_eq, List.drop_eq_nil_iff]
    omega
  rw [calculate]
  simp only [if_neg (not_lt.mpr hlen), hdrop, totals_window hchain]
  have hsum : 0 ≤ weightedSum windowSize
      ((solveTimes (pindexLast :: ancestors)).take (windowSize - 1)) := by omega
  have hclamp : ∀ a : ℤ, 60 ≤ a → a ≤ 3600 →
      (if a < 1 then 1 else if a > 3600 then 3600 else a) = a := by
    intro a hle hge
    rw [if_neg (by omega), if_neg (by omega)]
  rw [if_neg Bool.false_ne_true, if_neg (by decide), Int.tdiv_eq_ediv_of_nonneg hsum, ← havg,
    hclamp _ (by omega) (by omega), Int.toNat_natCast]
  congr 1
  rw [min_def]
  split_ifs <;> omega

/-- The target of the next block as a number: the spacing over the average time, times the
target of the tip, within the limit and rounded down. -/
theorem target_calculate (params : ConsensusParams) {pindexLast : BlockIndex}
    {ancestors : List BlockIndex} (hlen : windowSize ≤ ancestors.length) :
    (setCompact (calculate params (pindexLast :: ancestors))).1 =
      trunc (min ((setCompact pindexLast.nBits).1 * targetSpacing % 2 ^ 256 /
        averageSolveTime (pindexLast :: ancestors)) (uintToArith256 params.powLimit)) := by
  rw [calculate_window params hlen, setCompact_getCompact]
  exact (min_le_right _ _).trans_lt params.powLimit_lt

/-- Before there is a full window the next block may have the limit. -/
theorem calculate_early (params : ConsensusParams) {pindexLast : BlockIndex}
    {ancestors : List BlockIndex} (hlen : ancestors.length < windowSize) :
    calculate params (pindexLast :: ancestors) = getCompact (uintToArith256 params.powLimit) := by
  rw [calculate]
  exact if_pos hlen

end BhtBhte.Pow
