import BhtBhte.Pow.Transition

/-!
# A target for the next block

`LWMA::Calculate` and `CalculateNextWorkRequired` multiply the target of the tip before they divide.
The limits of the networks are close to `2 ^ 256`, so the product of an easy target does not fit,
and its low bits may be zero; of the hardest targets the quotient is zero.  A target of zero is one
that `DeriveTarget` refuses, and no block can follow.  `extendable_iff` says which tips can be
extended; `extendable_of_target` that all but the easiest and the hardest can.
-/
namespace BhtBhte.Pow

open BhtBhte.Lib
open BhtBhte.Spv (setCompact uintToArith256 deriveTarget mainPowLimit)

/-! ## The networks -/

/-- The three networks. -/
inductive Network where
  | main
  | testnet
  | regtest
  deriving DecidableEq, Repr

def testnetPowLimit : Node.Bytes := List.replicate 28 0 ++ [0x00, 0x1f, 0xff, 0xff]

def regtestPowLimit : Node.Bytes := List.replicate 31 0 ++ [0xff]

theorem length_testnetPowLimit : testnetPowLimit.length = 32 := rfl

theorem length_regtestPowLimit : regtestPowLimit.length = 32 := rfl

theorem tenMinutes_pos : 0 < 10 * 60 := by decide

theorem tenMinutes_le : 10 * 60 ≤ 14 * 24 * 60 * 60 := by decide

theorem twoWeeks_lt : 14 * 24 * 60 * 60 < 2 ^ 61 := by decide

/-- The rules of the test network. -/
def testnetParams : ConsensusParams where
  powLimit := testnetPowLimit
  nPowTargetSpacing := 10 * 60
  nPowTargetTimespan := 14 * 24 * 60 * 60
  fPowAllowMinDifficultyBlocks := true
  fPowNoRetargeting := false
  length_powLimit := length_testnetPowLimit
  spacing_pos := tenMinutes_pos
  spacing_le := tenMinutes_le
  timespan_lt := twoWeeks_lt

/-- The rules of the regression test network. -/
def regtestParams : ConsensusParams where
  powLimit := regtestPowLimit
  nPowTargetSpacing := 10 * 60
  nPowTargetTimespan := 14 * 24 * 60 * 60
  fPowAllowMinDifficultyBlocks := true
  fPowNoRetargeting := true
  length_powLimit := length_regtestPowLimit
  spacing_pos := tenMinutes_pos
  spacing_le := tenMinutes_le
  timespan_lt := twoWeeks_lt

/-- The constructor of `CChainParams`. -/
def Network.params : Network → ConsensusParams
  | .main => mainParams
  | .testnet => testnetParams
  | .regtest => regtestParams

/-! ## The other rule -/

/-- The time since the first block of an interval, within a quarter and four times the timespan
aimed at. -/
def actualTimespan (params : ConsensusParams) (pindexLast : BlockIndex) (nFirstBlockTime : ℤ) : ℕ :=
  let nActualTimespan := pindexLast.getBlockTime - nFirstBlockTime
  let nActualTimespan :=
    if nActualTimespan < (params.nPowTargetTimespan / 4 : ℕ) then
      ((params.nPowTargetTimespan / 4 : ℕ) : ℤ)
    else nActualTimespan
  let nActualTimespan :=
    if nActualTimespan > (params.nPowTargetTimespan * 4 : ℕ) then
      ((params.nPowTargetTimespan * 4 : ℕ) : ℤ)
    else nActualTimespan
  nActualTimespan.toNat

/-- The target from the time that the last interval took. -/
def calculateNextWorkRequired (params : ConsensusParams) (pindexLast : BlockIndex)
    (nFirstBlockTime : ℤ) : UInt32 :=
  if params.fPowNoRetargeting then pindexLast.nBits
  else
    let bnPowLimit := uintToArith256 params.powLimit
    let bnNew := (setCompact pindexLast.nBits).1
    let bnNew := mulTimespan bnNew (actualTimespan params pindexLast nFirstBlockTime)
    let bnNew := bnNew / params.nPowTargetTimespan
    let bnNew := if bnNew > bnPowLimit then bnPowLimit else bnNew
    getCompact bnNew

/-! ## Compact targets -/

/-- The flags of a mantissa and a size. -/
theorem setCompact_pack_flags {w : UInt32} {s : ℕ} (hw : w.toNat < 2 ^ 23) (hs : s ≤ 33)
    (hshort : s = 33 → w.toNat ≤ 0xffff) :
    (setCompact (w ||| (UInt32.ofNat s <<< 24))).2 = (false, false) := by
  have hbyte : s < 256 := by omega
  have hsign : (w ||| (UInt32.ofNat s <<< 24)) &&& 0x00800000 = 0 := by
    have hclear : (s * 2 ^ 24 + w.toNat) / 2 ^ 23 % 2 = 0 := by omega
    rw [← UInt32.toNat_inj, toNat_and_sign, toNat_pack hw hbyte, hclear]
    rfl
  rw [setCompact, toNat_pack_size hw hbyte, toNat_pack_word hw hbyte, hsign]
  simp only [ne_eq, not_true_eq_false, and_false, decide_false, Prod.mk.injEq, true_and,
    decide_eq_false_iff_not]
  split_ifs <;> omega

/-- The mantissa that is written, and its size. -/
theorem getCompact_flags {n : ℕ} (hn : n < 2 ^ 256) :
    (setCompact (getCompact n)).2 = (false, false) := by
  have hbits : bits n ≤ 256 := bits_le_iff.mpr hn
  unfold getCompact
  generalize hs : (bits n + 7) / 8 = s
  have hlength : n < 2 ^ (8 * s) := bits_le_iff.mp (by omega)
  obtain ⟨w, hw, hsmall⟩ : ∃ w : UInt32, w.toNat < 2 ^ 24 ∧
      (if s ≤ 3 then UInt32.ofNat (n <<< (8 * (3 - s))) else UInt32.ofNat (n >>> (8 * (s - 3)))) =
        w := by
    by_cases hsmall : s ≤ 3
    · obtain ⟨htoNat, hword⟩ := toNat_shifted_up hlength hsmall
      exact ⟨_, by rw [htoNat]; exact hword, if_pos hsmall⟩
    · obtain ⟨htoNat, hword⟩ := toNat_shifted_down hlength hsmall
      exact ⟨_, by rw [htoNat]; exact hword, if_neg hsmall⟩
  simp only [hsmall]
  by_cases hsign : 2 ^ 23 ≤ w.toNat
  · have hshift := toNat_shiftRight_byte w
    rw [if_pos ((sign_iff hw).mpr hsign)]
    exact setCompact_pack_flags (by rw [hshift]; omega) (by omega) fun _ => by rw [hshift]; omega
  · rw [if_neg fun h => hsign ((sign_iff hw).mp h)]
    exact setCompact_pack_flags (not_le.mp hsign) (by omega) fun h => by omega

theorem trunc_pos {n : ℕ} (h : 0 < n) : 0 < trunc n := by
  have hpos : 0 < bits n := lt_bits_iff.mpr h
  have hunit : unit n ≤ n := by
    rw [unit_eq]
    exact lt_bits_iff.mp (by omega)
  exact (unit_pos n).trans_le (le_trunc_of_dvd dvd_rfl hunit)

/-- **A number within the limit is accepted unless it is zero.** -/
theorem deriveTarget_getCompact (params : ConsensusParams) {n : ℕ}
    (hn : n ≤ uintToArith256 params.powLimit) :
    (∃ target, deriveTarget (getCompact n) params.powLimit = some target) ↔ 0 < n := by
  have hlt := hn.trans_lt params.powLimit_lt
  have hvalue := setCompact_getCompact hlt
  have hflags := getCompact_flags hlt
  rw [deriveTarget]
  generalize setCompact (getCompact n) = read at hvalue hflags
  obtain ⟨value, fNegative, fOverflow⟩ := read
  obtain ⟨rfl, rfl⟩ := Prod.mk.inj hflags
  dsimp only at hvalue ⊢
  subst hvalue
  have hle := (trunc_le n).trans hn
  constructor
  · rintro ⟨target, htarget⟩
    by_contra hzero
    obtain rfl : n = 0 := by omega
    rw [if_pos (.inr (.inl (Nat.le_zero.mp (trunc_le 0))))] at htarget
    cases htarget
  · intro hpos
    have htrunc := trunc_pos hpos
    refine ⟨_, if_neg ?_⟩
    rintro (h | h | h | h)
    · cases h
    · omega
    · cases h
    · omega

/-- The limits the functions give a target are met, and a quotient of at least one is accepted. -/
theorem deriveTarget_quotient (params : ConsensusParams) {product divisor : ℕ}
    (hlimit : 0 < uintToArith256 params.powLimit) (hdivisor : 0 < divisor) :
    (∃ target, deriveTarget (getCompact (min (product / divisor)
        (uintToArith256 params.powLimit))) params.powLimit = some target) ↔
      divisor ≤ product := by
  rw [deriveTarget_getCompact params (min_le_right _ _), lt_min_iff, and_iff_left hlimit,
    Nat.div_pos_iff, and_iff_right hdivisor]

/-! ## Which tips can be extended -/

/-- The time since the first block of an interval of two weeks, between half a week and eight
weeks. -/
def interval (pindexLast : BlockIndex) (nFirstBlockTime : ℤ) : ℕ :=
  (min (max (pindexLast.getBlockTime - nFirstBlockTime) 302400) 4838400).toNat

/-- Both functions multiply without losing bits, and a block with the target they ask for can
follow. -/
structure Extendable (params : ConsensusParams) (pindexLast : BlockIndex)
    (ancestors : List BlockIndex) (nFirstBlockTime : ℤ) : Prop where
  lwma_exact : windowSize ≤ ancestors.length →
    (setCompact pindexLast.nBits).1 * targetSpacing % 2 ^ 256 =
      (setCompact pindexLast.nBits).1 * targetSpacing
  lwma : ∃ target,
    deriveTarget (calculate params (pindexLast :: ancestors)) params.powLimit = some target
  next_exact : params.fPowNoRetargeting = false →
    mulTimespan (setCompact pindexLast.nBits).1
        (actualTimespan params pindexLast nFirstBlockTime) =
      (setCompact pindexLast.nBits).1 * actualTimespan params pindexLast nFirstBlockTime
  next : ∃ target, deriveTarget (calculateNextWorkRequired params pindexLast nFirstBlockTime)
    params.powLimit = some target

section Extension
variable {network : Network} {pindexLast : BlockIndex} {ancestors : List BlockIndex} {target : ℕ}

theorem powLimit_pos (network : Network) : 0 < uintToArith256 network.params.powLimit := by
  cases network <;> decide +kernel

theorem timespan_params (network : Network) : network.params.nPowTargetTimespan = 1209600 := by
  cases network <;> rfl

theorem noRetargeting_iff (network : Network) :
    network.params.fPowNoRetargeting = true ↔ network = .regtest := by
  cases network <;> decide

theorem actualTimespan_eq (network : Network) (pindexLast : BlockIndex) (nFirstBlockTime : ℤ) :
    actualTimespan network.params pindexLast nFirstBlockTime =
      interval pindexLast nFirstBlockTime := by
  unfold actualTimespan interval
  rw [timespan_params]
  dsimp only
  congr 1
  split_ifs <;> omega

/-- The weighted average. -/
theorem calculate_extends
    (h : deriveTarget pindexLast.nBits network.params.powLimit = some target) :
    ((windowSize ≤ ancestors.length → target * targetSpacing % 2 ^ 256 = target * targetSpacing) ∧
        ∃ t, deriveTarget (calculate network.params (pindexLast :: ancestors))
          network.params.powLimit = some t) ↔
      ancestors.length < windowSize ∨ target * targetSpacing < 2 ^ 256 ∧
        averageSolveTime (pindexLast :: ancestors) ≤ target * targetSpacing := by
  have hlimit := powLimit_pos network
  by_cases hshort : ancestors.length < windowSize
  · have hearly := (deriveTarget_getCompact network.params le_rfl).mpr hlimit
    rw [calculate_early _ hshort]
    simp only [hshort, true_or, iff_true]
    exact ⟨fun hwindow => absurd hshort (not_lt.mpr hwindow), hearly⟩
  · have hwindow := not_lt.mp hshort
    have hpos := (@averageSolveTime_bounds (pindexLast :: ancestors)
      (Nat.lt_succ_of_le hwindow)).1
    rw [calculate_window _ hwindow, setCompact_of_deriveTarget h,
      deriveTarget_quotient _ hlimit (by omega), or_iff_right hshort]
    simp only [hwindow, forall_const]
    constructor
    · intro hexact
      exact ⟨hexact.1 ▸ Nat.mod_lt _ (by decide), hexact.1 ▸ hexact.2⟩
    · intro hfits
      rw [Nat.mod_eq_of_lt hfits.1]
      exact ⟨rfl, hfits.2⟩

/-- The other rule. -/
theorem calculateNextWorkRequired_extends (nFirstBlockTime : ℤ)
    (h : deriveTarget pindexLast.nBits network.params.powLimit = some target) :
    ((network.params.fPowNoRetargeting = false →
          mulTimespan target (interval pindexLast nFirstBlockTime) =
            target * interval pindexLast nFirstBlockTime) ∧
        ∃ t, deriveTarget (calculateNextWorkRequired network.params pindexLast nFirstBlockTime)
          network.params.powLimit = some t) ↔
      network = .regtest ∨ target * interval pindexLast nFirstBlockTime < 2 ^ 256 ∧
        1209600 ≤ target * interval pindexLast nFirstBlockTime := by
  rw [← noRetargeting_iff]
  by_cases hfixed : network.params.fPowNoRetargeting = true
  · rw [calculateNextWorkRequired, if_pos hfixed, h]
    simp [hfixed]
  · have hword : interval pindexLast nFirstBlockTime < 2 ^ 32 := by
      unfold interval
      omega
    have hclamp : ∀ n limit : ℕ, (if n > limit then limit else n) = min n limit := by
      intro n limit
      rw [min_def]
      split_ifs <;> omega
    rw [calculateNextWorkRequired, if_neg hfixed, actualTimespan_eq, timespan_params,
      setCompact_of_deriveTarget h]
    dsimp only
    rw [hclamp, deriveTarget_quotient _ (powLimit_pos network) (by decide), or_iff_right hfixed]
    simp only [hfixed, forall_const, mulTimespan, Nat.mod_eq_of_lt hword]
    constructor
    · intro hexact
      exact ⟨hexact.1 ▸ Nat.mod_lt _ (by decide), hexact.1 ▸ hexact.2⟩
    · intro hfits
      rw [Nat.mod_eq_of_lt hfits.1]
      exact ⟨rfl, hfits.2⟩

/-- **A tip can be extended exactly when there is no full window yet, or `600` times its target
fits and is at least the average solve time; and when the network never retargets, or its target
times the interval fits and is at least the two weeks aimed at.** -/
theorem extendable_iff (nFirstBlockTime : ℤ)
    (h : deriveTarget pindexLast.nBits network.params.powLimit = some target) :
    Extendable network.params pindexLast ancestors nFirstBlockTime ↔
      (ancestors.length < windowSize ∨ target * targetSpacing < 2 ^ 256 ∧
        averageSolveTime (pindexLast :: ancestors) ≤ target * targetSpacing) ∧
      (network = .regtest ∨ target * interval pindexLast nFirstBlockTime < 2 ^ 256 ∧
        1209600 ≤ target * interval pindexLast nFirstBlockTime) := by
  rw [← calculate_extends h, ← calculateNextWorkRequired_extends nFirstBlockTime h]
  have hvalue := setCompact_of_deriveTarget h
  have hinterval := actualTimespan_eq network pindexLast nFirstBlockTime
  constructor
  · rintro ⟨hlwma, hcalculate, hexact, hnext⟩
    rw [hvalue] at hlwma hexact
    rw [hinterval] at hexact
    exact ⟨⟨hlwma, hcalculate⟩, hexact, hnext⟩
  · rintro ⟨⟨hlwma, hcalculate⟩, hexact, hnext⟩
    rw [← hvalue] at hlwma hexact
    rw [← hinterval] at hexact
    exact ⟨hlwma, hcalculate, hexact, hnext⟩

/-- Targets that are neither among the easiest nor among the hardest. -/
theorem extendable_of_target (nFirstBlockTime : ℤ)
    (h : deriveTarget pindexLast.nBits network.params.powLimit = some target)
    (hlow : 6 ≤ target) (hhigh : target * 4838400 < 2 ^ 256) :
    Extendable network.params pindexLast ancestors nFirstBlockTime := by
  have hinterval : 302400 ≤ interval pindexLast nFirstBlockTime ∧
      interval pindexLast nFirstBlockTime ≤ 4838400 := by
    unfold interval
    omega
  rw [extendable_iff nFirstBlockTime h]
  constructor
  · rw [or_iff_not_imp_left, not_lt]
    intro hwindow
    have haverage := (@averageSolveTime_bounds (pindexLast :: ancestors)
      (Nat.lt_succ_of_le hwindow)).2.1
    unfold targetSpacing
    omega
  · right
    constructor
    · exact (Nat.mul_le_mul_left target hinterval.2).trans_lt hhigh
    · calc 1209600 ≤ 6 * 302400 := by decide
        _ ≤ target * interval pindexLast nFirstBlockTime := Nat.mul_le_mul hlow hinterval.1

end Extension

/-- The tip of a chain with a block every ten minutes. -/
theorem extendable_late : deriveTarget (late 0).nBits mainParams.powLimit =
      some (0xffff * 256 ^ 26) ∧
    Extendable mainParams (late 0) (spaced 600 45) 0 := by
  have htip : deriveTarget (late 0).nBits Network.main.params.powLimit =
      some (0xffff * 256 ^ 26) := deriveTarget_tip 0
  have haverage : averageSolveTime (late 0 :: spaced 600 45) = 600 := by decide +kernel
  refine ⟨htip, (extendable_iff 0 htip).mpr ⟨.inr ?_, .inr (by decide)⟩⟩
  rw [haverage]
  decide

/-! ## A chain of easy blocks -/

/-- A chain of blocks with the target `2 ^ 255`, one every ten minutes. -/
def easy : ℕ → List BlockIndex
  | 0 => []
  | n + 1 => { nTime := UInt32.ofNat (600 * n), nBits := 0x21008000 } :: easy n

theorem nBits_easy : ∀ n, ∀ pindex ∈ easy n, pindex.nBits = 0x21008000
  | 0, _, h => by cases h
  | n + 1, pindex, h => by
      rcases List.mem_cons.mp h with rfl | h
      · rfl
      · exact nBits_easy n pindex h

/-- **All blocks are accepted, the product with `600` wraps around to zero, and the target that
the next block is asked for is refused.** -/
theorem calculate_easy :
    (∀ pindex ∈ easy 46, deriveTarget pindex.nBits mainParams.powLimit = some (2 ^ 255)) ∧
      2 ^ 255 * targetSpacing % 2 ^ 256 = 0 ∧
      deriveTarget (calculate mainParams (easy 46)) mainParams.powLimit = none := by
  refine ⟨fun pindex h => ?_, by decide, by decide +kernel⟩
  rw [nBits_easy 46 pindex h]
  decide +kernel

end BhtBhte.Pow
