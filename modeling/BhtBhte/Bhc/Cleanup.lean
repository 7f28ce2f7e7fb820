import BhtBhte.Bhc.Confirmations
import BhtBhte.Lib.Runs

/-!
# Cleaning up validated blocks

A cleanup drops the blocks whose depth, a difference of words, is above the maximum.  The difference
wraps where the block is above the height that the cleanup was given, and that height is `0` when
the query for it fails.  Whatever is dropped is dropped from both maps.  `clean_run_iff`: a run is
clean throughout exactly when its heights spare what they should.
-/
namespace BhtBhte.AuxPow

open BhtBhte.Lib
open BhtBhte.Channel (Hash)

variable {sha256 : List UInt8 → Hash} {σ : RangeOrder} {currentHeight r : UInt64}
  {v w : AuxPoWVerifier} {op : Op} {hash : Hash} {data : AuxPoWData} {tip : ℕ}

/-- The height that the operation cleans up with. -/
def Op.reported : Op → Option UInt64
  | .verifyAuxPoW _ _ => none
  | .processNewBHCBlock rpc _ height =>
      match getBHCBlockHash rpc height with
      | .error _ => none
      | .ok _ => some height
  | .cleanupOldAuxBlocks rpc _ =>
      match getLatestBHCHeight rpc with
      | .error _ => some 0
      | .ok height => some height

/-- The depth at the height is above the maximum. -/
def TooDeep (currentHeight : UInt64) (data : AuxPoWData) : Prop :=
  currentHeight - data.bhcHeight > maxAuxChainDepth

instance (currentHeight : UInt64) (data : AuxPoWData) : Decidable (TooDeep currentHeight data) :=
  inferInstanceAs (Decidable (_ > _))

/-- The two maps have the same keys. -/
def AuxPoWVerifier.SameKeys (v : AuxPoWVerifier) : Prop :=
  ∀ hash, hash ∈ v.auxBlocks.keys ↔ hash ∈ v.validatedBlocks.keys

/-! ## What a cleanup drops -/

/-- The blocks that the loop comes to and that are too deep are erased from both maps. -/
theorem foldl_cleanupBlock (l : List (Hash × AuxPoWData)) (v : AuxPoWVerifier) :
    l.foldl (cleanupBlock currentHeight) v =
      { auxBlocks :=
          (l.filter (TooDeep currentHeight ·.2)).foldl (fun m e => m.erase e.1) v.auxBlocks
        validatedBlocks :=
          (l.filter (TooDeep currentHeight ·.2)).foldl (fun m e => m.erase e.1)
            v.validatedBlocks } := by
  induction l generalizing v with
  | nil => rfl
  | cons e l ih =>
      rw [List.foldl_cons, ih]
      by_cases hdeep : TooDeep currentHeight e.2
      · have hstep : cleanupBlock currentHeight v e = _ := if_pos hdeep
        simp [hstep, hdeep]
      · have hstep : cleanupBlock currentHeight v e = v := if_neg hdeep
        simp [hstep, hdeep]

/-- A block hash whose block is kept and too deep. -/
def AuxPoWVerifier.Drops (v : AuxPoWVerifier) (currentHeight : UInt64) (hash : Hash) : Prop :=
  ∃ data, v.auxBlocks.get? hash = some data ∧ TooDeep currentHeight data

theorem mem_map_filter_range :
    hash ∈ ((v.auxBlocks.range σ).filter (TooDeep currentHeight ·.2)).map Prod.fst ↔
      v.Drops currentHeight hash := by
  simp only [List.mem_map, List.mem_filter, FinMap.mem_range, decide_eq_true_eq, Prod.exists,
    exists_and_right, exists_eq_right, AuxPoWVerifier.Drops, FinMap.get?_eq_some]

/-- What is left of the blocks. -/
theorem mem_auxBlocks_cleanup :
    hash ∈ (cleanupOldBlocksLocked σ currentHeight v).auxBlocks.keys ↔
      hash ∈ v.auxBlocks.keys ∧ ¬ v.Drops currentHeight hash := by
  rw [cleanupOldBlocksLocked, foldl_cleanupBlock]
  exact FinMap.mem_keys_foldl_erase.trans (and_congr_right' (not_congr mem_map_filter_range))

/-- What is left of the marks. -/
theorem mem_validatedBlocks_cleanup :
    hash ∈ (cleanupOldBlocksLocked σ currentHeight v).validatedBlocks.keys ↔
      hash ∈ v.validatedBlocks.keys ∧ ¬ v.Drops currentHeight hash := by
  rw [cleanupOldBlocksLocked, foldl_cleanupBlock]
  exact FinMap.mem_keys_foldl_erase.trans (and_congr_right' (not_congr mem_map_filter_range))

/-! ## The keys -/

theorem AuxPoWVerifier.SameKeys.cleanup (h : v.SameKeys) (σ : RangeOrder) (currentHeight : UInt64) :
    (cleanupOldBlocksLocked σ currentHeight v).SameKeys := by
  intro hash
  rw [mem_auxBlocks_cleanup, mem_validatedBlocks_cleanup, h hash]

theorem AuxPoWVerifier.SameKeys.keep (h : v.SameKeys) (auxData : AuxPoWData) :
    (v.keep auxData).SameKeys := by
  intro hash
  rw [AuxPoWVerifier.keep, FinMap.mem_keys_insert, FinMap.mem_keys_insert, h hash]

/-- An operation cleans up with the height it was given, or drops nothing. -/
theorem exec_cases (sha256 : List UInt8 → Hash) (op : Op) (v : AuxPoWVerifier) :
    (∃ σ r, op.reported = some r ∧ exec sha256 op v = cleanupOldBlocksLocked σ r v) ∨
      op.reported = none ∧
        (exec sha256 op v = v ∨ ∃ auxData, exec sha256 op v = v.keep auxData) := by
  cases op with
  | verifyAuxPoW rpc auxData =>
      exact .inr ⟨rfl, (verifyAuxPoW_state sha256 rpc auxData v).imp_right fun h => ⟨_, h⟩⟩
  | processNewBHCBlock rpc σ height =>
      cases hhash : getBHCBlockHash rpc height with
      | error e => exact .inr ⟨by rw [Op.reported, hhash], .inl (by
          rw [exec, processNewBHCBlock, hhash])⟩
      | ok hash => exact .inl ⟨σ, height, by rw [Op.reported, hhash], by
          rw [exec, processNewBHCBlock, hhash]⟩
  | cleanupOldAuxBlocks rpc σ =>
      refine .inl ?_
      cases hcount : getLatestBHCHeight rpc with
      | error e => exact ⟨σ, 0, by rw [Op.reported, hcount], by
          rw [exec, cleanupOldAuxBlocks, hcount]⟩
      | ok height => exact ⟨σ, height, by rw [Op.reported, hcount], by
          rw [exec, cleanupOldAuxBlocks, hcount]⟩

/-- **Every operation leaves the two maps with the same keys.** -/
theorem AuxPoWVerifier.SameKeys.exec (h : v.SameKeys) (sha256 : List UInt8 → Hash) (op : Op) :
    (exec sha256 op v).SameKeys := by
  rcases exec_cases sha256 op v with ⟨σ, r, -, hexec⟩ | ⟨-, hexec | ⟨auxData, hexec⟩⟩
  · rw [hexec]
    exact h.cleanup σ r
  · rwa [hexec]
  · rw [hexec]
    exact h.keep auxData

/-! ## Depth -/

/-- From `v` to `w` only blocks are dropped that are deep under the true height, and the maps still
have the same keys. -/
structure Clean (v w : AuxPoWVerifier) (tip : ℕ) : Prop where
  deep : ∀ hash data, v.auxBlocks.get? hash = some data → hash ∉ w.auxBlocks.keys →
    data.bhcHeight.toNat + maxAuxChainDepth.toNat < tip
  sameKeys : w.SameKeys

/-- No kept block that is not deep under the true height is too deep at the height that the
operation cleans up with: that height is neither too far above the block nor, short of the largest
words, below it. -/
def Spares (v : AuxPoWVerifier) (op : Op) (tip : ℕ) : Prop :=
  ∀ r, op.reported = some r → ∀ hash data, v.auxBlocks.get? hash = some data →
    tip ≤ data.bhcHeight.toNat + maxAuxChainDepth.toNat →
      r.toNat ≤ data.bhcHeight.toNat + maxAuxChainDepth.toNat ∧
        (data.bhcHeight ≤ r ∨
          r.toNat + 2 ^ 64 ≤ data.bhcHeight.toNat + maxAuxChainDepth.toNat)

theorem not_tooDeep_iff : ¬ TooDeep r data ↔
    r.toNat ≤ data.bhcHeight.toNat + maxAuxChainDepth.toNat ∧
      (data.bhcHeight ≤ r ∨ r.toNat + 2 ^ 64 ≤ data.bhcHeight.toNat + maxAuxChainDepth.toNat) := by
  rw [TooDeep, gt_iff_lt, lt_sub_iff, UInt64.le_iff_toNat_le]
  omega

theorem drops_iff (hdata : v.auxBlocks.get? hash = some data) :
    v.Drops r hash ↔ TooDeep r data := by
  constructor
  · rintro ⟨data', hdata', hdeep⟩
    obtain rfl : data = data' := Option.some.inj (hdata.symm.trans hdata')
    exact hdeep
  · exact fun hdeep => ⟨data, hdata, hdeep⟩

/-- What an operation that does not clean up keeps. -/
theorem mem_keys_exec (hnone : op.reported = none) (hmem : hash ∈ v.auxBlocks.keys) :
    hash ∈ (exec sha256 op v).auxBlocks.keys := by
  rcases exec_cases sha256 op v with ⟨σ, r, hr, -⟩ | ⟨-, hexec | ⟨auxData, hexec⟩⟩
  · rw [hnone] at hr
    cases hr
  · rwa [hexec]
  · rw [hexec]
    exact FinMap.mem_keys_insert.mpr (.inr hmem)

/-- **One operation is clean exactly when its height spares what it should.** -/
theorem clean_iff (h : v.SameKeys) (op : Op) (tip : ℕ) :
    Clean v (exec sha256 op v) tip ↔ Spares v op tip := by
  constructor
  · intro hclean r hr hash data hdata htip
    rw [← not_tooDeep_iff]
    intro hdeep
    rcases exec_cases sha256 op v with ⟨σ, r', hr', hexec⟩ | ⟨hnone, -⟩
    · obtain rfl : r = r' := Option.some.inj (hr.symm.trans hr')
      have hgone : hash ∉ (exec sha256 op v).auxBlocks.keys := by
        rw [hexec, mem_auxBlocks_cleanup]
        exact fun hleft => hleft.2 ⟨data, hdata, hdeep⟩
      exact absurd (hclean.deep hash data hdata hgone) (by omega)
    · rw [hr] at hnone
      cases hnone
  · intro hspares
    refine ⟨fun hash data hdata hgone => ?_, h.exec sha256 op⟩
    have hmem : hash ∈ v.auxBlocks.keys := FinMap.mem_keys.mpr ⟨data, hdata⟩
    by_contra htip
    rcases exec_cases sha256 op v with ⟨σ, r, hr, hexec⟩ | ⟨hnone, -⟩
    · have hshallow := not_tooDeep_iff.mpr (hspares r hr hash data hdata (by omega))
      rw [hexec, mem_auxBlocks_cleanup, drops_iff hdata] at hgone
      exact hgone ⟨hmem, hshallow⟩
    · exact hgone (mem_keys_exec hnone hmem)

/-! ## Runs -/

/-- The operations, each with the true height at its time. -/
def execAt (sha256 : List UInt8 → Hash) (op : Op × ℕ) : AuxPoWVerifier → AuxPoWVerifier :=
  exec sha256 op.1

/-- **In every run, all operations are clean exactly when all of their heights spare what they
should.** -/
theorem clean_run_iff (sha256 : List UInt8 → Hash) (ops : List (Op × ℕ)) :
    Allowed (execAt sha256) (fun v op => Clean v (execAt sha256 op v) op.2) ops
        newAuxPoWVerifier ↔
      Allowed (execAt sha256) (fun v op => Spares v op.1 op.2) ops newAuxPoWVerifier := by
  have hstart : newAuxPoWVerifier.SameKeys := fun _ => Iff.rfl
  exact allowed_congr_of (I := AuxPoWVerifier.SameKeys) (fun op v h => h.exec sha256 op.1)
    (fun op v h => clean_iff h op.1 op.2) hstart

/-- A node that cannot be reached. -/
def failingRpc : Rpc where
  getBlockCount := .error "connection refused"
  getBlockHash _ := .error "connection refused"

/-- The block at height 100 is validated when the tip is at 112, and then a query fails. -/
def failedQuery : List (Op × ℕ) :=
  [(.verifyAuxPoW (countedRpc 112) (plainProof zeroHash 100 zeroHash), 112),
    (.cleanupOldAuxBlocks failingRpc fun _ => Equiv.refl _, 112)]

/-- The block is dropped although it is twelve deep. -/
theorem not_clean_failedQuery :
    ¬ Allowed (execAt fun _ => zeroHash)
      (fun v op => Clean v (execAt (fun _ => zeroHash) op v) op.2) failedQuery
      newAuxPoWVerifier := by
  rintro ⟨-, hclean, -⟩
  have hstart : newAuxPoWVerifier.SameKeys := fun _ => Iff.rfl
  have hspares := (clean_iff (hstart.exec _ _) _ _).mp hclean
  have hkept := hspares 0 rfl zeroHash (plainProof zeroHash 100 zeroHash) (by decide) (by decide)
  exact absurd hkept.2 (by decide)

end BhtBhte.AuxPow
