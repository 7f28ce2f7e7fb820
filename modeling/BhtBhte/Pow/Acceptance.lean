import BhtBhte.Lib.Lists
import BhtBhte.Pow.ProgPow

/-!
# The three ProgPoW tests

The hash is written into the first eight bytes of its buffer only.  What lies behind them is what
the memory held, and in the little-endian order these are the bytes that count most.  So a verdict
depends on the memory unless the target ends in bytes that leave nothing to it.
`acceptanceAgrees_iff_decided` says which these are.
-/
namespace BhtBhte.Pow

open BhtBhte.Lib
open BhtBhte.Spv (uintToArith256)

/-! ## What is written -/

/-- The bytes 3, 7, up to 31 of the digest of `hashInput`. -/
def keptBytes (blockNumber nonce : UInt64) (headerHash : Uint256) : Bytes :=
  let sha256Output := SHA256.hash (hashInput blockNumber nonce headerHash)
  (List.range 8).map fun i => sha256Output.getD (i * 4 + 3) 0

theorem length_keptBytes (blockNumber nonce : UInt64) (headerHash : Uint256) :
    (keptBytes blockNumber nonce headerHash).length = 8 := by
  rw [keptBytes, List.length_map, List.length_range]

/-- A byte keeps the last byte of a word. -/
theorem toUInt8_wordBE (data : Bytes) (off : ℕ) :
    (wordBE data off).toUInt8 = data.getD (off + 3) 0 := by
  rw [wordBE]
  apply UInt8.toBitVec_inj.mp
  simp

/-- Only the first eight bytes of the buffer are written. -/
theorem toList_hash (pow : CProgPoW) (headerHash : Uint256) (nonce : UInt64)
    (output : Uint256) :
    (pow.hash headerHash nonce output).toList =
      keptBytes pow.mBlockNumber nonce headerHash ++ output.toList.drop 8 := by
  let sha256Output := SHA256.hash (hashInput pow.mBlockNumber nonce headerHash)
  have hlen : 8 ≤ output.toList.length := by simp
  calc (pow.hash headerHash nonce output).toList
      = (List.range 8).foldl (fun l i => l.set i (wordBE sha256Output (i * 4)).toUInt8)
          output.toList := by
        rw [CProgPoW.hash]
        refine (List.foldl_hom Vector.toList fun v i => ?_).symm
        rw [Vector.toList_setIfInBounds]
    _ = keptBytes pow.mBlockNumber nonce headerHash ++ output.toList.drop 8 := by
        rw [foldl_set_range _ _ hlen, keptBytes]
        congr 1
        exact List.map_congr_left fun i _ => toUInt8_wordBE sha256Output (i * 4)

@[simp] theorem mBlockNumber_initializeFor (pow : CProgPoW) (blockNumber : UInt64) :
    (pow.initializeFor blockNumber).mBlockNumber = blockNumber := rfl

/-! ## The little-endian order -/

theorem uintToArith256_eq_bytesValue (bytes : Bytes) :
    uintToArith256 bytes = bytesValue bytes := by
  induction bytes with
  | nil => rfl
  | cons x bytes ih =>
      rw [bytesValue_cons, ← ih]
      rfl

/-! ## The three verdicts -/

/-- The three tests give one verdict, whatever the buffers and the hasher held before. -/
def AcceptanceAgrees (headerHash : Uint256) (nonce blockNumber : UInt64) (target : Uint256) :
    Prop :=
  ∃ verdict, ∀ (pow : CProgPoW) (buffer₁ buffer₂ buffer₃ : Uint256),
    (pow.initializeFor blockNumber).verify buffer₁ headerHash nonce target = verdict ∧
      checkProgPoWProof buffer₂ headerHash nonce blockNumber target = verdict ∧
      hashWithin (progPoWHash buffer₃ headerHash nonce blockNumber)
        (uintToArith256 target.toList) = verdict

/-- The last 24 bytes of the target are all `0xff` or all `0x00`, and its first eight are
accordingly at least or less than the digest bytes, in the order of both ends. -/
def Decided (kept : Bytes) (target : Uint256) : Prop :=
  let front := target.toList.take 8
  let tail := target.toList.drop 8
  (tail = List.replicate 24 255 ∧ lexLE kept front = true ∧
      uintToArith256 kept ≤ uintToArith256 front) ∨
    (tail = List.replicate 24 0 ∧ lexLE kept front = false ∧
      uintToArith256 front < uintToArith256 kept)

section Verdicts
variable {headerHash target : Uint256} {nonce blockNumber : UInt64}

/-- The bytes behind the digest bytes range over everything. -/
theorem forall_buffer_iff (p : Bytes → Prop) :
    (∀ buffer : Uint256, p (buffer.toList.drop 8)) ↔ ∀ c : Bytes, c.length = 24 → p c := by
  constructor
  · intro h c hc
    have hsize : (List.replicate 8 (0 : UInt8) ++ c).toArray.size = 32 := by simp [hc]
    have hbuffer := h ⟨(List.replicate 8 0 ++ c).toArray, hsize⟩
    rwa [show Vector.toList (⟨(List.replicate 8 (0 : UInt8) ++ c).toArray, hsize⟩ : Uint256) =
      List.replicate 8 0 ++ c from rfl, List.drop_left' List.length_replicate] at hbuffer
  · intro h buffer
    exact h _ (by simp)

theorem toList_progPoWHash (buffer : Uint256) :
    (progPoWHash buffer headerHash nonce blockNumber).toList =
      keptBytes blockNumber nonce headerHash ++ buffer.toList.drop 8 := toList_hash _ _ _ _

/-- The tests agree when both orders decide alike on all continuations of the digest bytes. -/
theorem acceptanceAgrees_iff_forall : AcceptanceAgrees headerHash nonce blockNumber target ↔
    ∃ verdict, (∀ c : Bytes, c.length = 24 →
        lexLE (keptBytes blockNumber nonce headerHash ++ c) target.toList = verdict) ∧
      ∀ c : Bytes, c.length = 24 →
        (decide (uintToArith256 (keptBytes blockNumber nonce headerHash ++ c) ≤
          uintToArith256 target.toList)) = verdict := by
  have hwithin : ∀ (hash : Uint256) (n : ℕ),
      hashWithin hash n = decide (uintToArith256 hash.toList ≤ n) := by
    intro hash n
    rw [hashWithin]
    split_ifs with h
    · exact (decide_eq_false (by omega)).symm
    · exact (decide_eq_true (by omega)).symm
  refine exists_congr fun verdict => ?_
  rw [← forall_buffer_iff fun c =>
      lexLE (keptBytes blockNumber nonce headerHash ++ c) target.toList = verdict,
    ← forall_buffer_iff fun c => decide (uintToArith256 (keptBytes blockNumber nonce headerHash
      ++ c) ≤ uintToArith256 target.toList) = verdict]
  simp only [CProgPoW.verify, checkProgPoWProof, hwithin, toList_hash, toList_progPoWHash,
    mBlockNumber_initializeFor]
  constructor
  · intro h
    exact ⟨fun b => (h {} b b b).1, fun b => (h {} b b b).2.2⟩
  · rintro ⟨hlex, hvalue⟩ pow b₁ b₂ b₃
    exact ⟨hlex b₁, hlex b₂, hvalue b₃⟩

theorem decided_iff_forall (kept : Bytes) (hkept : kept.length = 8) : Decided kept target ↔
    ∃ verdict, (∀ c : Bytes, c.length = 24 → lexLE (kept ++ c) target.toList = verdict) ∧
      ∀ c : Bytes, c.length = 24 →
        decide (uintToArith256 (kept ++ c) ≤ uintToArith256 target.toList) = verdict := by
  have hfront : kept.length = (target.toList.take 8).length := by simp [hkept]
  have htail : (target.toList.drop 8).length = 24 := by simp
  have hlex := @forall_lexLE_append _ _ (target.toList.drop 8) hfront
  have hnot := @forall_not_lexLE_append _ _ (target.toList.drop 8) hfront
  have hin := @forall_bytesValue_le_append _ _ (target.toList.drop 8) hfront
  have hout := @forall_lt_bytesValue_append _ _ (target.toList.drop 8) hfront
  rw [htail, List.take_append_drop] at hlex hnot hin hout
  rw [Bool.exists_bool, hlex, hnot]
  simp only [uintToArith256_eq_bytesValue, decide_eq_true_eq, decide_eq_false_iff_not, not_le,
    hin, hout, Decided]
  constructor
  · rintro (⟨h₁, h₂, h₃⟩ | ⟨h₁, h₂, h₃⟩)
    · exact .inr ⟨⟨h₂, fun _ => h₁⟩, h₁, h₃⟩
    · exact .inl ⟨h₂, h₁, h₃⟩
  · rintro (⟨h₂, h₁, h₃⟩ | ⟨⟨h₂, -⟩, h₁, h₃⟩)
    · exact .inr ⟨h₁, h₂, h₃⟩
    · exact .inl ⟨h₁, h₂, h₃⟩

/-- **The tests agree exactly on the targets that leave nothing to the memory.** -/
theorem acceptanceAgrees_iff_decided (headerHash target : Uint256) (nonce blockNumber : UInt64) :
    AcceptanceAgrees headerHash nonce blockNumber target ↔
      Decided (keptBytes blockNumber nonce headerHash) target :=
  acceptanceAgrees_iff_forall.trans (decided_iff_forall _ (length_keptBytes _ _ _)).symm

end Verdicts

/-- A target in the middle of the range. -/
def middleTarget : Uint256 := Vector.replicate 32 0x80

/-- Such a target is met or missed by one hash, as the memory has it. -/
theorem not_acceptanceAgrees_middle :
    ¬ AcceptanceAgrees (Vector.replicate 32 0) 0 0 middleTarget := by
  rw [acceptanceAgrees_iff_forall, ← decided_iff_forall _ (length_keptBytes _ _ _)]
  rintro (⟨htail, -⟩ | ⟨htail, -⟩)
  · exact absurd htail (by decide)
  · exact absurd htail (by decide)

end BhtBhte.Pow
