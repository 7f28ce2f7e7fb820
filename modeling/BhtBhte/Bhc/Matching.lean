import BhtBhte.Bhc.AuxPow
import BhtBhte.Spv.Work
import Mathlib.Data.Nat.Digits.Lemmas

/-!
# Matching a block of the other chain

`findMatchingBHCBlock` and `isValidAuxProof` of `bhc/coordinator/coordinator.go`.  The value that is
compared is the hash with the bytes of the target behind it, cut to its last 32 bytes.  The target
is at the end of what is kept, so the value is never below the target, and it is compared with a
millionth of the target.  So no hash is valid and no block is found (`never_matches`).
-/
namespace BhtBhte.Coordinator

open BhtBhte.AuxPow (Rpc getLatestBHCHeight getBHCBlockHash)
open BhtBhte.Channel (Hash)
open BhtBhte.Node (rightAlign length_rightAlign)
open BhtBhte.Spv (setBytes setBytes_append)

/-- `big.Int.Bytes`: the absolute value, most significant byte first, without zeros in front. -/
def bigBytes (n : ℤ) : List UInt8 := (Nat.digits 256 n.natAbs).reverse.map UInt8.ofNat

/-- `common.HashLength` -/
def hashLength : ℕ := 32

/-- `common.BytesToHash`: the last 32 bytes, or zeros in front. -/
def bytesToHash (b : List UInt8) : Hash :=
  ⟨rightAlign hashLength b, length_rightAlign hashLength b⟩

/-- The hash with the bytes of the target behind it, cut to its last 32 bytes. -/
def combinedHash (blockHash : Hash) (targetDifficulty : ℤ) : Hash :=
  bytesToHash (blockHash.1 ++ bigBytes targetDifficulty)

/-- Whether the combined value is below the millionth part of the target. -/
def isValidAuxProof (blockHash : Hash) (targetDifficulty : ℤ) : Bool :=
  let hashInt : ℤ := setBytes (combinedHash blockHash targetDifficulty).1
  let divisor := targetDifficulty / 1000000
  decide (hashInt < divisor)

/-- The seconds of `MaxMergeMiningDelay`. -/
def matchingRounds : ℕ := 30

/-- The loop of `findMatchingBHCBlock` from `i`, with the rounds that are left. -/
def findMatchingFrom (rpc : Rpc) (currentHeight : UInt64) (targetDifficulty : ℤ) :
    ℕ → UInt64 → Except String Hash
  | 0, _ => .error "no valid BHC block found"
  | rounds + 1, i =>
    let checkHeight := currentHeight - i
    if checkHeight < 1 then .error "no valid BHC block found"
    else
      match getBHCBlockHash rpc checkHeight with
      | .error _ => findMatchingFrom rpc currentHeight targetDifficulty rounds (i + 1)
      | .ok blockHash =>
        if isValidAuxProof blockHash targetDifficulty then .ok blockHash
        else findMatchingFrom rpc currentHeight targetDifficulty rounds (i + 1)

/-- The first of the newest blocks whose hash is valid for a difficulty. -/
def findMatchingBHCBlock (rpc : Rpc) (bhteDifficulty : ℤ) : Except String Hash :=
  match getLatestBHCHeight rpc with
  | .error e => .error e
  | .ok currentHeight =>
    findMatchingFrom rpc currentHeight (bhteDifficulty / 1000) matchingRounds 0

/-- Some hash is valid for the difficulty, some node has a match, and with a hash every smaller
one is valid. -/
structure CanMatch (bhteDifficulty : ℤ) : Prop where
  satisfiable : ∃ blockHash, isValidAuxProof blockHash (bhteDifficulty / 1000) = true
  found : ∃ rpc blockHash, findMatchingBHCBlock rpc bhteDifficulty = .ok blockHash
  monotone : ∀ smaller larger : Hash, setBytes smaller.1 ≤ setBytes larger.1 →
    isValidAuxProof larger (bhteDifficulty / 1000) = true →
    isValidAuxProof smaller (bhteDifficulty / 1000) = true

/-! ## The value that is compared -/

theorem setBytes_map_reverse_digits {l : List ℕ} (h : ∀ d ∈ l, d < 256) :
    setBytes (l.reverse.map UInt8.ofNat) = Nat.ofDigits 256 l := by
  induction l with
  | nil => rfl
  | cons d l ih =>
      rw [List.reverse_cons, List.map_append, setBytes_append,
        ih fun x hx => h x (List.mem_cons_of_mem d hx), Nat.ofDigits_cons]
      have hd : (UInt8.ofNat d).toNat = d :=
        UInt8.toNat_ofNat_of_lt' (h d List.mem_cons_self)
      simp only [List.map_cons, List.map_nil, List.foldl_cons, List.foldl_nil, hd]
      rw [Nat.add_comm, Nat.mul_comm]

/-- The bytes of a number are read back. -/
theorem setBytes_bigBytes (n : ℤ) : setBytes (bigBytes n) = n.natAbs := by
  rw [bigBytes, setBytes_map_reverse_digits fun d hd => Nat.digits_lt_base (by decide) hd,
    Nat.ofDigits_digits]

theorem length_bigBytes_le {n : ℤ} {k : ℕ} (h : n.natAbs < 256 ^ k) : (bigBytes n).length ≤ k := by
  rw [bigBytes, List.length_map, List.length_reverse]
  exact (Nat.digits_length_le_iff (by decide) _).mpr h

theorem le_setBytes_append (a b : List UInt8) : setBytes b ≤ setBytes (a ++ b) := by
  have hmono : ∀ (l : List UInt8) (x y : ℕ), x ≤ y →
      l.foldl (fun acc c => acc * 256 + c.toNat) x ≤
        l.foldl (fun acc c => acc * 256 + c.toNat) y := by
    intro l
    induction l with
    | nil => exact fun _ _ hxy => hxy
    | cons c l ih =>
        intro x y hxy
        exact ih _ _ (Nat.add_le_add_right (Nat.mul_le_mul_right 256 hxy) c.toNat)
  rw [setBytes_append]
  exact hmono b 0 _ (Nat.zero_le _)

/-- What is cut to 32 bytes keeps the end. -/
theorem rightAlign_append {a b : List UInt8} {k : ℕ} (ha : a.length = k) (hb : b.length ≤ k) :
    rightAlign k (a ++ b) = a.drop b.length ++ b := by
  have hdrop : (a ++ b).length - k = b.length := by
    rw [List.length_append]
    omega
  have hfull : k - (a ++ b).length = 0 := by
    rw [List.length_append]
    omega
  rw [rightAlign, hfull, hdrop, List.replicate_zero, List.nil_append,
    List.drop_append_of_le_length (by omega)]

/-- **The value is at least the target**, whatever the hash. -/
theorem le_setBytes_combinedHash (blockHash : Hash) {target : ℤ}
    (hbits : target.natAbs < 2 ^ 256) :
    target.natAbs ≤ setBytes (combinedHash blockHash target).1 := by
  have hlength : (bigBytes target).length ≤ 32 := length_bigBytes_le hbits
  calc target.natAbs = setBytes (bigBytes target) := (setBytes_bigBytes target).symm
    _ ≤ setBytes (blockHash.1.drop (bigBytes target).length ++ bigBytes target) :=
      le_setBytes_append _ _
    _ = setBytes (combinedHash blockHash target).1 :=
      congrArg setBytes (rightAlign_append blockHash.2 hlength).symm

theorem isValidAuxProof_eq_false (blockHash : Hash) {target : ℤ}
    (hbits : target.natAbs < 2 ^ 256) : isValidAuxProof blockHash target = false := by
  have hvalue := le_setBytes_combinedHash blockHash hbits
  simp only [isValidAuxProof, decide_eq_false_iff_not, not_lt]
  omega

/-! ## The search -/

theorem findMatchingFrom_ne_ok {target : ℤ}
    (hinvalid : ∀ blockHash, isValidAuxProof blockHash target = false) (rpc : Rpc)
    (currentHeight : UInt64) (rounds : ℕ) (i : UInt64) (blockHash : Hash) :
    findMatchingFrom rpc currentHeight target rounds i ≠ .ok blockHash := by
  induction rounds generalizing i with
  | zero => simp [findMatchingFrom]
  | succ rounds ih =>
      rw [findMatchingFrom]
      split_ifs with hlow
      · simp
      · cases getBHCBlockHash rpc (currentHeight - i) with
        | error e => exact ih (i + 1)
        | ok found =>
            simp only [hinvalid found, Bool.false_eq_true, if_false]
            exact ih (i + 1)

theorem findMatchingBHCBlock_ne_ok {d : ℤ}
    (hinvalid : ∀ blockHash, isValidAuxProof blockHash (d / 1000) = false) (rpc : Rpc)
    (blockHash : Hash) : findMatchingBHCBlock rpc d ≠ .ok blockHash := by
  rw [findMatchingBHCBlock]
  cases getLatestBHCHeight rpc with
  | error e => simp
  | ok currentHeight => exact findMatchingFrom_ne_ok hinvalid rpc currentHeight _ 0 blockHash

theorem natAbs_div_lt {d : ℤ} (hbits : d.natAbs < 2 ^ 256) (hpos : 0 < d / 1000 / 1000000) :
    (d / 1000).natAbs < 2 ^ 256 := by
  omega

/-- **Merge mining never matches a block**: for no difficulty is there a valid hash, and no node
has a match. -/
theorem never_matches (d : ℤ) (hbits : d.natAbs < 2 ^ 256) (hpos : 0 < d / 1000 / 1000000) :
    ¬ CanMatch d ∧ (∀ blockHash, isValidAuxProof blockHash (d / 1000) = false) ∧
      ∀ rpc blockHash, findMatchingBHCBlock rpc d ≠ .ok blockHash := by
  have hinvalid : ∀ blockHash, isValidAuxProof blockHash (d / 1000) = false := fun blockHash =>
    isValidAuxProof_eq_false blockHash (natAbs_div_lt hbits hpos)
  refine ⟨fun hcan => ?_, hinvalid, findMatchingBHCBlock_ne_ok hinvalid⟩
  obtain ⟨blockHash, hvalid⟩ := hcan.satisfiable
  rw [hinvalid blockHash] at hvalid
  cases hvalid

theorem never_matches_gwei :
    ¬ CanMatch 1000000000 ∧ (∀ blockHash, isValidAuxProof blockHash (1000000000 / 1000) = false) ∧
      ∀ rpc blockHash, findMatchingBHCBlock rpc 1000000000 ≠ .ok blockHash :=
  never_matches 1000000000 (by decide) (by decide)

/-- The hash with the smallest number is refused at a difficulty whose divisor is not zero. -/
theorem not_canMatch_gwei :
    0 < (1000000000 : ℤ) / 1000 / 1000000 ∧
      isValidAuxProof (bytesToHash []) (1000000000 / 1000) = false ∧ ¬ CanMatch 1000000000 := by
  refine ⟨by decide, isValidAuxProof_eq_false _ (by decide), fun hcan => ?_⟩
  obtain ⟨blockHash, hvalid⟩ := hcan.satisfiable
  rw [isValidAuxProof_eq_false blockHash (by decide)] at hvalid
  cases hvalid

end BhtBhte.Coordinator
