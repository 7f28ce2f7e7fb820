import BhtBhte.Spv.Client

/-!
# Proof of work on both layers

The client decodes the compact target into an unbounded integer and compares the hash
with it.  The L1 rule decodes it as Bitcoin does, into 256 bits with a sign and an
overflow flag, and knows a limit.  The two agree on every target within the limit whose
sign bit is clear; beyond that the client accepts whatever is below its target.
-/
namespace BhtBhte.Spv

open BhtBhte.Lib
open BhtBhte.Node (Bytes isHexDigit decodeHex decodeHex_hexEncode)

/-- `hex.DecodeString`; the texts of its errors are shortened. -/
def decodeString (s : String) : Except String Bytes :=
  if !s.toList.all isHexDigit then .error "encoding/hex: invalid byte"
  else if s.toList.length % 2 = 1 then .error "encoding/hex: odd length hex string"
  else .ok (decodeHex s.toList)

/-- `big.Int.SetBytes`: most significant byte first. -/
def setBytes (raw : Bytes) : ℕ := raw.foldl (fun acc b => acc * 256 + b.toNat) 0

/-- The target of a header, as the client decodes it. -/
def decodeBits (bits : UInt32) : ℕ :=
  let exponent := bits >>> 24
  let mantissa := (bits &&& 0x007FFFFF).toNat
  if exponent ≤ 3 then mantissa >>> (8 * (3 - exponent)).toNat
  else mantissa <<< (8 * (exponent - 3)).toNat

/-- The hash of a header is not above its target. -/
def verifyProofOfWork (header : BHCHeader) : Bool :=
  let target := decodeBits header.bits
  if target ≤ 0 then false
  else
    match decodeString header.hash with
    | .error _ => false
    | .ok raw => if raw.length ≠ 32 then false else setBytes raw ≤ target

/-! ## The L1 rule -/

/-- A `uint256` as a number; its bytes are kept least significant first. -/
def uintToArith256 (bytes : Bytes) : ℕ := bytes.foldr (fun b acc => b.toNat + 256 * acc) 0

/-- `arith_uint256::SetCompact`: the value, the negative flag and the overflow flag. -/
def setCompact (nCompact : UInt32) : ℕ × Bool × Bool :=
  let nSize := (nCompact >>> 24).toNat
  let nWord := (nCompact &&& 0x007fffff).toNat
  let nWord := if nSize ≤ 3 then nWord >>> (8 * (3 - nSize)) else nWord
  let value := if nSize ≤ 3 then nWord else (nWord <<< (8 * (nSize - 3))) % 2 ^ 256
  (value, decide (nWord ≠ 0 ∧ nCompact &&& 0x00800000 ≠ 0),
    decide (nWord ≠ 0 ∧ (nSize > 34 ∨ (nWord > 0xff ∧ nSize > 33) ∨
      (nWord > 0xffff ∧ nSize > 32))))

/-- The target of a header, unless it is out of range. -/
def deriveTarget (nBits : UInt32) (powLimit : Bytes) : Option ℕ :=
  let (bnTarget, fNegative, fOverflow) := setCompact nBits
  if fNegative ∨ bnTarget = 0 ∨ fOverflow ∨ bnTarget > uintToArith256 powLimit then none
  else some bnTarget

/-- The check of the first layer. -/
def checkProofOfWork (hash : Bytes) (nBits : UInt32) (powLimit : Bytes) : Bool :=
  match deriveTarget nBits powLimit with
  | none => false
  | some bnTarget => if uintToArith256 hash > bnTarget then false else true

/-! ## Agreement -/

theorem setBytes_append (a b : Bytes) : setBytes (a ++ b) =
    b.foldl (fun acc x => acc * 256 + x.toNat) (setBytes a) := List.foldl_append

/-- Display order is the reverse of the internal order. -/
theorem setBytes_reverse (bytes : Bytes) : setBytes bytes.reverse = uintToArith256 bytes := by
  induction bytes with
  | nil => rfl
  | cons b bytes ih =>
      rw [List.reverse_cons, setBytes_append, ih, uintToArith256]
      simp only [List.foldl_cons, List.foldl_nil]
      rw [Nat.add_comm, Nat.mul_comm]
      rfl

theorem uintToArith256_lt (bytes : Bytes) : uintToArith256 bytes < 256 ^ bytes.length := by
  induction bytes with
  | nil => exact Nat.one_pos
  | cons b bytes ih =>
      have hb := b.toNat_lt
      simp only [uintToArith256, List.foldr_cons, List.length_cons, pow_succ] at ih ⊢
      omega

/-- The two shift amounts of `decodeBits` as numbers. -/
theorem decodeBits_eq (bits : UInt32) :
    decodeBits bits =
      if (bits >>> 24).toNat ≤ 3 then
        (bits &&& 0x007FFFFF).toNat >>> (8 * (3 - (bits >>> 24).toNat))
      else (bits &&& 0x007FFFFF).toNat <<< (8 * ((bits >>> 24).toNat - 3)) := by
  have hlt : (bits >>> 24).toNat < 256 := by
    have := bits.toNat_lt
    simp only [UInt32.toNat_shiftRight, UInt32.reduceToNat, Nat.reduceMod, Nat.shiftRight_eq_div_pow]
    omega
  have hthree : (3 : UInt32).toNat = 3 := rfl
  have height : (8 : UInt32).toNat = 8 := rfl
  rw [decodeBits]
  simp only [UInt32.le_iff_toNat_le, hthree]
  split
  · next hle =>
    rw [UInt32.toNat_mul, UInt32.toNat_sub_of_le _ _ (UInt32.le_iff_toNat_le.mpr hle), hthree, height,
      Nat.mod_eq_of_lt (by omega)]
  · next hgt =>
    have hge : (3 : UInt32) ≤ bits >>> 24 := UInt32.le_iff_toNat_le.mpr (by rw [hthree]; omega)
    rw [UInt32.toNat_mul, UInt32.toNat_sub_of_le _ _ hge, hthree, height,
      Nat.mod_eq_of_lt (by omega)]

/-- The overflow flag is right: it says that the shifted word needs more than 256 bits. -/
theorem overflow_iff {nWord nSize : ℕ} (hword : nWord < 2 ^ 23) (hsize : 3 < nSize) :
    (nWord ≠ 0 ∧ (nSize > 34 ∨ (nWord > 0xff ∧ nSize > 33) ∨ (nWord > 0xffff ∧ nSize > 32))) ↔
      2 ^ 256 ≤ nWord <<< (8 * (nSize - 3)) := by
  rw [Nat.shiftLeft_eq]
  rcases Nat.lt_or_ge nSize 33 with hsmall | hlarge
  · have hlt : nWord * 2 ^ (8 * (nSize - 3)) < 2 ^ 256 := calc
      nWord * 2 ^ (8 * (nSize - 3)) ≤ 2 ^ 23 * 2 ^ 232 :=
        Nat.mul_le_mul hword.le (Nat.pow_le_pow_right (by decide) (by omega))
      _ < 2 ^ 256 := by decide
    constructor
    · rintro ⟨-, h⟩
      omega
    · intro h
      omega
  · rcases Nat.lt_or_ge nSize 35 with hmid | hbig
    · have hcases : nSize = 33 ∨ nSize = 34 := by omega
      rcases hcases with rfl | rfl
      · rw [show 8 * (33 - 3) = 240 from rfl]
        omega
      · rw [show 8 * (34 - 3) = 248 from rfl]
        omega
    · have hpow : 2 ^ 256 ≤ 2 ^ (8 * (nSize - 3)) := Nat.pow_le_pow_right (by decide) (by omega)
      constructor
      · rintro ⟨hne, -⟩
        calc 2 ^ 256 ≤ 2 ^ (8 * (nSize - 3)) := hpow
          _ ≤ nWord * 2 ^ (8 * (nSize - 3)) := Nat.le_mul_of_pos_left _ (Nat.pos_of_ne_zero hne)
      · intro h
        refine ⟨?_, .inl (by omega)⟩
        rintro rfl
        omega

/-- A target is derived exactly when the client's target is positive, within the limit and
without a sign. -/
theorem deriveTarget_eq_some {nBits : UInt32} {powLimit : Bytes} (hlimit : powLimit.length = 32)
    {t : ℕ} :
    deriveTarget nBits powLimit = some t ↔
      t = decodeBits nBits ∧ decodeBits nBits ≠ 0 ∧ nBits &&& 0x00800000 = 0 ∧
        decodeBits nBits ≤ uintToArith256 powLimit := by
  have hbound := uintToArith256_lt powLimit
  rw [hlimit, show 256 ^ 32 = 2 ^ 256 by decide] at hbound
  have hword : (nBits &&& 0x007fffff).toNat < 2 ^ 23 := by
    have hand : (nBits &&& 0x007fffff).toNat ≤ 0x007fffff := by
      rw [UInt32.toNat_and]
      exact Nat.and_le_right
    omega
  rw [deriveTarget, setCompact, decodeBits_eq]
  generalize (nBits &&& 0x007fffff).toNat = nWord at hword
  generalize (nBits >>> 24).toNat = nSize
  by_cases hsize : nSize ≤ 3
  · simp only [hsize, if_true, decide_eq_true_eq]
    have hno : ¬ (nSize > 34 ∨ (nWord >>> (8 * (3 - nSize)) > 0xff ∧ nSize > 33) ∨
      (nWord >>> (8 * (3 - nSize)) > 0xffff ∧ nSize > 32)) := by omega
    generalize nWord >>> (8 * (3 - nSize)) = value at hno
    split_ifs with hreject
    · grind
    · grind
  · have hover := overflow_iff hword (by omega : 3 < nSize)
    have hzero : nWord = 0 → nWord <<< (8 * (nSize - 3)) = 0 := by
      rintro rfl
      exact Nat.zero_shiftLeft _
    simp only [hsize, if_false, decide_eq_true_eq, hover]
    generalize nWord <<< (8 * (nSize - 3)) = target at hover hzero
    rcases Nat.lt_or_ge target (2 ^ 256) with hlt | hge
    · rw [Nat.mod_eq_of_lt hlt]
      split_ifs with hreject
      · grind
      · grind
    · rw [if_pos (.inr (.inr (.inl hge)))]
      constructor
      · intro h
        cases h
      · rintro ⟨-, -, -, hle⟩
        omega

theorem checkProofOfWork_eq_true {hash : Bytes} {nBits : UInt32} {powLimit : Bytes}
    (hlimit : powLimit.length = 32) :
    checkProofOfWork hash nBits powLimit = true ↔
      decodeBits nBits ≠ 0 ∧ nBits &&& 0x00800000 = 0 ∧
        decodeBits nBits ≤ uintToArith256 powLimit ∧ uintToArith256 hash ≤ decodeBits nBits := by
  rw [checkProofOfWork]
  cases htarget : deriveTarget nBits powLimit with
  | none =>
      simp only [Bool.false_eq_true, false_iff]
      rintro ⟨hne, hsign, hle, -⟩
      rw [(deriveTarget_eq_some hlimit).mpr ⟨rfl, hne, hsign, hle⟩] at htarget
      cases htarget
  | some t =>
      obtain ⟨rfl, hne, hsign, hle⟩ := (deriveTarget_eq_some hlimit).mp htarget
      simp [hne, hsign, hle]

theorem verifyProofOfWork_eq_true {header : BHCHeader} {hash : Bytes} (hlen : hash.length = 32)
    (hhash : decodeString header.hash = .ok hash.reverse) :
    verifyProofOfWork header = true ↔
      decodeBits header.bits ≠ 0 ∧ uintToArith256 hash ≤ decodeBits header.bits := by
  rw [verifyProofOfWork, hhash]
  simp only [List.length_reverse, hlen, ne_eq, not_true_eq_false, if_false, setBytes_reverse]
  by_cases hzero : decodeBits header.bits ≤ 0
  · rw [if_pos hzero]
    simp [Nat.le_zero.mp hzero]
  · rw [if_neg hzero]
    simp [Nat.le_zero.not.mp hzero]

/-- **The client and the L1 rule agree** on a header exactly when its target is zero or
below the hash, or has no sign bit and keeps within the limit.  The header gives the hash
in display order. -/
theorem verifyProofOfWork_iff {header : BHCHeader} {hash powLimit : Bytes}
    (hlen : hash.length = 32) (hlimit : powLimit.length = 32)
    (hhash : decodeString header.hash = .ok hash.reverse) :
    (verifyProofOfWork header = true ↔ checkProofOfWork hash header.bits powLimit = true) ↔
      decodeBits header.bits = 0 ∨ decodeBits header.bits < uintToArith256 hash ∨
        (header.bits &&& 0x00800000 = 0 ∧ decodeBits header.bits ≤ uintToArith256 powLimit) := by
  rw [verifyProofOfWork_eq_true hlen hhash, checkProofOfWork_eq_true hlimit]
  constructor
  · intro hagree
    by_contra hcond
    simp only [not_or, not_and, Nat.not_lt] at hcond
    obtain ⟨hne, hle, hbad⟩ := hcond
    obtain ⟨-, hsign, hwithin, -⟩ := hagree.mp ⟨hne, hle⟩
    exact hbad hsign hwithin
  · rintro (hzero | habove | ⟨hsign, hwithin⟩)
    · simp [hzero]
    · constructor
      · rintro ⟨-, hle⟩
        omega
      · rintro ⟨-, -, -, hle⟩
        omega
    · constructor
      · rintro ⟨hne, hle⟩
        exact ⟨hne, hsign, hwithin, hle⟩
      · rintro ⟨hne, -, -, hle⟩
        exact ⟨hne, hle⟩

/-! ## Two headers -/

/-- The limit of the main network. -/
def mainPowLimit : Bytes := List.replicate 28 0 ++ [0x00, 0x0f, 0xff, 0xff]

/-- A header with a hash of equal bytes. -/
def plainHeader (b : UInt8) (bits : UInt32) : BHCHeader :=
  { hash := String.ofList (hexEncode (List.replicate 32 b)), bits := bits }

theorem decodeString_hexEncode (bytes : Bytes) :
    decodeString (String.ofList (hexEncode bytes)) = .ok bytes := by
  have hall : (hexEncode bytes).all isHexDigit = true := by
    rw [List.all_eq_true]
    intro c hc
    obtain ⟨d, hd, rfl⟩ := exists_digitChar_of_mem_hexEncode c hc
    rw [isHexDigit, digitVal_digitChar d hd]
    exact decide_eq_true hd
  have heven : (hexEncode bytes).length % 2 = 0 := by
    rw [length_hexEncode]
    omega
  simp [decodeString, hall, heven, decodeHex_hexEncode]

theorem decodeString_plainHeader (b : UInt8) (bits : UInt32) :
    decodeString (plainHeader b bits).hash = .ok (List.replicate 32 b).reverse := by
  rw [plainHeader, decodeString_hexEncode, List.reverse_replicate]

/-- The difficulty-one target with an all-zero hash: both accept. -/
theorem verifyProofOfWork_zero :
    verifyProofOfWork (plainHeader 0 0x1d00ffff) = true ∧
      checkProofOfWork (List.replicate 32 0) 0x1d00ffff mainPowLimit = true := by
  have hhash := decodeString_plainHeader 0 0x1d00ffff
  have hlimit : mainPowLimit.length = 32 := rfl
  have hagree := (verifyProofOfWork_iff (List.length_replicate ..) hlimit hhash).mpr
    (.inr (.inr ⟨by decide, by decide +kernel⟩))
  have hspv : verifyProofOfWork (plainHeader 0 0x1d00ffff) = true :=
    (verifyProofOfWork_eq_true (List.length_replicate ..) hhash).mpr
      ⟨by decide +kernel, by decide +kernel⟩
  exact ⟨hspv, hagree.mp hspv⟩

/-- A target past 256 bits: the client accepts the largest hash, L1 does not. -/
theorem verifyProofOfWork_accepts_overflow :
    verifyProofOfWork (plainHeader 0xff 0xff7fffff) = true ∧
      checkProofOfWork (List.replicate 32 0xff) 0xff7fffff mainPowLimit = false := by
  have hhash := decodeString_plainHeader 0xff 0xff7fffff
  constructor
  · exact (verifyProofOfWork_eq_true (List.length_replicate ..) hhash).mpr
      ⟨by decide +kernel, by decide +kernel⟩
  · decide +kernel

end BhtBhte.Spv
