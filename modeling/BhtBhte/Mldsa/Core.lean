import BhtBhte.Lib.BitStream
import Mathlib.Tactic.Common

/-!
# ML-DSA primitives of the Go package

Modular arithmetic, the transform, rounding, sampling and bit packing as `mldsa_core.go` has
them.  Coefficients are integers: no `int64` intermediate of an `int32` array overflows, so the
widths are written out only where a value is cut to one.  The two SHAKE functions are parameters,
and with them the number of rounds after which a rejection loop is given up.
-/
namespace BhtBhte.Mldsa
open BhtBhte.Lib

abbrev Bytes := List UInt8

/-- The prime modulus `2^23 - 2^13 + 1`. -/
abbrev Q : ℤ := 8380417

/-- The number of coefficients of a polynomial. -/
abbrev N : ℕ := 256

/-- The number of dropped low-order bits of `t`. -/
abbrev D : ℕ := 13

/-- A primitive 512-th root of unity modulo `Q`. -/
abbrev rootZeta : ℤ := 1753

/-- An `[]int32` of `N` coefficients. -/
abbrev Poly := Vector ℤ N

namespace Poly

/-- The coefficient at an index below `N`. -/
def coeff (a : Poly) (i : ℕ) : ℤ := a[i]?.getD 0

/-- Write the coefficient at an index below `N`. -/
def setCoeff (a : Poly) (i : ℕ) (v : ℤ) : Poly := a.setIfInBounds i v

/-- A loop that writes every coefficient once. -/
def build (f : ℕ → ℤ) : Poly := Vector.ofFn fun i => f i

/-- `make([]int32, N)`. -/
def zero : Poly := build fun _ => 0

theorem coeff_eq_getElem (a : Poly) {i : ℕ} (h : i < N) : a.coeff i = a[i] := by
  rw [coeff, Vector.getElem?_eq_getElem h]
  rfl

@[simp] theorem coeff_build (f : ℕ → ℤ) {i : ℕ} (h : i < N) : (build f).coeff i = f i := by
  rw [coeff_eq_getElem _ h, build, Vector.getElem_ofFn]

@[simp] theorem coeff_zero (i : ℕ) : zero.coeff i = 0 := by
  by_cases h : i < N
  · rw [zero, coeff_build _ h]
  · rw [coeff, Vector.getElem?_eq_none (by omega)]
    rfl

theorem coeff_setCoeff (a : Poly) {i : ℕ} (hi : i < N) (v : ℤ) (j : ℕ) :
    (a.setCoeff i v).coeff j = if j = i then v else a.coeff j := by
  rw [coeff, setCoeff, Vector.getElem?_setIfInBounds]
  by_cases h : i = j
  · rw [if_pos h, if_pos hi, if_pos h.symm]
    rfl
  · rw [if_neg h, if_neg (Ne.symm h)]
    rfl

theorem ext_coeff {a b : Poly} (h : ∀ i < N, a.coeff i = b.coeff i) : a = b := by
  apply Vector.ext
  intro i hi
  rw [← coeff_eq_getElem a hi, ← coeff_eq_getElem b hi, h i hi]

theorem toList_eq (a : Poly) : a.toList = (List.range N).map a.coeff := by
  apply List.ext_getElem (by simp)
  intro i h₁ h₂
  have hi : i < N := by simpa using h₂
  rw [List.getElem_map, List.getElem_range, coeff_eq_getElem a hi, Vector.getElem_toList]

end Poly

/-- Conversion to `int32`. -/
def int32 (x : ℤ) : ℤ := Int.bmod x (2 ^ 32)

/-- Conversion to `uint32`. -/
def uint32 (x : ℤ) : ℕ := (x % 2 ^ 32).toNat

/-! ## Small integer helpers -/

/-- The low eight bits in reverse order. -/
def bitrev8 (x : ℕ) : ℕ :=
  (List.range 8).foldl (fun r i => (r <<< 1) ||| ((x >>> i) &&& 1)) 0

/-- The loop of `modPow`: square and multiply. -/
def modPowLoop (mod base result : ℤ) (exp : ℕ) : ℤ :=
  if _h : exp = 0 then result
  else
    modPowLoop mod ((base * base).tmod mod)
      (if exp &&& 1 = 1 then (result * base).tmod mod else result) (exp >>> 1)
termination_by exp
decreasing_by rw [Nat.shiftRight_eq_div_pow]; omega

def modPow (base : ℤ) (exp : ℕ) (mod : ℤ) : ℤ :=
  let base := base.tmod mod
  let base := if base < 0 then base + mod else base
  modPowLoop mod base 1 exp

/-- The powers of the root in bit-reversed order. -/
def zetas (i : ℕ) : ℤ := modPow rootZeta (bitrev8 i) Q

/-- The inverse of `N`, by Fermat. -/
def ninv : ℤ := modPow N (Q - 2).toNat Q

/-- The number of bits of a number. -/
def bitlen (x : ℕ) : ℕ :=
  if _h : x = 0 then 0 else bitlen (x >>> 1) + 1
termination_by x
decreasing_by rw [Nat.shiftRight_eq_div_pow]; omega

/-- Reduction into `[0, Q)`; the remainder of the language has the sign of `a`. -/
def modQ (a : ℤ) : ℤ :=
  let m := a.tmod Q
  if m < 0 then m + Q else m

/-- The representative in `(-Q/2, Q/2]` of a coefficient in `[0, Q)`. -/
def centered (a : ℤ) : ℤ := if Q / 2 < a then a - Q else a

/-! ## SHAKE streams -/

/-- SHAKE128 and SHAKE256 as functions from the absorbed bytes to the output stream; `rounds`
bounds the rounds of a rejection loop, so that a run that never ends is a run without a result
for any bound. -/
class Xof where
  shake128 : Bytes → ℕ → UInt8
  shake256 : Bytes → ℕ → UInt8
  rounds : ℕ

/-- A reader of a stream that fetches one block at a time; `s` is the stream after the buffer. -/
structure XofStream where
  s : ℕ → UInt8
  buf : Bytes := []
  pos : ℕ := 0
  block : ℕ

namespace XofStream

def readByte (st : XofStream) : UInt8 × XofStream :=
  let st :=
    if st.buf.length ≤ st.pos then
      { st with s := fun i => st.s (st.block + i), buf := (List.range st.block).map st.s, pos := 0 }
    else st
  (st.buf.getD st.pos 0, { st with pos := st.pos + 1 })

/-- So many bytes of a stream. -/
def readBytes (st : XofStream) : ℕ → Bytes × XofStream
  | 0 => ([], st)
  | n + 1 =>
      let r := st.readByte
      let rest := r.2.readBytes n
      (r.1 :: rest.1, rest.2)

end XofStream

section Streams
variable [Xof]

def newShake128 (parts : List Bytes) : XofStream where
  s := Xof.shake128 parts.flatten
  block := 168

def newShake256 (parts : List Bytes) : XofStream where
  s := Xof.shake256 parts.flatten
  block := 136

def shake256Sum (outLen : ℕ) (parts : List Bytes) : Bytes :=
  (List.range outLen).map (Xof.shake256 parts.flatten)

end Streams

/-! ## The transform -/

/-- The body of the inner loop of `nttForward`. -/
def butterfly (zeta : ℤ) (length : ℕ) (a : Poly) (j : ℕ) : Poly :=
  let t := (zeta * a.coeff (j + length)).tmod Q
  let a' := a.setCoeff (j + length) (modQ (a.coeff j - t))
  a'.setCoeff j (modQ (a'.coeff j + t))

/-- The loop over one block, from `start` on. -/
def nttBlock (zeta : ℤ) (length start : ℕ) (a : Poly) : Poly :=
  (List.range' start length).foldl (butterfly zeta length) a

/-- The loop over the blocks of one length; `k` counts the roots used. -/
def nttLayer (s : ℕ × Poly) (length : ℕ) : ℕ × Poly :=
  (List.range' 0 (N / (2 * length)) (2 * length)).foldl
    (fun s start => (s.1 + 1, nttBlock (zetas (s.1 + 1)) length start s.2)) s

/-- The transform, layer by layer. -/
def nttForward (a : Poly) : Poly :=
  ([128, 64, 32, 16, 8, 4, 2, 1].foldl nttLayer (0, a)).2

/-- The body of the inner loop of `nttInverse`. -/
def invButterfly (zeta : ℤ) (length : ℕ) (a : Poly) (j : ℕ) : Poly :=
  let t := a.coeff j
  let a' := a.setCoeff j (modQ (t + a.coeff (j + length)))
  let a' := a'.setCoeff (j + length) (modQ (t - a'.coeff (j + length)))
  a'.setCoeff (j + length) ((zeta * a'.coeff (j + length)).tmod Q)

/-- One block of a layer of the inverse. -/
def invNttBlock (zeta : ℤ) (length start : ℕ) (a : Poly) : Poly :=
  (List.range' start length).foldl (invButterfly zeta length) a

/-- One layer of the inverse; the index of the root counts down. -/
def invNttLayer (s : ℕ × Poly) (length : ℕ) : ℕ × Poly :=
  (List.range' 0 (N / (2 * length)) (2 * length)).foldl
    (fun s start => (s.1 - 1, invNttBlock (Q - zetas (s.1 - 1)) length start s.2)) s

/-- The inverse transform, with the factor `N⁻¹` at the end. -/
def nttInverse (a : Poly) : Poly :=
  let a := ([1, 2, 4, 8, 16, 32, 64, 128].foldl invNttLayer (N, a)).2
  .build fun j => (ninv * a.coeff j).tmod Q

/-- The product of two transformed polynomials. -/
def pointwise (a b : Poly) : Poly := .build fun i => (a.coeff i * b.coeff i).tmod Q

/-- `polyAddInto`, with the sum as its result. -/
def polyAddInto (dst src : Poly) : Poly := .build fun i => modQ (dst.coeff i + src.coeff i)

/-- The transform of a copy. -/
def nttCopy (a : Poly) : Poly := nttForward a

/-! ## Rounding and hints -/

/-- A coefficient as `2^13` times its high part plus its low part. -/
def power2Round (r : ℤ) : ℤ × ℤ :=
  let r := modQ r
  let a : ℤ := (r.toNat &&& (1 <<< D - 1) : ℕ)
  let a := if 1 <<< (D - 1) < a then a - 1 <<< D else a
  ((r - a) >>> D, a)

/-- A coefficient as `2 * gamma2` times its high bits plus its low bits; at the top end of the
circle the high bits are zero. -/
def decompose (r gamma2 : ℤ) : ℤ × ℤ :=
  let r := modQ r
  let alpha := 2 * gamma2
  let a := r.tmod alpha
  let a := if alpha.tdiv 2 < a then a - alpha else a
  if r - a = Q - 1 then (0, a - 1) else ((r - a).tdiv alpha, a)

def highBits (r gamma2 : ℤ) : ℤ := (decompose r gamma2).1

def lowBits (r gamma2 : ℤ) : ℤ := (decompose r gamma2).2

/-- The high bits, moved by one where the hint says so. -/
def useHint (h r gamma2 : ℤ) : ℤ :=
  let m := (Q - 1).tdiv (2 * gamma2)
  let d := decompose r gamma2
  if h = 0 then d.1
  else
    let r1 := if 0 < d.2 then d.1 + 1 else d.1 - 1
    let r1 := r1.tmod m
    if r1 < 0 then r1 + m else r1

/-- The larger of a running maximum and the absolute value of a coefficient. -/
def maxAbs (max a : ℤ) : ℤ :=
  let a := if a < 0 then -a else a
  if max < a then a else max

/-- The greatest absolute value of a coefficient, centred. -/
def polyInfNorm (p : Poly) : ℤ :=
  p.toList.foldl (fun max c => maxAbs max (centered (modQ c))) 0

/-! ## Sampling -/

section Sampling
variable [Xof]

/-- The loop of `rejNTTPoly` with `i` coefficients found. -/
def rejNTTLoop : ℕ → XofStream → ℕ → Poly → Option Poly
  | 0, _, _, _ => none
  | rounds + 1, st, i, p =>
      if i < N then
        let r := st.readBytes 3
        let b (j : ℕ) : ℕ := (r.1.getD j 0).toNat
        let d := b 0 ||| (b 1 <<< 8) ||| ((b 2 &&& 0x7F) <<< 16)
        if (d : ℤ) < Q then rejNTTLoop rounds r.2 (i + 1) (p.setCoeff i d)
        else rejNTTLoop rounds r.2 i p
      else some p

def rejNTTPoly (rho : Bytes) (s r : UInt8) : Option Poly :=
  rejNTTLoop Xof.rounds (newShake128 [rho, [s, r]]) 0 .zero

/-- The `k × l` matrix in the transformed domain. -/
def expandA (rho : Bytes) (k l : ℕ) : Option (List (List Poly)) :=
  (List.range k).mapM fun r => (List.range l).mapM fun s => rejNTTPoly rho s.toUInt8 r.toUInt8

/-- The small coefficient that a half byte stands for, unless it is rejected. -/
def coeffFromHalfByte (z eta : ℕ) : Option ℤ :=
  if eta = 2 then if z < 15 then some (2 - (z % 5 : ℕ)) else none
  else if z < 9 then some (4 - z) else none

/-- Store a half byte when it is accepted. -/
def storeHalfByte (z eta i : ℕ) (p : Poly) : ℕ × Poly :=
  match coeffFromHalfByte z eta with
  | some v => (i + 1, p.setCoeff i v)
  | none => (i, p)

/-- The loop of `rejBoundedPoly` with `i` coefficients found. -/
def rejBoundedLoop (eta : ℕ) : ℕ → XofStream → ℕ → Poly → Option Poly
  | 0, _, _, _ => none
  | rounds + 1, st, i, p =>
      if i < N then
        let r := st.readByte
        let first := storeHalfByte (r.1 &&& 0x0F).toNat eta i p
        if N ≤ first.1 then some first.2
        else
          let second := storeHalfByte (r.1 >>> 4).toNat eta first.1 first.2
          rejBoundedLoop eta rounds r.2 second.1 second.2
      else some p

/-- The two bytes of a `uint16`. -/
def nonceBytes (nonce : ℕ) : Bytes :=
  let nonce := nonce % 2 ^ 16
  [nonce.toUInt8, (nonce >>> 8).toUInt8]

def rejBoundedPoly (rhoP : Bytes) (nonce eta : ℕ) : Option Poly :=
  rejBoundedLoop eta Xof.rounds (newShake256 [rhoP, nonceBytes nonce]) 0 .zero

/-- The two secret vectors. -/
def expandS (rhoP : Bytes) (k l eta : ℕ) : Option (List Poly × List Poly) := do
  let s1 ← (List.range l).mapM fun i => rejBoundedPoly rhoP i eta
  let s2 ← (List.range k).mapM fun i => rejBoundedPoly rhoP (l + i) eta
  return (s1, s2)

/-- The loop that draws a byte up to `i`. -/
def drawIndex (i : ℕ) : ℕ → XofStream → Option (UInt8 × XofStream)
  | 0, _ => none
  | rounds + 1, st =>
      let r := st.readByte
      if r.1.toNat ≤ i then some r else drawIndex i rounds r.2

/-- One round of the loop of `sampleInBall`. -/
def ballStep (s : XofStream × ℕ × Poly) (i : ℕ) : Option (XofStream × ℕ × Poly) := do
  let r ← drawIndex i Xof.rounds s.1
  let c := s.2.2.setCoeff i (s.2.2.coeff r.1.toNat)
  return (r.2, s.2.1 >>> 1, c.setCoeff r.1.toNat (if s.2.1 &&& 1 = 1 then -1 else 1))

/-- A challenge: `tau` signs at places that are drawn, zeros elsewhere. -/
def sampleInBall (ctilde : Bytes) (tau : ℕ) : Option Poly := do
  let r := (newShake256 [ctilde]).readBytes 8
  let signs := (List.range 8).foldl (fun signs i => signs ||| ((r.1.getD i 0).toNat <<< (8 * i))) 0
  let s ← (List.range' (N - tau) tau).foldlM ballStep (r.2, signs, .zero)
  return s.2.2

end Sampling

/-! ## Bit packing -/

/-- `bytes`: what is left of a byte is given out as one. -/
def writerBytes (w : BitWriter) : Bytes :=
  if 0 < w.nbits then w.out ++ [w.cur.toUInt8] else w.out

/-- Coefficients that are not negative, `bits` bits each. -/
def simpleBitPack (p : Poly) (bits : ℕ) : Bytes :=
  writerBytes (p.toList.foldl (fun w c => w.write (uint32 c) bits) {})

/-- The inverse of `simpleBitPack`. -/
def simpleBitUnpack (buf : Bytes) (bits : ℕ) : Poly :=
  let fields := ({ rest := buf } : BitReader).reads bits N
  .build fun i => int32 (fields.getD i 0)

/-- Coefficients `c` up to `b` are stored as `b - c`. -/
def bitPack (p : Poly) (b : ℤ) (bits : ℕ) : Bytes :=
  writerBytes (p.toList.foldl (fun w c => w.write (uint32 (b - c)) bits) {})

/-- The lower end `a` of the range is not used. -/
def bitUnpack (buf : Bytes) (_a b : ℤ) (bits : ℕ) : Poly :=
  let fields := ({ rest := buf } : BitReader).reads bits N
  .build fun i => int32 (b - int32 (fields.getD i 0))

section Masks
variable [Xof]

def expandMask (rhoPP : Bytes) (kappa l : ℕ) (gamma1 : ℤ) : List Poly :=
  let width := bitlen (2 * gamma1 - 1).toNat
  let bytesPerPoly := N * width / 8
  (List.range l).map fun i =>
    let buf := ((newShake256 [rhoPP, nonceBytes (kappa + i)]).readBytes bytesPerPoly).1
    bitUnpack buf (gamma1 - 1) gamma1 width

end Masks

/-! ## Hints -/

/-- Store the index of a one, unless there are `omega` of them already. -/
def hintStore (omega : ℕ) (p : Poly) (s : Bytes × ℕ) (j : ℕ) : Option (Bytes × ℕ) :=
  if p.coeff j ≠ 0 then
    if omega ≤ s.2 then none else some (s.1.set s.2 j.toUInt8, s.2 + 1)
  else some s

/-- Store the ones of the `i`-th polynomial and then their end. -/
def hintRow (omega : ℕ) (h : List Poly) (s : Bytes × ℕ) (i : ℕ) : Option (Bytes × ℕ) := do
  let s ← (List.range N).foldlM (hintStore omega (h.getD i .zero)) s
  return (s.1.set (omega + i) s.2.toUInt8, s.2)

/-- The encoding of the hints in `omega + k` bytes, `none` when there are too many ones. -/
def hintPack (h : List Poly) (omega k : ℕ) : Option Bytes := do
  let s ← (List.range k).foldlM (hintRow omega h) (List.replicate (omega + k) 0, 0)
  return s.1

/-- Read the index at `idx`; within a polynomial they increase. -/
def unhintStore (buf : Bytes) (first : ℕ) (p : Poly) (idx : ℕ) : Option Poly :=
  if first < idx ∧ buf.getD idx 0 ≤ buf.getD (idx - 1) 0 then none
  else some (p.setCoeff (buf.getD idx 0).toNat 1)

/-- Read the ones of the `i`-th polynomial, from `idx` on. -/
def unhintRow (buf : Bytes) (omega : ℕ) (s : List Poly × ℕ) (i : ℕ) : Option (List Poly × ℕ) :=
  let end_ := (buf.getD (omega + i) 0).toNat
  if end_ < s.2 ∨ omega < end_ then none
  else do
    let p ← (List.range' s.2 (end_ - s.2)).foldlM (unhintStore buf s.2) .zero
    return (s.1 ++ [p], end_)

/-- Decode and validate; the unused places must be zero. -/
def hintUnpack (buf : Bytes) (omega k : ℕ) : Option (List Poly) :=
  if buf.length ≠ omega + k then none
  else do
    let s ← (List.range k).foldlM (unhintRow buf omega) ([], 0)
    if (List.range' s.2 (omega - s.2)).any fun idx => buf.getD idx 0 ≠ 0 then none
    else return s.1

end BhtBhte.Mldsa
