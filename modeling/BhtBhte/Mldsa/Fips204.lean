import BhtBhte.Mldsa.Scheme

/-!
# ML-DSA on the base chain

`mldsa_fips204.h`, the port of the Go package to C++.  The functions that it repeats statement by
statement are those of `Mldsa.Core`: `modPow`, `bitrev8`, `bitlen`, `zetas`, `ninv`, `modQ`,
`centered`, the transform with `pointwise` and `polyAddInto`, rounding and hints up to
`polyVecInfNorm`, `coeffFromHalfByte` and the bit reader.  What the port shapes in its own way is
here: one sequential SHAKE reader, a matrix in one vector, a bit writer without padding, an empty
vector for a failed packing, loops that do several things at once, and `int` lengths.
-/
namespace BhtBhte.Fips204
open BhtBhte.Lib
open BhtBhte.Mldsa (Bytes Poly Params Xof N D Q int32 uint32 bitlen modQ centered nttInverse
  pointwise polyAddInto nttCopy power2Round highBits lowBits useHint maxAbs polyVecInfNorm
  coeffFromHalfByte unhintRow copyBytes)

/-- The parameters of a level; any other number stands for `65`. -/
def paramFor (level : ℕ) : Params :=
  if level = 44 then
    { k := 4, l := 4, eta := 2, tau := 39, omega := 80, ctBytes := 32, beta := 39 * 2,
      gamma1 := 1 <<< 17, gamma2 := (Q - 1).tdiv 88 }
  else if level = 87 then
    { k := 8, l := 7, eta := 2, tau := 60, omega := 75, ctBytes := 64, beta := 60 * 2,
      gamma1 := 1 <<< 19, gamma2 := (Q - 1).tdiv 32 }
  else
    { k := 6, l := 5, eta := 4, tau := 49, omega := 55, ctBytes := 48, beta := 49 * 4,
      gamma1 := 1 <<< 19, gamma2 := (Q - 1).tdiv 32 }

/-! ## SHAKE -/

/-- A `Shake` that has absorbed its input: the stream and the number of bytes squeezed. -/
structure Shake where
  stream : ℕ → UInt8
  squeezed : ℕ := 0

namespace Shake

/-- The constructor; the rates are those of SHAKE128 and SHAKE256. -/
def new [Xof] (rate : ℕ) (input : Bytes) : Shake where
  stream := if rate = 168 then Xof.shake128 input else Xof.shake256 input

def read (st : Shake) (outlen : ℕ) : Bytes × Shake :=
  ((List.range outlen).map fun i => st.stream (st.squeezed + i),
    { st with squeezed := st.squeezed + outlen })

def readByte (st : Shake) : UInt8 × Shake :=
  let r := st.read 1
  (r.1.getD 0 0, r.2)

end Shake

def cat (parts : List Bytes) : Bytes := parts.foldl (· ++ ·) []

section Sampling
variable [Xof]

def shake256Sum (outLen : ℕ) (input : Bytes) : Bytes := ((Shake.new 136 input).read outLen).1

/-! ## Sampling -/

/-- The loop of `rejNTTPoly` with `i` coefficients found. -/
def rejNTTLoop : ℕ → Shake → ℕ → Poly → Option Poly
  | 0, _, _, _ => none
  | rounds + 1, st, i, p =>
      if i < N then
        let r := st.read 3
        let b (j : ℕ) : ℕ := (r.1.getD j 0).toNat
        let d := b 0 ||| (b 1 <<< 8) ||| ((b 2 &&& 0x7F) <<< 16)
        if (d : ℤ) < Q then rejNTTLoop rounds r.2 (i + 1) (p.setCoeff i d)
        else rejNTTLoop rounds r.2 i p
      else some p

def rejNTTPoly (rho : Bytes) (s r : UInt8) : Option Poly :=
  rejNTTLoop Xof.rounds (Shake.new 168 (cat [rho, [s, r]])) 0 .zero

/-- The matrix row by row: the entry of row `r` and column `s` stands at `r * l + s`. -/
def expandA (rho : Bytes) (k l : ℕ) : Option (List Poly) := do
  let rows ← (List.range k).mapM fun r =>
    (List.range l).mapM fun s => rejNTTPoly rho s.toUInt8 r.toUInt8
  return rows.flatten

/-- The loop of `rejBoundedPoly` with `i` coefficients found; it is left in the middle when the
lower half byte gives the last one. -/
def rejBoundedLoop (eta : ℕ) : ℕ → Shake → ℕ → Poly → Option Poly
  | 0, _, _, _ => none
  | rounds + 1, st, i, p =>
      if i < N then
        let b := st.readByte
        let upper (i : ℕ) (p : Poly) : Option Poly :=
          match coeffFromHalfByte (b.1 >>> 4).toNat eta with
          | some v => rejBoundedLoop eta rounds b.2 (i + 1) (p.setCoeff i v)
          | none => rejBoundedLoop eta rounds b.2 i p
        match coeffFromHalfByte (b.1 &&& 0x0F).toNat eta with
        | some v =>
            if N ≤ i + 1 then some (p.setCoeff i v) else upper (i + 1) (p.setCoeff i v)
        | none => upper i p
      else some p

/-- The two bytes of a `uint16_t`. -/
def nonceBytes (nonce : ℕ) : Bytes :=
  let nonce := nonce % 2 ^ 16
  [(nonce &&& 0xFF).toUInt8, (nonce >>> 8).toUInt8]

def rejBoundedPoly (rhoP : Bytes) (nonce eta : ℕ) : Option Poly :=
  rejBoundedLoop eta Xof.rounds (Shake.new 136 (cat [rhoP, nonceBytes nonce])) 0 .zero

/-- The loop that draws bytes as long as they are above `i`. -/
def drawIndex (i : ℕ) : ℕ → Shake → Option (UInt8 × Shake)
  | 0, _ => none
  | rounds + 1, st =>
      let r := st.readByte
      if i < r.1.toNat then drawIndex i rounds r.2 else some r

/-- One round of the loop of `sampleInBall`. -/
def ballStep (s : Shake × ℕ × Poly) (i : ℕ) : Option (Shake × ℕ × Poly) := do
  let r ← drawIndex i Xof.rounds s.1
  let c := s.2.2.setCoeff i (s.2.2.coeff r.1.toNat)
  return (r.2, s.2.1 >>> 1, c.setCoeff r.1.toNat (if s.2.1 &&& 1 = 1 then -1 else 1))

/-- A challenge. -/
def sampleInBall (ctilde : Bytes) (tau : ℕ) : Option Poly := do
  let sb := (Shake.new 136 ctilde).read 8
  let signs := (List.range 8).foldl (fun signs i => signs ||| ((sb.1.getD i 0).toNat <<< (8 * i))) 0
  let s ← (List.range' (N - tau) tau).foldlM ballStep (sb.2, signs, .zero)
  return s.2.2

end Sampling

/-! ## Packing -/

/-- The inverse of the packing of signed coefficients. -/
def bitUnpack (buf : Bytes) (b : ℤ) (bits : ℕ) : Poly :=
  let fields := ({ rest := buf } : BitReader).reads bits N
  .build fun i => int32 (b - int32 (fields.getD i 0))

/-- Bits that do not fill a byte would be lost. -/
def bitPack (p : Poly) (b : ℤ) (bits : ℕ) : Bytes :=
  ((List.range N).foldl (fun (w : BitWriter) i => w.write (uint32 (b - p.coeff i)) bits) {}).out

/-- Coefficients that are not negative, `bits` bits each. -/
def simpleBitPack (p : Poly) (bits : ℕ) : Bytes :=
  ((List.range N).foldl (fun (w : BitWriter) i => w.write (uint32 (p.coeff i)) bits) {}).out

section Masks
variable [Xof]

def expandMask (rhoPP : Bytes) (kappa l : ℕ) (gamma1 : ℤ) : List Poly :=
  let width := bitlen (2 * gamma1 - 1).toNat
  let bytesPerPoly := N * width / 8
  (List.range l).map fun i =>
    let buf := ((Shake.new 136 (cat [rhoPP, nonceBytes (kappa + i)])).read bytesPerPoly).1
    bitUnpack buf gamma1 width

end Masks

/-- The loops are those of the Go function; too many ones give an empty vector. -/
def hintPack (h : List Poly) (omega k : ℕ) : Bytes :=
  match Mldsa.hintPack h omega k with
  | some out => out
  | none => []

/-- The length of the buffer is not checked. -/
def hintUnpack (buf : Bytes) (omega k : ℕ) : Option (List Poly) := do
  let s ← (List.range k).foldlM (unhintRow buf omega) ([], 0)
  if (List.range' s.2 (omega - s.2)).any fun idx => buf.getD idx 0 ≠ 0 then none
  else return s.1

/-! ## Keys -/

structure PublicKey where
  rho : Vector UInt8 32
  t1 : List Poly

structure SecretKey where
  rho : Vector UInt8 32
  key : Vector UInt8 32
  tr : Vector UInt8 64
  s1 : List Poly
  s2 : List Poly
  t0 : List Poly

def encodePK (p : Params) (pk : PublicKey) : Bytes :=
  (List.range p.k).foldl (fun out i => out ++ simpleBitPack (pk.t1.getD i .zero) 10) pk.rho.toList

/-- Append the encodings of the first `n` polynomials of a vector. -/
def appendPacked (out : Bytes) (v : List Poly) (n : ℕ) (b : ℤ) (bits : ℕ) : Bytes :=
  (List.range n).foldl (fun out i => out ++ bitPack (v.getD i .zero) b bits) out

def encodeSK (p : Params) (sk : SecretKey) : Bytes :=
  let etabits := bitlen (2 * p.eta)
  let out := sk.rho.toList ++ sk.key.toList ++ sk.tr.toList
  let out := appendPacked out sk.s1 p.l p.eta etabits
  let out := appendPacked out sk.s2 p.k p.eta etabits
  appendPacked out sk.t0 p.k (1 <<< (D - 1)) D

/-- The product of row `i` of the matrix with a vector, in the transformed domain. -/
def mulRow (a : List Poly) (i : ℕ) (v : List Poly) (l : ℕ) : Poly :=
  (List.range l).foldl
    (fun acc j => polyAddInto acc (pointwise (a.getD (i * l + j) .zero) (v.getD j .zero))) .zero

/-- The loop that rounds the coefficients of one row of `t` into the rows of `t1` and `t0`. -/
def roundRow (acc : Poly) : Poly × Poly :=
  (List.range N).foldl (fun rows c =>
    let r := power2Round (acc.coeff c)
    (rows.1.setCoeff c r.1, rows.2.setCoeff c r.2)) (.zero, .zero)

section Keys
variable [Xof]

/-- Key generation from a seed; `none` when a sampler is given up. -/
def keyGenInternal (p : Params) (xi : Bytes) : Option (PublicKey × SecretKey) := do
  let seedIn := xi ++ [p.k.toUInt8] ++ [p.l.toUInt8]
  let expanded := shake256Sum 128 seedIn
  let rho := slice expanded 0 32
  let rhoP := slice expanded 32 64
  let key := slice expanded 96 32
  let a ← expandA rho p.k p.l
  let s1 ← (List.range p.l).mapM fun i => rejBoundedPoly rhoP i p.eta
  let s2 ← (List.range p.k).mapM fun i => rejBoundedPoly rhoP (p.l + i) p.eta
  let s1hat := (List.range p.l).map fun j => nttCopy (s1.getD j .zero)
  let t := (List.range p.k).foldl (fun t i =>
    let acc := nttInverse (mulRow a i s1hat p.l)
    let rows := roundRow (polyAddInto acc (s2.getD i .zero))
    (t.1 ++ [rows.1], t.2 ++ [rows.2])) ([], [])
  let pk : PublicKey := { rho := copyBytes 32 rho, t1 := t.1 }
  return (pk,
    { rho := copyBytes 32 rho
      key := copyBytes 32 key
      tr := copyBytes 64 (shake256Sum 64 (encodePK p pk))
      s1 := s1
      s2 := s2
      t0 := t.2 })

end Keys

/-! ## Signing -/

/-- The context in front of the message, behind a zero and its length in one byte. -/
def framed (ctx msg : Bytes) : Bytes := [0x00] ++ [ctx.length.toUInt8] ++ ctx ++ msg

/-- What stays the same over the attempts of a signature. -/
structure SignState where
  a : List Poly
  mu : Bytes
  rhoPP : Bytes
  s1hat : List Poly
  s2hat : List Poly
  t0hat : List Poly

def zbits (p : Params) : ℕ := bitlen (2 * p.gamma1 - 1).toNat

def w1bits (p : Params) : ℕ := bitlen (((Q - 1).tdiv (2 * p.gamma2)).toNat - 1)

/-- The loop over one row of `w`: the lowered row and the running maximum of its low bits. -/
def lowerRow (gamma2 : ℤ) (w cs2 : Poly) (r0norm : ℤ) : Poly × ℤ :=
  (List.range N).foldl (fun s cc =>
    let v := modQ (w.coeff cc - cs2.coeff cc)
    (s.1.setCoeff cc v, maxAbs s.2 (lowBits v gamma2))) (.zero, r0norm)

/-- The loop over one row of hints, with the running maximum of the coefficients of `ct0` and the
number of ones. -/
def hintRow (gamma2 : ℤ) (wcs2 ct0 : Poly) (ct0norm : ℤ) (hintCount : ℕ) : Poly × ℤ × ℕ :=
  (List.range N).foldl (fun s cc =>
    let ct0norm := maxAbs s.2.1 (centered (modQ (ct0.coeff cc)))
    let hi1 := highBits (modQ (wcs2.coeff cc + ct0.coeff cc)) gamma2
    let hi2 := highBits (wcs2.coeff cc) gamma2
    if hi1 ≠ hi2 then (s.1.setCoeff cc 1, ct0norm, s.2.2 + 1) else (s.1, ct0norm, s.2.2))
    (.zero, ct0norm, hintCount)

section Sign
variable [Xof]

/-- One attempt; the inner `none` is a `continue`. -/
def signAttempt (p : Params) (s : SignState) (kappa : ℕ) : Option (Option Bytes) := do
  let y := expandMask s.rhoPP kappa p.l p.gamma1
  let yhat := (List.range p.l).map fun j => nttCopy (y.getD j .zero)
  let w := (List.range p.k).foldl (fun (w : List Poly × List Poly) i =>
    let acc := nttInverse (mulRow s.a i yhat p.l)
    (w.1 ++ [acc], w.2 ++ [.build fun c => highBits (acc.coeff c) p.gamma2])) ([], [])
  let w1packed := (List.range p.k).foldl
    (fun out i => out ++ simpleBitPack (w.2.getD i .zero) (w1bits p)) []
  let ctilde := shake256Sum p.ctBytes (cat [s.mu, w1packed])
  let c ← sampleInBall ctilde p.tau
  let chat := nttCopy c
  let z := (List.range p.l).map fun j =>
    let cs1 := nttInverse (pointwise chat (s.s1hat.getD j .zero))
    .build fun cc => centered (modQ ((y.getD j .zero).coeff cc + cs1.coeff cc))
  if p.gamma1 - p.beta ≤ polyVecInfNorm z then return none
  let low := (List.range p.k).foldl (fun (low : List Poly × ℤ) i =>
    let cs2 := nttInverse (pointwise chat (s.s2hat.getD i .zero))
    let row := lowerRow p.gamma2 (w.1.getD i .zero) cs2 low.2
    (low.1 ++ [row.1], row.2)) ([], 0)
  if p.gamma2 - p.beta ≤ low.2 then return none
  let hints := (List.range p.k).foldl (fun (hints : List Poly × ℤ × ℕ) i =>
    let ct0 := nttInverse (pointwise chat (s.t0hat.getD i .zero))
    let row := hintRow p.gamma2 (low.1.getD i .zero) ct0 hints.2.1 hints.2.2
    (hints.1 ++ [row.1], row.2)) ([], 0, 0)
  if p.gamma2 ≤ hints.2.1 then return none
  if p.omega < hints.2.2 then return none
  let sig := appendPacked ctilde z p.l p.gamma1 (zbits p)
  let hb := hintPack hints.1 p.omega p.k
  if hb = [] then return none
  return some (sig ++ hb)

/-- The loop over the values of `kappa`; a signature is empty when they are used up. -/
def signLoop (p : Params) (s : SignState) : List ℕ → Option Bytes
  | [] => some []
  | kappa :: kappas => do
      match ← signAttempt p s kappa with
      | some sig => return sig
      | none => signLoop p s kappas

/-- Signing with the random bytes as an argument; `none` when a sampler or the loop is given up. -/
def signCore (p : Params) (sk : SecretKey) (msg ctx rnd : Bytes) : Option Bytes := do
  let a ← expandA sk.rho.toList p.k p.l
  let mu := shake256Sum 64 (cat [sk.tr.toList, framed ctx msg])
  let rhoPP := shake256Sum 64 (cat [sk.key.toList, rnd, mu])
  let s1hat := (List.range p.l).map fun j => nttCopy (sk.s1.getD j .zero)
  let hats := (List.range p.k).foldl (fun (hats : List Poly × List Poly) i =>
    (hats.1 ++ [nttCopy (sk.s2.getD i .zero)], hats.2 ++ [nttCopy (sk.t0.getD i .zero)])) ([], [])
  signLoop p ⟨a, mu, rhoPP, s1hat, hats.1, hats.2⟩ (List.range' 0 1000 p.l)

end Sign

/-! ## Verification -/

def zBytesPerPoly (p : Params) : ℕ := N * zbits p / 8

def sigSize (p : Params) : ℕ := p.ctBytes + p.l * zBytesPerPoly p + p.omega + p.k

section Verify
variable [Xof]

/-- The length of the signature is converted to `int` before it is compared. -/
def verifyCore (p : Params) (pk : PublicKey) (msg ctx sig : Bytes) : Option Bool :=
  if int32 sig.length ≠ sigSize p then some false
  else
    let ctilde := slice sig 0 p.ctBytes
    let z := (List.range p.l).map fun j =>
      bitUnpack (slice sig (p.ctBytes + j * zBytesPerPoly p) (zBytesPerPoly p)) p.gamma1 (zbits p)
    let off := p.ctBytes + p.l * zBytesPerPoly p
    match hintUnpack (slice sig off (p.omega + p.k)) p.omega p.k with
    | none => some false
    | some h =>
        if p.gamma1 - p.beta ≤ polyVecInfNorm z then some false
        else do
          let a ← expandA pk.rho.toList p.k p.l
          let tr := shake256Sum 64 (encodePK p pk)
          let mu := shake256Sum 64 (cat [tr, framed ctx msg])
          let c ← sampleInBall ctilde p.tau
          let chat := nttCopy c
          let zhat := (List.range p.l).map fun j => nttCopy (z.getD j .zero)
          let t1hat := (List.range p.k).map fun i =>
            nttCopy (.build fun cc => modQ ((pk.t1.getD i .zero).coeff cc <<< D))
          let w1packed := (List.range p.k).foldl (fun out i =>
            let acc := mulRow a i zhat p.l
            let ct1 := pointwise chat (t1hat.getD i .zero)
            let acc := nttInverse (.build fun cc => modQ (acc.coeff cc - ct1.coeff cc))
            let w1 : Poly := .build fun cc =>
              useHint ((h.getD i .zero).coeff cc) (acc.coeff cc) p.gamma2
            out ++ simpleBitPack w1 (w1bits p)) []
          let ctildePrime := shake256Sum p.ctBytes (cat [mu, w1packed])
          if ctildePrime.length ≠ ctilde.length then return false
          let diff := (List.range ctilde.length).foldl
            (fun diff i => diff ||| (ctilde.getD i 0 ^^^ ctildePrime.getD i 0)) 0
          return diff = 0

end Verify

end BhtBhte.Fips204
