import BhtBhte.Lib.Lists
import BhtBhte.Mldsa.Core

/-!
# Keys, signatures and their encodings

`mldsa.go`: key generation from a seed, signing with the random bytes as an argument, verification
and the four encoders.  A result in `Option` is `none` when a rejection loop of a sampler is given
up; the errors of the package are those of `Error`.
-/
namespace BhtBhte.Mldsa
open BhtBhte.Lib

/-- The three parameter sets. -/
inductive ParameterSet
  | mldsa44
  | mldsa65
  | mldsa87
deriving DecidableEq, Repr

/-- The parameters of a security level. -/
structure Params where
  k : ℕ
  l : ℕ
  eta : ℕ
  tau : ℕ
  beta : ℤ
  gamma1 : ℤ
  gamma2 : ℤ
  omega : ℕ
  ctBytes : ℕ
deriving DecidableEq, Repr

inductive Error
  | invalidPublicKeySize
  | invalidSecretKeySize
  | invalidSignatureSize
  | verificationFailed
  | signingFailed
deriving DecidableEq, Repr

namespace ParameterSet

/-- The parameters of a set. -/
def info : ParameterSet → Params
  | mldsa44 => { k := 4, l := 4, eta := 2, tau := 39, beta := 39 * 2, gamma1 := 1 <<< 17,
                 gamma2 := (Q - 1).tdiv 88, omega := 80, ctBytes := 32 }
  | mldsa65 => { k := 6, l := 5, eta := 4, tau := 49, beta := 49 * 4, gamma1 := 1 <<< 19,
                 gamma2 := (Q - 1).tdiv 32, omega := 55, ctBytes := 48 }
  | mldsa87 => { k := 8, l := 7, eta := 2, tau := 60, beta := 60 * 2, gamma1 := 1 <<< 19,
                 gamma2 := (Q - 1).tdiv 32, omega := 75, ctBytes := 64 }

def publicKeySize : ParameterSet → ℕ
  | mldsa44 => 1312
  | mldsa65 => 1952
  | mldsa87 => 2592

def secretKeySize : ParameterSet → ℕ
  | mldsa44 => 2560
  | mldsa65 => 4032
  | mldsa87 => 4896

def signatureSize : ParameterSet → ℕ
  | mldsa44 => 2420
  | mldsa65 => 3309
  | mldsa87 => 4627

end ParameterSet

/-- `copy` into a zero array of `n` bytes. -/
def copyBytes (n : ℕ) (b : Bytes) : Vector UInt8 n := Vector.ofFn fun i => b.getD i 0

structure PublicKey where
  rho : Vector UInt8 32
  t1 : List Poly
  param : ParameterSet
deriving DecidableEq

structure SecretKey where
  rho : Vector UInt8 32
  key : Vector UInt8 32
  tr : Vector UInt8 64
  s1 : List Poly
  s2 : List Poly
  t0 : List Poly
  param : ParameterSet
deriving DecidableEq

/-! ## Encodings -/

def publicKeyToBytes (pk : PublicKey) : Bytes :=
  pk.rho.toList ++ pk.t1.flatMap fun t => simpleBitPack t 10

/-- The encodings of the first `n` polynomials of a vector, one after the other. -/
def packVec (v : List Poly) (n : ℕ) (b : ℤ) (bits : ℕ) : Bytes :=
  (List.range n).flatMap fun i => bitPack (v.getD i .zero) b bits

def secretKeyToBytes (m : ParameterSet) (sk : SecretKey) : Bytes :=
  let p := m.info
  let etabits := bitlen (2 * p.eta)
  sk.rho.toList ++ sk.key.toList ++ sk.tr.toList ++
    packVec sk.s1 p.l p.eta etabits ++ packVec sk.s2 p.k p.eta etabits ++
    packVec sk.t0 p.k (1 <<< (D - 1)) D

/-- Decode `n` polynomials from the offset on, `size` bytes each. -/
def unpackVec (data : Bytes) (off n size : ℕ) (unpack : Bytes → Poly) : List Poly :=
  (List.range n).map fun i => unpack (slice data (off + i * size) size)

/-- Read a public key of the right length. -/
def publicKeyFromBytes (m : ParameterSet) (data : Bytes) : Except Error PublicKey :=
  let p := m.info
  if data.length ≠ m.publicKeySize then .error .invalidPublicKeySize
  else
    let bytesPerPoly := N * 10 / 8
    .ok { param := m
          rho := copyBytes 32 (slice data 0 32)
          t1 := unpackVec data 32 p.k bytesPerPoly fun buf => simpleBitUnpack buf 10 }

/-- Read a secret key of the right length. -/
def secretKeyFromBytes (m : ParameterSet) (data : Bytes) : Except Error SecretKey :=
  let p := m.info
  if data.length ≠ m.secretKeySize then .error .invalidSecretKeySize
  else
    let etabits := bitlen (2 * p.eta)
    let etaBytes := N * etabits / 8
    let t0Bytes := N * D / 8
    let off := 128
    .ok { param := m
          rho := copyBytes 32 (slice data 0 32)
          key := copyBytes 32 (slice data 32 32)
          tr := copyBytes 64 (slice data 64 64)
          s1 := unpackVec data off p.l etaBytes fun buf => bitUnpack buf p.eta p.eta etabits
          s2 := unpackVec data (off + p.l * etaBytes) p.k etaBytes fun buf =>
            bitUnpack buf p.eta p.eta etabits
          t0 := unpackVec data (off + p.l * etaBytes + p.k * etaBytes) p.k t0Bytes fun buf =>
            bitUnpack buf (1 <<< (D - 1) - 1) (1 <<< (D - 1)) D }

/-! ## Key generation -/

/-- The product of a row of the matrix with a vector, in the transformed domain. -/
def mulRow (row v : List Poly) (l : ℕ) : Poly :=
  (List.range l).foldl
    (fun acc j => polyAddInto acc (pointwise (row.getD j .zero) (v.getD j .zero))) .zero

/-- The vector `t = A * s1 + s2`. -/
def publicVector (p : Params) (a : List (List Poly)) (s1 s2 : List Poly) : List Poly :=
  let s1hat := s1.map nttCopy
  (List.range p.k).map fun i =>
    polyAddInto (nttInverse (mulRow (a.getD i []) s1hat p.l)) (s2.getD i .zero)

section Keys
variable [Xof]

/-- Key generation from a seed of 32 bytes. -/
def keyGenFromSeed (m : ParameterSet) (xi : Bytes) :
    Option (Except Error (PublicKey × SecretKey)) :=
  let p := m.info
  if p.k = 0 then some (.error .invalidPublicKeySize)
  else do
    let expanded := shake256Sum 128 [xi, [p.k.toUInt8], [p.l.toUInt8]]
    let rho := slice expanded 0 32
    let rhoP := slice expanded 32 64
    let key := slice expanded 96 32
    let a ← expandA rho p.k p.l
    let (s1, s2) ← expandS rhoP p.k p.l p.eta
    let t := publicVector p a s1 s2
    let t1 := t.map fun acc => .build fun c => (power2Round (acc.coeff c)).1
    let t0 := t.map fun acc => .build fun c => (power2Round (acc.coeff c)).2
    let pk : PublicKey := { rho := copyBytes 32 rho, t1 := t1, param := m }
    return .ok (pk,
      { rho := copyBytes 32 rho
        key := copyBytes 32 key
        tr := copyBytes 64 (shake256Sum 64 [publicKeyToBytes pk])
        s1 := s1
        s2 := s2
        t0 := t0
        param := m })

end Keys

/-! ## Signing -/

/-- The framing of a message with an empty context. -/
def framedMessage (message : Bytes) : Bytes := [0x00, 0x00] ++ message

/-- The high bits of the commitment, as they are hashed. -/
def packW1 (w1 : List Poly) (bits : ℕ) : Bytes := w1.flatMap fun poly => simpleBitPack poly bits

/-- The greatest absolute value in a vector. -/
def polyVecInfNorm (v : List Poly) : ℤ :=
  v.foldl (fun max p => if max < polyInfNorm p then polyInfNorm p else max) 0

/-- What stays the same over the attempts of a signature. -/
structure SignState where
  a : List (List Poly)
  mu : Bytes
  rhoPP : Bytes
  s1hat : List Poly
  s2hat : List Poly
  t0hat : List Poly

/-- The product of the challenge with a polynomial, both transformed. -/
def mulChallenge (chat s : Poly) : Poly := nttInverse (pointwise chat s)

def zbits (p : Params) : ℕ := bitlen (2 * p.gamma1 - 1).toNat

def w1bits (p : Params) : ℕ := bitlen (((Q - 1).tdiv (2 * p.gamma2)).toNat - 1)

/-- The commitment `w` to a mask. -/
def commitment (p : Params) (a : List (List Poly)) (yhat : List Poly) : List Poly :=
  (List.range p.k).map fun i => nttInverse (mulRow (a.getD i []) yhat p.l)

/-- `z = y + c * s1`. -/
def response (p : Params) (y : List Poly) (chat : Poly) (s1hat : List Poly) : List Poly :=
  (List.range p.l).map fun j =>
    let cs1 := mulChallenge chat (s1hat.getD j .zero)
    .build fun cc => centered (modQ ((y.getD j .zero).coeff cc + cs1.coeff cc))

/-- `w - c * s2`. -/
def lowered (p : Params) (w : List Poly) (chat : Poly) (s2hat : List Poly) : List Poly :=
  (List.range p.k).map fun i =>
    let cs2 := mulChallenge chat (s2hat.getD i .zero)
    .build fun cc => modQ ((w.getD i .zero).coeff cc - cs2.coeff cc)

/-- The largest low bits of a vector. -/
def lowNorm (p : Params) (v : List Poly) : ℤ :=
  v.foldl (fun max w =>
    (List.range N).foldl (fun max cc => maxAbs max (lowBits (w.coeff cc) p.gamma2)) max) 0

/-- The hints that `c * t0` makes necessary. -/
def makeHints (p : Params) (wcs2 ct0 : List Poly) : List Poly :=
  (List.range p.k).map fun i =>
    .build fun cc =>
      let w := (wcs2.getD i .zero).coeff cc
      let hi1 := highBits (modQ (w + (ct0.getD i .zero).coeff cc)) p.gamma2
      let hi2 := highBits w p.gamma2
      if hi1 ≠ hi2 then 1 else 0

/-- The largest centred coefficient of a vector. -/
def centeredNorm (v : List Poly) : ℤ :=
  v.foldl (fun max w =>
    (List.range N).foldl (fun max cc => maxAbs max (centered (modQ (w.coeff cc)))) max) 0

/-- The number of ones. -/
def hintCount (h : List Poly) : ℕ :=
  h.foldl (fun count p =>
    (List.range N).foldl (fun count cc => if p.coeff cc = 1 then count + 1 else count) count) 0

section Sign
variable [Xof]

/-- One attempt; the inner `none` is a `continue`. -/
def signAttempt (p : Params) (s : SignState) (kappa : ℕ) : Option (Option Bytes) := do
  let y := expandMask s.rhoPP kappa p.l p.gamma1
  let yhat := y.map nttCopy
  let w := commitment p s.a yhat
  let w1 := w.map fun acc => .build fun c => highBits (acc.coeff c) p.gamma2
  let ctilde := shake256Sum p.ctBytes [s.mu, packW1 w1 (w1bits p)]
  let c ← sampleInBall ctilde p.tau
  let chat := nttCopy c
  let z := response p y chat s.s1hat
  if p.gamma1 - p.beta ≤ polyVecInfNorm z then return none
  let wcs2 := lowered p w chat s.s2hat
  if p.gamma2 - p.beta ≤ lowNorm p wcs2 then return none
  let ct0 := (List.range p.k).map fun i => mulChallenge chat (s.t0hat.getD i .zero)
  let h := makeHints p wcs2 ct0
  if p.gamma2 ≤ centeredNorm ct0 then return none
  if p.omega < hintCount h then return none
  match hintPack h p.omega p.k with
  | none => return none
  | some hintBytes => return some (ctilde ++ packVec z p.l p.gamma1 (zbits p) ++ hintBytes)

/-- The loop over `kappa`; `left` attempts are left. -/
def signLoop (p : Params) (s : SignState) : ℕ → ℕ → Option (Except Error Bytes)
  | 0, _ => some (.error .signingFailed)
  | left + 1, kappa => do
      match ← signAttempt p s kappa with
      | some sig => return .ok sig
      | none => signLoop p s left (kappa + p.l)

/-- `Sign`, with the random bytes given. -/
def sign (m : ParameterSet) (sk : SecretKey) (message rnd : Bytes) :
    Option (Except Error Bytes) := do
  let p := m.info
  let a ← expandA sk.rho.toList p.k p.l
  let mu := shake256Sum 64 [sk.tr.toList, framedMessage message]
  let rhoPP := shake256Sum 64 [sk.key.toList, rnd, mu]
  let s1hat := (List.range p.l).map fun j => nttCopy (sk.s1.getD j .zero)
  let s2hat := (List.range p.k).map fun i => nttCopy (sk.s2.getD i .zero)
  let t0hat := (List.range p.k).map fun i => nttCopy (sk.t0.getD i .zero)
  signLoop p ⟨a, mu, rhoPP, s1hat, s2hat, t0hat⟩ 1000 0

end Sign

/-! ## Verification -/

/-- The accumulated difference of two slices; the slices are equal when it is zero. -/
def constantTimeEqual (a b : Bytes) : Bool :=
  if a.length ≠ b.length then false
  else ((List.range a.length).foldl (fun diff i => diff ||| (a.getD i 0 ^^^ b.getD i 0)) 0) = 0

section Verify
variable [Xof]

/-- The high bits that the verifier recomputes for the `i`-th row. -/
def recomputeRow (p : Params) (row zhat : List Poly) (chat t1hat h : Poly) : Poly :=
  let acc := mulRow row zhat p.l
  let ct1 := pointwise chat t1hat
  let acc := nttInverse (.build fun cc => modQ (acc.coeff cc - ct1.coeff cc))
  .build fun cc => useHint (h.coeff cc) (acc.coeff cc) p.gamma2

/-- Verification: `.ok` when the signature is one of the message under the key. -/
def verify (m : ParameterSet) (pk : PublicKey) (message signature : Bytes) :
    Option (Except Error Unit) :=
  let p := m.info
  if signature.length ≠ m.signatureSize then some (.error .invalidSignatureSize)
  else
    let ctilde := slice signature 0 p.ctBytes
    let zBytesPerPoly := N * zbits p / 8
    let z := unpackVec signature p.ctBytes p.l zBytesPerPoly fun buf =>
      bitUnpack buf (p.gamma1 - 1) p.gamma1 (zbits p)
    let off := p.ctBytes + p.l * zBytesPerPoly
    match hintUnpack (slice signature off (p.omega + p.k)) p.omega p.k with
    | none => some (.error .verificationFailed)
    | some h =>
        if p.gamma1 - p.beta ≤ polyVecInfNorm z then some (.error .verificationFailed)
        else do
          let a ← expandA pk.rho.toList p.k p.l
          let tr := shake256Sum 64 [publicKeyToBytes pk]
          let mu := shake256Sum 64 [tr, framedMessage message]
          let c ← sampleInBall ctilde p.tau
          let chat := nttCopy c
          let zhat := z.map nttCopy
          let t1hat := (List.range p.k).map fun i =>
            nttCopy (.build fun cc => modQ ((pk.t1.getD i .zero).coeff cc <<< D))
          let w1 := (List.range p.k).map fun i =>
            recomputeRow p (a.getD i []) zhat chat (t1hat.getD i .zero) (h.getD i .zero)
          let ctildePrime := shake256Sum p.ctBytes [mu, packW1 w1 (w1bits p)]
          if constantTimeEqual ctilde ctildePrime then return .ok ()
          else return .error .verificationFailed

end Verify

end BhtBhte.Mldsa
