import BhtBhte.Lib.Bytes
import BhtBhte.Script.HybridSig

/-!
# The build without liboqs

`mldsa.cpp` compiled without `USE_MLDSA` signs and verifies with a hash of its own.  The loop
that absorbs the input goes back to the first byte after every block and never ends.  Any hash
in its place would not help: the verifier recomputes a signature from the public key alone.
-/
namespace BhtBhte.Fallback

open BhtBhte.Lib
open BhtBhte.Script (MldsaLevel)

abbrev Bytes := List UInt8
/-- The state of the hash, 25 words. -/
abbrev State := Vector UInt64 25

/-! ## The hash -/

namespace State

def get (state : State) (i : ℕ) : UInt64 := state[i]?.getD 0

/-- A byte of the words, which are stored least significant byte first. -/
def byteAt (state : State) (i : ℕ) : UInt8 :=
  (state.get (i / 8) >>> (8 * (i % 8)).toUInt64).toUInt8

/-- Add a byte to a byte of the state. -/
def xorByte (state : State) (i : ℕ) (b : UInt8) : State :=
  state.setIfInBounds (i / 8) (state.get (i / 8) ^^^ (b.toUInt64 <<< (8 * (i % 8)).toUInt64))

end State

def roundConstants : List UInt64 := [
  0x0000000000000001, 0x0000000000008082, 0x800000000000808a, 0x8000000080008000,
  0x000000000000808b, 0x0000000080000001, 0x8000000080008081, 0x8000000000008009,
  0x000000000000008a, 0x0000000000000088, 0x0000000080008009, 0x000000008000000a,
  0x000000008000808b, 0x800000000000008b, 0x8000000000008089, 0x8000000000008003,
  0x8000000000008002, 0x8000000000000080, 0x000000000000800a, 0x800000008000000a,
  0x8000000080008081, 0x8000000000008080, 0x0000000080000001, 0x8000000080008008]

/-- A shift by 64 counts modulo 64, as the processor has it. -/
def rotl64 (v : UInt64) (shift : ℕ) : UInt64 :=
  (v <<< shift.toUInt64) ||| (v >>> (64 - shift).toUInt64)

def round (state : State) (r : ℕ) : State :=
  let c := fun x => state.get x ^^^ state.get (x + 5) ^^^ state.get (x + 10) ^^^
    state.get (x + 15) ^^^ state.get (x + 20)
  let d := fun x => c ((x + 4) % 5) ^^^ rotl64 (c ((x + 1) % 5)) 1
  let theta : State := Vector.ofFn fun k => state.get k ^^^ d (k % 5)
  let b : State := (List.range 25).foldl (fun b k =>
    let x := k / 5
    let y := k % 5
    b.setIfInBounds (5 * y + (2 * x + 3 * y) % 5)
      (rotl64 (theta.get (x + 5 * y)) ((x * 2 + y * 3) % 64))) (Vector.replicate 25 0)
  let chi : State := Vector.ofFn fun k =>
    let x := k % 5
    let y := k / 5
    b.get (5 * x + y) ^^^ (~~~b.get (5 * ((x + 1) % 5) + y) &&& b.get (5 * ((x + 2) % 5) + y))
  chi.setIfInBounds 0 (chi.get 0 ^^^ roundConstants.getD r 0)

/-- The permutation of the fallback. -/
def permute (state : State) : State := (List.range 24).foldl round state

def rate : ℕ := 136

/-- The loop that absorbs the input. -/
def absorbLoop (input : Bytes) : ℕ → ℕ → State → Option State
  | 0, _, _ => none
  | fuel + 1, i, state =>
    if i < input.length then
      let blockLen := min rate (input.length - i)
      let state := (List.range blockLen).foldl
        (fun state j => state.xorByte (i + j) (input.getD (i + j) 0)) state
      let i := i + blockLen
      if blockLen = rate ∨ i ≥ input.length then absorbLoop input fuel 0 (permute state)
      else absorbLoop input fuel i state
    else some state

/-- The loop that squeezes the output; every pass gives at least one byte. -/
def squeezeLoop : ℕ → ℕ → State → Bytes
  | 0, _, _ => []
  | passes + 1, outputLen, state =>
    let block := (List.range (min rate outputLen)).map state.byteAt
    if rate < outputLen then block ++ squeezeLoop passes (outputLen - rate) (permute state)
    else block

/-- The hash, with fuel for the absorbing loop. -/
def shake256Fallback (fuel : ℕ) (input : Bytes) (outputLen : ℕ) : Option Bytes := do
  let state ← absorbLoop input fuel 0 (Vector.replicate 25 0)
  let state := permute ((state.xorByte 135 0x1F).xorByte 134 0x06)
  let state := permute ((state.xorByte 135 0x80).xorByte 134 0x05)
  return squeezeLoop outputLen outputLen state

/-- After every pass there is something left to absorb. -/
theorem absorbLoop_eq_none (input : Bytes) :
    ∀ (fuel i : ℕ) (state : State), i < input.length → absorbLoop input fuel i state = none := by
  intro fuel
  induction fuel with
  | zero =>
      intro i state _
      rfl
  | succ fuel ih =>
      intro i state hi
      rw [absorbLoop, if_pos hi]
      dsimp only
      split_ifs with hend
      · exact ih 0 _ (by omega)
      · exact ih _ _ (by omega)

theorem shake256Fallback_eq_none {input : Bytes} (h : input ≠ []) (fuel outputLen : ℕ) :
    shake256Fallback fuel input outputLen = none := by
  rw [shake256Fallback, absorbLoop_eq_none input fuel 0 _ (List.length_pos_iff.mpr h)]
  rfl

/-! ## Keys and signatures -/

/-- `MLDSA_SecretKey::SIZE_LEVEL*`. -/
def secretKeySize : MldsaLevel → ℕ
  | .level2 => 2560
  | .level3 => 4032
  | .level5 => 4896

/-- Where a seed comes from: the system's generator, or when that fails the time and two
addresses. -/
inductive SeedSource where
  | random (bytes : Vector UInt8 32)
  | derived (time seedAddress thisAddress : UInt64)

/-- The words of `fallback_seed`. -/
abbrev SeedWords := Vector UInt64 5

namespace SeedWords

def get (s : SeedWords) (i : ℕ) : UInt64 := s[i]?.getD 0
def set (s : SeedWords) (i : ℕ) (v : UInt64) : SeedWords := s.setIfInBounds i v

end SeedWords

/-- The bits of one seed byte. -/
def seedByte (s : SeedWords) (i : ℕ) : SeedWords × UInt8 :=
  (List.range 8).foldl (fun e bit =>
    let s := e.1.set 3 (e.1.get 3 ^^^ (e.1.get ((i + bit) % 4) * 31))
    let s := s.set 4 ((s.get 4 <<< 1) ||| ((s.get 3 >>> (bit + i).toUInt64) &&& 1))
    let combined := s.get 0 ^^^ (s.get 1 <<< (i % 56).toUInt64) ^^^
      (s.get 2 >>> (i % 48).toUInt64)
    let combined := combined ^^^ (s.get 3 <<< i.toUInt64) ^^^ (s.get 4 >>> (31 - i).toUInt64)
    let bits := ((combined ^^^ (combined >>> (i + bit + 1).toUInt64)) &&& 1) <<< bit.toUInt64
    (s, e.2 ||| bits.toUInt8)) (s, 0)

/-- Add the low byte of a word to a byte of the seed. -/
def xorSeed (seed : Vector UInt8 32) (i : ℕ) (v : UInt64) : Vector UInt8 32 :=
  seed.setIfInBounds i (seed[i]?.getD 0 ^^^ v.toUInt8)

/-- The words are mixed, and the last four of them go into the seed. -/
def mixWords (e : SeedWords × Vector UInt8 32) (i : ℕ) : SeedWords × Vector UInt8 32 :=
  let t := e.1.get (i % 4)
  let t := t ^^^ (t <<< 13)
  let t := t ^^^ (t >>> 7)
  let t := t ^^^ (t <<< 17)
  let seed := if i ≥ 4 then
      xorSeed (xorSeed (xorSeed (xorSeed e.2 ((i - 4) * 4 % 32) t) ((i - 3) * 4 % 32) (t >>> 8))
        ((i - 2) * 4 % 32) (t >>> 16)) ((i - 1) * 4 % 32) (t >>> 24)
    else e.2
  (e.1.set (i % 4) t, seed)

/-- The last mixing of a byte of the seed. -/
def mixByte (e : SeedWords × Vector UInt8 32) (i : ℕ) : SeedWords × Vector UInt8 32 :=
  let combined := e.1.get 0
  let combined := combined ^^^ (combined <<< 17)
  let combined := combined ^^^ (combined >>> 15)
  let combined := combined ^^^ (combined <<< 25)
  let combined := combined ^^^ (e.1.get 1 >>> (i % 56).toUInt64)
  let combined := combined ^^^ (e.1.get 2 <<< (i % 48).toUInt64)
  let combined := combined ^^^ (e.1.get 3 <<< (i % 32).toUInt64)
  let combined := combined ^^^ (e.1.get 4 >>> (i % 56).toUInt64)
  (e.1.set (i % 4) (e.1.get (i % 4) ^^^ combined), xorSeed e.2 i combined)

/-- The seed of a key pair: random bytes, or bytes made of the time and two addresses. -/
def seedFrom : SeedSource → Vector UInt8 32
  | .random bytes => bytes
  | .derived time seedAddress thisAddress =>
    let words : SeedWords := #v[time, seedAddress, thisAddress, 0, 0]
    let filled := (List.range 32).foldl (fun e i =>
      let r := seedByte e.1 i
      (r.1, e.2.setIfInBounds i r.2)) (words, (Vector.replicate 32 0 : Vector UInt8 32))
    let mixed := (List.range 8).foldl mixWords filled
    ((List.range 32).foldl mixByte mixed).2

/-- A `CMLDSA`; the keys have the sizes of the level. -/
structure CMLDSA where
  level : MldsaLevel
  publicKey : Bytes
  secretKey : Bytes
  hasKey : Bool

namespace CMLDSA

def new (level : MldsaLevel) : CMLDSA where
  level := level
  publicKey := List.replicate level.publicKeySize 0
  secretKey := List.replicate (secretKeySize level) 0
  hasKey := false

/-- `constantTimeCompare`, on the first `len` bytes. -/
def constantTimeCompare (a b : Bytes) (len : ℕ) : Bool :=
  (List.range len).foldl (fun diff i => diff ||| (a.getD i 0 ^^^ b.getD i 0)) 0 = 0

section Hash
variable (shake : Bytes → ℕ → Option Bytes)

/-- A secret key from the seed and a public key from the first half of it. -/
def generateKeyPair (m : CMLDSA) (source : SeedSource) : Option CMLDSA := do
  let secretKey ← shake (seedFrom source).toList m.secretKey.length
  let publicKey ← shake (secretKey.take (m.secretKey.length / 2)) m.publicKey.length
  return { m with secretKey, publicKey, hasKey := true }

/-- The signature is the hash of the secret key, the message and the context. -/
def signInternal (m : CMLDSA) (message context : Bytes) : Option Bytes :=
  shake (m.secretKey ++ message ++ context) m.level.signatureSize

/-- A signer without a key makes one first. -/
def sign (m : CMLDSA) (source : SeedSource) (message context : Bytes) :
    Option (CMLDSA × Bytes) := do
  let m ← if m.hasKey then some m else m.generateKeyPair shake source
  let signature ← m.signInternal shake message context
  return (m, signature)

/-- What `verifyInternal` compares a signature with. -/
def expectedSig (m : CMLDSA) (message context : Bytes) : Option Bytes :=
  shake (m.publicKey ++ message ++ context) m.level.signatureSize

/-- Compare a signature with the one expected. -/
def verify (m : CMLDSA) (message signature context : Bytes) : Option Bool := do
  let expected ← m.expectedSig shake message context
  return constantTimeCompare signature expected m.level.signatureSize

end Hash
end CMLDSA

/-- A verifier that knows the public key only. -/
def CMLDSA.verifier (level : MldsaLevel) (publicKey : Bytes) : CMLDSA :=
  { CMLDSA.new level with publicKey }

/-- A key pair is made and signs, its signature is accepted under the public key, and the hash
of the public key, the message and the context is not. -/
def WorksWith (shake : Bytes → ℕ → Option Bytes) (level : MldsaLevel) (source : SeedSource)
    (message context : Bytes) : Prop :=
  ∃ signer signed signature, (CMLDSA.new level).generateKeyPair shake source = some signer ∧
    signer.sign shake source message context = some (signed, signature) ∧
    (CMLDSA.verifier level signer.publicKey).verify shake message signature context =
      some true ∧
    ∃ computed, shake (signer.publicKey ++ message ++ context) level.signatureSize =
        some computed ∧
      (CMLDSA.verifier level signer.publicKey).verify shake message computed context =
        some false

section Works
variable {shake : Bytes → ℕ → Option Bytes} {level : MldsaLevel} {source : SeedSource}
  {message context publicKey computed : Bytes}

theorem constantTimeCompare_self (a : Bytes) (len : ℕ) :
    CMLDSA.constantTimeCompare a a len = true := by
  simp [CMLDSA.constantTimeCompare]

/-- Everybody can compute a signature that is accepted. -/
theorem verify_computed
    (h : shake (publicKey ++ message ++ context) level.signatureSize = some computed) :
    (CMLDSA.verifier level publicKey).verify shake message computed context = some true := by
  have hexpected : (CMLDSA.verifier level publicKey).expectedSig shake message context =
    some computed := h
  rw [CMLDSA.verify, hexpected]
  exact congrArg some (constantTimeCompare_self computed _)

theorem not_worksWith : ¬ WorksWith shake level source message context := by
  rintro ⟨signer, -, -, -, -, -, computed, hcomputed, hrefused⟩
  rw [verify_computed hcomputed] at hrefused
  cases hrefused

theorem seedFrom_ne_nil : (seedFrom source).toList ≠ [] := by
  rw [ne_eq, ← List.length_eq_zero_iff, Vector.length_toList]
  decide

theorem generateKeyPair_eq_none (fuel : ℕ) :
    (CMLDSA.new level).generateKeyPair (shake256Fallback fuel) source = none := by
  rw [CMLDSA.generateKeyPair, shake256Fallback_eq_none seedFrom_ne_nil]
  rfl

end Works

/-- **No key pair is ever made, and no hash in the place of this one makes the scheme work.** -/
theorem fallback_never_works (level : MldsaLevel) (source : SeedSource) (message context : Bytes) :
    (∀ fuel, (CMLDSA.new level).generateKeyPair (shake256Fallback fuel) source = none) ∧
      (∀ fuel, ¬ WorksWith (shake256Fallback fuel) level source message context) ∧
      ∀ shake, ¬ WorksWith shake level source message context :=
  ⟨generateKeyPair_eq_none, fun _ => not_worksWith, fun _ => not_worksWith⟩

/-- The empty message at level 3, with a seed of zeros. -/
theorem not_worksWith_empty : ¬ ∃ fuel, WorksWith (shake256Fallback fuel) .level3
    (.random (Vector.replicate 32 0)) [] [] := by
  rintro ⟨fuel, hworks⟩
  exact not_worksWith hworks

end BhtBhte.Fallback
