import BhtBhte.Lib.ByteOrder
import BhtBhte.Spv.Work

/-!
# ProgPoW

`progpow.cpp` with its own SHA-256, and the rule of `pow.cpp` that uses it.  A `uint256` is an
array of 32 bytes, and a local one starts with whatever the memory held: `hash` and what is
built on it get that buffer as an argument.  The cache of a `CProgPoW` is filled but read by no
verification, so that only its being filled is kept.
-/
namespace BhtBhte.Pow

open BhtBhte.Lib (lexLE)
open BhtBhte.Spv (deriveTarget uintToArith256)

abbrev Bytes := List UInt8
abbrev Uint256 := Vector UInt8 32

def progpowLanes : UInt32 := 16
def progpowPeriod : UInt64 := 12500

/-! ## Words -/

def fnvPrime : UInt32 := 0x01000193

/-- The shift amounts count modulo 32, as the processor has it. -/
def rotl32 (v c : UInt32) : UInt32 := (v <<< c) ||| (v >>> (32 - c))

def rotr32 (v c : UInt32) : UInt32 := (v >>> c) ||| (v <<< (32 - c))

def clz32 (v : UInt32) : UInt32 := if v ≠ 0 then UInt32.ofNat (31 - v.toNat.log2) else 32

def popcount32 (v : UInt32) : UInt32 :=
  UInt32.ofNat ((List.range 32).countP fun i => v.toNat.testBit i)

/-- A step of the FNV-1a hash. -/
def fnv1a (h d : UInt32) : UInt32 := (h ^^^ d) * fnvPrime

/-- Four bytes as a word, the first one highest. -/
def wordBE (data : Bytes) (off : ℕ) : UInt32 :=
  ((data.getD off 0).toUInt32 <<< 24) ||| ((data.getD (off + 1) 0).toUInt32 <<< 16) |||
    ((data.getD (off + 2) 0).toUInt32 <<< 8) ||| (data.getD (off + 3) 0).toUInt32

/-- `memcpy` of four bytes into a word. -/
def wordLE (data : Bytes) (off : ℕ) : UInt32 :=
  (data.getD off 0).toUInt32 ||| ((data.getD (off + 1) 0).toUInt32 <<< 8) |||
    ((data.getD (off + 2) 0).toUInt32 <<< 16) ||| ((data.getD (off + 3) 0).toUInt32 <<< 24)

/-- `memcpy` of an integer into `n` bytes. -/
def bytesLE (n : ℕ) (v : UInt64) : Bytes :=
  (List.range n).map fun i => (v >>> (8 * i).toUInt64).toUInt8

/-! ## SHA-256 -/

namespace SHA256

def k : List UInt32 := [
  0x428a2f98, 0x71374491, 0xb5c0fbcf, 0xe9b5dba5,
  0x3956c25b, 0x59f111f1, 0x923f82a4, 0xab1c5ed5,
  0xd807aa98, 0x12835b01, 0x243185be, 0x550c7dc3,
  0x72be5d74, 0x80deb1fe, 0x9bdc06a7, 0xc19bf174,
  0xe49b69c1, 0xefbe4786, 0x0fc19dc6, 0x240ca1cc,
  0x2de92c6f, 0x4a7484aa, 0x5cb0a9dc, 0x76f988da,
  0x983e5152, 0xa831c66d, 0xb00327c8, 0xbf597fc7,
  0xc6e00bf3, 0xd5a79147, 0x06ca6351, 0x14292967,
  0x27b70a85, 0x2e1b2138, 0x4d2c6dfc, 0x53380d13,
  0x650a7354, 0x766a0abb, 0x81c2c92e, 0x92722c85,
  0xa2bfe8a1, 0xa81a664b, 0xc24b8b70, 0xc76c51a3,
  0xd192e819, 0xd6990624, 0xf40e3585, 0x106aa070,
  0x19a4c116, 0x1e376c08, 0x2748774c, 0x34b0bcb5,
  0x391c0cb3, 0x4ed8aa4a, 0x5b9cca4f, 0x682e6ff3,
  0x748f82ee, 0x78a5636f, 0x84c87814, 0x8cc70208,
  0x90befffa, 0xa4506ceb, 0xbef9a3f7, 0xc67178f2]

/-- The eight words of the state. -/
structure Regs where
  a : UInt32
  b : UInt32
  c : UInt32
  d : UInt32
  e : UInt32
  f : UInt32
  g : UInt32
  hh : UInt32
  deriving DecidableEq, Repr

def start : Regs where
  a := 0x6a09e667
  b := 0xbb67ae85
  c := 0x3c6ef372
  d := 0xa54ff53a
  e := 0x510e527f
  f := 0x9b05688c
  g := 0x1f83d9ab
  hh := 0x5be0cd19

def pad (input : Bytes) : Bytes :=
  let paddedLen := ((input.length + 8) / 64 + 1) * 64
  let bitLen := UInt64.ofNat input.length * 8
  input ++ [0x80] ++ List.replicate (paddedLen - 9 - input.length) 0 ++
    (List.range 8).map fun i : ℕ => (bitLen >>> (56 - i * 8).toUInt64).toUInt8

/-- The words that one chunk is expanded into. -/
def schedule (padded : Bytes) (chunk : ℕ) : List UInt32 :=
  (List.range' 16 48).foldl (fun w i =>
    let s0 := rotr32 (w.getD (i - 15) 0) 7 ^^^ rotr32 (w.getD (i - 15) 0) 18 ^^^
      (w.getD (i - 15) 0 >>> 3)
    let s1 := rotr32 (w.getD (i - 2) 0) 17 ^^^ rotr32 (w.getD (i - 2) 0) 19 ^^^
      (w.getD (i - 2) 0 >>> 10)
    w ++ [w.getD (i - 16) 0 + s0 + w.getD (i - 7) 0 + s1])
    ((List.range 16).map fun i => wordBE padded (chunk * 64 + i * 4))

def round (w : List UInt32) (r : Regs) (i : ℕ) : Regs :=
  let S1 := rotr32 r.e 6 ^^^ rotr32 r.e 11 ^^^ rotr32 r.e 25
  let ch := (r.e &&& r.f) ^^^ (~~~r.e &&& r.g)
  let temp1 := r.hh + S1 + ch + k.getD i 0 + w.getD i 0
  let S0 := rotr32 r.a 2 ^^^ rotr32 r.a 13 ^^^ rotr32 r.a 22
  let maj := (r.a &&& r.b) ^^^ (r.a &&& r.c) ^^^ (r.b &&& r.c)
  let temp2 := S0 + maj
  { hh := r.g, g := r.f, f := r.e, e := r.d + temp1, d := r.c, c := r.b, b := r.a,
    a := temp1 + temp2 }

def compress (padded : Bytes) (h : Regs) (chunk : ℕ) : Regs :=
  let r := (List.range 64).foldl (round (schedule padded chunk)) h
  { a := h.a + r.a, b := h.b + r.b, c := h.c + r.c, d := h.d + r.d, e := h.e + r.e,
    f := h.f + r.f, g := h.g + r.g, hh := h.hh + r.hh }

def hash (input : Bytes) : Bytes :=
  let padded := pad input
  let h := (List.range (padded.length / 64)).foldl (compress padded) start
  [h.a, h.b, h.c, h.d, h.e, h.f, h.g, h.hh].flatMap fun w : UInt32 =>
    [(w >>> 24).toUInt8, (w >>> 16).toUInt8, (w >>> 8).toUInt8, w.toUInt8]

end SHA256

/-! ## The generator -/

/-- `std::mt19937`. -/
structure Mt19937 where
  words : Array UInt32
  index : ℕ

namespace Mt19937

def new (seed : UInt32) : Mt19937 where
  words := (List.range' 1 623).foldl (fun x i =>
    let prev : UInt32 := x.getD (i - 1) 0
    x.push ((1812433253 : UInt32) * (prev ^^^ (prev >>> 30)) + UInt32.ofNat i)) #[seed]
  index := 624

def twist (x : Array UInt32) : Array UInt32 :=
  (List.range 624).foldl (fun x i =>
    let y := (x.getD i 0 &&& 0x80000000) ||| (x.getD ((i + 1) % 624) 0 &&& 0x7fffffff)
    x.setIfInBounds i (x.getD ((i + 397) % 624) 0 ^^^ (y >>> 1) ^^^
      (if y &&& 1 = 0 then 0 else 0x9908b0df))) x

/-- What is given out for a word of its state. -/
def temper (y : UInt32) : UInt32 :=
  let y := y ^^^ (y >>> 11)
  let y := y ^^^ ((y <<< 7) &&& 0x9d2c5680)
  let y := y ^^^ ((y <<< 15) &&& 0xefc60000)
  y ^^^ (y >>> 18)

def next (rng : Mt19937) : UInt32 × Mt19937 :=
  let rng := if rng.index ≥ 624 then { words := twist rng.words, index := 0 } else rng
  (temper (rng.words.getD rng.index 0), { rng with index := rng.index + 1 })

end Mt19937

/-! ## The hash -/

/-- The epoch of a block. -/
def getEpoch (blockNumber : UInt64) : UInt64 := blockNumber / progpowPeriod

/-- The `switch` of the loop, on a lane and the one after it. -/
def mixOp (r lane after : UInt32) : UInt32 :=
  match ((r >>> 24) % 16).toNat with
  | 0 => lane + after
  | 1 => lane * after
  | 2 => lane ^^^ after
  | 3 => rotl32 lane ((r >>> 28) % 32)
  | 4 => rotr32 lane ((r >>> 28) % 32)
  | 5 => clz32 lane
  | 6 => popcount32 lane
  | 7 => lane &&& after
  | 8 => lane ||| after
  | 9 => ~~~lane
  | 10 => lane - after
  | 11 => lane <<< ((r >>> 28) % 32)
  | 12 => lane >>> ((r >>> 28) % 32)
  | 13 => fnv1a lane after
  | 14 => lane ^^^ rotl32 after 7
  | _ => lane

/-- One round of the loop. -/
def mixRound (s : Mt19937 × Vector UInt32 16) : Mt19937 × Vector UInt32 16 :=
  let (r, rng) := s.1.next
  let mix := s.2
  let lane := (r % progpowLanes).toNat
  let result := mixOp r (mix[lane]?.getD 0) (mix[(lane + 1) % 16]?.getD 0)
  (rng, mix.setIfInBounds lane (fnv1a (mix[lane]?.getD 0) result))

/-- The mix after its 64 rounds. -/
def hashLoop (blockNumber nonce : UInt64) (headerHash : Uint256) : Vector UInt32 16 :=
  let seed := fnv1a (nonce &&& 0xFFFFFFFF).toUInt32 (nonce >>> 32).toUInt32
  let seed := (List.range 8).foldl (fun seed i => fnv1a seed (wordLE headerHash.toList (4 * i)))
    seed
  let mix := Vector.ofFn fun lane => fnv1a seed (UInt32.ofNat lane)
  ((List.range 64).foldl (fun s _ => mixRound s)
    (Mt19937.new (getEpoch blockNumber).toUInt32, mix)).2

/-- The input of the final digest: the mix, the nonce and the header, with zeros behind. -/
def hashInput (blockNumber nonce : UInt64) (headerHash : Uint256) : Bytes :=
  let mix := hashLoop blockNumber nonce headerHash
  let finalHash := mix.toList.foldl fnv1a 0x811c9dc5
  bytesLE 4 finalHash.toUInt64 ++ bytesLE 8 nonce ++ headerHash.toList ++ List.replicate 20 0

/-- A `CProgPoW`; of the cache only whether it has been filled. -/
structure CProgPoW where
  mEpoch : UInt64 := 0
  mBlockNumber : UInt64 := 0
  cacheFilled : Bool := false
  deriving DecidableEq, Repr

namespace CProgPoW

/-- Fill the cache for the epoch of a block, unless it is filled. -/
def initCache (pow : CProgPoW) (blockNumber : UInt64) : CProgPoW :=
  let epoch := getEpoch blockNumber
  if pow.mEpoch = epoch ∧ pow.cacheFilled then pow
  else { mEpoch := epoch, mBlockNumber := blockNumber, cacheFilled := true }

/-- `Initialize`. -/
def initializeFor (pow : CProgPoW) (blockNumber : UInt64) : CProgPoW :=
  { pow.initCache blockNumber with mBlockNumber := blockNumber }

/-- `output` is written word by word, and each of its bytes keeps the last one of a word. -/
def hash (pow : CProgPoW) (headerHash : Uint256) (nonce : UInt64) (output : Uint256) : Uint256 :=
  let sha256Output := SHA256.hash (hashInput pow.mBlockNumber nonce headerHash)
  (List.range 8).foldl (fun output i =>
    output.setIfInBounds i (wordBE sha256Output (i * 4)).toUInt8) output

/-- The test of a `CProgPoW`: the bytes of the hash are not above those of the target. -/
def verify (pow : CProgPoW) (buffer headerHash : Uint256) (nonce : UInt64) (target : Uint256) :
    Bool :=
  lexLE (pow.hash headerHash nonce buffer).toList target.toList

end CProgPoW

/-- The hash with a `CProgPoW` of its own. -/
def progPoWHash (buffer headerHash : Uint256) (nonce blockNumber : UInt64) : Uint256 :=
  (({} : CProgPoW).initializeFor blockNumber).hash headerHash nonce buffer

/-- The test of that hash. -/
def checkProgPoWProof (buffer headerHash : Uint256) (nonce blockNumber : UInt64)
    (target : Uint256) : Bool :=
  lexLE (progPoWHash buffer headerHash nonce blockNumber).toList target.toList

/-- The comparison of `CheckProofOfWorkProgPoW`. -/
def hashWithin (powHash : Uint256) (bnTarget : ℕ) : Bool :=
  if uintToArith256 powHash.toList > bnTarget then false else true

/-- The header gives its compact target, its hash and its nonce. -/
def checkProofOfWorkProgPoW (buffer : Uint256) (nBits : UInt32) (headerHash : Uint256)
    (nNonce : UInt32) (blockNumber : UInt64) (powLimit : Bytes) : Bool :=
  match deriveTarget nBits powLimit with
  | none => false
  | some bnTarget =>
    hashWithin (progPoWHash buffer headerHash nNonce.toUInt64 blockNumber) bnTarget

end BhtBhte.Pow
