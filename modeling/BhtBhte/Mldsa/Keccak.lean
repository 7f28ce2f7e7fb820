import BhtBhte.Mldsa.Fallback
import BhtBhte.Mldsa.Fips204

/-!
# Keccak

The permutation and the sponge of `mldsa_fips204.h`, as that file computes them.  The signature
schemes take SHAKE128 and SHAKE256 as streams of bytes; the sponge is what they stand for.  What is
read does not depend on how it is cut into reads (`read_eq_stream`).
-/
namespace BhtBhte.Keccak

open BhtBhte.Fallback (Bytes State roundConstants rotl64)
open BhtBhte.Mldsa (Xof)

/-! ## The permutation -/

/-- The amounts of the rotations, in the order in which the words are visited. -/
def rho : List ℕ := [1, 3, 6, 10, 15, 21, 28, 36, 45, 55, 2, 14,
  27, 41, 56, 8, 25, 43, 62, 18, 39, 61, 20, 44]

/-- The places where the words go, in that order. -/
def pi : List ℕ := [10, 7, 11, 17, 18, 3, 5, 16, 8, 21, 24, 4,
  15, 23, 19, 13, 12, 2, 20, 14, 22, 9, 6, 1]

/-- The column parities go into the words. -/
def theta (st : State) : State :=
  let bc := (List.range 5).map fun i =>
    st.get i ^^^ st.get (i + 5) ^^^ st.get (i + 10) ^^^ st.get (i + 15) ^^^ st.get (i + 20)
  let t := (List.range 5).map fun i =>
    bc.getD ((i + 4) % 5) 0 ^^^ rotl64 (bc.getD ((i + 1) % 5) 0) 1
  Vector.ofFn fun k => st.get k.val ^^^ t.getD (k.val % 5) 0

/-- The words are rotated while they move along `pi`; the word on the way is the second part. -/
def rhoPi (st : State) : State :=
  ((List.range 24).foldl (fun (e : State × UInt64) i =>
    let j := pi.getD i 0
    (e.1.setIfInBounds j (rotl64 e.2 (rho.getD i 0)), e.1.get j)) (st, st.get 1)).1

/-- The step that is not linear. -/
def chi (st : State) : State :=
  Vector.ofFn fun k =>
    let j := k.val / 5 * 5
    let i := k.val % 5
    st.get (j + i) ^^^ (~~~st.get (j + (i + 1) % 5) &&& st.get (j + (i + 2) % 5))

def round (st : State) (r : ℕ) : State :=
  let st := chi (rhoPi (theta st))
  st.setIfInBounds 0 (st.get 0 ^^^ roundConstants.getD r 0)

/-- The permutation. -/
def keccakf (st : State) : State := (List.range 24).foldl round st

/-! ## The sponge -/

/-- The reader of a stream: the state, the rate and the place in the block. -/
structure Shake where
  st : State
  rate : ℕ
  squeezePos : ℕ := 0

namespace Shake

/-- Bytes of the input, from an offset on, go into the first bytes of the state. -/
def xorBytes (input : Bytes) (off n : ℕ) (st : State) : State :=
  (List.range n).foldl (fun st i => st.xorByte i (input.getD (off + i) 0)) st

/-- Add the input, a permutation after each full block. -/
def absorb (rate : ℕ) (input : Bytes) (st : State) : State :=
  let blocks := input.length / rate
  let st := (List.range blocks).foldl (fun st b =>
    keccakf (xorBytes input (b * rate) rate st)) st
  let rem := input.length - blocks * rate
  let st := xorBytes input (blocks * rate) rem st
  let st := st.xorByte rem 0x1F
  let st := st.xorByte (rate - 1) 0x80
  keccakf st

/-- The constructor. -/
def new (rate : ℕ) (input : Bytes) : Shake where
  st := absorb rate input (Vector.replicate 25 0)
  rate := rate

/-- `read`, and the reader after it. -/
def read : Shake → ℕ → Bytes × Shake
  | s, 0 => ([], s)
  | s, n + 1 =>
    let s :=
      if s.squeezePos = s.rate then { s with st := keccakf s.st, squeezePos := 0 } else s
    let rest := read { s with squeezePos := s.squeezePos + 1 } n
    (s.st.byteAt s.squeezePos :: rest.1, rest.2)

/-- The bytes that are left, as a stream. -/
def stream (s : Shake) (i : ℕ) : UInt8 :=
  State.byteAt (keccakf^[(s.squeezePos + i) / s.rate] s.st) ((s.squeezePos + i) % s.rate)

/-- A reader between two reads. -/
structure Valid (s : Shake) : Prop where
  rate_pos : 0 < s.rate
  squeezePos_le : s.squeezePos ≤ s.rate

/-- A full block is left behind. -/
def refill (s : Shake) : Shake :=
  if s.squeezePos = s.rate then { s with st := keccakf s.st, squeezePos := 0 } else s

theorem refill_lt {s : Shake} (h : s.Valid) :
    s.refill.rate = s.rate ∧ s.refill.squeezePos < s.rate := by
  have hpos := h.rate_pos
  have hle := h.squeezePos_le
  unfold refill
  by_cases hfull : s.squeezePos = s.rate
  · rw [if_pos hfull]
    exact ⟨rfl, hpos⟩
  · rw [if_neg hfull]
    exact ⟨rfl, by omega⟩

theorem stream_refill {s : Shake} (h : s.Valid) (i : ℕ) : s.refill.stream i = s.stream i := by
  unfold refill
  by_cases hfull : s.squeezePos = s.rate
  · rw [if_pos hfull, stream, stream, hfull, Nat.add_div_left _ h.rate_pos, Nat.add_mod_left,
      Function.iterate_succ_apply]
    simp only [zero_add]
  · rw [if_neg hfull]

/-- **What is read is the beginning of the stream.** -/
theorem read_eq_stream : ∀ (n : ℕ) {s : Shake}, s.Valid →
    (s.read n).1 = (List.range n).map s.stream := by
  intro n
  induction n with
  | zero =>
      intro s _
      rfl
  | succ n ih =>
      intro s h
      obtain ⟨hrate, hlt⟩ := refill_lt h
      have hnext : Valid { s.refill with squeezePos := s.refill.squeezePos + 1 } := by
        constructor
        · exact hrate ▸ h.rate_pos
        · exact hrate ▸ hlt
      have hhead : s.refill.st.byteAt s.refill.squeezePos = s.stream 0 := by
        rw [← stream_refill h, stream, hrate, add_zero, Nat.div_eq_of_lt hlt,
          Nat.mod_eq_of_lt hlt]
        rfl
      have htail : ∀ i, stream { s.refill with squeezePos := s.refill.squeezePos + 1 } i =
          s.stream (i + 1) := by
        intro i
        rw [← stream_refill h, stream, stream, Nat.add_right_comm, Nat.add_assoc]
      have hread : (s.read (n + 1)).1 = s.refill.st.byteAt s.refill.squeezePos ::
          (read { s.refill with squeezePos := s.refill.squeezePos + 1 } n).1 := rfl
      rw [hread, ih hnext, hhead, List.range_succ_eq_map, List.map_cons, List.map_map]
      congr 1
      exact List.map_congr_left fun i _ => htail i

end Shake

def shake256Sum (outLen : ℕ) (input : Bytes) : Bytes := ((Shake.new 136 input).read outLen).1

/-! ## The streams of the signature schemes -/

/-- The two streams, with a bound on the rounds of the rejection loops. -/
@[reducible] def keccakXof (rounds : ℕ) : Xof where
  shake128 input := (Shake.new 168 input).stream
  shake256 input := (Shake.new 136 input).stream
  rounds := rounds

/-- **The hash of the signature scheme is this sponge.** -/
theorem shake256Sum_eq (rounds outLen : ℕ) (input : Bytes) :
    @Fips204.shake256Sum (keccakXof rounds) outLen input = shake256Sum outLen input := by
  have hvalid : (Shake.new 136 input).Valid := by
    constructor
    · exact Nat.succ_pos 135
    · exact Nat.zero_le 136
  rw [shake256Sum, Shake.read_eq_stream outLen hvalid]
  refine List.map_congr_left fun i _ => ?_
  exact congrArg (Shake.new 136 input).stream (Nat.zero_add i)

end BhtBhte.Keccak
