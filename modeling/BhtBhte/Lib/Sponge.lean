import BhtBhte.Lib.Bits
import Mathlib.Tactic.LinearCombination

/-!
# The sponge construction

The sponge of FIPS 202 over any function on bit strings, and the same computed on a memory of bytes:
whole blocks are added to the memory, the last one with a byte `0x1F` behind it and the top bit of
the block set.  The two absorb the same, and the output of the sponge is the stream of the program.

## Main definitions

* `Sponge.pad`, `Sponge.sponge`, `Sponge.shake` — as in the standard.
* `ByteMemory` — a memory of `w` bytes in which single bytes are added and read.
* `ByteMemory.absorb`, `ByteMemory.stream` — the sponge of a program.
-/
namespace BhtBhte.Lib

namespace Sponge

/-! ## The standard -/

/-- `pad10*1` (Algorithm 9): what is appended to `m` bits to fill blocks of `x` bits. -/
def pad (x m : ℕ) : Bits := true :: (List.replicate ((-(m : ℤ) - 2) % x).toNat false ++ [true])

/-- Steps 4 to 6 of `SPONGE` (Algorithm 8) for a state of `b` bits and blocks of `r` bits. -/
def absorb (f : Bits → Bits) (b r : ℕ) (P : Bits) : Bits :=
  (List.range (P.length / r)).foldl (fun S i =>
    f (List.zipWith xor S (slice P (r * i) r ++ List.replicate (b - r) false)))
    (List.replicate b false)

/-- Steps 7 to 10 of `SPONGE`: the blocks that are still to be given out. -/
def squeeze (f : Bits → Bits) (r : ℕ) (S : Bits) (d : ℕ) : Bits :=
  if d ≤ r ∨ r = 0 then S.take d else S.take r ++ squeeze f r (f S) (d - r)
  termination_by d

/-- The sponge of a function on `b` bits with rate `r`, cut to `d` bits. -/
def sponge (f : Bits → Bits) (b r : ℕ) (N : Bits) (d : ℕ) : Bits :=
  squeeze f r (absorb f b r (N ++ pad r N.length)) d

/-- The extendable-output functions: the sponge behind the suffix `1111`. -/
def shake (f : Bits → Bits) (b r : ℕ) (M : Bits) (d : ℕ) : Bits :=
  sponge f b r (M ++ [true, true, true, true]) d

/-! ## The padding in bytes -/

/-- The bytes that fill the last block. -/
def padBytes (rate len : ℕ) : List UInt8 :=
  if rate - len % rate = 1 then [0x9F]
  else 0x1F :: (List.replicate (rate - len % rate - 2) 0 ++ [0x80])

variable {rate : ℕ}

theorem length_padBytes (hrate : 0 < rate) (len : ℕ) :
    (padBytes rate len).length = rate - len % rate := by
  have hlt : len % rate < rate := Nat.mod_lt len hrate
  unfold padBytes
  split
  · next hone => exact hone.symm
  · simp
    omega

theorem getD_padBytes (hrate : 0 < rate) (len t : ℕ) :
    (padBytes rate len).getD t 0 =
      (if t = 0 then 0x1F else 0) ^^^ (if t + 1 = rate - len % rate then 0x80 else 0) := by
  have hlt : len % rate < rate := Nat.mod_lt len hrate
  unfold padBytes
  split
  · next hone =>
      rw [hone]
      rcases t with - | t
      · rfl
      · rw [if_neg (by omega), if_neg (by omega)]
        rfl
  · next hmany =>
      rcases t with - | t
      · rw [if_pos rfl, if_neg (by omega)]
        rfl
      · rw [if_neg (by omega), List.getD_cons_succ]
        rcases Nat.lt_trichotomy t (rate - len % rate - 2) with h | h | h
        · rw [if_neg (by omega), List.getD_append _ _ _ _ (by simpa using h),
            List.getD_eq_getElem?_getD, List.getElem?_getD_replicate_default_eq]
          rfl
        · rw [if_pos (by omega), List.getD_append_right _ _ _ _ (by simp [h]), List.length_replicate,
            h, Nat.sub_self]
          rfl
        · rw [if_neg (by omega), List.getD_eq_default _ _ (by simp; omega)]
          rfl

/-- **The suffix and the padding are whole bytes.** -/
theorem bits_padBytes (hrate : 0 < rate) (len : ℕ) :
    [true, true, true, true] ++ pad (8 * rate) (8 * len + 4) =
      bytesBitsLE (padBytes rate len) := by
  have hlt : len % rate < rate := Nat.mod_lt len hrate
  have hzeros : ((-((8 * len + 4 : ℕ) : ℤ) - 2) % (8 * rate : ℕ)).toNat =
      8 * (rate - len % rate) - 6 := by
    have hlen : (len : ℤ) = rate * (len / rate : ℕ) + (len % rate : ℕ) := by
      rw [← Nat.cast_mul, ← Nat.cast_add, Nat.div_add_mod]
    have hcast : ((8 * (rate - len % rate) - 6 : ℕ) : ℤ) =
        8 * rate - 8 * (len % rate : ℕ) - 6 := by omega
    have hsplit : -((8 * len + 4 : ℕ) : ℤ) - 2 = (8 * (rate - len % rate) - 6 : ℕ) +
        (8 * rate : ℕ) * (-(len / rate : ℕ) - 1) := by
      rw [hcast]
      push_cast
      push_cast at hlen
      linear_combination -8 * hlen
    rw [hsplit, Int.add_mul_emod_self_left, Int.emod_eq_of_lt (Int.natCast_nonneg _) (by omega),
      Int.toNat_natCast]
  rw [pad, hzeros]
  unfold padBytes
  split
  · next hone =>
      rw [hone]
      decide
  · next hmany =>
      obtain ⟨q, hq⟩ : ∃ q, rate - len % rate = q + 2 := ⟨rate - len % rate - 2, by omega⟩
      have hcount : 8 * (q + 2) - 6 = 3 + (8 * q + 7) := by omega
      rw [hq, Nat.add_sub_cancel, bytesBitsLE_cons, bytesBitsLE_append, bytesBitsLE_zeros, hcount,
        List.replicate_add, List.replicate_add]
      have hfirst : bitsLE 8 (0x1F : UInt8).toNat =
          [true, true, true, true] ++ (true :: List.replicate 3 false) := by decide
      have hlast : bytesBitsLE [0x80] = List.replicate 7 false ++ [true] := by decide
      rw [hfirst, hlast]
      simp only [List.append_assoc, List.cons_append]

end Sponge

/-! ## A memory of bytes -/

/-- A memory of `w` bytes in which single bytes are read and added. -/
structure ByteMemory (w : ℕ) (σ : Type) where
  byteAt : σ → ℕ → UInt8
  xorByte : σ → ℕ → UInt8 → σ
  byteAt_xorByte : ∀ s b {i j}, i < w → j < w →
    byteAt (xorByte s i b) j = if j = i then byteAt s j ^^^ b else byteAt s j

namespace ByteMemory
variable {w : ℕ} {σ : Type} (M : ByteMemory w σ)

def bytes (s : σ) : List UInt8 := (List.range w).map (M.byteAt s)

def bits (s : σ) : Bits := bytesBitsLE (M.bytes s)

/-- Bytes of the input, from an offset on, are added to the first bytes. -/
def xorBytes (input : List UInt8) (off n : ℕ) (s : σ) : σ :=
  (List.range n).foldl (fun s i => M.xorByte s i (input.getD (off + i) 0)) s

/-- All of the input goes in, the last block with the padding. -/
def absorb (permute : σ → σ) (rate : ℕ) (input : List UInt8) (s : σ) : σ :=
  let blocks := input.length / rate
  let s := (List.range blocks).foldl (fun s b => permute (M.xorBytes input (b * rate) rate s)) s
  let rem := input.length - blocks * rate
  let s := M.xorBytes input (blocks * rate) rem s
  let s := M.xorByte s rem 0x1F
  let s := M.xorByte s (rate - 1) 0x80
  permute s

/-- The bytes that are given out. -/
def stream (permute : σ → σ) (rate : ℕ) (s : σ) (i : ℕ) : UInt8 :=
  M.byteAt (permute^[i / rate] s) (i % rate)

variable {M} {input block : List UInt8} {off n rate : ℕ} {s s' : σ}

theorem byteAt_xorBytes (hn : n ≤ w) {j : ℕ} (hj : j < w) :
    M.byteAt (M.xorBytes input off n s) j =
      if j < n then M.byteAt s j ^^^ input.getD (off + j) 0 else M.byteAt s j := by
  induction n with
  | zero => rfl
  | succ n ih =>
      have hstep : M.xorBytes input off (n + 1) s =
          M.xorByte (M.xorBytes input off n s) n (input.getD (off + n) 0) := by
        rw [xorBytes, List.range_succ, List.foldl_append]
        rfl
      rw [hstep, M.byteAt_xorByte _ _ (by omega) hj, ih (by omega)]
      by_cases heq : j = n
      · rw [if_pos heq, if_neg (by omega), if_pos (by omega), heq]
      · rw [if_neg heq]
        exact if_congr (by omega) rfl rfl

/-- A block is added to the bit string when its bytes are added to the memory. -/
theorem bits_xor (hblock : block.length = rate) (hrate : rate ≤ w)
    (h : ∀ j < w, M.byteAt s' j = M.byteAt s j ^^^ block.getD j 0) :
    List.zipWith xor (M.bits s)
      (bytesBitsLE block ++ List.replicate (8 * w - 8 * rate) false) = M.bits s' := by
  have hlength : (block ++ List.replicate (w - rate) 0).length = w := by simp; omega
  have hbytes : M.bytes s' = List.zipWith (fun x y => x ^^^ y) (M.bytes s)
      (block ++ List.replicate (w - rate) 0) := by
    refine List.ext_getElem (by simp [bytes]; omega) fun j hj _ => ?_
    have hjw : j < w := by simpa [bytes] using hj
    have hget : (block ++ List.replicate (w - rate) 0)[j] = block.getD j 0 := by
      rw [← List.getD_eq_getElem _ 0 (by omega)]
      by_cases hlt : j < block.length
      · rw [List.getD_append _ _ _ _ hlt]
      · rw [List.getD_append_right _ _ _ _ (by omega),
            List.getD_eq_getElem?_getD, List.getElem?_getD_replicate_default_eq,
          List.getD_eq_default _ _ (by omega)]
    simp only [bytes, List.getElem_map, List.getElem_range, List.getElem_zipWith, hget]
    exact h j hjw
  rw [← Nat.mul_sub, ← bytesBitsLE_zeros, ← bytesBitsLE_append, bits, bits,
    zipWith_xor_bytesBitsLE (by simp [bytes]; omega), hbytes]

/-! ## Absorbing and squeezing -/

section Sponge
variable {f : Bits → Bits} {permute : σ → σ}

theorem getD_block_full {i : ℕ} (hi : i < input.length / rate) (pad : List UInt8) {j : ℕ}
    (hj : j < rate) :
    (slice (input ++ pad) (rate * i) rate).getD j 0 = input.getD (i * rate + j) 0 := by
  have hend : rate * i + j < input.length :=
    calc rate * i + j < rate * i + rate := by omega
      _ = (i + 1) * rate := by rw [Nat.succ_mul, Nat.mul_comm]
      _ ≤ input.length / rate * rate := Nat.mul_le_mul_right _ hi
      _ ≤ input.length := Nat.div_mul_le_self _ _
  rw [getD_slice, if_pos hj, List.getD_append _ _ _ _ hend, Nat.mul_comm]

/-- The memory and the bit string absorb the full blocks alike. -/
theorem bits_blocks (hf : ∀ s, f (M.bits s) = M.bits (permute s)) (hrate : rate ≤ w)
    (pad : List UInt8) {k : ℕ} (hk : k ≤ input.length / rate)
    (hstart : M.bits s = List.replicate (8 * w) false) :
    (List.range k).foldl (fun S i => f (List.zipWith xor S
      (slice (bytesBitsLE (input ++ pad)) (8 * rate * i) (8 * rate) ++
        List.replicate (8 * w - 8 * rate) false))) (List.replicate (8 * w) false) =
      M.bits ((List.range k).foldl (fun s b => permute (M.xorBytes input (b * rate) rate s)) s) := by
  induction k with
  | zero => exact hstart.symm
  | succ k ih =>
      have hblock : (slice (input ++ pad) (rate * k) rate).length = rate := by
        refine length_slice ?_
        rw [List.length_append]
        have hend : rate * k + rate ≤ input.length / rate * rate := by
          rw [← Nat.mul_succ, Nat.mul_comm]
          exact Nat.mul_le_mul_right _ hk
        have hlength : input.length / rate * rate ≤ input.length := Nat.div_mul_le_self _ _
        omega
      rw [List.range_succ, List.foldl_append, List.foldl_append, ih (by omega), List.foldl_cons,
        List.foldl_cons, List.foldl_nil, List.foldl_nil, Nat.mul_assoc, slice_bytesBitsLE]
      refine (congrArg f (bits_xor hblock hrate fun j hj => ?_)).trans (hf _)
      rw [byteAt_xorBytes hrate hj]
      split
      · next hlt => rw [getD_block_full (by omega) pad hlt]
      · next hge => rw [List.getD_eq_default _ _ (by omega), UInt8.xor_zero]

/-- The memory and the bit string absorb the last block alike. -/
theorem byteAt_last (hpos : 0 < rate) (hrate : rate ≤ w) {j : ℕ} (hj : j < w) :
    M.byteAt (M.xorByte (M.xorByte (M.xorBytes input (input.length / rate * rate)
        (input.length - input.length / rate * rate) s)
        (input.length - input.length / rate * rate) 0x1F) (rate - 1) 0x80) j =
      M.byteAt s j ^^^ (slice (input ++ Sponge.padBytes rate input.length)
        (rate * (input.length / rate)) rate).getD j 0 := by
  have hlt : input.length % rate < rate := Nat.mod_lt _ hpos
  have hlen : rate * (input.length / rate) + input.length % rate = input.length :=
    Nat.div_add_mod _ _
  have hrem : input.length - input.length / rate * rate = input.length % rate := by
    rw [Nat.mul_comm]
    omega
  rw [hrem, M.byteAt_xorByte _ _ (by omega) hj, M.byteAt_xorByte _ _ (by omega) hj,
    byteAt_xorBytes (by omega) hj, getD_slice, Nat.mul_comm (input.length / rate)]
  by_cases hinput : j < input.length % rate
  · -- a byte of the input, behind which there is room for the padding
    rw [if_pos hinput, if_neg (by omega), if_neg (by omega), if_pos (by omega),
      List.getD_append _ _ _ _ (by omega)]
  · have hpad : rate * (input.length / rate) + j - input.length = j - input.length % rate := by
      omega
    rw [if_neg hinput]
    by_cases hblock : j < rate
    · rw [if_pos hblock, List.getD_append_right _ _ _ _ (by omega), hpad,
        Sponge.getD_padBytes hpos]
      by_cases hfirst : j = input.length % rate
      · by_cases hlast : j = rate - 1
        · rw [if_pos hlast, if_pos hfirst, if_pos (by omega), if_pos (by omega), UInt8.xor_assoc]
        · rw [if_neg hlast, if_pos hfirst, if_pos (by omega), if_neg (by omega), UInt8.xor_zero]
      · by_cases hlast : j = rate - 1
        · rw [if_pos hlast, if_neg hfirst, if_neg (by omega), if_pos (by omega), UInt8.zero_xor]
        · rw [if_neg hlast, if_neg hfirst, if_neg (by omega), if_neg (by omega), UInt8.xor_zero,
            UInt8.xor_zero]
    · rw [if_neg (by omega), if_neg (by omega), if_neg hblock, UInt8.xor_zero]

/-- **The memory absorbs what the standard absorbs.** -/
theorem bits_absorb (hf : ∀ s, f (M.bits s) = M.bits (permute s)) (hpos : 0 < rate)
    (hrate : rate ≤ w) (hstart : M.bytes s = List.replicate w 0) :
    Sponge.absorb f (8 * w) (8 * rate)
        (bytesBitsLE (input ++ Sponge.padBytes rate input.length)) =
      M.bits (M.absorb permute rate input s) := by
  have hlt : input.length % rate < rate := Nat.mod_lt _ hpos
  have hlength : (input ++ Sponge.padBytes rate input.length).length =
      rate * (input.length / rate + 1) := by
    have hlen := Nat.div_add_mod input.length rate
    rw [List.length_append, Sponge.length_padBytes hpos, Nat.mul_succ]
    omega
  have hblocks : (bytesBitsLE (input ++ Sponge.padBytes rate input.length)).length /
      (8 * rate) = input.length / rate + 1 := by
    rw [length_bytesBitsLE, hlength, Nat.mul_div_mul_left _ _ (by decide),
      Nat.mul_div_cancel_left _ hpos]
  have hblock : (slice (input ++ Sponge.padBytes rate input.length)
      (rate * (input.length / rate)) rate).length = rate :=
    length_slice (by rw [hlength, Nat.mul_succ])
  have hzero : M.bits s = List.replicate (8 * w) false := by
    rw [bits, hstart, bytesBitsLE_zeros]
  rw [Sponge.absorb, hblocks, List.range_succ, List.foldl_append, List.foldl_cons, List.foldl_nil,
    bits_blocks hf hrate _ le_rfl hzero, Nat.mul_assoc, slice_bytesBitsLE]
  exact (congrArg f (bits_xor hblock hrate fun j hj => byteAt_last hpos hrate hj)).trans (hf _)

/-- What is squeezed out of the bit string is the stream. -/
theorem squeeze_bits (hf : ∀ s, f (M.bits s) = M.bits (permute s)) (hpos : 0 < rate)
    (hrate : rate ≤ w) (n : ℕ) (s : σ) :
    Sponge.squeeze f (8 * rate) (M.bits s) (8 * n) =
      bytesBitsLE ((List.range n).map (M.stream permute rate s)) := by
  have htake : ∀ k ≤ rate, ∀ s, (M.bits s).take (8 * k) =
      bytesBitsLE ((List.range k).map (M.stream permute rate s)) := by
    intro k hk s
    rw [bits, take_bytesBitsLE, bytes, ← List.map_take, List.take_range, min_eq_left (by omega)]
    refine congrArg bytesBitsLE (List.map_congr_left fun i hi => ?_)
    have hlt : i < rate := (List.mem_range.mp hi).trans_le hk
    rw [stream, Nat.div_eq_of_lt hlt, Nat.mod_eq_of_lt hlt]
    rfl
  induction n using Nat.strong_induction_on generalizing s with
  | _ n ih =>
      rw [Sponge.squeeze]
      by_cases hle : n ≤ rate
      · rw [if_pos (.inl (by omega)), htake n hle]
      · have hshift : ∀ i, M.stream permute rate s (rate + i) =
            M.stream permute rate (permute s) i := by
          intro i
          rw [stream, stream, Nat.add_div_left _ hpos, Nat.add_mod_left,
            Function.iterate_succ_apply]
        rw [if_neg (by omega), htake rate le_rfl, hf, ← Nat.mul_sub, ih (n - rate) (by omega),
          ← bytesBitsLE_append]
        refine congrArg bytesBitsLE ?_
        obtain ⟨m, rfl⟩ := Nat.exists_eq_add_of_le (Nat.le_of_not_le hle)
        rw [Nat.add_sub_cancel_left, List.range_add, List.map_append, List.map_map]
        exact congrArg _ (List.map_congr_left fun i _ => (hshift i).symm)

/-- **The program's sponge is the standard's**, for whole bytes. -/
theorem shake_eq_stream (hf : ∀ s, f (M.bits s) = M.bits (permute s)) (hpos : 0 < rate)
    (hrate : rate ≤ w) (hstart : M.bytes s = List.replicate w 0) (n : ℕ) :
    Sponge.shake f (8 * w) (8 * rate) (bytesBitsLE input) (8 * n) =
      bytesBitsLE ((List.range n).map
        (M.stream permute rate (M.absorb permute rate input s))) := by
  have hlen : (bytesBitsLE input ++ [true, true, true, true]).length = 8 * input.length + 4 := by
    simp
  rw [Sponge.shake, Sponge.sponge, hlen, List.append_assoc, Sponge.bits_padBytes hpos,
    ← bytesBitsLE_append, bits_absorb hf hpos hrate hstart, squeeze_bits hf hpos hrate]

end Sponge

end ByteMemory

end BhtBhte.Lib
