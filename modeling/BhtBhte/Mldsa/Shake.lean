import BhtBhte.Lib.Sponge
import BhtBhte.Mldsa.Keccak

/-!
# SHAKE of the signature scheme

The `Shake` of `mldsa_fips204.h` against the sponge of FIPS 202.  The standard takes a state for a
string of 1600 bits, word after word and the lowest bit of each word first; on this string the
permutation of the header is the function of the sponge.  Any row of reads gives the output of the
standard (`refines_shake`).
-/
namespace BhtBhte.Keccak

open BhtBhte.Lib
open BhtBhte.Fallback (Bytes State)

/-! ## The state as a bit string -/

/-- The string of a state. -/
def toBits (st : State) : Bits := (List.range 25).flatMap fun k => bitsLE 64 (st.get k).toNat

/-- The state with this string. -/
def ofBits (S : Bits) : State :=
  Vector.ofFn fun k => UInt64.ofNat (bitsValue (slice S (64 * k.val) 64))

/-- The permutation on bit strings. -/
def keccakBits (S : Bits) : Bits := toBits (keccakf (ofBits S))

theorem get_ofBits (S : Bits) {k : ℕ} (hk : k < 25) :
    (ofBits S).get k = UInt64.ofNat (bitsValue (slice S (64 * k) 64)) := by
  rw [State.get, ofBits, Vector.getElem?_ofFn, dif_pos hk]
  rfl

theorem ext_get {st st' : State} (h : ∀ k < 25, st.get k = st'.get k) : st = st' := by
  refine Vector.ext fun k hk => ?_
  have hget := h k hk
  rw [State.get, State.get, Vector.getElem?_eq_getElem hk, Vector.getElem?_eq_getElem hk] at hget
  exact hget

theorem ofBits_toBits (st : State) : ofBits (toBits st) = st := by
  refine ext_get fun k hk => ?_
  have hsize : ∀ i, (bitsLE 64 (st.get i).toNat).length = 64 := fun i => length_bitsLE 64 _
  rw [get_ofBits _ hk, toBits, Nat.mul_comm, slice_flatMap hsize hk, bitsValue_bitsLE,
    Nat.mod_eq_of_lt (st.get k).toNat_lt, UInt64.ofNat_toNat]

theorem keccakBits_toBits (st : State) : keccakBits (toBits st) = toBits (keccakf st) := by
  rw [keccakBits, ofBits_toBits]

/-! ## The state as a memory -/

theorem get_setIfInBounds (st : State) {i j : ℕ} (hi : i < 25) (v : UInt64) :
    State.get (st.setIfInBounds i v) j = if j = i then v else st.get j := by
  rw [State.get, Vector.getElem?_setIfInBounds]
  by_cases h : j = i
  · rw [if_pos h.symm, if_pos h, if_pos hi]
    rfl
  · rw [if_neg (Ne.symm h), if_neg h]
    rfl

/-- A byte of a word. -/
theorem toNat_byte (v : UInt64) {i : ℕ} (hi : i < 8) :
    ((v >>> (8 * i).toUInt64).toUInt8).toNat = v.toNat / 2 ^ (8 * i) % 2 ^ 8 := by
  have hshift : (8 * i).toUInt64.toNat % 64 = 8 * i := by
    rw [UInt64.toNat_ofNat']
    omega
  rw [UInt64.toNat_toUInt8, UInt64.toNat_shiftRight, hshift, Nat.shiftRight_eq_div_pow]

/-- A byte that was shifted to its place has its bits there. -/
theorem testBit_shifted (b : UInt8) {i j k : ℕ} (hi : i < 8) (hj : j < 8) (hk : k < 8) :
    (b.toUInt64 <<< (8 * i).toUInt64).toNat.testBit (8 * j + k) =
      (decide (j = i) && b.toNat.testBit k) := by
  have hshift : (8 * i).toUInt64.toNat % 64 = 8 * i := by
    rw [UInt64.toNat_ofNat']
    omega
  have hin : 8 * j + k < 64 := by omega
  rw [UInt64.toNat_shiftLeft, hshift, UInt8.toNat_toUInt64, Nat.testBit_mod_two_pow,
    Nat.testBit_shiftLeft, decide_eq_true hin, Bool.true_and]
  by_cases h : j = i
  · have hle : 8 * j + k ≥ 8 * i := by omega
    have hsub : 8 * j + k - 8 * i = k := by omega
    rw [decide_eq_true hle, decide_eq_true h, hsub]
  · rw [decide_eq_false h, Bool.false_and]
    by_cases hle : 8 * j + k ≥ 8 * i
    · have hhigh : b.toNat < 2 ^ (8 * j + k - 8 * i) :=
        b.toNat_lt.trans_le (Nat.pow_le_pow_right (by decide) (by omega))
      rw [Nat.testBit_lt_two_pow hhigh, Bool.and_false]
    · rw [decide_eq_false hle, Bool.false_and]

/-- Adding a byte changes that byte only. -/
theorem byteAt_xorByte (st : State) (b : UInt8) {i j : ℕ} (hi : i < 200) (_ : j < 200) :
    (st.xorByte i b).byteAt j = if j = i then st.byteAt j ^^^ b else st.byteAt j := by
  rw [State.byteAt, State.byteAt, State.xorByte, get_setIfInBounds _ (by omega)]
  by_cases hword : j / 8 = i / 8
  · rw [if_pos hword, ← hword]
    refine UInt8.toNat_inj.mp (Nat.eq_of_testBit_eq fun k => ?_)
    by_cases hk : k < 8
    · have hbit : ∀ v : UInt64, ((v >>> (8 * (j % 8)).toUInt64).toUInt8).toNat.testBit k =
          v.toNat.testBit (8 * (j % 8) + k) := by
        intro v
        rw [toNat_byte v (Nat.mod_lt j (by decide)), Nat.testBit_mod_two_pow, decide_eq_true hk,
          Bool.true_and, Nat.testBit_div_two_pow, Nat.add_comm]
      rw [hbit, UInt64.toNat_xor, Nat.testBit_xor, testBit_shifted b (Nat.mod_lt i (by decide))
        (Nat.mod_lt j (by decide)) hk]
      by_cases h : j = i
      · have hmod : j % 8 = i % 8 := by rw [h]
        rw [if_pos h, UInt8.toNat_xor, Nat.testBit_xor, hbit, decide_eq_true hmod, Bool.true_and]
      · have hmod : j % 8 ≠ i % 8 := by omega
        rw [if_neg h, hbit, decide_eq_false hmod, Bool.false_and, Bool.xor_false]
    · have hhigh : ∀ c : UInt8, c.toNat.testBit k = false := fun c =>
        Nat.testBit_lt_two_pow (c.toNat_lt.trans_le (Nat.pow_le_pow_right (by decide) (by omega)))
      rw [hhigh, hhigh]
  · have hne : j ≠ i := fun h => hword (by rw [h])
    rw [if_neg hword, if_neg hne]

/-- The state as a memory of bytes. -/
def memory : ByteMemory 200 State where
  byteAt := State.byteAt
  xorByte := State.xorByte
  byteAt_xorByte := byteAt_xorByte

/-- The bytes of the memory are the string of the state. -/
theorem bits_memory (st : State) : memory.bits st = toBits st := by
  have hbyte : ∀ i, bitsLE 8 (st.byteAt i).toNat =
      bitsLE 8 ((st.get (i / 8)).toNat / 2 ^ (8 * (i % 8))) := by
    intro i
    rw [State.byteAt, toNat_byte _ (Nat.mod_lt i (by decide)), bitsLE_mod]
  have hword : ∀ k, bitsLE 64 (st.get k).toNat =
      (List.range 8).flatMap fun j => bitsLE 8 (st.byteAt (8 * k + j)).toNat := by
    intro k
    rw [show 64 = 8 * 8 from rfl, bitsLE_mul]
    refine List.flatMap_congr fun j hj => ?_
    have hlt : j < 8 := List.mem_range.mp hj
    have hdiv : (8 * k + j) / 8 = k := by omega
    have hmod : (8 * k + j) % 8 = j := by omega
    rw [hbyte, hdiv, hmod]
  have hbits : memory.bits st =
      (List.range (25 * 8)).flatMap fun i => bitsLE 8 (st.byteAt i).toNat :=
    List.flatMap_map _ _ _
  rw [hbits, flatMap_range_mul, toBits]
  exact List.flatMap_congr fun k _ => (hword k).symm

theorem bytes_empty : memory.bytes (Vector.replicate 25 0) = List.replicate 200 0 := by
  refine List.eq_replicate_iff.mpr ⟨by simp [ByteMemory.bytes], fun b hb => ?_⟩
  obtain ⟨i, -, rfl⟩ := List.mem_map.mp hb
  have hget : State.get (Vector.replicate 25 0) (i / 8) = 0 := by
    rw [State.get, Vector.getElem?_replicate]
    split
    · rfl
    · rfl
  show State.byteAt _ i = 0
  rw [State.byteAt, hget, UInt64.zero_shiftRight]
  rfl

/-! ## Reading -/

namespace Shake

/-- One read of each length after the other. -/
def reads : Shake → List ℕ → Bytes
  | _, [] => []
  | s, n :: ns => (s.read n).1 ++ reads (s.read n).2 ns

/-- **Two reads give what one gives**, and leave the same reader. -/
theorem read_add (m n : ℕ) : ∀ s : Shake, s.read (m + n) =
    ((s.read m).1 ++ ((s.read m).2.read n).1, ((s.read m).2.read n).2) := by
  induction m with
  | zero =>
      intro s
      rw [Nat.zero_add]
      rfl
  | succ m ih =>
      intro s
      rw [Nat.add_right_comm, read, read, ih]
      rfl

theorem reads_eq_read (ns : List ℕ) : ∀ s : Shake, s.reads ns = (s.read ns.sum).1 := by
  induction ns with
  | nil =>
      intro s
      rfl
  | cons n ns ih =>
      intro s
      rw [reads, ih, List.sum_cons, read_add]

/-- The stream of a reader that has read nothing is the one of the memory. -/
theorem stream_new (rate : ℕ) (input : Bytes) : (new rate input).stream =
    memory.stream keccakf rate (memory.absorb keccakf rate input (Vector.replicate 25 0)) := by
  funext i
  rw [stream, ByteMemory.stream]
  show State.byteAt (keccakf^[(0 + i) / rate] _) ((0 + i) % rate) = _
  rw [Nat.zero_add]
  rfl

/-- **Any row of reads gives what SHAKE gives.** -/
theorem reads_eq_shake {rate : ℕ} (hpos : 0 < rate) (hrate : rate ≤ 200) (input : Bytes)
    (ns : List ℕ) : bytesBitsLE ((new rate input).reads ns) =
      Sponge.shake keccakBits 1600 (8 * rate) (bytesBitsLE input) (8 * ns.sum) := by
  have hvalid : (new rate input).Valid := ⟨hpos, Nat.zero_le rate⟩
  have hf : ∀ st, keccakBits (memory.bits st) = memory.bits (keccakf st) := by
    intro st
    rw [bits_memory, bits_memory, keccakBits_toBits]
  rw [reads_eq_read, read_eq_stream _ hvalid, stream_new,
    ← ByteMemory.shake_eq_stream hf hpos hrate bytes_empty]

end Shake

/-- **The reader is the sponge of the standard**: for blocks of any size and every input, however
the output is cut into reads; two reads are one from any point on; and so is the hash. -/
theorem refines_shake {rate : ℕ} (hpos : 0 < rate) (hrate : rate ≤ 200) (input : Bytes) :
    (∀ ns, bytesBitsLE ((Shake.new rate input).reads ns) =
        Sponge.shake keccakBits 1600 (8 * rate) (bytesBitsLE input) (8 * ns.sum)) ∧
      (∀ (s : Shake) (m n : ℕ), s.read (m + n) =
        ((s.read m).1 ++ ((s.read m).2.read n).1, ((s.read m).2.read n).2)) ∧
      ∀ outLen, bytesBitsLE (shake256Sum outLen input) =
        Sponge.shake keccakBits 1600 (8 * 136) (bytesBitsLE input) (8 * outLen) := by
  refine ⟨Shake.reads_eq_shake hpos hrate input, fun s m n => Shake.read_add m n s, ?_⟩
  intro outLen
  have hread := Shake.reads_eq_shake (by decide : 0 < 136) (by decide) input [outLen]
  rw [Shake.reads_eq_read, List.sum_singleton] at hread
  exact hread

/-- A block of SHAKE128 that the padding fills with one byte, read in two pieces. -/
theorem refines_shake_full :
    bytesBitsLE ((Shake.new 168 (List.replicate 167 0)).reads [100, 200]) =
      Sponge.shake keccakBits 1600 1344 (bytesBitsLE (List.replicate 167 0)) 2400 :=
  (refines_shake (by decide : 0 < 168) (by decide) (List.replicate 167 0)).1 [100, 200]

end BhtBhte.Keccak
