import BhtBhte.Lib.Sha256
import BhtBhte.Pow.ProgPow

/-!
# The digest of ProgPoW

`SHA256::hash` of `progpow.cpp` against the standard: its padding, its message schedule, its
rounds and its two tables.
-/
namespace BhtBhte.Pow.SHA256

open BhtBhte.Lib

/-! ## Words and bytes -/

/-- A rotation of the code is one of the standard. -/
theorem toBitVec_rotr32 (v : UInt32) {n : ℕ} (hpos : 0 < n) (hlt : n < 32) :
    (rotr32 v (UInt32.ofNat n)).toBitVec = v.toBitVec.rotateRight n := by
  have hright : ((UInt32.ofNat n).toBitVec % 32).toNat = n := by
    show UInt32.toNat (UInt32.ofNat n) % 32 = n
    rw [UInt32.toNat_ofNat']
    omega
  have hleft : ((32 - UInt32.ofNat n).toBitVec % 32).toNat = 32 - n := by
    show UInt32.toNat (32 - UInt32.ofNat n) % 32 = 32 - n
    have hle : UInt32.ofNat n ≤ 32 := by
      rw [UInt32.le_iff_toNat_le, UInt32.toNat_ofNat']
      exact (Nat.mod_le _ _).trans hlt.le
    rw [UInt32.toNat_sub_of_le _ _ hle, UInt32.toNat_ofNat']
    show (32 - n % 2 ^ 32) % 32 = 32 - n
    omega
  rw [rotr32, UInt32.toBitVec_or, UInt32.toBitVec_shiftRight, UInt32.toBitVec_shiftLeft,
    BitVec.ushiftRight_eq', BitVec.shiftLeft_eq', hright, hleft, BitVec.rotateRight_def,
    Nat.mod_eq_of_lt hlt]

theorem toNat_shiftLeft (b : UInt8) {n : ℕ} (h : n ≤ 24) :
    (b.toUInt32 <<< UInt32.ofNat n).toNat = b.toNat <<< n := by
  have hn : (UInt32.ofNat n).toNat % 32 = n := by
    rw [UInt32.toNat_ofNat']
    omega
  have hlt : b.toNat <<< n < 2 ^ 32 := by
    rw [Nat.shiftLeft_eq]
    calc b.toNat * 2 ^ n < 2 ^ 8 * 2 ^ n := Nat.mul_lt_mul_of_pos_right b.toNat_lt (by positivity)
      _ = 2 ^ (8 + n) := (Nat.pow_add 2 8 n).symm
      _ ≤ 2 ^ 32 := Nat.pow_le_pow_right (by decide) (by omega)
  rw [UInt32.toNat_shiftLeft, hn, UInt8.toNat_toUInt32, Nat.mod_eq_of_lt hlt]

/-- Four bytes as a number. -/
theorem toNat_wordBE (data : Bytes) (off : ℕ) : (wordBE data off).toNat =
    ((((data.getD off 0).toNat * 2 ^ 8 + (data.getD (off + 1) 0).toNat) * 2 ^ 8 +
      (data.getD (off + 2) 0).toNat) * 2 ^ 8) + (data.getD (off + 3) 0).toNat := by
  have hor : ∀ (x : ℕ) (b : UInt8) (n : ℕ),
      x <<< (n + 8) ||| b.toNat <<< n = (x * 2 ^ 8 + b.toNat) <<< n := by
    intro x b n
    have hlt : b.toNat <<< n < 2 ^ (n + 8) := by
      rw [Nat.shiftLeft_eq, Nat.pow_add, Nat.mul_comm]
      exact Nat.mul_lt_mul_of_pos_left b.toNat_lt (Nat.two_pow_pos n)
    rw [← Nat.shiftLeft_add_eq_or_of_lt hlt, Nat.shiftLeft_eq, Nat.shiftLeft_eq, Nat.shiftLeft_eq,
      Nat.pow_add]
    ring
  have hbytes := hor ((data.getD off 0).toNat) (data.getD (off + 1) 0) 16
  have hbytes' := hor ((data.getD off 0).toNat * 2 ^ 8 + (data.getD (off + 1) 0).toNat)
    (data.getD (off + 2) 0) 8
  have hbytes'' := hor (((data.getD off 0).toNat * 2 ^ 8 + (data.getD (off + 1) 0).toNat) * 2 ^ 8 +
    (data.getD (off + 2) 0).toNat) (data.getD (off + 3) 0) 0
  have h24 : ∀ b : UInt8, (b.toUInt32 <<< 24).toNat = b.toNat <<< 24 :=
    fun b => toNat_shiftLeft b (n := 24) le_rfl
  have h16 : ∀ b : UInt8, (b.toUInt32 <<< 16).toNat = b.toNat <<< 16 :=
    fun b => toNat_shiftLeft b (n := 16) (by decide)
  have h8 : ∀ b : UInt8, (b.toUInt32 <<< 8).toNat = b.toNat <<< 8 :=
    fun b => toNat_shiftLeft b (n := 8) (by decide)
  unfold wordBE
  rw [UInt32.toNat_or, UInt32.toNat_or, UInt32.toNat_or, h24, h16, h8, hbytes, hbytes',
    UInt8.toNat_toUInt32]
  exact hbytes''

/-- The four bytes of a word of the data. -/
theorem bitsBE_wordBE (data : Bytes) (off : ℕ) : bitsBE 32 (wordBE data off).toNat =
    bytesBitsBE [data.getD off 0, data.getD (off + 1) 0, data.getD (off + 2) 0,
      data.getD (off + 3) 0] := by
  have hbyte : ∀ (b : UInt8) (n : ℕ), n % 2 ^ 8 = b.toNat → bitsBE 8 n = bitsBE 8 b.toNat := by
    intro b n h
    rw [← bitsBE_mod, h]
  rw [toNat_wordBE]
  generalize data.getD off 0 = b₀
  generalize data.getD (off + 1) 0 = b₁
  generalize data.getD (off + 2) 0 = b₂
  generalize data.getD (off + 3) 0 = b₃
  have h₀ := b₀.toNat_lt
  have h₁ := b₁.toNat_lt
  have h₂ := b₂.toNat_lt
  have h₃ := b₃.toNat_lt
  obtain ⟨n, hn⟩ : ∃ n, n = ((b₀.toNat * 2 ^ 8 + b₁.toNat) * 2 ^ 8 + b₂.toNat) * 2 ^ 8 +
    b₃.toNat := ⟨_, rfl⟩
  rw [← hn]
  refine (bitsBE_mul 8 4 n).trans ?_
  show bitsBE 8 (n / 2 ^ 24) ++ (bitsBE 8 (n / 2 ^ 16) ++ (bitsBE 8 (n / 2 ^ 8) ++
    (bitsBE 8 (n / 2 ^ 0) ++ []))) = _
  rw [hbyte b₀ (n / 2 ^ 24) (by omega), hbyte b₁ (n / 2 ^ 16) (by omega),
    hbyte b₂ (n / 2 ^ 8) (by omega), hbyte b₃ (n / 2 ^ 0) (by omega)]
  rfl

/-- The bytes of a word, the highest one first. -/
theorem bytesBitsBE_word (w : UInt32) :
    bytesBitsBE [(w >>> 24).toUInt8, (w >>> 16).toUInt8, (w >>> 8).toUInt8, w.toUInt8] =
      bitsBE 32 w.toNat := by
  have h24 : (w >>> 24).toNat = w.toNat / 2 ^ 24 := Nat.shiftRight_eq_div_pow _ _
  have h16 : (w >>> 16).toNat = w.toNat / 2 ^ 16 := Nat.shiftRight_eq_div_pow _ _
  have h8 : (w >>> 8).toNat = w.toNat / 2 ^ 8 := Nat.shiftRight_eq_div_pow _ _
  refine Eq.trans ?_ (bitsBE_mul 8 4 w.toNat).symm
  simp only [bytesBitsBE, List.flatMap_cons, List.flatMap_nil, UInt32.toNat_toUInt8, bitsBE_mod,
    h24, h16, h8]
  show _ = bitsBE 8 (w.toNat / 2 ^ 24) ++ (bitsBE 8 (w.toNat / 2 ^ 16) ++
    (bitsBE 8 (w.toNat / 2 ^ 8) ++ (bitsBE 8 (w.toNat / 2 ^ 0) ++ [])))
  rw [Nat.pow_zero, Nat.div_one]

/-! ## Padding -/

/-- The length in bits, as eight bytes. -/
theorem bits_length (len : ℕ) :
    bytesBitsBE ((List.range 8).map fun i : ℕ =>
      ((UInt64.ofNat len * 8) >>> (56 - i * 8).toUInt64).toUInt8) = bitsBE 64 (8 * len) := by
  have hlength : (UInt64.ofNat len * 8).toNat = 8 * len % 2 ^ 64 := by
    rw [UInt64.toNat_mul, UInt64.toNat_ofNat']
    show len % 2 ^ 64 * 8 % 2 ^ 64 = 8 * len % 2 ^ 64
    omega
  rw [← bitsBE_mod 64, ← hlength]
  refine Eq.trans ?_ (bitsBE_mul 8 8 _).symm
  rw [bytesBitsBE, List.flatMap_map]
  refine List.flatMap_congr fun i hi => ?_
  have hi : i < 8 := List.mem_range.mp hi
  have hshift : (56 - i * 8).toUInt64.toNat % 64 = 8 * (8 - 1 - i) := by
    rw [UInt64.toNat_ofNat']
    omega
  rw [UInt64.toNat_toUInt8, bitsBE_mod, UInt64.toNat_shiftRight, hshift,
    Nat.shiftRight_eq_div_pow]

/-- **The padded bytes are the padded message.** -/
theorem bits_pad (input : Bytes) : bytesBitsBE (pad input) = Sha256.pad (bytesBitsBE input) := by
  have hzeros : Sha256.zeros (8 * input.length) =
      7 + 8 * (((input.length + 8) / 64 + 1) * 64 - 9 - input.length) := by
    unfold Sha256.zeros
    omega
  have hone : bytesBitsBE [0x80] = true :: List.replicate 7 false := by decide
  rw [pad, Sha256.pad, length_bytesBitsBE, hzeros, List.replicate_add,
    bytesBitsBE_append, bytesBitsBE_append, bytesBitsBE_append, hone, bytesBitsBE_zeros, bits_length]
  simp only [List.append_assoc, List.cons_append]

/-! ## One block -/

/-- A word of the padded message. -/
theorem toBitVec_wordBE {padded : Bytes} {chunk t : ℕ} (hchunk : chunk < padded.length / 64)
    (ht : t < 16) : (wordBE padded (chunk * 64 + t * 4)).toBitVec =
      Sha256.blockWord (bytesBitsBE padded) chunk t := by
  have hoff : 512 * chunk + 32 * t = 8 * (chunk * 64 + t * 4) := by omega
  have hend : chunk * 64 + t * 4 + 4 ≤ padded.length := by omega
  have hword : slice padded (chunk * 64 + t * 4) 4 = [padded.getD (chunk * 64 + t * 4) 0,
      padded.getD (chunk * 64 + t * 4 + 1) 0, padded.getD (chunk * 64 + t * 4 + 2) 0,
      padded.getD (chunk * 64 + t * 4 + 3) 0] := slice_eq_map_getD hend 0
  have hslice : slice (bytesBitsBE padded) (8 * (chunk * 64 + t * 4)) 32 =
      bitsBE 32 (wordBE padded (chunk * 64 + t * 4)).toNat := by
    rw [bitsBE_wordBE, ← hword]
    exact slice_bytesBitsBE padded _ 4
  rw [Sha256.blockWord, hoff, hslice, Sha256.word_bitsBE]
  exact BitVec.eq_of_toNat_eq (Nat.mod_eq_of_lt (UInt32.toNat_lt _)).symm

/-- Two rotations and a third word, as the sigma functions have them. -/
theorem toBitVec_sigma (v x : UInt32) {m n : ℕ} (hm : 0 < m ∧ m < 32) (hn : 0 < n ∧ n < 32) :
    (rotr32 v (UInt32.ofNat m) ^^^ rotr32 v (UInt32.ofNat n) ^^^ x).toBitVec =
      v.toBitVec.rotateRight m ^^^ v.toBitVec.rotateRight n ^^^ x.toBitVec := by
  rw [UInt32.toBitVec_xor, UInt32.toBitVec_xor, toBitVec_rotr32 v hm.1 hm.2,
    toBitVec_rotr32 v hn.1 hn.2]

theorem toBitVec_smallSigma0 (v : UInt32) :
    (rotr32 v 7 ^^^ rotr32 v 18 ^^^ (v >>> 3)).toBitVec = Sha256.smallSigma0 v.toBitVec :=
  toBitVec_sigma v (v >>> 3) (m := 7) (n := 18) (by decide) (by decide)

theorem toBitVec_smallSigma1 (v : UInt32) :
    (rotr32 v 17 ^^^ rotr32 v 19 ^^^ (v >>> 10)).toBitVec = Sha256.smallSigma1 v.toBitVec :=
  toBitVec_sigma v (v >>> 10) (m := 17) (n := 19) (by decide) (by decide)

/-- One pass of the loop that expands the words. -/
def expand (w : List UInt32) (i : ℕ) : List UInt32 :=
  let s0 := rotr32 (w.getD (i - 15) 0) 7 ^^^ rotr32 (w.getD (i - 15) 0) 18 ^^^
    (w.getD (i - 15) 0 >>> 3)
  let s1 := rotr32 (w.getD (i - 2) 0) 17 ^^^ rotr32 (w.getD (i - 2) 0) 19 ^^^
    (w.getD (i - 2) 0 >>> 10)
  w ++ [w.getD (i - 16) 0 + s0 + w.getD (i - 7) 0 + s1]

theorem schedule_eq (padded : Bytes) (chunk : ℕ) : schedule padded chunk =
    (List.range' 16 48).foldl expand
      ((List.range 16).map fun i => wordBE padded (chunk * 64 + i * 4)) := rfl

/-- The words so far are those of the schedule. -/
def Expanded (M : ℕ → Sha256.Word) (n : ℕ) (w : List UInt32) : Prop :=
  w.length = n ∧ ∀ t < n, (w.getD t 0).toBitVec = Sha256.schedule M t

theorem Expanded.expand {M : ℕ → Sha256.Word} {n : ℕ} {w : List UInt32}
    (h : Expanded M (16 + n) w) : Expanded M (16 + n + 1) (SHA256.expand w (16 + n)) := by
  obtain ⟨hlength, hwords⟩ := h
  have h16 : 16 + n - 16 = n := by omega
  have h15 : 16 + n - 15 = n + 1 := by omega
  have h7 : 16 + n - 7 = n + 9 := by omega
  have h2 : 16 + n - 2 = n + 14 := by omega
  refine ⟨by rw [SHA256.expand, List.length_append, hlength]; rfl, fun t ht => ?_⟩
  rw [SHA256.expand, h16, h15, h7, h2]
  by_cases hlt : t < 16 + n
  · rw [List.getD_append _ _ _ _ (by omega)]
    exact hwords t hlt
  · have hlast : t = 16 + n := by omega
    rw [List.getD_append_right _ _ _ _ (by omega), hlength, hlast, Nat.sub_self,
      List.getD_cons_zero, UInt32.toBitVec_add, UInt32.toBitVec_add, UInt32.toBitVec_add,
      toBitVec_smallSigma0, toBitVec_smallSigma1, hwords n (by omega), hwords (n + 1) (by omega),
      hwords (n + 9) (by omega), hwords (n + 14) (by omega), Nat.add_comm 16 n,
      Sha256.schedule_add]

theorem Expanded.foldl {M : ℕ → Sha256.Word} {w : List UInt32} (h : Expanded M 16 w) (n : ℕ) :
    Expanded M (16 + n) ((List.range' 16 n).foldl SHA256.expand w) := by
  induction n with
  | zero => exact h
  | succ n ih =>
      rw [List.range'_concat, List.foldl_append, Nat.one_mul]
      exact ih.expand

/-- **The expanded words are the message schedule.** -/
theorem toBitVec_schedule {padded : Bytes} {chunk t : ℕ} (hchunk : chunk < padded.length / 64)
    (ht : t < 64) : ((schedule padded chunk).getD t 0).toBitVec =
      Sha256.schedule (Sha256.blockWord (bytesBitsBE padded) chunk) t := by
  have hstart : Expanded (Sha256.blockWord (bytesBitsBE padded) chunk) 16
      ((List.range 16).map fun i => wordBE padded (chunk * 64 + i * 4)) := by
    refine ⟨by simp, fun t ht => ?_⟩
    rw [List.getD_eq_getElem _ _ (by simpa using ht), List.getElem_map, List.getElem_range,
      toBitVec_wordBE hchunk ht, Sha256.schedule_of_lt ht]
  rw [schedule_eq]
  exact (hstart.foldl 48).2 t ht

/-- The registers as working variables. -/
def Regs.vars (r : Regs) : Sha256.Vars where
  a := r.a.toBitVec
  b := r.b.toBitVec
  c := r.c.toBitVec
  d := r.d.toBitVec
  e := r.e.toBitVec
  f := r.f.toBitVec
  g := r.g.toBitVec
  h := r.hh.toBitVec

theorem primes_eq : Sha256.primes = [2, 3, 5, 7, 11, 13, 17, 19, 23, 29, 31, 37, 41, 43, 47, 53,
    59, 61, 67, 71, 73, 79, 83, 89, 97, 101, 103, 107, 109, 113, 127, 131, 137, 139, 149, 151,
    157, 163, 167, 173, 179, 181, 191, 193, 197, 199, 211, 223, 227, 229, 233, 239, 241, 251, 257,
    263, 269, 271, 277, 281, 283, 293, 307, 311] := by
  decide +kernel

/-- **The table of the rounds holds the constants of the standard.** -/
theorem toBitVec_k {t : ℕ} (ht : t < 64) : (k.getD t 0).toBitVec = Sha256.K t := by
  have hroots : ∀ t < 64, Sha256.IsRootBits 3 (Sha256.primes.getD t 0) (k.getD t 0).toBitVec := by
    rw [primes_eq]
    decide +kernel
  exact (hroots t ht).eq

theorem vars_start : start.vars = Sha256.initial := by
  have hroots : ∀ t < 8, Sha256.IsRootBits 2 (Sha256.primes.getD t 0)
      ([start.a, start.b, start.c, start.d, start.e, start.f, start.g, start.hh].getD t
        0).toBitVec := by
    rw [primes_eq]
    decide +kernel
  rw [Sha256.initial, ← (hroots 0 (by decide)).eq, ← (hroots 1 (by decide)).eq,
    ← (hroots 2 (by decide)).eq, ← (hroots 3 (by decide)).eq, ← (hroots 4 (by decide)).eq,
    ← (hroots 5 (by decide)).eq, ← (hroots 6 (by decide)).eq, ← (hroots 7 (by decide)).eq]
  rfl

theorem toBitVec_bigSigma0 (v : UInt32) :
    (rotr32 v 2 ^^^ rotr32 v 13 ^^^ rotr32 v 22).toBitVec = Sha256.bigSigma0 v.toBitVec := by
  rw [Sha256.bigSigma0, ← toBitVec_rotr32 v (n := 22) (by decide) (by decide)]
  exact toBitVec_sigma v (rotr32 v 22) (m := 2) (n := 13) (by decide) (by decide)

theorem toBitVec_bigSigma1 (v : UInt32) :
    (rotr32 v 6 ^^^ rotr32 v 11 ^^^ rotr32 v 25).toBitVec = Sha256.bigSigma1 v.toBitVec := by
  rw [Sha256.bigSigma1, ← toBitVec_rotr32 v (n := 25) (by decide) (by decide)]
  exact toBitVec_sigma v (rotr32 v 25) (m := 6) (n := 11) (by decide) (by decide)

theorem toBitVec_ch (x y z : UInt32) : ((x &&& y) ^^^ (~~~x &&& z)).toBitVec =
    Sha256.ch x.toBitVec y.toBitVec z.toBitVec := rfl

theorem toBitVec_maj (x y z : UInt32) : ((x &&& y) ^^^ (x &&& z) ^^^ (y &&& z)).toBitVec =
    Sha256.maj x.toBitVec y.toBitVec z.toBitVec := rfl

/-- **A round of the code is one of the standard.** -/
theorem vars_round {w : List UInt32} {W : ℕ → Sha256.Word} {t : ℕ} (ht : t < 64)
    (hw : (w.getD t 0).toBitVec = W t) (r : Regs) :
    (round w r t).vars = Sha256.round W r.vars t := by
  simp only [round, Regs.vars, Sha256.round, UInt32.toBitVec_add, toBitVec_bigSigma0,
    toBitVec_bigSigma1, toBitVec_ch, toBitVec_maj, toBitVec_k ht, hw]

/-- **The computation of a block is that of the standard.** -/
theorem vars_compress {padded : Bytes} {chunk : ℕ} (hchunk : chunk < padded.length / 64)
    (r : Regs) : (compress padded r chunk).vars =
      Sha256.compress (bytesBitsBE padded) r.vars chunk := by
  have hrounds : ∀ n ≤ 64, ((List.range n).foldl (round (schedule padded chunk)) r).vars =
      (List.range n).foldl
        (Sha256.round (Sha256.schedule (Sha256.blockWord (bytesBitsBE padded) chunk))) r.vars := by
    intro n
    induction n with
    | zero => exact fun _ => rfl
    | succ n ih =>
        intro hn
        rw [List.range_succ, List.foldl_concat, List.foldl_concat,
          vars_round hn (toBitVec_schedule hchunk hn), ih (by omega)]
  rw [Sha256.compress, ← hrounds 64 le_rfl]
  simp only [compress, Regs.vars, UInt32.toBitVec_add, BitVec.add_comm]

/-! ## The digest -/

/-- **The digest is SHA-256.**  The standard defines it for messages below 2^61 bytes; above, both
sides take the length modulo 2^64 bits. -/
theorem hash_refines (input : Bytes) :
    bytesBitsBE (hash input) = Sha256.hash (bytesBitsBE input) := by
  have hblocks : (Sha256.pad (bytesBitsBE input)).length / 512 = (pad input).length / 64 := by
    rw [← bits_pad, length_bytesBitsBE]
    omega
  have hrun : ∀ n ≤ (pad input).length / 64,
      ((List.range n).foldl (compress (pad input)) start).vars =
        (List.range n).foldl (Sha256.compress (bytesBitsBE (pad input))) Sha256.initial := by
    intro n
    induction n with
    | zero => exact fun _ => vars_start
    | succ n ih =>
        intro hn
        rw [List.range_succ, List.foldl_concat, List.foldl_concat, vars_compress hn,
          ih (by omega)]
  rw [Sha256.hash, hblocks, ← bits_pad, ← hrun _ le_rfl, hash]
  generalize (List.range ((pad input).length / 64)).foldl (compress (pad input)) start = h
  have hword : ∀ (w : UInt32) (l : Bytes), bytesBitsBE ((w >>> 24).toUInt8 :: (w >>> 16).toUInt8 ::
      (w >>> 8).toUInt8 :: w.toUInt8 :: l) = bitsBE 32 w.toNat ++ bytesBitsBE l := by
    intro w l
    rw [← bytesBitsBE_word, ← bytesBitsBE_append]
    rfl
  simp only [List.flatMap_cons, List.flatMap_nil, List.cons_append, List.nil_append, hword]
  rfl

end BhtBhte.Pow.SHA256
