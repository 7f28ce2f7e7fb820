import BhtBhte.Mldsa.Scheme
import Mathlib.Data.List.GetD

/-!
# Packed polynomials

A packed polynomial is the digits of one number, `bits` bits for each coefficient.  `N` fields of
any width fill whole bytes, so packing and unpacking are inverse to each other: on coefficients
whose code fits its field, and on every byte string of the right length.
-/
namespace BhtBhte.Mldsa
open BhtBhte.Lib

/-! ## Codes -/

theorem int32_eq {x c : ℤ} (h : (x - c) % 2 ^ 32 = 0) (hlow : -2 ^ 31 ≤ c) (hhigh : c < 2 ^ 31) :
    int32 x = c := by
  rw [int32, Int.bmod]
  split_ifs <;> omega

theorem int32_emod (x : ℤ) : int32 x % 2 ^ 32 = x % 2 ^ 32 := by
  rw [int32, Int.bmod]
  split_ifs <;> omega

/-- A code below `2 ^ 32` comes back from the coefficient it is read as. -/
theorem uint32_sub_int32 (b : ℤ) {v : ℕ} (hv : v < 2 ^ 32) :
    uint32 (b - int32 (b - int32 v)) = v := by
  have houter := int32_emod (b - int32 v)
  have hinner := int32_emod (v : ℤ)
  rw [uint32]
  omega

theorem uint32_int32 {v : ℕ} (hv : v < 2 ^ 32) : uint32 (int32 v) = v := by
  have h := int32_emod (v : ℤ)
  rw [uint32]
  omega

/-- A coefficient comes back from its code. -/
theorem int32_sub_uint32 {b c : ℤ} (hlow : -2 ^ 31 ≤ c) (hhigh : c < 2 ^ 31) :
    int32 (b - int32 (uint32 (b - c) : ℕ)) = c := by
  have hinner := int32_emod (uint32 (b - c) : ℕ)
  refine int32_eq ?_ hlow hhigh
  have hcode : ((uint32 (b - c) : ℕ) : ℤ) = (b - c) % 2 ^ 32 := by rw [uint32]; omega
  omega

theorem int32_uint32 {c : ℤ} (hlow : 0 ≤ c) (hhigh : c < 2 ^ 31) :
    int32 (uint32 c : ℕ) = c := by
  refine int32_eq ?_ (by omega) hhigh
  rw [uint32]
  omega

/-! ## Packing with a code -/

section Codes
variable {enc : ℤ → ℕ} {dec : ℕ → ℤ} {bits : ℕ}

/-- The coefficients written one after the other under a code. -/
def packWith (enc : ℤ → ℕ) (bits : ℕ) (p : Poly) : Bytes :=
  writerBytes (p.toList.foldl (fun w c => w.write (enc c) bits) {})

/-- Read a polynomial whose coefficients are encoded by `dec`. -/
def unpackWith (dec : ℕ → ℤ) (bits : ℕ) (buf : Bytes) : Poly :=
  .build fun i => dec ((({ rest := buf } : BitReader).reads bits N).getD i 0)

theorem packWith_eq (p : Poly) :
    packWith enc bits p = writerBytes (({} : BitWriter).writes (p.toList.map enc) bits) := by
  rw [packWith, BitWriter.writes, List.foldl_map]

/-- `N` fields fill whole bytes. -/
theorem writer_full (bits : ℕ) {vals : List ℕ} (h : vals.length = N) :
    (({} : BitWriter).writes vals bits).nbits = 0 ∧
      (({} : BitWriter).writes vals bits).out.length = 32 * bits := by
  have hsize := BitWriter.size_writes {} vals bits
  have hnbits := BitWriter.nbits_writes BitWriter.flushed_empty.nbits vals bits
  rw [h] at hsize
  have hempty : ({} : BitWriter).size = 0 := rfl
  rw [hempty, BitWriter.size, show N = 256 from rfl] at hsize
  omega

@[simp] theorem length_packWith (p : Poly) : (packWith enc bits p).length = 32 * bits := by
  obtain ⟨hnbits, hlen⟩ := writer_full bits ((List.length_map enc).trans p.length_toList)
  rw [packWith_eq, writerBytes, if_neg (by omega), hlen]

/-- The number that a packed polynomial stands for. -/
theorem bytesValue_packWith {p : Poly} (h : ∀ i < N, enc (p.coeff i) < 2 ^ bits) :
    bytesValue (packWith enc bits p) = Nat.ofDigits (2 ^ bits) (p.toList.map enc) := by
  have hvals : ∀ val ∈ p.toList.map enc, val < 2 ^ bits := by
    intro val hval
    rw [Poly.toList_eq, List.map_map] at hval
    obtain ⟨i, hi, rfl⟩ := List.mem_map.mp hval
    exact h i (List.mem_range.mp hi)
  obtain ⟨hnbits, -⟩ := writer_full bits ((List.length_map enc).trans p.length_toList)
  have hflushed := BitWriter.flushed_empty.writes hvals
  have hvalue := BitWriter.value_writes BitWriter.flushed_empty hvals
  have hcur := hflushed.cur
  rw [hnbits] at hcur
  have hzero : (({} : BitWriter).writes (p.toList.map enc) bits).cur = 0 := by omega
  rw [BitWriter.value, hzero] at hvalue
  rw [packWith_eq, writerBytes, if_neg (by omega)]
  simpa [BitWriter.value, BitWriter.size] using hvalue

theorem coeff_unpackWith (hbits : bits ≤ 32) (buf : Bytes) {i : ℕ} (hi : i < N) :
    (unpackWith dec bits buf).coeff i =
      dec ((fields (2 ^ bits) (bytesValue buf) N).getD i 0) := by
  have hreads := BitReader.reads_eq (r := { rest := buf }) Nat.one_pos hbits N
  have hvalue : ({ rest := buf } : BitReader).value = bytesValue buf := by
    simp [BitReader.value]
  rw [unpackWith, Poly.coeff_build _ hi, hreads, hvalue]

/-- **Unpacking what was packed.** Coefficients whose code fits the field and can be read back. -/
theorem unpackWith_packWith (hbits : bits ≤ 32) {p : Poly}
    (hfits : ∀ i < N, enc (p.coeff i) < 2 ^ bits) (hdec : ∀ i < N, dec (enc (p.coeff i)) = p.coeff i) :
    unpackWith dec bits (packWith enc bits p) = p := by
  have hvals : ∀ val ∈ p.toList.map enc, val < 2 ^ bits := by
    intro val hval
    rw [Poly.toList_eq, List.map_map] at hval
    obtain ⟨i, hi, rfl⟩ := List.mem_map.mp hval
    exact hfits i (List.mem_range.mp hi)
  have hfields : fields (2 ^ bits) (bytesValue (packWith enc bits p)) N = p.toList.map enc := by
    rw [bytesValue_packWith hfits]
    have h := fields_ofDigits hvals
    rwa [List.length_map, Vector.length_toList] at h
  apply Poly.ext_coeff
  intro i hi
  rw [coeff_unpackWith hbits _ hi, hfields, Poly.toList_eq, List.map_map]
  have hget : ((List.range N).map (enc ∘ p.coeff)).getD i 0 = enc (p.coeff i) := by
    rw [List.getD_eq_getElem _ _ (by simpa using hi)]
    simp
  rw [hget, hdec i hi]

/-- **Packing what was unpacked.** Every byte string of the right length. -/
theorem packWith_unpackWith (hbits : bits ≤ 32) (henc : ∀ v < 2 ^ bits, enc (dec v) = v)
    {buf : Bytes} (hlen : buf.length = 32 * bits) :
    packWith enc bits (unpackWith dec bits buf) = buf := by
  have hfields : ∀ i < N, enc ((unpackWith dec bits buf).coeff i) =
      (fields (2 ^ bits) (bytesValue buf) N).getD i 0 := by
    intro i hi
    rw [coeff_unpackWith hbits _ hi]
    apply henc
    have hlt : i < (fields (2 ^ bits) (bytesValue buf) N).length := by simpa using hi
    rw [List.getD_eq_getElem _ _ hlt]
    exact fields_lt (by positivity) (List.getElem_mem hlt)
  have hlist : (unpackWith dec bits buf).toList.map enc = fields (2 ^ bits) (bytesValue buf) N := by
    rw [Poly.toList_eq, List.map_map]
    apply List.ext_getElem (by simp)
    intro i h₁ h₂
    have hi : i < N := by simpa using h₂
    rw [List.getElem_map, List.getElem_range, Function.comp_apply, hfields i hi,
      List.getD_eq_getElem]
  refine eq_of_bytesValue_eq (by rw [length_packWith, hlen]) ?_
  rw [bytesValue_packWith, hlist, ofDigits_fields, ← Nat.pow_mul]
  · apply Nat.mod_eq_of_lt
    have h := bytesValue_lt buf
    rw [hlen, show (256 : ℕ) = 2 ^ 8 from rfl, ← Nat.pow_mul] at h
    have hexp : 8 * (32 * bits) = bits * N := by
      rw [show N = 256 from rfl]
      omega
    rwa [hexp] at h
  · intro i hi
    have hlt : i < (fields (2 ^ bits) (bytesValue buf) N).length := by simpa using hi
    rw [hfields i hi, List.getD_eq_getElem _ _ hlt]
    exact fields_lt (by positivity) (List.getElem_mem hlt)

end Codes

/-! ## The two packings -/

theorem simpleBitPack_eq (p : Poly) (bits : ℕ) : simpleBitPack p bits = packWith uint32 bits p := rfl

theorem simpleBitUnpack_eq (buf : Bytes) (bits : ℕ) :
    simpleBitUnpack buf bits = unpackWith (fun v => int32 v) bits buf := rfl

theorem bitPack_eq (p : Poly) (b : ℤ) (bits : ℕ) :
    bitPack p b bits = packWith (fun c => uint32 (b - c)) bits p := rfl

theorem bitUnpack_eq (buf : Bytes) (a b : ℤ) (bits : ℕ) :
    bitUnpack buf a b bits = unpackWith (fun v => int32 (b - int32 v)) bits buf := rfl

@[simp] theorem length_simpleBitPack (p : Poly) (bits : ℕ) :
    (simpleBitPack p bits).length = 32 * bits := length_packWith p

@[simp] theorem length_bitPack (p : Poly) (b : ℤ) (bits : ℕ) :
    (bitPack p b bits).length = 32 * bits := length_packWith p

theorem simpleBitUnpack_simpleBitPack {p : Poly} {bits : ℕ} (hbits : bits ≤ 31)
    (h : ∀ i < N, 0 ≤ p.coeff i ∧ p.coeff i < 2 ^ bits) :
    simpleBitUnpack (simpleBitPack p bits) bits = p := by
  have hpow : (2 : ℤ) ^ bits ≤ 2 ^ 31 := by exact_mod_cast Nat.pow_le_pow_right (by decide) hbits
  rw [simpleBitUnpack_eq, simpleBitPack_eq]
  refine unpackWith_packWith (by omega) (fun i hi => ?_) fun i hi => ?_
  · obtain ⟨hlow, hhigh⟩ := h i hi
    have hcode : ((uint32 (p.coeff i) : ℕ) : ℤ) = p.coeff i := by rw [uint32]; omega
    exact_mod_cast hcode.symm ▸ hhigh
  · obtain ⟨hlow, hhigh⟩ := h i hi
    exact int32_uint32 hlow (by omega)

theorem simpleBitPack_simpleBitUnpack {buf : Bytes} {bits : ℕ} (hbits : bits ≤ 32)
    (hlen : buf.length = 32 * bits) : simpleBitPack (simpleBitUnpack buf bits) bits = buf := by
  rw [simpleBitUnpack_eq, simpleBitPack_eq]
  refine packWith_unpackWith hbits (fun v hv => ?_) hlen
  exact uint32_int32 (lt_of_lt_of_le hv (Nat.pow_le_pow_right (by decide) hbits))

theorem bitUnpack_bitPack {p : Poly} {a b : ℤ} {bits : ℕ} (hbits : bits ≤ 31)
    (h : ∀ i < N, 0 ≤ b - p.coeff i ∧ b - p.coeff i < 2 ^ bits ∧ -2 ^ 31 ≤ p.coeff i ∧
      p.coeff i < 2 ^ 31) :
    bitUnpack (bitPack p b bits) a b bits = p := by
  have hpow : (2 : ℤ) ^ bits ≤ 2 ^ 31 := by exact_mod_cast Nat.pow_le_pow_right (by decide) hbits
  rw [bitUnpack_eq, bitPack_eq]
  refine unpackWith_packWith (by omega) (fun i hi => ?_) fun i hi => ?_
  · obtain ⟨hlow, hhigh, -⟩ := h i hi
    have hcode : ((uint32 (b - p.coeff i) : ℕ) : ℤ) = b - p.coeff i := by rw [uint32]; omega
    exact_mod_cast hcode.symm ▸ hhigh
  · exact int32_sub_uint32 (h i hi).2.2.1 (h i hi).2.2.2

theorem bitPack_bitUnpack {buf : Bytes} {a b : ℤ} {bits : ℕ} (hbits : bits ≤ 32)
    (hlen : buf.length = 32 * bits) : bitPack (bitUnpack buf a b bits) b bits = buf := by
  rw [bitUnpack_eq, bitPack_eq]
  refine packWith_unpackWith hbits (fun v hv => ?_) hlen
  exact uint32_sub_int32 b (lt_of_lt_of_le hv (Nat.pow_le_pow_right (by decide) hbits))

end BhtBhte.Mldsa
