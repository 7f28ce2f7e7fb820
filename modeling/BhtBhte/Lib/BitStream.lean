import BhtBhte.Lib.ByteOrder
import Mathlib.Tactic.Ring

/-!
# Little-endian bit streams

A writer collects fields of a fixed number of bits and gives out bytes, a reader takes them apart
again.  Both sides are digits of one number, the fields in base `2 ^ bits` and the bytes in base
`256`; each operation is described by what it does to that number.  So the fields read are the
digits of the number that was written (`BitReader.reads_eq`).

## Main definitions

* `fields` — the first digits of a number.
* `BitWriter`, `BitReader` — a buffer of bits with the bytes written or left to read.
-/
namespace BhtBhte.Lib

/-- The first `n` digits of `v` in base `B`. -/
def fields (B : ℕ) : ℕ → ℕ → List ℕ
  | _, 0 => []
  | v, n + 1 => v % B :: fields B (v / B) n

@[simp] theorem length_fields (B v n : ℕ) : (fields B v n).length = n := by
  induction n generalizing v with
  | zero => rfl
  | succ n ih => rw [fields, List.length_cons, ih]

theorem ofDigits_fields (B v n : ℕ) : Nat.ofDigits B (fields B v n) = v % B ^ n := by
  induction n generalizing v with
  | zero => simp [fields, Nat.mod_one]
  | succ n ih => rw [fields, Nat.ofDigits_cons, ih, Nat.pow_succ', Nat.mod_mul]

theorem fields_lt {B : ℕ} (hB : 0 < B) {v n x : ℕ} (hx : x ∈ fields B v n) : x < B := by
  induction n generalizing v with
  | zero => cases hx
  | succ n ih =>
      rcases List.mem_cons.mp hx with rfl | hx
      · exact Nat.mod_lt _ hB
      · exact ih hx

/-- The digits of a number that is given by its digits. -/
theorem fields_ofDigits {B : ℕ} {l : List ℕ} (h : ∀ x ∈ l, x < B) :
    fields B (Nat.ofDigits B l) l.length = l := by
  induction l with
  | nil => rfl
  | cons x l ih =>
      have hx := h x List.mem_cons_self
      rw [List.length_cons, fields, Nat.ofDigits_cons, Nat.add_mul_mod_self_left,
        Nat.mod_eq_of_lt hx, Nat.add_mul_div_left _ _ (by omega), Nat.div_eq_of_lt hx, Nat.zero_add,
        ih fun y hy => h y (List.mem_cons_of_mem _ hy)]

/-! ## Writing -/

/-- The bytes given out, and the `nbits` bits of `cur` that do not fill a byte yet. -/
structure BitWriter where
  out : List UInt8 := []
  cur : ℕ := 0
  nbits : ℕ := 0

namespace BitWriter

/-- Move the full bytes of `cur` to the output. -/
def flush (w : BitWriter) : BitWriter :=
  if _h : 8 ≤ w.nbits then
    flush { out := w.out ++ [w.cur.toUInt8], cur := w.cur >>> 8, nbits := w.nbits - 8 }
  else w
termination_by w.nbits

/-- Put a field behind the bits that wait, and give out the whole bytes. -/
def write (w : BitWriter) (val bits : ℕ) : BitWriter :=
  flush { w with cur := w.cur ||| (val <<< w.nbits), nbits := w.nbits + bits }

/-- The number written so far. -/
def value (w : BitWriter) : ℕ := bytesValue w.out + 256 ^ w.out.length * w.cur

/-- The number of bits written so far. -/
def size (w : BitWriter) : ℕ := 8 * w.out.length + w.nbits

/-- `cur` has no bits above `nbits`, and less than a byte is held back. -/
structure Flushed (w : BitWriter) : Prop where
  cur : w.cur < 2 ^ w.nbits
  nbits : w.nbits < 8

theorem flushed_empty : Flushed {} := ⟨by decide, by decide⟩

theorem size_flush (w : BitWriter) : w.flush.size = w.size := by
  induction w using flush.induct with
  | case1 w h ih =>
      rw [flush, dif_pos h, ih, size, size]
      simp
      omega
  | case2 w h => rw [flush, dif_neg h]

theorem nbits_flush (w : BitWriter) : w.flush.nbits < 8 := by
  induction w using flush.induct with
  | case1 w h ih => rw [flush, dif_pos h]; exact ih
  | case2 w h => rw [flush, dif_neg h]; omega

theorem value_flush (w : BitWriter) : w.flush.value = w.value := by
  induction w using flush.induct with
  | case1 w h ih =>
      rw [flush, dif_pos h, ih, value, value, bytesValue_append_singleton, List.length_append,
        Nat.shiftRight_eq_div_pow]
      have hcur := Nat.mod_add_div w.cur 256
      simp only [List.length_singleton, Nat.toUInt8, UInt8.toNat_ofNat']
      rw [show (2 : ℕ) ^ 8 = 256 from rfl, Nat.pow_succ]
      calc bytesValue w.out + 256 ^ w.out.length * (w.cur % 256) +
            256 ^ w.out.length * 256 * (w.cur / 256)
          = bytesValue w.out + 256 ^ w.out.length * (w.cur % 256 + 256 * (w.cur / 256)) := by ring
        _ = _ := by rw [hcur]
  | case2 w h => rw [flush, dif_neg h]

theorem flushed_flush {w : BitWriter} (h : w.cur < 2 ^ w.nbits) : w.flush.Flushed := by
  refine ⟨?_, w.nbits_flush⟩
  induction w using flush.induct with
  | case1 w hn ih =>
      rw [flush, dif_pos hn]
      apply ih
      dsimp only
      rw [Nat.shiftRight_eq_div_pow, Nat.div_lt_iff_lt_mul (by decide), ← Nat.pow_add]
      rwa [Nat.sub_add_cancel hn]
  | case2 w hn => rwa [flush, dif_neg hn]

theorem size_write (w : BitWriter) (val bits : ℕ) : (w.write val bits).size = w.size + bits := by
  rw [write, size_flush, size, size]
  dsimp only
  omega

theorem nbits_write (w : BitWriter) (val bits : ℕ) : (w.write val bits).nbits < 8 :=
  nbits_flush _

theorem value_write {w : BitWriter} (h : w.Flushed) (val bits : ℕ) :
    (w.write val bits).value = w.value + 2 ^ w.size * val := by
  rw [write, value_flush, value, value, size]
  dsimp only
  rw [Nat.or_comm, ← Nat.shiftLeft_add_eq_or_of_lt h.cur, Nat.shiftLeft_eq, Nat.pow_add, Nat.pow_mul,
    show (2 : ℕ) ^ 8 = 256 from rfl]
  ring

theorem Flushed.write {w : BitWriter} (h : w.Flushed) {val bits : ℕ} (hval : val < 2 ^ bits) :
    (w.write val bits).Flushed := by
  apply flushed_flush
  dsimp only
  rw [Nat.or_comm, ← Nat.shiftLeft_add_eq_or_of_lt h.cur, Nat.shiftLeft_eq, Nat.pow_add,
    Nat.mul_comm (2 ^ w.nbits)]
  have hcur := h.cur
  calc val * 2 ^ w.nbits + w.cur < val * 2 ^ w.nbits + 2 ^ w.nbits := by omega
    _ = (val + 1) * 2 ^ w.nbits := by ring
    _ ≤ 2 ^ bits * 2 ^ w.nbits := Nat.mul_le_mul_right _ hval

/-- Write the fields of a list. -/
def writes (w : BitWriter) (vals : List ℕ) (bits : ℕ) : BitWriter :=
  vals.foldl (fun w val => w.write val bits) w

theorem size_writes (w : BitWriter) (vals : List ℕ) (bits : ℕ) :
    (w.writes vals bits).size = w.size + bits * vals.length := by
  induction vals generalizing w with
  | nil => rfl
  | cons val vals ih =>
      rw [writes, List.foldl_cons]
      refine (ih _).trans ?_
      rw [size_write, List.length_cons]
      ring

theorem nbits_writes {w : BitWriter} (h : w.nbits < 8) (vals : List ℕ) (bits : ℕ) :
    (w.writes vals bits).nbits < 8 := by
  induction vals generalizing w with
  | nil => exact h
  | cons val vals ih => exact ih (w.nbits_write val bits)

theorem Flushed.writes {w : BitWriter} (h : w.Flushed) {vals : List ℕ} {bits : ℕ}
    (hvals : ∀ val ∈ vals, val < 2 ^ bits) : (w.writes vals bits).Flushed := by
  induction vals generalizing w with
  | nil => exact h
  | cons val vals ih =>
      exact ih (h.write (hvals val List.mem_cons_self)) fun v hv =>
        hvals v (List.mem_cons_of_mem _ hv)

/-- **Writing.** The fields are the next digits of the number. -/
theorem value_writes {w : BitWriter} (h : w.Flushed) {vals : List ℕ} {bits : ℕ}
    (hvals : ∀ val ∈ vals, val < 2 ^ bits) :
    (w.writes vals bits).value = w.value + 2 ^ w.size * Nat.ofDigits (2 ^ bits) vals := by
  induction vals generalizing w with
  | nil => simp [writes]
  | cons val vals ih =>
      have hrest := ih (h.write (hvals val List.mem_cons_self)) fun v hv =>
        hvals v (List.mem_cons_of_mem _ hv)
      refine hrest.trans ?_
      rw [value_write h, size_write, Nat.ofDigits_cons, Nat.pow_add]
      ring

end BitWriter

/-! ## Reading -/

/-- The bytes left, and the `nbits` bits of `cur` fetched from those before them. -/
structure BitReader where
  rest : List UInt8
  cur : ℕ := 0
  nbits : ℕ := 0

namespace BitReader

/-- Fetch bytes until there are `bits` bits; past the end they are zero. -/
def fill (r : BitReader) (bits : ℕ) : BitReader :=
  if _h : r.nbits < bits then
    fill { rest := r.rest.tail, cur := r.cur ||| ((r.rest.headD 0).toNat <<< r.nbits),
           nbits := r.nbits + 8 } bits
  else r
termination_by bits - r.nbits

/-- Take the low `bits` bits, as a 32-bit number. -/
def read (r : BitReader) (bits : ℕ) : ℕ × BitReader :=
  let r := r.fill bits
  ((r.cur &&& (1 <<< bits - 1)) % 2 ^ 32,
    { r with cur := r.cur >>> bits, nbits := r.nbits - bits })

/-- The fields of the next `n` reads. -/
def reads (r : BitReader) (bits : ℕ) : ℕ → List ℕ
  | 0 => []
  | n + 1 => (r.read bits).1 :: (r.read bits).2.reads bits n

/-- The number that is left to read. -/
def value (r : BitReader) : ℕ := r.cur + 2 ^ r.nbits * bytesValue r.rest

theorem bytesValue_eq_headD_tail (b : List UInt8) :
    bytesValue b = (b.headD 0).toNat + 256 * bytesValue b.tail := by
  cases b with
  | nil => rfl
  | cons x b => exact bytesValue_cons x b

theorem fill_spec {r : BitReader} (h : r.cur < 2 ^ r.nbits) (bits : ℕ) :
    (r.fill bits).value = r.value ∧ (r.fill bits).cur < 2 ^ (r.fill bits).nbits ∧
      bits ≤ (r.fill bits).nbits := by
  induction r using fill.induct bits with
  | case1 r hlt ih =>
      have hor : r.cur ||| ((r.rest.headD 0).toNat <<< r.nbits) =
          (r.rest.headD 0).toNat * 2 ^ r.nbits + r.cur := by
        rw [Nat.or_comm, ← Nat.shiftLeft_add_eq_or_of_lt h, Nat.shiftLeft_eq]
      have hbyte := (r.rest.headD 0).toNat_lt
      rw [fill, dif_pos hlt]
      have hfill := ih (by
        dsimp only
        rw [hor, Nat.pow_add]
        calc (r.rest.headD 0).toNat * 2 ^ r.nbits + r.cur
            < (r.rest.headD 0).toNat * 2 ^ r.nbits + 2 ^ r.nbits := by omega
          _ = ((r.rest.headD 0).toNat + 1) * 2 ^ r.nbits := by ring
          _ ≤ 2 ^ 8 * 2 ^ r.nbits := Nat.mul_le_mul_right _ hbyte
          _ = 2 ^ r.nbits * 2 ^ 8 := Nat.mul_comm _ _)
      refine ⟨hfill.1.trans ?_, hfill.2⟩
      rw [value, value]
      dsimp only
      rw [hor, bytesValue_eq_headD_tail r.rest, Nat.pow_add]
      ring
  | case2 r hle =>
      rw [fill, dif_neg hle]
      exact ⟨rfl, h, by omega⟩

theorem read_spec {r : BitReader} (h : r.cur < 2 ^ r.nbits) {bits : ℕ} (hbits : bits ≤ 32) :
    (r.read bits).1 = r.value % 2 ^ bits ∧ (r.read bits).2.value = r.value / 2 ^ bits ∧
      (r.read bits).2.cur < 2 ^ (r.read bits).2.nbits := by
  obtain ⟨hvalue, hcur, hle⟩ := fill_spec h bits
  rw [read]
  dsimp only
  generalize r.fill bits = s at *
  have hsplit : (2 : ℕ) ^ s.nbits = 2 ^ bits * 2 ^ (s.nbits - bits) := by
    rw [← Nat.pow_add, Nat.add_sub_cancel' hle]
  refine ⟨?_, ?_, ?_⟩
  · rw [Nat.shiftLeft_eq, Nat.one_mul, Nat.and_two_pow_sub_one_eq_mod, ← hvalue, value, hsplit,
      Nat.mul_assoc, Nat.add_mul_mod_self_left]
    refine Nat.mod_eq_of_lt ?_
    calc s.cur % 2 ^ bits < 2 ^ bits := Nat.mod_lt _ (by positivity)
      _ ≤ 2 ^ 32 := Nat.pow_le_pow_right (by decide) hbits
  · rw [← hvalue, value, value]
    dsimp only
    rw [Nat.shiftRight_eq_div_pow, hsplit, Nat.mul_assoc, Nat.add_mul_div_left _ _ (by positivity)]
  · rw [Nat.shiftRight_eq_div_pow, Nat.div_lt_iff_lt_mul (by positivity), Nat.mul_comm, ← hsplit]
    exact hcur

/-- **Reading.** The fields are the digits of the number. -/
theorem reads_eq {r : BitReader} (h : r.cur < 2 ^ r.nbits) {bits : ℕ} (hbits : bits ≤ 32) (n : ℕ) :
    r.reads bits n = fields (2 ^ bits) r.value n := by
  induction n generalizing r with
  | zero => rfl
  | succ n ih =>
      obtain ⟨hfield, hvalue, hcur⟩ := read_spec h hbits
      rw [reads, fields, hfield, ih hcur, hvalue]

end BitReader

end BhtBhte.Lib
