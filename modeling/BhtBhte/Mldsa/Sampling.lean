import BhtBhte.Mldsa.Scheme
import Mathlib.Algebra.BigOperators.Group.Finset.Basic
import Mathlib.Algebra.Order.BigOperators.Group.Finset
import Mathlib.Data.List.GetD

/-!
# What the samplers give

The block reader gives the bytes of its stream one after the other.  Secret coefficients stay
between `-eta` and `eta`, and a challenge has `tau` as the sum of its absolute values at most,
whatever the streams are.
-/
namespace BhtBhte.Mldsa

/-! ## Streams -/

namespace XofStream

/-- The stream that is left to read. -/
def rest (st : XofStream) (i : ℕ) : UInt8 :=
  if st.pos + i < st.buf.length then st.buf.getD (st.pos + i) 0
  else st.s (st.pos + i - st.buf.length)

/-- The position is inside the buffer or at its end. -/
structure Valid (st : XofStream) : Prop where
  block : 0 < st.block
  pos : st.pos ≤ st.buf.length

/-- Reading a byte gives the first one of the stream and leaves the others. -/
theorem readByte_spec {st : XofStream} (h : st.Valid) :
    st.readByte.1 = st.rest 0 ∧ (∀ i, st.readByte.2.rest i = st.rest (i + 1)) ∧
      st.readByte.2.Valid := by
  have hblock := h.block
  have hpos := h.pos
  rw [readByte]
  by_cases hend : st.buf.length ≤ st.pos
  · rw [if_pos hend]
    have hstart : st.pos = st.buf.length := by omega
    refine ⟨?_, fun i => ?_, hblock, ?_⟩
    · simp [rest, hstart, hblock]
    · simp only [rest, List.length_map, List.length_range]
      rw [if_neg (by omega : ¬ st.pos + (i + 1) < st.buf.length)]
      split
      · next hlt =>
          rw [List.getD_eq_getElem _ _ (by simpa using hlt)]
          simp only [List.getElem_map, List.getElem_range]
          congr 1
          omega
      · next hge =>
          congr 1
          omega
    · simp
      omega
  · rw [if_neg hend]
    refine ⟨?_, fun i => ?_, hblock, by dsimp only; omega⟩
    · rw [rest, if_pos (by omega)]
      rfl
    · simp only [rest]
      rw [show st.pos + 1 + i = st.pos + (i + 1) by omega]

theorem readBytes_spec {st : XofStream} (h : st.Valid) (n : ℕ) :
    (st.readBytes n).1 = (List.range n).map st.rest ∧
      (∀ i, (st.readBytes n).2.rest i = st.rest (i + n)) ∧ (st.readBytes n).2.Valid := by
  induction n generalizing st with
  | zero => exact ⟨rfl, fun i => rfl, h⟩
  | succ n ih =>
      obtain ⟨hbyte, hrest, hvalid⟩ := readByte_spec h
      obtain ⟨hbytes, hrest', hvalid'⟩ := ih hvalid
      rw [readBytes]
      refine ⟨?_, fun i => ?_, hvalid'⟩
      · dsimp only
        rw [hbyte, hbytes, List.range_succ_eq_map, List.map_cons, List.map_map]
        congr 1
        apply List.map_congr_left
        intro i _
        exact hrest i
      · rw [hrest', hrest]
        congr 1

end XofStream

section Samplers
variable [Xof]

theorem valid_newShake128 (parts : List Bytes) : (newShake128 parts).Valid :=
  ⟨Nat.succ_pos 167, Nat.le_refl _⟩

theorem valid_newShake256 (parts : List Bytes) : (newShake256 parts).Valid :=
  ⟨Nat.succ_pos 135, Nat.le_refl _⟩

theorem rest_newShake128 (parts : List Bytes) :
    (newShake128 parts).rest = Xof.shake128 parts.flatten := by
  funext i
  simp [XofStream.rest, newShake128]

theorem rest_newShake256 (parts : List Bytes) :
    (newShake256 parts).rest = Xof.shake256 parts.flatten := by
  funext i
  simp [XofStream.rest, newShake256]

/-! ## Secret coefficients -/

omit [Xof] in
theorem coeffFromHalfByte_bounds {eta : ℕ} (heta : eta = 2 ∨ eta = 4) {z : ℕ} {v : ℤ}
    (h : coeffFromHalfByte z eta = some v) : -(eta : ℤ) ≤ v ∧ v ≤ eta := by
  rw [coeffFromHalfByte] at h
  rcases heta with rfl | rfl
  · rw [if_pos rfl] at h
    split at h
    · cases h
      omega
    · cases h
  · rw [if_neg (by decide)] at h
    split at h
    · cases h
      omega
    · cases h

omit [Xof] in
theorem storeHalfByte_bounds {eta : ℕ} (heta : eta = 2 ∨ eta = 4) {z i : ℕ} (hi : i < N) {p : Poly}
    (h : ∀ j, -(eta : ℤ) ≤ p.coeff j ∧ p.coeff j ≤ eta) (j : ℕ) :
    -(eta : ℤ) ≤ (storeHalfByte z eta i p).2.coeff j ∧
      (storeHalfByte z eta i p).2.coeff j ≤ eta := by
  rw [storeHalfByte]
  split
  · next v hv =>
      rw [Poly.coeff_setCoeff _ hi]
      split
      · exact coeffFromHalfByte_bounds heta hv
      · exact h j
  · exact h j

omit [Xof] in
theorem rejBoundedLoop_bounds {eta : ℕ} (heta : eta = 2 ∨ eta = 4) {rounds : ℕ} {st : XofStream}
    {i : ℕ} {p p' : Poly} (hp : ∀ j, -(eta : ℤ) ≤ p.coeff j ∧ p.coeff j ≤ eta)
    (h : rejBoundedLoop eta rounds st i p = some p') (j : ℕ) :
    -(eta : ℤ) ≤ p'.coeff j ∧ p'.coeff j ≤ eta := by
  induction rounds generalizing st i p with
  | zero => cases h
  | succ rounds ih =>
      rw [rejBoundedLoop] at h
      split at h
      · next hi =>
          have hfirst := storeHalfByte_bounds heta (z := (st.readByte.1 &&& 0x0F).toNat) hi hp
          dsimp only at h
          split at h
          · cases h
            exact hfirst j
          · next hnot => exact ih (storeHalfByte_bounds heta (by omega) hfirst) h
      · cases h
        exact hp j

/-- Secret coefficients are between `-eta` and `eta`. -/
theorem rejBoundedPoly_bounds {eta : ℕ} (heta : eta = 2 ∨ eta = 4) {rhoP : Bytes} {nonce : ℕ}
    {p : Poly} (h : rejBoundedPoly rhoP nonce eta = some p) (j : ℕ) :
    -(eta : ℤ) ≤ p.coeff j ∧ p.coeff j ≤ eta := by
  refine rejBoundedLoop_bounds heta (fun j => ?_) h j
  rw [Poly.coeff_zero]
  omega

/-! ## Challenges -/

omit [Xof] in
theorem drawIndex_le {i rounds : ℕ} {st : XofStream} {r : UInt8 × XofStream}
    (h : drawIndex i rounds st = some r) : r.1.toNat ≤ i := by
  induction rounds generalizing st with
  | zero => cases h
  | succ rounds ih =>
      rw [drawIndex] at h
      split at h
      · next hle =>
          cases h
          exact hle
      · exact ih h

/-- The sum of the absolute values of the coefficients. -/
def Poly.weight (p : Poly) : ℤ := ∑ i ∈ Finset.range N, |p.coeff i|

omit [Xof] in
/-- Writing one coefficient replaces its share of the weight. -/
theorem weight_setCoeff (p : Poly) {i : ℕ} (hi : i < N) (v : ℤ) :
    (p.setCoeff i v).weight = p.weight - |p.coeff i| + |v| := by
  have hmem : i ∈ Finset.range N := Finset.mem_range.mpr hi
  rw [Poly.weight, Poly.weight, ← Finset.add_sum_erase _ _ hmem, ← Finset.add_sum_erase _ _ hmem,
    Poly.coeff_setCoeff _ hi, if_pos rfl]
  have hrest : ∑ j ∈ (Finset.range N).erase i, |(p.setCoeff i v).coeff j| =
      ∑ j ∈ (Finset.range N).erase i, |p.coeff j| := by
    refine Finset.sum_congr rfl fun j hj => ?_
    rw [Poly.coeff_setCoeff _ hi, if_neg (Finset.mem_erase.mp hj).1]
  rw [hrest]
  omega

theorem ballStep_weight {s s' : XofStream × ℕ × Poly} {i : ℕ} (hi : i < N)
    (h : ballStep s i = some s') : s'.2.2.weight ≤ s.2.2.weight + 1 := by
  rw [ballStep] at h
  obtain ⟨r, hr, heq⟩ := Option.bind_eq_some_iff.mp h
  cases heq
  have hle := drawIndex_le hr
  generalize r.1.toNat = j at *
  have hj : j < N := by omega
  dsimp only
  rw [weight_setCoeff _ hj, weight_setCoeff _ hi, Poly.coeff_setCoeff _ hi]
  have hone : |(if s.2.1 &&& 1 = 1 then -1 else 1 : ℤ)| = 1 := by split <;> rfl
  have habs := abs_nonneg (s.2.2.coeff i)
  rw [hone]
  split <;> omega

/-- **Challenges.** The sum of the absolute values is at most `tau`. -/
theorem sampleInBall_weight {ctilde : Bytes} {tau : ℕ} (htau : tau ≤ N) {c : Poly}
    (h : sampleInBall ctilde tau = some c) : c.weight ≤ tau := by
  have hloop : ∀ (l : List ℕ) (s s' : XofStream × ℕ × Poly), (∀ i ∈ l, i < N) →
      l.foldlM ballStep s = some s' → s'.2.2.weight ≤ s.2.2.weight + l.length := by
    intro l
    induction l with
    | nil =>
        intro s s' _ hfold
        cases hfold
        simp
    | cons i l ih =>
        intro s s' hl hfold
        rw [List.foldlM_cons] at hfold
        obtain ⟨t, ht, hrest⟩ := Option.bind_eq_some_iff.mp hfold
        have hstep := ballStep_weight (hl i List.mem_cons_self) ht
        have hind := ih t s' (fun j hj => hl j (List.mem_cons_of_mem _ hj)) hrest
        rw [List.length_cons]
        push_cast
        omega
  rw [sampleInBall] at h
  obtain ⟨s, hs, heq⟩ := Option.bind_eq_some_iff.mp h
  cases heq
  have hweight := hloop _ _ _ (fun i hi => by
    obtain ⟨j, hj, rfl⟩ := List.mem_range'.mp hi
    omega) hs
  have hzero : Poly.zero.weight = 0 := Finset.sum_eq_zero fun i _ => by
    rw [Poly.coeff_zero, abs_zero]
  dsimp only at hweight
  rw [List.length_range', hzero] at hweight
  omega

end Samplers

end BhtBhte.Mldsa
