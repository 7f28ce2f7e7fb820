import BhtBhte.Mldsa.Packing
import Mathlib.Data.List.Induction

/-!
# Encoded hints

The hints of a signature are ones at few places.  They are stored as the places of the ones, row by
row and each row in increasing order, followed by where each row ends; what is left in between is
zero.  Hints that are packed are read back (`hintUnpack_hintPack`).
-/
namespace BhtBhte.Mldsa
open BhtBhte.Lib

/-- The places below `n` that are not zero. -/
def onesBelow (p : Poly) (n : ℕ) : List ℕ := (List.range n).filter fun j => p.coeff j ≠ 0

/-- The places of a row that are not zero. -/
def ones (p : Poly) : List ℕ := onesBelow p N

/-- The places of the first `i` rows. -/
def placesBelow (h : List Poly) (i : ℕ) : List ℕ :=
  (List.range i).flatMap fun r => ones (h.getD r .zero)

/-- Where the first `i` rows end. -/
def endsBelow (h : List Poly) (i : ℕ) : List ℕ :=
  (List.range i).map fun r => (placesBelow h (r + 1)).length

/-- The encoding of places and ends. -/
def hintBuffer (omega k : ℕ) (places ends : List ℕ) : Bytes :=
  (places.map Nat.toUInt8 ++ List.replicate (omega - places.length) 0) ++
    (ends.map Nat.toUInt8 ++ List.replicate (k - ends.length) 0)

theorem onesBelow_succ (p : Poly) (n : ℕ) :
    onesBelow p (n + 1) = onesBelow p n ++ if p.coeff n ≠ 0 then [n] else [] := by
  rw [onesBelow, onesBelow, List.range_succ, List.filter_append, List.filter_singleton]
  by_cases h : p.coeff n = 0 <;> simp [h]

theorem placesBelow_succ (h : List Poly) (i : ℕ) :
    placesBelow h (i + 1) = placesBelow h i ++ ones (h.getD i .zero) := by
  rw [placesBelow, placesBelow, List.range_succ, List.flatMap_append, List.flatMap_singleton]

theorem endsBelow_succ (h : List Poly) (i : ℕ) :
    endsBelow h (i + 1) = endsBelow h i ++ [(placesBelow h (i + 1)).length] := by
  rw [endsBelow, endsBelow, List.range_succ, List.map_append, List.map_singleton]

@[simp] theorem length_endsBelow (h : List Poly) (i : ℕ) : (endsBelow h i).length = i := by
  simp [endsBelow]

theorem mem_ones {p : Poly} {j : ℕ} : j ∈ ones p ↔ j < N ∧ p.coeff j ≠ 0 := by
  simp [ones, onesBelow]

theorem pairwise_ones (p : Poly) : (ones p).Pairwise (· < ·) :=
  List.pairwise_lt_range.filter _

/-! ## Writing -/

/-- The first of the zeros after a list is overwritten. -/
theorem set_append_replicate (a : Bytes) {n : ℕ} (hn : 0 < n) (x : UInt8) (b : Bytes) :
    (a ++ List.replicate n 0 ++ b).set a.length x = a ++ [x] ++ List.replicate (n - 1) 0 ++ b := by
  obtain ⟨n, rfl⟩ := Nat.exists_eq_succ_of_ne_zero (ne_of_gt hn)
  rw [List.append_assoc, List.set_append_right _ _ (Nat.le_refl _), Nat.sub_self,
    List.replicate_succ]
  simp

theorem hintBuffer_store {omega k : ℕ} {places ends : List ℕ} (h : places.length < omega) (j : ℕ) :
    (hintBuffer omega k places ends).set places.length j.toUInt8 =
      hintBuffer omega k (places ++ [j]) ends := by
  have hset := set_append_replicate (places.map Nat.toUInt8) (n := omega - places.length)
    (by omega) j.toUInt8 (ends.map Nat.toUInt8 ++ List.replicate (k - ends.length) 0)
  rw [List.length_map] at hset
  rw [hintBuffer, hset, hintBuffer, List.map_append, List.length_append, List.map_singleton,
    List.length_singleton, Nat.sub_sub]

theorem hintBuffer_end {omega k : ℕ} {places ends : List ℕ} (hplaces : places.length ≤ omega)
    (h : ends.length < k) (e : ℕ) :
    (hintBuffer omega k places ends).set (omega + ends.length) e.toUInt8 =
      hintBuffer omega k places (ends ++ [e]) := by
  have hfront : (places.map Nat.toUInt8 ++ List.replicate (omega - places.length) 0).length =
      omega := by
    rw [List.length_append, List.length_map, List.length_replicate]
    omega
  have hset := set_append_replicate (ends.map Nat.toUInt8) (n := k - ends.length)
    (by omega) e.toUInt8 []
  rw [List.length_map, List.append_nil, List.append_nil] at hset
  rw [hintBuffer, List.set_append_right _ _ (by omega), hfront, Nat.add_sub_cancel_left, hset,
    hintBuffer, List.map_append, List.length_append, List.map_singleton, List.length_singleton,
    Nat.sub_sub]

/-- The state of the encoder between two rows. -/
def hintState (omega k : ℕ) (places ends : List ℕ) : Bytes × ℕ :=
  (hintBuffer omega k places ends, places.length)

theorem hintRow_eq_some {omega k i : ℕ} {h : List Poly} {places ends : List ℕ} {s : Bytes × ℕ}
    (hplaces : places.length ≤ omega) (hends : ends.length = i) (hi : i < k)
    (hrow : hintRow omega h (hintState omega k places ends) i = some s) :
    (places ++ ones (h.getD i .zero)).length ≤ omega ∧
      s = hintState omega k (places ++ ones (h.getD i .zero))
        (ends ++ [(places ++ ones (h.getD i .zero)).length]) := by
  rw [hintRow] at hrow
  obtain ⟨t, ht, heq⟩ := Option.bind_eq_some_iff.mp hrow
  have hstored := foldlM_range_induction
    (fun n t => (places ++ onesBelow (h.getD i .zero) n).length ≤ omega ∧
      t = hintState omega k (places ++ onesBelow (h.getD i .zero) n) ends) ht
    (by simpa [onesBelow] using hplaces) (by
      intro j hj t t' hinv hstep
      obtain ⟨hle, rfl⟩ := hinv
      rw [hintStore] at hstep
      rw [onesBelow_succ]
      by_cases hone : (h.getD i .zero).coeff j = 0
      · rw [if_neg (not_not.mpr hone)] at hstep
        cases hstep
        rw [if_neg (not_not.mpr hone), List.append_nil]
        exact ⟨hle, rfl⟩
      · rw [if_pos hone] at hstep
        rw [if_pos hone]
        split at hstep
        · cases hstep
        · next hroom =>
            cases hstep
            rw [hintState] at hroom
            rw [← List.append_assoc]
            refine ⟨by rw [List.length_append, List.length_singleton]; omega, ?_⟩
            rw [hintState, hintState, hintBuffer_store (by omega)]
            simp [Nat.add_assoc])
  obtain ⟨hle, rfl⟩ := hstored
  refine ⟨hle, ?_⟩
  cases heq
  subst hends
  rw [hintState, hintState, hintBuffer_end hle hi]
  rfl

/-- What `hintPack` writes. -/
theorem hintPack_eq_some {h : List Poly} {omega k : ℕ} {buf : Bytes}
    (hpack : hintPack h omega k = some buf) :
    (placesBelow h k).length ≤ omega ∧
      buf = hintBuffer omega k (placesBelow h k) (endsBelow h k) := by
  rw [hintPack] at hpack
  obtain ⟨s, hs, heq⟩ := Option.bind_eq_some_iff.mp hpack
  cases heq
  have hrows := foldlM_range_induction
    (fun i s => (placesBelow h i).length ≤ omega ∧
      s = hintState omega k (placesBelow h i) (endsBelow h i)) hs
    ⟨Nat.zero_le _, by
      simp [hintState, hintBuffer, placesBelow, endsBelow]⟩ (by
      intro i hi t t' hinv hstep
      obtain ⟨hle, rfl⟩ := hinv
      rw [placesBelow_succ, endsBelow_succ, placesBelow_succ]
      exact hintRow_eq_some hle (length_endsBelow h i) hi hstep)
  exact ⟨hrows.1, by rw [hrows.2, hintState]⟩

theorem length_hintBuffer {omega k : ℕ} {places ends : List ℕ} (hplaces : places.length ≤ omega)
    (hends : ends.length ≤ k) : (hintBuffer omega k places ends).length = omega + k := by
  simp only [hintBuffer, List.length_append, List.length_map, List.length_replicate]
  omega

theorem length_hintPack {h : List Poly} {omega k : ℕ} {buf : Bytes}
    (hpack : hintPack h omega k = some buf) : buf.length = omega + k := by
  obtain ⟨hle, rfl⟩ := hintPack_eq_some hpack
  exact length_hintBuffer hle (by rw [length_endsBelow])

/-! ## Reading -/

/-- The places stand in front. -/
theorem getD_hintBuffer_place {omega k : ℕ} {places ends : List ℕ} {idx : ℕ}
    (hidx : idx < places.length) :
    (hintBuffer omega k places ends).getD idx 0 = (places.getD idx 0).toUInt8 := by
  rw [hintBuffer, List.append_assoc, List.getD_append _ _ _ _ (by simpa using hidx),
    List.getD_eq_getElem _ _ (by simpa using hidx), List.getElem_map,
    List.getD_eq_getElem _ _ hidx]

/-- Then there are zeros. -/
theorem getD_hintBuffer_zero {omega k : ℕ} {places ends : List ℕ} {idx : ℕ}
    (hidx : places.length ≤ idx) (hlt : idx < omega) :
    (hintBuffer omega k places ends).getD idx 0 = 0 := by
  rw [hintBuffer, List.append_assoc, List.getD_append_right _ _ _ _ (by simpa using hidx),
    List.length_map, List.getD_append _ _ _ _ (by rw [List.length_replicate]; omega),
    List.getD_replicate _ (by omega)]

/-- And then the ends. -/
theorem getD_hintBuffer_end {omega k : ℕ} {places ends : List ℕ} (hplaces : places.length ≤ omega)
    {i : ℕ} (hi : i < ends.length) :
    (hintBuffer omega k places ends).getD (omega + i) 0 = (ends.getD i 0).toUInt8 := by
  have hfront : (places.map Nat.toUInt8 ++ List.replicate (omega - places.length) 0).length =
      omega := by
    rw [List.length_append, List.length_map, List.length_replicate]
    omega
  rw [hintBuffer, List.getD_append_right _ _ _ _ (by omega), hfront, Nat.add_sub_cancel_left,
    List.getD_append _ _ _ _ (by simpa using hi), List.getD_eq_getElem _ _ (by simpa using hi),
    List.getElem_map, List.getD_eq_getElem _ _ hi]

theorem toNat_toUInt8 {n : ℕ} (h : n < 256) : n.toUInt8.toNat = n := by
  rw [Nat.toUInt8, UInt8.toNat_ofNat']
  exact Nat.mod_eq_of_lt h

/-- Ones at the given places. -/
def markOnes (places : List ℕ) : Poly := places.foldl (fun p j => p.setCoeff j 1) .zero

theorem coeff_markOnes {places : List ℕ} (h : ∀ j ∈ places, j < N) (j : ℕ) :
    (markOnes places).coeff j = if j ∈ places then 1 else 0 := by
  induction places using List.reverseRecOn with
  | nil => simp [markOnes]
  | append_singleton places x ih =>
      have hx := h x (by simp)
      have hrest := ih fun j hj => h j (by simp [hj])
      rw [markOnes, List.foldl_append, List.foldl_cons, List.foldl_nil, Poly.coeff_setCoeff _ hx]
      rw [markOnes] at hrest
      rw [hrest]
      by_cases hj : j = x <;> simp [hj]

theorem markOnes_ones {p : Poly} (h : ∀ i < N, p.coeff i = 0 ∨ p.coeff i = 1) :
    markOnes (ones p) = p := by
  apply Poly.ext_coeff
  intro i hi
  rw [coeff_markOnes fun j hj => (mem_ones.mp hj).1]
  rcases h i hi with hc | hc
  · rw [if_neg (by rw [mem_ones, hc]; simp), hc]
  · rw [if_pos (by rw [mem_ones, hc]; exact ⟨hi, by decide⟩), hc]

/-- Places in increasing order are read back. -/
theorem unhintLoop {buf : Bytes} {first : ℕ} {places : List ℕ} (hlt : ∀ j ∈ places, j < N)
    (hsorted : places.Pairwise (· < ·))
    (hbuf : ∀ t < places.length, buf.getD (first + t) 0 = (places.getD t 0).toUInt8) :
    (List.range' first places.length).foldlM (unhintStore buf first) .zero =
      some (markOnes places) := by
  have hget : ∀ t < places.length, (places.getD t 0).toUInt8.toNat = places.getD t 0 := by
    intro t ht
    have hmem : places.getD t 0 ∈ places := by
      rw [List.getD_eq_getElem _ _ ht]
      exact List.getElem_mem ht
    exact toNat_toUInt8 (hlt _ hmem)
  have hloop := foldlM_range_of_forall (f := fun p t => unhintStore buf first p (first + t))
    (fun t => markOnes (places.take t)) (n := places.length) (by
      intro t ht
      rw [unhintStore, if_neg, hbuf t ht, hget t ht, List.take_add_one,
        List.getElem?_eq_getElem ht, List.getD_eq_getElem _ _ ht]
      · rw [markOnes, markOnes, List.foldl_append]
        rfl
      · intro hbad
        obtain ⟨hfirst, hle⟩ := hbad
        have hinc := List.pairwise_iff_getElem.mp hsorted (t - 1) t (by omega) ht (by omega)
        rw [Nat.add_sub_assoc (by omega), hbuf t ht, hbuf (t - 1) (by omega),
          UInt8.le_iff_toNat_le, hget t ht, hget (t - 1) (by omega), List.getD_eq_getElem _ _ ht,
          List.getD_eq_getElem _ _ (by omega)] at hle
        omega)
  rw [List.take_length] at hloop
  rw [List.range'_eq_map_range, List.foldlM_map]
  simpa [markOnes] using hloop

theorem length_placesBelow_mono (h : List Poly) {i k : ℕ} (hik : i ≤ k) :
    (placesBelow h i).length ≤ (placesBelow h k).length := by
  induction k, hik using Nat.le_induction with
  | base => exact Nat.le_refl _
  | succ k _ ih =>
      rw [placesBelow_succ, List.length_append]
      omega

/-- The places of a row stand together. -/
theorem getD_placesBelow (h : List Poly) {i k t : ℕ} (hik : i < k)
    (ht : t < (ones (h.getD i .zero)).length) :
    (placesBelow h k).getD ((placesBelow h i).length + t) 0 = (ones (h.getD i .zero)).getD t 0 := by
  induction k, hik using Nat.le_induction with
  | base =>
      rw [placesBelow_succ, List.getD_append_right _ _ _ _ (by omega), Nat.add_sub_cancel_left]
  | succ k hk ih =>
      have hlen := length_placesBelow_mono h hk
      rw [placesBelow_succ, List.length_append] at hlen
      rw [placesBelow_succ, List.getD_append _ _ _ _ (by omega), ih]

/-- A row is read back. -/
theorem unhintRow_hintBuffer {h : List Poly} {omega k i : ℕ} (homega : omega < 256)
    (hle : (placesBelow h k).length ≤ omega) (hi : i < k)
    (hbits : ∀ c < N, (h.getD i .zero).coeff c = 0 ∨ (h.getD i .zero).coeff c = 1)
    (rows : List Poly) :
    unhintRow (hintBuffer omega k (placesBelow h k) (endsBelow h k)) omega
        (rows, (placesBelow h i).length) i =
      some (rows ++ [h.getD i .zero], (placesBelow h (i + 1)).length) := by
  have hmono := length_placesBelow_mono h (show i + 1 ≤ k from hi)
  have hend : ((hintBuffer omega k (placesBelow h k) (endsBelow h k)).getD (omega + i) 0).toNat =
      (placesBelow h (i + 1)).length := by
    rw [getD_hintBuffer_end hle (by rw [length_endsBelow]; exact hi),
      List.getD_eq_getElem _ _ (by rw [length_endsBelow]; exact hi)]
    simp only [endsBelow, List.getElem_map, List.getElem_range]
    exact toNat_toUInt8 (by omega)
  have hlen : (placesBelow h (i + 1)).length =
      (placesBelow h i).length + (ones (h.getD i .zero)).length := by
    rw [placesBelow_succ, List.length_append]
  have hplaces : ∀ t < (ones (h.getD i .zero)).length,
      (hintBuffer omega k (placesBelow h k) (endsBelow h k)).getD ((placesBelow h i).length + t) 0 =
        ((ones (h.getD i .zero)).getD t 0).toUInt8 := by
    intro t ht
    rw [getD_hintBuffer_place (by omega), getD_placesBelow h hi ht]
  have hloop := unhintLoop (fun j hj => (mem_ones.mp hj).1) (pairwise_ones _) hplaces
  rw [unhintRow]
  simp only [hend]
  rw [if_neg (by omega), hlen, Nat.add_sub_cancel_left, hloop, markOnes_ones hbits]
  rfl

/-- **Hints are read back.** -/
theorem hintUnpack_hintPack {h : List Poly} {omega k : ℕ} {buf : Bytes} (homega : omega < 256)
    (hk : h.length = k) (hbits : ∀ p ∈ h, ∀ c < N, p.coeff c = 0 ∨ p.coeff c = 1)
    (hpack : hintPack h omega k = some buf) : hintUnpack buf omega k = some h := by
  have hlen := length_hintPack hpack
  obtain ⟨hle, hbuf⟩ := hintPack_eq_some hpack
  have hrows := foldlM_range_of_forall (f := unhintRow buf omega)
    (fun i => ((List.range i).map fun r => h.getD r .zero, (placesBelow h i).length)) (n := k) (by
      intro i hi
      have hmem : h.getD i .zero ∈ h := by
        rw [List.getD_eq_getElem _ _ (by omega)]
        exact List.getElem_mem _
      rw [List.range_succ, List.map_append, List.map_singleton, hbuf]
      exact unhintRow_hintBuffer homega hle hi (hbits _ hmem) _)
  have hzero : ¬ ((List.range' (placesBelow h k).length (omega - (placesBelow h k).length)).any
      fun idx => buf.getD idx 0 ≠ 0) = true := by
    rw [List.any_eq_true]
    rintro ⟨idx, hidx, hne⟩
    rw [List.mem_range'_1] at hidx
    rw [hbuf, getD_hintBuffer_zero hidx.1 (by omega)] at hne
    simp at hne
  subst hk
  rw [hintUnpack, if_neg (not_not.mpr hlen)]
  refine (congrArg (Option.bind · _) hrows).trans ?_
  simp only [Option.bind_some, if_neg hzero, map_range_getD]
  rfl

end BhtBhte.Mldsa
