import BhtBhte.Mldsa.Equivalence

/-!
# The transform in machine integers

`Mldsa.Core` computes the transform in integers.  Here each operation of the source has the width
it has there, and gives nothing when its result does not fit.  From any coefficients of 32 bits the
transforms never stop, give what the functions of `Mldsa.Core` give, and multiply.
-/
namespace BhtBhte.Mldsa
open BhtBhte.Lib

namespace Checked

/-- A result of 64 bits, if it fits. -/
def int64 (x : ℤ) : Option ℤ := if -2 ^ 63 ≤ x ∧ x < 2 ^ 63 then some x else none

/-- A result of 32 bits, if it fits. -/
def int32 (x : ℤ) : Option ℤ := if -2 ^ 31 ≤ x ∧ x < 2 ^ 31 then some x else none

def modPowLoop (mod base result : ℤ) (exp : ℕ) : Option ℤ :=
  if _h : exp = 0 then some result
  else do
    let result ← if exp &&& 1 = 1 then (int64 (result * base)).map fun x => x.tmod mod
      else some result
    let base ← (int64 (base * base)).map fun x => x.tmod mod
    modPowLoop mod base result (exp >>> 1)
termination_by exp
decreasing_by rw [Nat.shiftRight_eq_div_pow]; omega

def modPow (base : ℤ) (exp : ℕ) (mod : ℤ) : Option ℤ := do
  let base := base.tmod mod
  let base ← if base < 0 then int64 (base + mod) else some base
  modPowLoop mod base 1 exp

def zetas (i : ℕ) : Option ℤ := do int32 (← modPow rootZeta (bitrev8 i) Q)

def ninv : Option ℤ := do int32 (← modPow N (Q - 2).toNat Q)

def modQ (a : ℤ) : Option ℤ := do
  let m := a.tmod Q
  let m ← if m < 0 then int64 (m + Q) else some m
  int32 m

def butterfly (zeta : ℤ) (length : ℕ) (a : Poly) (j : ℕ) : Option Poly := do
  let t ← int32 ((← int64 (zeta * a.coeff (j + length))).tmod Q)
  let a' := a.setCoeff (j + length) (← modQ (← int64 (a.coeff j - t)))
  return a'.setCoeff j (← modQ (← int64 (a'.coeff j + t)))

def nttBlock (zeta : ℤ) (length start : ℕ) (a : Poly) : Option Poly :=
  (List.range' start length).foldlM (butterfly zeta length) a

def nttLayer (s : ℕ × Poly) (length : ℕ) : Option (ℕ × Poly) :=
  (List.range' 0 (N / (2 * length)) (2 * length)).foldlM (fun s start => do
    let zeta ← zetas (s.1 + 1)
    let a ← nttBlock zeta length start s.2
    return (s.1 + 1, a)) s

/-- The transform with the width of every result checked. -/
def nttForward (a : Poly) : Option Poly := do
  let s ← [128, 64, 32, 16, 8, 4, 2, 1].foldlM nttLayer (0, a)
  return s.2

def invButterfly (zeta : ℤ) (length : ℕ) (a : Poly) (j : ℕ) : Option Poly := do
  let t := a.coeff j
  let a' := a.setCoeff j (← modQ (← int64 (t + a.coeff (j + length))))
  let a' := a'.setCoeff (j + length) (← modQ (← int64 (t - a'.coeff (j + length))))
  let product ← int64 (zeta * a'.coeff (j + length))
  return a'.setCoeff (j + length) (← int32 (product.tmod Q))

def invNttBlock (zeta : ℤ) (length start : ℕ) (a : Poly) : Option Poly :=
  (List.range' start length).foldlM (invButterfly zeta length) a

def invNttLayer (s : ℕ × Poly) (length : ℕ) : Option (ℕ × Poly) :=
  (List.range' 0 (N / (2 * length)) (2 * length)).foldlM (fun s start => do
    let zeta ← int32 (Q - (← zetas (s.1 - 1)))
    let a ← invNttBlock zeta length start s.2
    return (s.1 - 1, a)) s

/-- A loop that writes every coefficient once. -/
def build (f : ℕ → Option ℤ) : Option Poly :=
  (List.range N).foldlM (fun c i => (f i).map (c.setCoeff i)) .zero

/-- The inverse with the width of every result checked. -/
def nttInverse (a : Poly) : Option Poly := do
  let s ← [1, 2, 4, 8, 16, 32, 64, 128].foldlM invNttLayer (N, a)
  let ninv ← ninv
  build fun j => do int32 ((← int64 (ninv * s.2.coeff j)).tmod Q)

/-- The product with the width of every result checked. -/
def pointwise (a b : Poly) : Option Poly :=
  build fun i => do int32 ((← int64 (a.coeff i * b.coeff i)).tmod Q)

/-- The product of two polynomials by way of their transforms. -/
def multiply (a b : Poly) : Option Poly := do
  let fa ← nttForward a
  let fb ← nttForward b
  nttInverse (← pointwise fa fb)

/-! ## Ranges -/

theorem Q_eq : Q = 8380417 := rfl

theorem int64_eq {x : ℤ} (hlow : -2 ^ 63 ≤ x) (hhigh : x < 2 ^ 63) : int64 x = some x :=
  if_pos ⟨hlow, hhigh⟩

theorem int32_eq {x : ℤ} (hlow : -2 ^ 31 ≤ x) (hhigh : x < 2 ^ 31) : int32 x = some x :=
  if_pos ⟨hlow, hhigh⟩

/-- A product of a residue and a value of 32 bits fits. -/
theorem int64_mul {x y : ℤ} (hx : 0 ≤ x ∧ x ≤ Q) (hy : -2 ^ 31 ≤ y ∧ y < 2 ^ 31) :
    int64 (x * y) = some (x * y) := by
  have hlow : x * -2 ^ 31 ≤ x * y := mul_le_mul_of_nonneg_left hy.1 hx.1
  have hhigh : x * y ≤ x * 2 ^ 31 := mul_le_mul_of_nonneg_left hy.2.le hx.1
  have hQ := Q_eq
  exact int64_eq (by omega) (by omega)

theorem tmod_bounds (x : ℤ) : -Q < x.tmod Q ∧ x.tmod Q < Q :=
  ⟨Int.lt_tmod_of_pos x (by decide), Int.tmod_lt_of_pos x (by decide)⟩

theorem int32_tmod (x : ℤ) : int32 (x.tmod Q) = some (x.tmod Q) := by
  have h := tmod_bounds x
  have hQ := Q_eq
  exact int32_eq (by omega) (by omega)

theorem tmod_residue {x : ℤ} (h : 0 ≤ x) : 0 ≤ x.tmod Q ∧ x.tmod Q < Q :=
  ⟨Int.tmod_nonneg _ h, (tmod_bounds x).2⟩

theorem modQ_eq (x : ℤ) : modQ x = some (Mldsa.modQ x) := by
  have h := tmod_bounds x
  have hbounds := modQ_bounds x
  have hQ := Q_eq
  rw [Mldsa.modQ] at hbounds ⊢
  rw [modQ]
  by_cases hneg : x.tmod Q < 0
  · rw [if_pos hneg] at hbounds ⊢
    rw [if_pos hneg, int64_eq (by omega) (by omega)]
    exact int32_eq (by omega) (by omega)
  · rw [if_neg hneg, if_neg hneg]
    exact int32_eq (by omega) (by omega)

theorem modPowLoop_eq {base result : ℤ} (exp : ℕ) (hbase : 0 ≤ base ∧ base < Q)
    (hresult : 0 ≤ result ∧ result < Q) :
    modPowLoop Q base result exp = some (Mldsa.modPowLoop Q base result exp) ∧
      0 ≤ Mldsa.modPowLoop Q base result exp ∧ Mldsa.modPowLoop Q base result exp < Q := by
  have hQ := Q_eq
  induction exp using Nat.strongRecOn generalizing base result with
  | _ exp ih =>
      rw [modPowLoop, Mldsa.modPowLoop]
      by_cases hzero : exp = 0
      · rw [dif_pos hzero, dif_pos hzero]
        exact ⟨rfl, hresult⟩
      · have hhalf : exp >>> 1 < exp := by
          rw [Nat.shiftRight_eq_div_pow]
          omega
        have hproduct := int64_mul (x := result) (y := base) ⟨hresult.1, hresult.2.le⟩
          ⟨by omega, by omega⟩
        have hsquare := int64_mul (x := base) (y := base) ⟨hbase.1, hbase.2.le⟩
          ⟨by omega, by omega⟩
        have hbase' := tmod_residue (mul_nonneg hbase.1 hbase.1)
        have hresult' := tmod_residue (mul_nonneg hresult.1 hbase.1)
        rw [dif_neg hzero, dif_neg hzero, hproduct, hsquare]
        by_cases hodd : exp &&& 1 = 1
        · rw [if_pos hodd, if_pos hodd]
          exact ih _ hhalf hbase' hresult'
        · rw [if_neg hodd, if_neg hodd]
          exact ih _ hhalf hbase' hresult

theorem modPow_eq {base : ℤ} (hbase : 0 ≤ base) (exp : ℕ) :
    modPow base exp Q = some (Mldsa.modPow base exp Q) ∧
      0 ≤ Mldsa.modPow base exp Q ∧ Mldsa.modPow base exp Q < Q := by
  have hres := tmod_residue hbase
  rw [modPow, Mldsa.modPow]
  rw [if_neg (by omega), if_neg (by omega)]
  exact modPowLoop_eq exp hres ⟨by decide, by decide⟩

theorem zetas_eq (i : ℕ) :
    zetas i = some (Mldsa.zetas i) ∧ 0 ≤ Mldsa.zetas i ∧ Mldsa.zetas i < Q := by
  obtain ⟨heq, hlow, hhigh⟩ := @modPow_eq rootZeta (by decide) (bitrev8 i)
  have hQ := Q_eq
  refine ⟨?_, hlow, hhigh⟩
  rw [zetas, heq]
  exact int32_eq (by omega) (by omega)

theorem ninv_eq : ninv = some Mldsa.ninv ∧ 0 ≤ Mldsa.ninv ∧ Mldsa.ninv < Q := by
  obtain ⟨heq, hlow, hhigh⟩ := @modPow_eq N (by decide) (Q - 2).toNat
  have hQ := Q_eq
  refine ⟨?_, hlow, hhigh⟩
  rw [ninv, heq]
  exact int32_eq (by omega) (by omega)

/-! ## Loops

The rounds of a layer keep any range that holds the residues, and from a range within 32 bits they
are done. -/

/-- All coefficients are at least `low` and below `high`. -/
def Within (low high : ℤ) (a : Poly) : Prop := ∀ p, low ≤ a.coeff p ∧ a.coeff p < high

/-- What has just been written is read, or a zero from `N` on. -/
theorem coeff_setCoeff_self (a : Poly) (i : ℕ) (v : ℤ) :
    (a.setCoeff i v).coeff i = if i < N then v else 0 := by
  by_cases hi : i < N
  · rw [Poly.coeff_setCoeff _ hi, if_pos rfl, if_pos hi]
  · rw [Poly.coeff_eq_zero _ (by omega), if_neg hi]

section Ranges
variable {low high : ℤ}

theorem Within.setCoeff {a : Poly} (h : Within low high a) (i : ℕ) {v : ℤ}
    (hv : low ≤ v ∧ v < high) : Within low high (a.setCoeff i v) := by
  intro p
  by_cases hi : i < N
  · rw [Poly.coeff_setCoeff _ hi]
    split_ifs
    · exact hv
    · exact h p
  · rw [Poly.setCoeff, Vector.setIfInBounds_eq_of_size_le (by omega)]
    exact h p

variable (hlow : -2 ^ 31 ≤ low ∧ low ≤ 0) (hhigh : Q ≤ high ∧ high ≤ 2 ^ 31)
include hlow hhigh

theorem butterfly_eq {zeta : ℤ} (hzeta : 0 ≤ zeta ∧ zeta < Q) {a : Poly} (h : Within low high a)
    (length j : ℕ) :
    butterfly zeta length a j = some (Mldsa.butterfly zeta length a j) ∧
      Within low high (Mldsa.butterfly zeta length a j) := by
  have hQ := Q_eq
  have hupper := h (j + length)
  have hproduct := int64_mul (x := zeta) (y := a.coeff (j + length)) ⟨hzeta.1, hzeta.2.le⟩
    ⟨by omega, by omega⟩
  have ht := tmod_bounds (zeta * a.coeff (j + length))
  rw [butterfly, Mldsa.butterfly, hproduct]
  simp only [Option.bind_eq_bind, Option.bind_some, int32_tmod, Option.pure_def]
  generalize (zeta * a.coeff (j + length)).tmod Q = t at ht ⊢
  have hlower := h j
  have hdifference := modQ_bounds (a.coeff j - t)
  have hfirst := h.setCoeff (j + length) (v := Mldsa.modQ (a.coeff j - t)) ⟨by omega, by omega⟩
  rw [int64_eq (by omega) (by omega), Option.bind_some, modQ_eq, Option.bind_some]
  generalize a.setCoeff (j + length) (Mldsa.modQ (a.coeff j - t)) = a' at hfirst ⊢
  have hlower' := hfirst j
  have hsum := modQ_bounds (a'.coeff j + t)
  rw [int64_eq (by omega) (by omega), Option.bind_some, modQ_eq, Option.bind_some]
  exact ⟨rfl, hfirst.setCoeff j ⟨by omega, by omega⟩⟩

theorem invButterfly_eq {zeta : ℤ} (hzeta : 0 ≤ zeta ∧ zeta ≤ Q) {a : Poly}
    (h : Within low high a) (length j : ℕ) :
    invButterfly zeta length a j = some (Mldsa.invButterfly zeta length a j) ∧
      Within low high (Mldsa.invButterfly zeta length a j) := by
  have hQ := Q_eq
  have hlower := h j
  have hupper := h (j + length)
  rw [invButterfly, Mldsa.invButterfly]
  simp only [Option.bind_eq_bind, Option.pure_def]
  generalize a.coeff j = t at hlower ⊢
  have hsum := modQ_bounds (t + a.coeff (j + length))
  have hfirst := h.setCoeff j (v := Mldsa.modQ (t + a.coeff (j + length))) ⟨by omega, by omega⟩
  rw [int64_eq (by omega) (by omega), Option.bind_some, modQ_eq, Option.bind_some]
  generalize a.setCoeff j (Mldsa.modQ (t + a.coeff (j + length))) = a' at hfirst ⊢
  have hupper' := hfirst (j + length)
  have hdifference := modQ_bounds (t - a'.coeff (j + length))
  have hsecond := hfirst.setCoeff (j + length) (v := Mldsa.modQ (t - a'.coeff (j + length)))
    ⟨by omega, by omega⟩
  rw [int64_eq (by omega) (by omega), Option.bind_some, modQ_eq, Option.bind_some]
  have hlast := coeff_setCoeff_self a' (j + length) (Mldsa.modQ (t - a'.coeff (j + length)))
  generalize a'.setCoeff (j + length) (Mldsa.modQ (t - a'.coeff (j + length))) = a''
    at hsecond hlast ⊢
  have hresidue : 0 ≤ a''.coeff (j + length) ∧ a''.coeff (j + length) < Q := by
    rw [hlast]
    split_ifs
    · exact hdifference
    · decide
  have hproduct := int64_mul (x := zeta) (y := a''.coeff (j + length)) hzeta ⟨by omega, by omega⟩
  have htmod := tmod_residue (mul_nonneg hzeta.1 hresidue.1)
  rw [hproduct, Option.bind_some, int32_tmod, Option.bind_some]
  exact ⟨rfl, hsecond.setCoeff (j + length) ⟨by omega, by omega⟩⟩

theorem nttLayer_eq {s : ℕ × Poly} (h : Within low high s.2) (length : ℕ) :
    nttLayer s length = some (Mldsa.nttLayer s length) ∧
      Within low high (Mldsa.nttLayer s length).2 := by
  refine foldlM_eq_foldl (P := fun s : ℕ × Poly => Within low high s.2) h
    fun s hs start _ => ?_
  obtain ⟨hroot, hzeta⟩ := zetas_eq (s.1 + 1)
  obtain ⟨hblock, hwithin⟩ := foldlM_eq_foldl hs (l := List.range' start length)
    fun a ha j _ => butterfly_eq hlow hhigh hzeta ha length j
  rw [hroot, Option.bind_eq_bind, Option.bind_some, nttBlock, hblock]
  exact ⟨rfl, hwithin⟩

theorem invNttLayer_eq {s : ℕ × Poly} (h : Within low high s.2) (length : ℕ) :
    invNttLayer s length = some (Mldsa.invNttLayer s length) ∧
      Within low high (Mldsa.invNttLayer s length).2 := by
  have hQ := Q_eq
  refine foldlM_eq_foldl (P := fun s : ℕ × Poly => Within low high s.2) h
    fun s hs start _ => ?_
  obtain ⟨hroot, hzeta⟩ := zetas_eq (s.1 - 1)
  have hnegated : 0 ≤ Q - Mldsa.zetas (s.1 - 1) ∧ Q - Mldsa.zetas (s.1 - 1) ≤ Q := by omega
  obtain ⟨hblock, hwithin⟩ := foldlM_eq_foldl hs (l := List.range' start length)
    fun a ha j _ => invButterfly_eq hlow hhigh hnegated ha length j
  rw [hroot, Option.bind_eq_bind, Option.bind_some, int32_eq (by omega) (by omega),
    Option.bind_eq_bind, Option.bind_some, invNttBlock, hblock]
  exact ⟨rfl, hwithin⟩

end Ranges

/-! ## The transforms -/

theorem build_eq {f : ℕ → Option ℤ} {g : ℕ → ℤ} (h : ∀ i < N, f i = some (g i)) :
    build f = some (.build g) := by
  obtain ⟨hloop, -⟩ := foldlM_eq_foldl (P := fun _ : Poly => True) (l := List.range N)
    (g := fun c i => c.setCoeff i (g i)) (f := fun c i => (f i).map (c.setCoeff i)) (b := .zero)
    trivial fun c _ i hi => ⟨by rw [h i (List.mem_range.mp hi)]; rfl, trivial⟩
  rw [build, hloop, Fips204.foldl_setCoeff]

/-- Coefficients of 32 bits. -/
abbrev IsInt32 (a : Poly) : Prop := Within (-2 ^ 31) (2 ^ 31) a

/-- Coefficients in `[0, Q)`. -/
abbrev IsResidue (a : Poly) : Prop := Within 0 Q a

/-- The first layer of `nttForward` writes every coefficient. -/
theorem isResidue_firstLayer (a : Poly) : IsResidue (Mldsa.nttLayer (0, a) 128).2 := by
  have hloop : ∀ n ≤ 128, ∀ p, p < n ∨ 128 ≤ p ∧ p < 128 + n →
      0 ≤ ((List.range' 0 n).foldl (Mldsa.butterfly (Mldsa.zetas 1) 128) a).coeff p ∧
        ((List.range' 0 n).foldl (Mldsa.butterfly (Mldsa.zetas 1) 128) a).coeff p < Q := by
    intro n hn
    induction n with
    | zero =>
        intro p hp
        omega
    | succ n ih =>
        intro p hp
        rw [List.range'_1_concat, List.foldl_append, List.foldl_cons, List.foldl_nil, Nat.zero_add,
          Mldsa.butterfly, Poly.coeff_setCoeff _ (show n < 256 by omega)]
        by_cases hlower : p = n
        · rw [if_pos hlower]
          exact modQ_bounds _
        · rw [if_neg hlower, Poly.coeff_setCoeff _ (show n + 128 < 256 by omega)]
          by_cases hupper : p = n + 128
          · rw [if_pos hupper]
            exact modQ_bounds _
          · rw [if_neg hupper]
            exact ih (by omega) p (by omega)
  intro p
  by_cases hp : p < 256
  · exact hloop 128 (Nat.le_refl _) p (by omega)
  · rw [Poly.coeff_eq_zero _ (not_lt.mp hp)]
    decide

theorem nttForward_eq {a : Poly} (h : IsInt32 a) :
    nttForward a = some (Mldsa.nttForward a) ∧ IsResidue (Mldsa.nttForward a) := by
  obtain ⟨hlayers, -⟩ := foldlM_eq_foldl (P := fun s : ℕ × Poly => IsInt32 s.2)
    (l := [128, 64, 32, 16, 8, 4, 2, 1]) (b := (0, a)) h
    fun s hs length _ => nttLayer_eq (by decide) (by decide) hs length
  have hrest := (foldlM_eq_foldl (P := fun s : ℕ × Poly => IsResidue s.2)
    (l := [64, 32, 16, 8, 4, 2, 1]) (b := Mldsa.nttLayer (0, a) 128) (isResidue_firstLayer a)
    fun s hs length _ => nttLayer_eq (by decide) (by decide) hs length).2
  rw [nttForward, hlayers, Mldsa.nttForward]
  rw [List.foldl_cons]
  exact ⟨rfl, hrest⟩

/-- The products of residues, each of them reduced. -/
theorem products_eq {f g : ℕ → ℤ} (hf : ∀ i, 0 ≤ f i ∧ f i < Q) (hg : ∀ i, 0 ≤ g i ∧ g i < Q) :
    build (fun i => do int32 ((← int64 (f i * g i)).tmod Q)) =
        some (.build fun i => (f i * g i).tmod Q) ∧
      IsResidue (.build fun i => (f i * g i).tmod Q) := by
  have hQ := Q_eq
  refine ⟨build_eq fun i _ => ?_, fun p => ?_⟩
  · have hupper := (hg i).2
    rw [int64_mul ⟨(hf i).1, (hf i).2.le⟩ ⟨by linarith [(hg i).1], by omega⟩]
    exact int32_tmod _
  · by_cases hp : p < N
    · rw [Poly.coeff_build _ hp]
      exact tmod_residue (mul_nonneg (hf p).1 (hg p).1)
    · rw [Poly.coeff_eq_zero _ (by omega)]
      decide

theorem pointwise_eq {a b : Poly} (ha : IsResidue a) (hb : IsResidue b) :
    pointwise a b = some (Mldsa.pointwise a b) ∧ IsResidue (Mldsa.pointwise a b) :=
  products_eq ha hb

theorem nttInverse_eq {a : Poly} (h : IsResidue a) :
    nttInverse a = some (Mldsa.nttInverse a) ∧ IsResidue (Mldsa.nttInverse a) := by
  obtain ⟨hlayers, hwithin⟩ := foldlM_eq_foldl (P := fun s : ℕ × Poly => IsResidue s.2)
    (l := [1, 2, 4, 8, 16, 32, 64, 128]) (b := (N, a)) h
    fun s hs length _ => invNttLayer_eq (by decide) (by decide) hs length
  obtain ⟨hninv, hresidue⟩ := ninv_eq
  obtain ⟨hproducts, hresult⟩ := products_eq (fun _ => hresidue) hwithin
  exact ⟨Option.bind_eq_some_iff.mpr ⟨_, hlayers, Option.bind_eq_some_iff.mpr
    ⟨_, hninv, hproducts⟩⟩, hresult⟩

end Checked

/-! ## Products -/

/-- An `[]int32` as a polynomial. -/
def ofInt32 (a : Vector Int32 N) : Poly := a.map Int32.toInt

theorem isInt32_ofInt32 (a : Vector Int32 N) : Checked.IsInt32 (ofInt32 a) := by
  intro p
  by_cases hp : p < N
  · rw [Poly.coeff_eq_getElem _ hp, ofInt32, Vector.getElem_map]
    exact ⟨Int32.le_toInt _, Int32.toInt_lt _⟩
  · rw [Poly.coeff_eq_zero _ (by omega)]
    decide

/-- A residue is known from what it is congruent to. -/
theorem eq_emod_of_res {c : Poly} (hc : Checked.IsResidue c) {p : ℕ} {x : ℤ}
    (h : c.res p = (x : Zq)) : c.coeff p = x % Q := by
  have hmod := Int.emod_eq_emod_iff_emod_sub_eq_zero.mpr (cast_eq_cast.mp h)
  rwa [Int.emod_eq_of_lt (hc p).1 (hc p).2] at hmod

/-- **The transforms multiply**, no result of 32 or 64 bits overflows, and the coefficients are
in `[0, Q)`. -/
theorem ntt_multiplies (a b : Vector Int32 N) :
    (∃ c, Checked.multiply (ofInt32 a) (ofInt32 b) = some c ∧
      c = nttInverse (pointwise (nttForward (ofInt32 a)) (nttForward (ofInt32 b))) ∧
      ∀ p < N, c.coeff p = negacyclic N (ofInt32 a).coeff (ofInt32 b).coeff p % Q) ∧
    ∃ d, (Checked.nttForward (ofInt32 a)).bind Checked.nttInverse = some d ∧
      d = nttInverse (nttForward (ofInt32 a)) ∧
      ∀ p < N, d.coeff p = (ofInt32 a).coeff p % Q := by
  obtain ⟨hfa, hra⟩ := Checked.nttForward_eq (isInt32_ofInt32 a)
  obtain ⟨hfb, hrb⟩ := Checked.nttForward_eq (isInt32_ofInt32 b)
  obtain ⟨hproduct, hrproduct⟩ := Checked.pointwise_eq hra hrb
  obtain ⟨hinverse, hrinverse⟩ := Checked.nttInverse_eq hrproduct
  obtain ⟨hback, hrback⟩ := Checked.nttInverse_eq hra
  refine ⟨⟨_, Option.bind_eq_some_iff.mpr ⟨_, hfa, Option.bind_eq_some_iff.mpr ⟨_, hfb,
    Option.bind_eq_some_iff.mpr ⟨_, hproduct, hinverse⟩⟩⟩, rfl, fun p hp => ?_⟩,
    _, Option.bind_eq_some_iff.mpr ⟨_, hfa, hback⟩, rfl, fun p hp => ?_⟩
  · exact eq_emod_of_res hrinverse (res_mulChallenge _ _ hp)
  · refine eq_emod_of_res hrback ?_
    rw [res_nttInverse, res_nttForward, inv_fwd, Poly.res]

end BhtBhte.Mldsa
