import BhtBhte.Lib.Ntt
import BhtBhte.Mldsa.Sampling
import Mathlib.Algebra.Module.LinearMap.Basic
import Mathlib.Algebra.Module.Pi
import Mathlib.Data.ZMod.Basic
import Mathlib.Tactic.NormNum

/-!
# The transform

The loops of `nttForward` and `nttInverse`, taken modulo `Q`, are the layered transform of `Lib.Ntt`
with the powers of the root in bit-reversed order.  They are inverse to each other, and the product
of a challenge with a small polynomial is small.
-/
namespace BhtBhte.Mldsa
open BhtBhte.Lib

/-- The integers modulo `Q`. -/
abbrev Zq := ZMod 8380417

/-! ## Residues -/

theorem cast_Q : ((Q : ℤ) : Zq) = 0 := by
  rw [ZMod.intCast_zmod_eq_zero_iff_dvd]
  exact dvd_rfl

@[simp] theorem cast_tmod (x : ℤ) : ((x.tmod Q : ℤ) : Zq) = x := by
  have h := congrArg (fun y : ℤ => (y : Zq)) (Int.mul_tdiv_add_tmod x Q)
  simp only [Int.cast_add, Int.cast_mul, cast_Q, zero_mul, zero_add] at h
  exact h

@[simp] theorem cast_modQ (x : ℤ) : ((modQ x : ℤ) : Zq) = x := by
  rw [modQ]
  split_ifs
  · rw [Int.cast_add, cast_Q, cast_tmod, add_zero]
  · rw [cast_tmod]

theorem cast_eq_cast {x y : ℤ} : (x : Zq) = y ↔ (x - y) % Q = 0 := by
  rw [← sub_eq_zero, ← Int.cast_sub, ZMod.intCast_zmod_eq_zero_iff_dvd]
  exact Int.dvd_iff_emod_eq_zero

/-! ## Roots -/

/-- The residue of the root. -/
def zeta : Zq := ((1753 : ℤ) : Zq)

theorem zeta_pow_half : zeta ^ 256 = -1 := by
  have h : ((1753 : ℤ) ^ 256 - (-1)) % Q = 0 := by norm_num
  have hcast := cast_eq_cast.mpr h
  rwa [Int.cast_pow, Int.cast_neg, Int.cast_one] at hcast

theorem zeta_pow_full : zeta ^ 512 = 1 := by
  rw [show 512 = 256 + 256 from rfl, pow_add, zeta_pow_half]
  ring

theorem cast_modPowLoop (base result : ℤ) (exp : ℕ) :
    ((modPowLoop Q base result exp : ℤ) : Zq) = (result : Zq) * (base : Zq) ^ exp := by
  induction exp using Nat.strongRecOn generalizing base result with
  | _ exp ih =>
      rw [modPowLoop]
      by_cases hzero : exp = 0
      · rw [dif_pos hzero, hzero, pow_zero, mul_one]
      · have hhalf : exp >>> 1 = exp / 2 := Nat.shiftRight_eq_div_pow exp 1
        have hexp := Nat.div_add_mod exp 2
        rw [dif_neg hzero, ih _ (by omega), hhalf, cast_tmod, Int.cast_mul, ← sq, ← pow_mul,
          Nat.and_one_is_mod]
        rcases Nat.mod_two_eq_zero_or_one exp with hpar | hpar
        · rw [if_neg (by omega), show 2 * (exp / 2) = exp by omega]
        · rw [if_pos hpar, cast_tmod, Int.cast_mul, mul_assoc, ← pow_succ',
            show 2 * (exp / 2) + 1 = exp by omega]

theorem cast_modPow (base : ℤ) (exp : ℕ) : ((modPow base exp Q : ℤ) : Zq) = (base : Zq) ^ exp := by
  rw [modPow, cast_modPowLoop]
  split_ifs
  · rw [Int.cast_add, cast_Q, cast_tmod]
    simp
  · rw [cast_tmod]
    simp

theorem cast_zetas (i : ℕ) : ((zetas i : ℤ) : Zq) = zeta ^ bitrev8 i := by
  rw [zetas, cast_modPow]
  rfl

/-- The reversed index of a child, and of the node that a block is joined with. -/
theorem bitrev8_facts :
    bitrev8 1 = 128 ∧ (∀ k < 256, k % 2 = 0 → 2 * bitrev8 k = bitrev8 (k / 2)) ∧
      (∀ k < 256, k % 2 = 1 → k ≠ 1 → 2 * bitrev8 k = 256 + bitrev8 (k / 2)) ∧
      (∀ k < 256, bitrev8 k < 256) ∧
      ∀ s < 8, ∀ b < 2 ^ s, bitrev8 (2 ^ s + b) + bitrev8 (2 ^ (s + 1) - 1 - b) = 256 := by
  decide +kernel

/-- The roots of the layers. -/
def roots (k : ℕ) : Zq := if k < 256 then zeta ^ bitrev8 k else 1

/-- Their inverses. -/
def invRoots (k : ℕ) : Zq := if k < 256 then zeta ^ (512 - bitrev8 k) else 1

theorem roots_mul_invRoots (k : ℕ) : roots k * invRoots k = 1 := by
  rw [roots, invRoots]
  split_ifs with hk
  · have hlt := bitrev8_facts.2.2.2.1 k hk
    rw [← pow_add, show bitrev8 k + (512 - bitrev8 k) = 512 by omega, zeta_pow_full]
  · rw [one_mul]

theorem roots_sq (k : ℕ) (hpos : 0 < k) (hk : k < 2 ^ 8) : roots k ^ 2 = nodeValue roots k := by
  obtain ⟨hone, heven, hodd, -, -⟩ := bitrev8_facts
  rw [show 2 ^ 8 = 256 from rfl] at hk
  rw [nodeValue, roots, if_pos hk, ← pow_mul, Nat.mul_comm]
  by_cases h1 : k = 1
  · rw [if_pos h1, h1, hone, zeta_pow_half]
  · rw [if_neg h1, show roots (k / 2) = zeta ^ bitrev8 (k / 2) from if_pos (by omega)]
    rcases Nat.mod_two_eq_zero_or_one k with hpar | hpar
    · rw [if_pos hpar, heven k hk hpar]
    · rw [if_neg (by omega), hodd k hk hpar h1, pow_add, zeta_pow_half]
      ring

theorem cast_zetas_eq {k : ℕ} (hk : k < 256) : ((zetas k : ℤ) : Zq) = roots k := by
  rw [cast_zetas, roots, if_pos hk]

/-- The factors of the inverse: the root of the mirrored block, negated. -/
theorem cast_Q_sub_zetas {s b : ℕ} (hs : s < 8) (hb : b < 2 ^ s) :
    ((Q - zetas (2 ^ (s + 1) - 1 - b) : ℤ) : Zq) = invRoots (2 ^ s + b) := by
  have hsum := bitrev8_facts.2.2.2.2 s hs b hb
  have hpow : 2 ^ (s + 1) ≤ 2 ^ 8 := Nat.pow_le_pow_right (by decide) hs
  rw [Nat.pow_succ] at hpow
  rw [Int.cast_sub, cast_Q, cast_zetas, invRoots, if_pos (by omega),
    show 512 - bitrev8 (2 ^ s + b) = 256 + bitrev8 (2 ^ (s + 1) - 1 - b) by omega,
    pow_add zeta, zeta_pow_half]
  ring

/-! ## Polynomials modulo `Q` -/

/-- The coefficients modulo `Q`; they are zero from `N` on. -/
def Poly.res (a : Poly) (p : ℕ) : Zq := (a.coeff p : ℤ)

theorem Poly.coeff_eq_zero (a : Poly) {p : ℕ} (hp : N ≤ p) : a.coeff p = 0 := by
  rw [Poly.coeff, Vector.getElem?_eq_none hp]
  rfl

theorem Poly.res_eq_zero (a : Poly) {p : ℕ} (hp : N ≤ p) : a.res p = 0 := by
  rw [Poly.res, a.coeff_eq_zero hp, Int.cast_zero]

theorem Poly.res_build (f : ℕ → ℤ) {p : ℕ} (hp : p < N) : (Poly.build f).res p = (f p : ℤ) := by
  rw [Poly.res, Poly.coeff_build f hp]

theorem res_butterfly (ζ : ℤ) {length j : ℕ} (hlen : 0 < length) (hj : j + length < N) (a : Poly)
    (p : ℕ) :
    (butterfly ζ length a j).res p =
      if p = j then a.res j + ζ * a.res (j + length)
      else if p = j + length then a.res j - ζ * a.res (j + length) else a.res p := by
  rw [butterfly, Poly.res, Poly.coeff_setCoeff _ (by omega), Poly.coeff_setCoeff _ hj,
    Poly.coeff_setCoeff _ hj, if_neg (by omega : ¬ j = j + length)]
  split_ifs
  · simp [Poly.res]
  · simp [Poly.res]
  · rfl

theorem res_invButterfly (ζ : ℤ) {length j : ℕ} (hlen : 0 < length) (hj : j + length < N)
    (a : Poly) (p : ℕ) :
    (invButterfly ζ length a j).res p =
      if p = j then a.res j + a.res (j + length)
      else if p = j + length then ζ * (a.res j - a.res (j + length)) else a.res p := by
  rw [invButterfly, Poly.res]
  simp only [Poly.coeff_setCoeff _ hj, Poly.coeff_setCoeff _ (show j < N by omega),
    if_neg (show ¬ j + length = j by omega), if_true]
  by_cases hp : p = j
  · subst hp
    simp [Poly.res, hlen.ne']
  · split_ifs
    · simp [Poly.res]
    · rfl

/-! ## Loops

Both transforms replace the two entries at distance `length` in each round: the lower one by `g` of
the two and the upper one by `h`. -/

section Loops
variable {length : ℕ}

/-- The loop over a block. -/
theorem res_pairs {step : Poly → ℕ → Poly} (g h : Zq → Zq → Zq) {start : ℕ}
    (hend : start + 2 * length ≤ N)
    (hstep : ∀ a j, j + length < N → ∀ p, (step a j).res p =
      if p = j then g (a.res j) (a.res (j + length))
      else if p = j + length then h (a.res j) (a.res (j + length)) else a.res p)
    (a : Poly) (p : ℕ) :
    ((List.range' start length).foldl step a).res p =
      if start ≤ p ∧ p < start + length then g (a.res p) (a.res (p + length))
      else if start + length ≤ p ∧ p < start + 2 * length then h (a.res (p - length)) (a.res p)
      else a.res p := by
  have hloop : ∀ n ≤ length, ∀ p, ((List.range' start n).foldl step a).res p =
      if start ≤ p ∧ p < start + n then g (a.res p) (a.res (p + length))
      else if start + length ≤ p ∧ p < start + length + n then h (a.res (p - length)) (a.res p)
      else a.res p := by
    intro n hn
    induction n with
    | zero =>
        intro p
        rw [if_neg (by omega), if_neg (by omega)]
        rfl
    | succ n ih =>
        intro p
        -- the two entries of this round are still those of `a`
        have hlow : ((List.range' start n).foldl step a).res (start + n) = a.res (start + n) := by
          rw [ih (by omega), if_neg (by omega), if_neg (by omega)]
        have hhigh : ((List.range' start n).foldl step a).res (start + n + length) =
            a.res (start + n + length) := by
          rw [ih (by omega), if_neg (by omega), if_neg (by omega)]
        rw [List.range'_1_concat, List.foldl_append, List.foldl_cons, List.foldl_nil,
          hstep _ _ (by omega), hlow, hhigh, ih (by omega)]
        by_cases h1 : p = start + n
        · rw [if_pos h1, if_pos (by omega), h1]
        · rw [if_neg h1]
          by_cases h2 : p = start + n + length
          · rw [if_pos h2, if_neg (by omega), if_pos (by omega), h2, Nat.add_sub_cancel]
          · rw [if_neg h2]
            split_ifs <;> first | rfl | omega
  rw [hloop length (Nat.le_refl _), show start + length + length = start + 2 * length by omega]

/-- The loop over the blocks of one length, with a counter. -/
theorem res_blocks (block : ℕ → ℕ → Poly → Poly) (next : ℕ → ℕ) (g h : ℕ → Zq → Zq → Zq)
    {k count : ℕ} (hlen : 0 < length)
    (hblock : ∀ i < count, ∀ a p, (block (next^[i] k) (i * (2 * length)) a).res p =
      if i * (2 * length) ≤ p ∧ p < i * (2 * length) + length then g i (a.res p) (a.res (p + length))
      else if i * (2 * length) + length ≤ p ∧ p < i * (2 * length) + 2 * length then
        h i (a.res (p - length)) (a.res p)
      else a.res p) (a : Poly) :
    ((List.range' 0 count (2 * length)).foldl
        (fun s start => (next s.1, block s.1 start s.2)) (k, a)).1 = next^[count] k ∧
      ∀ p, ((List.range' 0 count (2 * length)).foldl
          (fun s start => (next s.1, block s.1 start s.2)) (k, a)).2.res p =
        if p < count * (2 * length) then
          if p % (2 * length) < length then g (p / (2 * length)) (a.res p) (a.res (p + length))
          else h (p / (2 * length)) (a.res (p - length)) (a.res p)
        else a.res p := by
  induction count with
  | zero => exact ⟨rfl, fun p => by rw [if_neg (by omega)]; rfl⟩
  | succ count ih =>
      obtain ⟨hcounter, hres⟩ := ih fun i hi => hblock i (by omega)
      rw [List.range'_concat, List.foldl_append, List.foldl_cons, List.foldl_nil]
      dsimp only
      rw [hcounter, Nat.zero_add, Nat.mul_comm (2 * length) count]
      refine ⟨(Function.iterate_succ_apply' _ _ _).symm, fun p => ?_⟩
      rw [hblock count (by omega)]
      have hsucc : (count + 1) * (2 * length) = count * (2 * length) + 2 * length :=
        Nat.succ_mul _ _
      by_cases hp : p < count * (2 * length)
      · rw [if_neg (by omega), if_neg (by omega), hres, if_pos hp,
          if_pos (show p < (count + 1) * (2 * length) by omega)]
      · have houtside : ∀ p', count * (2 * length) ≤ p' →
            ((List.range' 0 count (2 * length)).foldl
              (fun s start => (next s.1, block s.1 start s.2)) (k, a)).2.res p' = a.res p' := by
          intro p' hp'
          rw [hres, if_neg (by omega)]
        obtain ⟨r, rfl⟩ := Nat.exists_eq_add_of_le (Nat.le_of_not_lt hp)
        rw [houtside _ (by omega), houtside _ (by omega)]
        by_cases hr : r < length
        · obtain ⟨hmod, hdiv⟩ := half_low (b := count) hr
          rw [if_pos (by omega), if_pos (by omega), hmod, hdiv, if_pos hr]
        · rw [if_neg (by omega)]
          by_cases hr2 : r < 2 * length
          · obtain ⟨hmod, hdiv⟩ := half_high (b := count) (show r - length < length by omega)
            rw [show count * (2 * length) + (r - length) + length = count * (2 * length) + r by
              omega] at hmod hdiv
            rw [if_pos (by omega), if_pos (by omega), hmod, hdiv, if_neg (by omega),
              houtside _ (by omega)]
          · rw [if_neg (by omega), if_neg (by omega)]

end Loops

/-! ## Layers -/

/-- The blocks of a layer fill the polynomial. -/
theorem blocks_eq {s : ℕ} (hs : s < 8) :
    N / (2 * 2 ^ (7 - s)) = 2 ^ s ∧ 2 ^ s * (2 * 2 ^ (7 - s)) = N := by
  have h : ∀ s < 8, N / (2 * 2 ^ (7 - s)) = 2 ^ s ∧ 2 ^ s * (2 * 2 ^ (7 - s)) = N := by decide
  exact h s hs

theorem block_end_le {s : ℕ} (hs : s < 8) {i : ℕ} (hi : i < 2 ^ s) :
    i * (2 * 2 ^ (7 - s)) + 2 * 2 ^ (7 - s) ≤ N := by
  rw [← (blocks_eq hs).2, ← Nat.succ_mul]
  exact Nat.mul_le_mul_right _ hi

theorem iterate_succ (k i : ℕ) : (fun n => n + 1)^[i] k = k + i := by
  induction i with
  | zero => rfl
  | succ i ih => rw [Function.iterate_succ_apply', ih, Nat.add_assoc]

theorem iterate_pred (k i : ℕ) : (fun n => n - 1)^[i] k = k - i := by
  induction i with
  | zero => rfl
  | succ i ih => rw [Function.iterate_succ_apply', ih, Nat.sub_sub]

/-- Entries from `N` on stay zero in a layer. -/
theorem layer_outside {s : ℕ} (hs : s < 8) (a : Poly) {p : ℕ} (hp : N ≤ p) :
    nttStep roots (2 ^ s) (2 ^ (7 - s)) a.res p = 0 ∧
      invNttStep invRoots (2 ^ s) (2 ^ (7 - s)) a.res p = 0 := by
  have hblocks := (blocks_eq hs).2
  obtain ⟨b, r, hr, rfl | rfl⟩ := exists_half (Nat.two_pow_pos (7 - s)) p
  · rw [nttStep_low hr, invNttStep_low hr, a.res_eq_zero hp, a.res_eq_zero (by omega)]
    simp
  · have hb : 2 ^ s ≤ b := by
      by_contra hlt
      have hle := block_end_le hs (Nat.lt_of_not_le hlt)
      omega
    have hfront := Nat.mul_le_mul_right (2 * 2 ^ (7 - s)) hb
    rw [nttStep_high hr, invNttStep_high hr, a.res_eq_zero hp, a.res_eq_zero (by omega)]
    simp

/-- A layer of `nttForward`. -/
theorem res_nttLayer {s : ℕ} (hs : s < 8) (a : Poly) :
    (nttLayer (2 ^ s - 1, a) (2 ^ (7 - s))).1 = 2 ^ (s + 1) - 1 ∧
      (nttLayer (2 ^ s - 1, a) (2 ^ (7 - s))).2.res =
        nttStep roots (2 ^ s) (2 ^ (7 - s)) a.res := by
  have hpos := Nat.two_pow_pos s
  have hlen := Nat.two_pow_pos (7 - s)
  have hpow : 2 ^ (s + 1) ≤ 2 ^ 8 := Nat.pow_le_pow_right (by decide) hs
  rw [Nat.pow_succ] at hpow
  have hlayer := @res_blocks (2 ^ (7 - s))
    (fun k start a => nttBlock (zetas (k + 1)) (2 ^ (7 - s)) start a) (fun n => n + 1)
    (fun i x y => x + roots (2 ^ s + i) * y) (fun i x y => x - roots (2 ^ s + i) * y) (2 ^ s - 1)
    (2 ^ s) hlen
  obtain ⟨hcounter, hres⟩ := hlayer (by
    intro i hi a p
    rw [nttBlock, iterate_succ, show 2 ^ s - 1 + i + 1 = 2 ^ s + i by omega]
    refine res_pairs (fun x y => x + roots (2 ^ s + i) * y) (fun x y => x - roots (2 ^ s + i) * y)
      (block_end_le hs hi) (fun a j hj p => ?_) a p
    rw [res_butterfly _ hlen hj, cast_zetas_eq (by omega)]) a
  rw [nttLayer, (blocks_eq hs).1]
  refine ⟨?_, funext fun p => ?_⟩
  · rw [hcounter, iterate_succ, Nat.pow_succ]
    omega
  · rw [hres, (blocks_eq hs).2]
    by_cases hp : p < N
    · rw [if_pos hp, nttStep]
    · rw [if_neg hp, (layer_outside hs a (by omega)).1, a.res_eq_zero (by omega)]

/-- A layer of `nttInverse`. -/
theorem res_invNttLayer {s : ℕ} (hs : s < 8) (a : Poly) :
    (invNttLayer (2 ^ (s + 1), a) (2 ^ (7 - s))).1 = 2 ^ s ∧
      (invNttLayer (2 ^ (s + 1), a) (2 ^ (7 - s))).2.res =
        invNttStep invRoots (2 ^ s) (2 ^ (7 - s)) a.res := by
  have hlen := Nat.two_pow_pos (7 - s)
  have hlayer := @res_blocks (2 ^ (7 - s))
    (fun k start a => invNttBlock (Q - zetas (k - 1)) (2 ^ (7 - s)) start a) (fun n => n - 1)
    (fun _ x y => x + y) (fun i x y => invRoots (2 ^ s + i) * (x - y)) (2 ^ (s + 1)) (2 ^ s) hlen
  obtain ⟨hcounter, hres⟩ := hlayer (by
    intro i hi a p
    rw [invNttBlock, iterate_pred, Nat.sub_sub, Nat.add_comm i 1, ← Nat.sub_sub]
    refine res_pairs (fun x y => x + y) (fun x y => invRoots (2 ^ s + i) * (x - y))
      (block_end_le hs hi) (fun a j hj p => ?_) a p
    rw [res_invButterfly _ hlen hj, cast_Q_sub_zetas hs hi]) a
  rw [invNttLayer, (blocks_eq hs).1]
  refine ⟨?_, funext fun p => ?_⟩
  · rw [hcounter, iterate_pred, Nat.pow_succ]
    omega
  · rw [hres, (blocks_eq hs).2]
    by_cases hp : p < N
    · rw [if_pos hp, invNttStep]
    · rw [if_neg hp, (layer_outside hs a (by omega)).2, a.res_eq_zero (by omega)]

/-! ## The transforms -/

/-- The lengths of the first `s` layers. -/
def layerLengths : ℕ → List ℕ
  | 0 => []
  | s + 1 => layerLengths s ++ [2 ^ (7 - s)]

/-- The lengths of the layers that the inverse has still to undo. -/
def invLayerLengths : ℕ → List ℕ
  | 0 => []
  | s + 1 => 2 ^ (7 - s) :: invLayerLengths s

theorem res_nttLayers (a : Poly) {s : ℕ} (hs : s ≤ 8) :
    ((layerLengths s).foldl nttLayer (0, a)).1 = 2 ^ s - 1 ∧
      ((layerLengths s).foldl nttLayer (0, a)).2.res = nttSteps roots 8 s a.res := by
  induction s with
  | zero => exact ⟨rfl, rfl⟩
  | succ s ih =>
      obtain ⟨hcounter, hres⟩ := ih (by omega)
      rw [layerLengths, List.foldl_append, List.foldl_cons, List.foldl_nil]
      generalize (layerLengths s).foldl nttLayer (0, a) = t at *
      obtain ⟨k, b⟩ := t
      dsimp only at hcounter hres
      rw [hcounter, nttSteps, ← hres]
      exact res_nttLayer (by omega) b

theorem res_invNttLayers (a : Poly) {s : ℕ} (hs : s ≤ 8) :
    ((invLayerLengths s).foldl invNttLayer (2 ^ s, a)).2.res = invNttSteps invRoots 8 s a.res := by
  induction s generalizing a with
  | zero => rfl
  | succ s ih =>
      obtain ⟨hcounter, hres⟩ := res_invNttLayer (show s < 8 by omega) a
      rw [invLayerLengths, List.foldl_cons]
      generalize invNttLayer (2 ^ (s + 1), a) (2 ^ (7 - s)) = t at *
      obtain ⟨k, b⟩ := t
      dsimp only at hcounter hres
      rw [hcounter, ih b (by omega), hres, invNttSteps]

/-- The order of `N` divides `Q - 1`. -/
theorem cast_N_pow : ((N : ℤ) : Zq) ^ (Q - 1).toNat = 1 := by
  have h1 : ((N : ℤ) : Zq) ^ 33 = (1315424 : ℤ) := by
    rw [← Int.cast_pow, cast_eq_cast]
    norm_num
  have h2 : ((1315424 : ℤ) : Zq) ^ 31 = (5867399 : ℤ) := by
    rw [← Int.cast_pow, cast_eq_cast]
    norm_num
  have h3 : ((5867399 : ℤ) : Zq) ^ 32 = (2883726 : ℤ) := by
    rw [← Int.cast_pow, cast_eq_cast]
    norm_num
  have h4 : ((2883726 : ℤ) : Zq) ^ 32 = (1 : ℤ) := by
    rw [← Int.cast_pow, cast_eq_cast]
    norm_num
  have hexp : (Q - 1).toNat = 33 * 31 * 32 * 32 * 8 := by decide
  rw [hexp, pow_mul, pow_mul, pow_mul, pow_mul, h1, h2, h3, h4, Int.cast_one, one_pow]

theorem cast_ninv : ((ninv : ℤ) : Zq) * 2 ^ 8 = 1 := by
  have hN : (2 : Zq) ^ 8 = ((N : ℤ) : Zq) := by norm_num
  have hexp : (Q - 2).toNat + 1 = (Q - 1).toNat := by decide
  rw [ninv, cast_modPow, hN, ← pow_succ, hexp, cast_N_pow]

/-- The transform of sequences. -/
def fwd : (ℕ → Zq) →ₗ[Zq] (ℕ → Zq) where
  toFun := nttSteps roots 8 8
  map_add' a b := by
    have h := nttSteps_linear (z := roots) (m := 8) 1 1 a b 8
    simp only [one_mul] at h
    exact h
  map_smul' x a := linear_mul (fun x y a b => nttSteps_linear x y a b 8) x a

/-- The inverse transform of sequences. -/
def inv : (ℕ → Zq) →ₗ[Zq] (ℕ → Zq) where
  toFun a := fun p => (ninv : ℤ) * invNttSteps invRoots 8 8 a p
  map_add' a b := by
    have h : invNttSteps invRoots 8 8 _ = _ := invNttSteps_linear 1 1 a b 8
    simp only [one_mul] at h
    funext p
    rw [Pi.add_apply, ← mul_add]
    exact congrArg _ (congrFun h p)
  map_smul' x a := by
    have h := linear_mul (f := invNttSteps invRoots 8 8)
      (fun x y a b => invNttSteps_linear x y a b 8) x a
    funext p
    refine (congrArg _ (congrFun h p)).trans ?_
    simp only [RingHom.id_apply, Pi.smul_apply, smul_eq_mul]
    ring

theorem fwd_inv (a : ℕ → Zq) : fwd (inv a) = a := by
  have h : fwd (inv a) = nttSteps roots 8 8
      (fun p => (ninv : ℤ) * invNttSteps invRoots 8 8 a p) := rfl
  rw [h, linear_mul fun x y a b => nttSteps_linear x y a b 8,
    nttSteps_invNttSteps roots_mul_invRoots]
  funext p
  rw [← mul_assoc, cast_ninv, one_mul]

theorem inv_fwd (a : ℕ → Zq) : inv (fwd a) = a := by
  have h : inv (fwd a) = fun p => (ninv : ℤ) * invNttSteps invRoots 8 8 (nttSteps roots 8 8 a) p :=
    rfl
  rw [h, invNttSteps_nttSteps roots_mul_invRoots]
  funext p
  rw [← mul_assoc, cast_ninv, one_mul]

/-- **What `nttForward` computes.** -/
theorem res_nttForward (a : Poly) : (nttForward a).res = fwd a.res :=
  (res_nttLayers a (Nat.le_refl 8)).2

/-- **What `nttInverse` computes.** -/
theorem res_nttInverse (a : Poly) : (nttInverse a).res = inv a.res := by
  have hlayers := res_invNttLayers a (Nat.le_refl 8)
  have h : inv a.res = fun p => (ninv : ℤ) * invNttSteps invRoots 8 8 a.res p := rfl
  funext p
  rw [h, ← hlayers, nttInverse]
  by_cases hp : p < N
  · rw [Poly.res_build _ hp, cast_tmod, Int.cast_mul]
    rfl
  · dsimp only
    rw [Poly.res_eq_zero _ (by omega), Poly.res_eq_zero _ (by omega), mul_zero]

/-! ## Products -/

theorem res_eq_of_lt {a b : Poly} (h : ∀ p < N, a.res p = b.res p) : a.res = b.res := by
  funext p
  by_cases hp : p < N
  · exact h p hp
  · rw [a.res_eq_zero (by omega), b.res_eq_zero (by omega)]

theorem res_pointwise (a b : Poly) : (pointwise a b).res = a.res * b.res := by
  funext p
  rw [Pi.mul_apply]
  by_cases hp : p < N
  · rw [pointwise, Poly.res_build _ hp, cast_tmod, Int.cast_mul]
    rfl
  · rw [Poly.res_eq_zero _ (by omega), a.res_eq_zero (by omega), zero_mul]

/-- The transform depends on the first `N` entries only. -/
theorem fwd_congr {a b : ℕ → Zq} (h : ∀ t < N, a t = b t) {p : ℕ} (hp : p < N) :
    fwd a p = fwd b p := by
  have ha : fwd a p = _ := nttSteps_eq_sum roots_sq a hp
  have hb : fwd b p = _ := nttSteps_eq_sum roots_sq b hp
  rw [ha, hb]
  refine Finset.sum_congr rfl fun t ht => ?_
  rw [h t (Finset.mem_range.mp ht)]

/-- The product of two transforms is the transform of the product. -/
theorem res_mulChallenge (c s : Poly) {p : ℕ} (hp : p < N) :
    (mulChallenge (nttCopy c) (nttCopy s)).res p = ((negacyclic N c.coeff s.coeff p : ℤ) : Zq) := by
  have hprod : (pointwise (nttCopy c) (nttCopy s)).res =
      (nttForward (.build (negacyclic N c.coeff s.coeff))).res := by
    refine res_eq_of_lt fun p hp => ?_
    rw [res_pointwise, nttCopy, nttCopy, res_nttForward, res_nttForward, res_nttForward,
      Pi.mul_apply]
    refine (nttSteps_negacyclic roots_sq c.res s.res hp).symm.trans (fwd_congr (fun t ht => ?_) hp)
    rw [Poly.res_build _ ht]
    exact (map_negacyclic (Int.castRingHom Zq) N c.coeff s.coeff t).symm
  rw [mulChallenge, res_nttInverse, hprod, res_nttForward, inv_fwd, Poly.res_build _ hp]

/-- **The product of a challenge with a small polynomial** is congruent to a small integer. -/
theorem mulChallenge_small {c s : Poly} {tau : ℕ} {eta : ℤ} (hc : c.weight ≤ tau)
    (heta : 0 ≤ eta) (hs : ∀ i < N, |s.coeff i| ≤ eta) {p : ℕ} (hp : p < N) :
    ∃ n : ℤ, |n| ≤ tau * eta ∧ (mulChallenge (nttCopy c) (nttCopy s)).res p = n := by
  refine ⟨_, ?_, res_mulChallenge c s hp⟩
  calc |negacyclic N c.coeff s.coeff p| ≤ c.weight * eta := abs_negacyclic_le hs hp
    _ ≤ tau * eta := mul_le_mul_of_nonneg_right hc heta

end BhtBhte.Mldsa
