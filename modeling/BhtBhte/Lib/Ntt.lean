import Mathlib.Algebra.BigOperators.Intervals
import Mathlib.Algebra.BigOperators.Ring.Finset
import Mathlib.Algebra.Order.BigOperators.Group.Finset
import Mathlib.Algebra.Order.Ring.Abs
import Mathlib.Tactic.LinearCombination
import Mathlib.Tactic.Ring

/-!
# Negacyclic number-theoretic transforms

A layered transform of `2 ^ m` coefficients over a commutative ring.  A layer splits each block in
two: a polynomial modulo `X ^ (2 * len) - z ^ 2` becomes its remainders modulo `X ^ len - z` and `X
^ len + z`.  The blocks are the nodes of a binary tree, numbered from `1` at the root, and `z k` is
the root that node `k` is split with.  The transform evaluates at roots of `-1` (`nttSteps_eq_sum`),
so that it takes products modulo `X ^ n + 1` to products.

## Main definitions

* `nttStep`, `invNttStep` — a layer, and the one that undoes it.
* `nttSteps`, `invNttSteps` — the first `s` layers, and the last ones of the inverse.
* `nodeValue` — the value of `X ^ len` in a node.
* `negacyclic` — the product modulo `X ^ n + 1`.
-/
namespace BhtBhte.Lib
variable {R : Type} [CommRing R]

/-! ## Layers -/

/-- A layer on blocks of `2 * len` entries; the first of them is the node `k`. -/
def nttStep (z : ℕ → R) (k len : ℕ) (a : ℕ → R) (p : ℕ) : R :=
  if p % (2 * len) < len then a p + z (k + p / (2 * len)) * a (p + len)
  else a (p - len) - z (k + p / (2 * len)) * a p

/-- The layer that undoes `nttStep`, up to a factor two. -/
def invNttStep (zinv : ℕ → R) (k len : ℕ) (a : ℕ → R) (p : ℕ) : R :=
  if p % (2 * len) < len then a p + a (p + len)
  else zinv (k + p / (2 * len)) * (a (p - len) - a p)

/-- An entry is in the lower or the upper half of a block. -/
theorem exists_half {len : ℕ} (hlen : 0 < len) (p : ℕ) :
    ∃ b r, r < len ∧ (p = b * (2 * len) + r ∨ p = b * (2 * len) + r + len) := by
  have hdiv := Nat.div_add_mod p (2 * len)
  have hmod := Nat.mod_lt p (show 0 < 2 * len by omega)
  rw [Nat.mul_comm] at hdiv
  by_cases hhalf : p % (2 * len) < len
  · exact ⟨p / (2 * len), p % (2 * len), hhalf, .inl hdiv.symm⟩
  · exact ⟨p / (2 * len), p % (2 * len) - len, by omega, .inr (by omega)⟩

section Halves
variable {z zinv a : ℕ → R} {k len b r : ℕ}

theorem half_low (hr : r < len) :
    (b * (2 * len) + r) % (2 * len) = r ∧ (b * (2 * len) + r) / (2 * len) = b := by
  rw [Nat.mul_comm b, Nat.mul_add_mod, Nat.mul_add_div (by omega)]
  exact ⟨Nat.mod_eq_of_lt (by omega), by rw [Nat.div_eq_of_lt (by omega), Nat.add_zero]⟩

theorem half_high (hr : r < len) :
    (b * (2 * len) + r + len) % (2 * len) = r + len ∧
      (b * (2 * len) + r + len) / (2 * len) = b := by
  rw [Nat.add_assoc, Nat.mul_comm b, Nat.mul_add_mod, Nat.mul_add_div (by omega)]
  exact ⟨Nat.mod_eq_of_lt (by omega), by rw [Nat.div_eq_of_lt (by omega), Nat.add_zero]⟩

theorem nttStep_low (hr : r < len) :
    nttStep z k len a (b * (2 * len) + r) =
      a (b * (2 * len) + r) + z (k + b) * a (b * (2 * len) + r + len) := by
  rw [nttStep, (half_low hr).1, (half_low hr).2, if_pos hr]

theorem nttStep_high (hr : r < len) :
    nttStep z k len a (b * (2 * len) + r + len) =
      a (b * (2 * len) + r) - z (k + b) * a (b * (2 * len) + r + len) := by
  rw [nttStep, (half_high hr).1, (half_high hr).2, if_neg (by omega), Nat.add_sub_cancel]

theorem invNttStep_low (hr : r < len) :
    invNttStep zinv k len a (b * (2 * len) + r) =
      a (b * (2 * len) + r) + a (b * (2 * len) + r + len) := by
  rw [invNttStep, (half_low hr).1, if_pos hr]

theorem invNttStep_high (hr : r < len) :
    invNttStep zinv k len a (b * (2 * len) + r + len) =
      zinv (k + b) * (a (b * (2 * len) + r) - a (b * (2 * len) + r + len)) := by
  rw [invNttStep, (half_high hr).1, (half_high hr).2, if_neg (by omega), Nat.add_sub_cancel]

end Halves

section Layers
variable {z zinv : ℕ → R} {k len : ℕ}

/-- A layer and then its inverse. -/
theorem invNttStep_nttStep (hz : ∀ i, z i * zinv i = 1) (hlen : 0 < len) (a : ℕ → R) :
    invNttStep zinv k len (nttStep z k len a) = fun p => 2 * a p := by
  ext p
  obtain ⟨b, r, hr, rfl | rfl⟩ := exists_half hlen p
  · rw [invNttStep_low hr, nttStep_low hr, nttStep_high hr]
    ring
  · rw [invNttStep_high hr, nttStep_low hr, nttStep_high hr]
    linear_combination 2 * a (b * (2 * len) + r + len) * hz (k + b)

/-- The inverse of a layer and then the layer. -/
theorem nttStep_invNttStep (hz : ∀ i, z i * zinv i = 1) (hlen : 0 < len) (a : ℕ → R) :
    nttStep z k len (invNttStep zinv k len a) = fun p => 2 * a p := by
  ext p
  obtain ⟨b, r, hr, rfl | rfl⟩ := exists_half hlen p
  · rw [nttStep_low hr, invNttStep_low hr, invNttStep_high hr]
    linear_combination (a (b * (2 * len) + r) - a (b * (2 * len) + r + len)) * hz (k + b)
  · rw [nttStep_high hr, invNttStep_low hr, invNttStep_high hr]
    linear_combination
      (-(a (b * (2 * len) + r) - a (b * (2 * len) + r + len))) * hz (k + b)

theorem nttStep_linear (x y : R) (a b : ℕ → R) :
    nttStep z k len (fun p => x * a p + y * b p) =
      fun p => x * nttStep z k len a p + y * nttStep z k len b p := by
  ext p
  simp only [nttStep]
  split_ifs <;> ring

theorem invNttStep_linear (x y : R) (a b : ℕ → R) :
    invNttStep zinv k len (fun p => x * a p + y * b p) =
      fun p => x * invNttStep zinv k len a p + y * invNttStep zinv k len b p := by
  ext p
  simp only [invNttStep]
  split_ifs <;> ring

end Layers

/-! ## Transforms -/

/-- The first `s` layers of a transform of `2 ^ m` entries. -/
def nttSteps (z : ℕ → R) (m : ℕ) : ℕ → (ℕ → R) → ℕ → R
  | 0, a => a
  | s + 1, a => nttStep z (2 ^ s) (2 ^ (m - 1 - s)) (nttSteps z m s a)

/-- The inverses of the first `s` layers, the last of them first. -/
def invNttSteps (zinv : ℕ → R) (m : ℕ) : ℕ → (ℕ → R) → ℕ → R
  | 0, a => a
  | s + 1, a => invNttSteps zinv m s (invNttStep zinv (2 ^ s) (2 ^ (m - 1 - s)) a)

section Transforms
variable {z zinv : ℕ → R} {m : ℕ}

theorem nttSteps_linear (x y : R) (a b : ℕ → R) (s : ℕ) :
    nttSteps z m s (fun p => x * a p + y * b p) =
      fun p => x * nttSteps z m s a p + y * nttSteps z m s b p := by
  induction s with
  | zero => rfl
  | succ s ih => rw [nttSteps, ih, nttStep_linear, nttSteps, nttSteps]

theorem invNttSteps_linear (x y : R) (a b : ℕ → R) (s : ℕ) :
    invNttSteps zinv m s (fun p => x * a p + y * b p) =
      fun p => x * invNttSteps zinv m s a p + y * invNttSteps zinv m s b p := by
  induction s generalizing a b with
  | zero => rfl
  | succ s ih => rw [invNttSteps, invNttStep_linear, ih, invNttSteps, invNttSteps]

/-- A linear map takes multiples to multiples. -/
theorem linear_mul {f : (ℕ → R) → ℕ → R}
    (hf : ∀ (x y : R) (a b : ℕ → R),
      f (fun p => x * a p + y * b p) = fun p => x * f a p + y * f b p) (x : R) (a : ℕ → R) :
    f (fun p => x * a p) = fun p => x * f a p := by
  have h := hf x 0 a a
  simpa using h

/-- The inverse and then the transform. -/
theorem nttSteps_invNttSteps (hz : ∀ i, z i * zinv i = 1) (a : ℕ → R) (s : ℕ) :
    nttSteps z m s (invNttSteps zinv m s a) = fun p => 2 ^ s * a p := by
  induction s generalizing a with
  | zero => simp [nttSteps, invNttSteps]
  | succ s ih =>
      rw [nttSteps, invNttSteps, ih, linear_mul nttStep_linear,
        nttStep_invNttStep hz (Nat.two_pow_pos _)]
      ext p
      ring

/-- The transform and then the inverse. -/
theorem invNttSteps_nttSteps (hz : ∀ i, z i * zinv i = 1) (a : ℕ → R) (s : ℕ) :
    invNttSteps zinv m s (nttSteps z m s a) = fun p => 2 ^ s * a p := by
  induction s with
  | zero => simp [nttSteps, invNttSteps]
  | succ s ih =>
      rw [nttSteps, invNttSteps, invNttStep_nttStep hz (Nat.two_pow_pos _),
        linear_mul fun x y a b => invNttSteps_linear x y a b s, ih]
      ext p
      ring

end Transforms

/-! ## Evaluation -/

/-- The value of `X ^ len` in a node: `-1` at the root, and the root that the parent was split
with, or its negative. -/
def nodeValue (z : ℕ → R) (k : ℕ) : R :=
  if k = 1 then -1 else if k % 2 = 0 then z (k / 2) else -z (k / 2)

theorem nodeValue_left (z : ℕ → R) (k : ℕ) : nodeValue z (2 * k) = z k := by
  rw [nodeValue, if_neg (by omega), if_pos (by omega), Nat.mul_div_cancel_left k (by decide)]

theorem nodeValue_right (z : ℕ → R) {k : ℕ} (hk : 0 < k) : nodeValue z (2 * k + 1) = -z k := by
  rw [nodeValue, if_neg (by omega), if_neg (by omega), show (2 * k + 1) / 2 = k by omega]

theorem sum_range_two_mul (f : ℕ → R) (n : ℕ) :
    ∑ t ∈ Finset.range (2 * n), f t = ∑ t ∈ Finset.range n, (f (2 * t) + f (2 * t + 1)) := by
  induction n with
  | zero => rfl
  | succ n ih =>
      rw [Nat.mul_succ, Finset.sum_range_succ, Finset.sum_range_succ, ih, Finset.sum_range_succ]
      ring

section Evaluation
variable {z : ℕ → R} {m : ℕ}

/-- The value of a node at depth `s` is a root of `-1`. -/
theorem nodeValue_pow (hz : ∀ k, 0 < k → k < 2 ^ m → z k ^ 2 = nodeValue z k) {s b : ℕ} (hs : s ≤ m)
    (hb : b < 2 ^ s) : nodeValue z (2 ^ s + b) ^ 2 ^ s = -1 := by
  induction s generalizing b with
  | zero =>
      obtain rfl : b = 0 := by omega
      simp [nodeValue]
  | succ s ih =>
      have hpow : 2 ^ s < 2 ^ m := Nat.pow_lt_pow_right (by decide) hs
      rw [Nat.pow_succ] at hb
      have hpos := Nat.two_pow_pos s
      have hdouble : 2 ^ (s + 1) ≤ 2 ^ m := Nat.pow_le_pow_right (by decide) hs
      rw [Nat.pow_succ] at hdouble
      have hparent := ih (b := b / 2) (by omega) (by omega)
      have hsquare : nodeValue z (2 ^ (s + 1) + b) ^ 2 = nodeValue z (2 ^ s + b / 2) := by
        rw [← hz (2 ^ s + b / 2) (by omega) (by omega)]
        rcases Nat.mod_two_eq_zero_or_one b with hpar | hpar
        · rw [show 2 ^ (s + 1) + b = 2 * (2 ^ s + b / 2) by rw [Nat.pow_succ]; omega,
            nodeValue_left]
        · rw [show 2 ^ (s + 1) + b = 2 * (2 ^ s + b / 2) + 1 by rw [Nat.pow_succ]; omega,
            nodeValue_right z (by omega), neg_sq]
      calc nodeValue z (2 ^ (s + 1) + b) ^ 2 ^ (s + 1)
          = (nodeValue z (2 ^ (s + 1) + b) ^ 2) ^ 2 ^ s := by rw [← pow_mul, ← pow_succ']
        _ = -1 := by rw [hsquare, hparent]

/-- The first `s` layers: the remainders in the nodes at depth `s`. -/
theorem nttSteps_eq_remainder (hz : ∀ k, 0 < k → k < 2 ^ m → z k ^ 2 = nodeValue z k) (a : ℕ → R)
    {s : ℕ} (hs : s ≤ m) {b r : ℕ} (hb : b < 2 ^ s) (hr : r < 2 ^ (m - s)) :
    nttSteps z m s a (b * 2 ^ (m - s) + r) =
      ∑ t ∈ Finset.range (2 ^ s), a (r + t * 2 ^ (m - s)) * nodeValue z (2 ^ s + b) ^ t := by
  induction s generalizing b r with
  | zero =>
      obtain rfl : b = 0 := by omega
      simp [nttSteps]
  | succ s ih =>
      have hlen : 2 ^ (m - s) = 2 * 2 ^ (m - 1 - s) := by
        rw [show m - s = m - 1 - s + 1 by omega, Nat.pow_succ]
        omega
      rw [show m - (s + 1) = m - 1 - s by omega] at hr ⊢
      rw [hlen] at ih
      rw [Nat.pow_succ] at hb
      have hpos := Nat.two_pow_pos s
      have hpow : 2 ^ (s + 1) ≤ 2 ^ m := Nat.pow_le_pow_right (by decide) hs
      rw [Nat.pow_succ] at hpow
      have hsquare := hz (2 ^ s + b / 2) (by omega) (by omega)
      have hlow := ih (b := b / 2) (r := r) (by omega) (by omega) (by omega)
      have hhigh := ih (b := b / 2) (r := r + 2 ^ (m - 1 - s)) (by omega) (by omega) (by omega)
      rw [← Nat.add_assoc] at hhigh
      rw [← hsquare] at hlow hhigh
      rw [nttSteps, Nat.pow_succ, Nat.mul_comm (2 ^ s) 2, sum_range_two_mul]
      -- the even terms are the remainder in the lower half, the odd ones that in the upper half
      rcases Nat.mod_two_eq_zero_or_one b with hpar | hpar
      · have hnode : 2 * 2 ^ s + b = 2 * (2 ^ s + b / 2) := by omega
        have hentry : b * 2 ^ (m - 1 - s) + r = b / 2 * (2 * 2 ^ (m - 1 - s)) + r := by
          rw [← Nat.mul_assoc, show b / 2 * 2 = b by omega]
        rw [hnode, nodeValue_left, hentry, nttStep_low hr, hlow, hhigh, Finset.mul_sum,
          ← Finset.sum_add_distrib]
        refine Finset.sum_congr rfl fun t _ => ?_
        rw [show r + t * (2 * 2 ^ (m - 1 - s)) = r + 2 * t * 2 ^ (m - 1 - s) by ring,
          show r + 2 ^ (m - 1 - s) + t * (2 * 2 ^ (m - 1 - s)) =
            r + (2 * t + 1) * 2 ^ (m - 1 - s) by ring]
        ring
      · have hnode : 2 * 2 ^ s + b = 2 * (2 ^ s + b / 2) + 1 := by omega
        have hentry : b * 2 ^ (m - 1 - s) + r =
            b / 2 * (2 * 2 ^ (m - 1 - s)) + r + 2 ^ (m - 1 - s) := by
          have hb2 : b = b / 2 * 2 + 1 := by omega
          rw [← Nat.mul_assoc]
          conv_lhs => rw [hb2, Nat.succ_mul]
          omega
        rw [hnode, nodeValue_right z (by omega), hentry, nttStep_high hr, hlow, hhigh,
          Finset.mul_sum, ← Finset.sum_sub_distrib]
        refine Finset.sum_congr rfl fun t _ => ?_
        rw [show r + t * (2 * 2 ^ (m - 1 - s)) = r + 2 * t * 2 ^ (m - 1 - s) by ring,
          show r + 2 ^ (m - 1 - s) + t * (2 * 2 ^ (m - 1 - s)) =
            r + (2 * t + 1) * 2 ^ (m - 1 - s) by ring, pow_succ (-_), pow_mul (-_), neg_sq]
        ring

/-- **The transform evaluates** at the leaves of the tree. -/
theorem nttSteps_eq_sum (hz : ∀ k, 0 < k → k < 2 ^ m → z k ^ 2 = nodeValue z k) (a : ℕ → R) {p : ℕ}
    (hp : p < 2 ^ m) :
    nttSteps z m m a p = ∑ t ∈ Finset.range (2 ^ m), a t * nodeValue z (2 ^ m + p) ^ t := by
  have h := nttSteps_eq_remainder hz a (Nat.le_refl m) hp (r := 0) (by simp)
  simpa using h

end Evaluation

/-! ## Products -/

/-- The entry `i` of `X ^ j * a` modulo `X ^ n + 1`, for `j` up to `n`. -/
def shifted (n j : ℕ) (a : ℕ → R) (i : ℕ) : R := if j ≤ i then a (i - j) else -a (n + i - j)

/-- The product modulo `X ^ n + 1`. -/
def negacyclic (n : ℕ) (a b : ℕ → R) (i : ℕ) : R :=
  ∑ j ∈ Finset.range n, a j * shifted n j b i

/-- A shift multiplies the value at a root of `-1`. -/
theorem sum_shifted {n j : ℕ} (hj : j ≤ n) (a : ℕ → R) {x : R} (hx : x ^ n = -1) :
    ∑ i ∈ Finset.range n, shifted n j a i * x ^ i = x ^ j * ∑ t ∈ Finset.range n, a t * x ^ t := by
  obtain ⟨d, rfl⟩ := Nat.exists_eq_add_of_le hj
  have hfront : ∑ i ∈ Finset.range j, shifted (j + d) j a i * x ^ i =
      x ^ j * ∑ i ∈ Finset.range j, a (d + i) * x ^ (d + i) := by
    rw [Finset.mul_sum]
    refine Finset.sum_congr rfl fun i hi => ?_
    rw [Finset.mem_range] at hi
    rw [shifted, if_neg (by omega), show j + d + i - j = d + i by omega]
    linear_combination (-(a (d + i) * x ^ i)) * hx
  have hback : ∑ i ∈ Finset.range d, shifted (j + d) j a (j + i) * x ^ (j + i) =
      x ^ j * ∑ i ∈ Finset.range d, a i * x ^ i := by
    rw [Finset.mul_sum]
    refine Finset.sum_congr rfl fun i _ => ?_
    rw [shifted, if_pos (by omega), Nat.add_sub_cancel_left]
    ring
  rw [Finset.sum_range_add, hfront, hback, Nat.add_comm j d, Finset.sum_range_add]
  ring

/-- The value of a product is the product of the values. -/
theorem sum_negacyclic (n : ℕ) (a b : ℕ → R) {x : R} (hx : x ^ n = -1) :
    ∑ i ∈ Finset.range n, negacyclic n a b i * x ^ i =
      (∑ t ∈ Finset.range n, a t * x ^ t) * ∑ t ∈ Finset.range n, b t * x ^ t := by
  have hswap : ∑ i ∈ Finset.range n, negacyclic n a b i * x ^ i =
      ∑ j ∈ Finset.range n, a j * ∑ i ∈ Finset.range n, shifted n j b i * x ^ i := by
    simp only [negacyclic, Finset.sum_mul, Finset.mul_sum]
    rw [Finset.sum_comm]
    refine Finset.sum_congr rfl fun j _ => Finset.sum_congr rfl fun i _ => ?_
    ring
  rw [hswap, Finset.sum_mul]
  refine Finset.sum_congr rfl fun j hj => ?_
  rw [sum_shifted (Finset.mem_range.mp hj).le b hx]
  ring

/-- **The transform of a product** is the product of the transforms. -/
theorem nttSteps_negacyclic {z : ℕ → R} {m : ℕ}
    (hz : ∀ k, 0 < k → k < 2 ^ m → z k ^ 2 = nodeValue z k) (a b : ℕ → R) {p : ℕ} (hp : p < 2 ^ m) :
    nttSteps z m m (negacyclic (2 ^ m) a b) p = nttSteps z m m a p * nttSteps z m m b p := by
  rw [nttSteps_eq_sum hz _ hp, nttSteps_eq_sum hz _ hp, nttSteps_eq_sum hz _ hp,
    sum_negacyclic _ _ _ (nodeValue_pow hz (Nat.le_refl m) hp)]

/-- **Products of small polynomials are small.** -/
theorem abs_negacyclic_le {n : ℕ} {a b : ℕ → ℤ} {bound : ℤ} (hb : ∀ i < n, |b i| ≤ bound) {i : ℕ}
    (hi : i < n) : |negacyclic n a b i| ≤ (∑ j ∈ Finset.range n, |a j|) * bound := by
  have hterm : ∀ j ∈ Finset.range n, |a j * shifted n j b i| ≤ |a j| * bound := by
    intro j hj
    rw [Finset.mem_range] at hj
    rw [abs_mul]
    refine mul_le_mul_of_nonneg_left ?_ (abs_nonneg _)
    rw [shifted]
    split_ifs with h
    · exact hb _ (by omega)
    · rw [abs_neg]
      exact hb _ (by omega)
  calc |negacyclic n a b i| ≤ ∑ j ∈ Finset.range n, |a j * shifted n j b i| :=
        Finset.abs_sum_le_sum_abs _ _
    _ ≤ ∑ j ∈ Finset.range n, |a j| * bound := Finset.sum_le_sum hterm
    _ = (∑ j ∈ Finset.range n, |a j|) * bound := (Finset.sum_mul _ _ _).symm

/-- Products are computed over any ring in the same way. -/
theorem map_negacyclic {S : Type} [CommRing S] (f : R →+* S) (n : ℕ) (a b : ℕ → R) (i : ℕ) :
    f (negacyclic n a b i) = negacyclic n (fun j => f (a j)) (fun j => f (b j)) i := by
  simp only [negacyclic, map_sum, map_mul]
  refine Finset.sum_congr rfl fun j _ => ?_
  rw [shifted, shifted]
  split_ifs
  · rfl
  · rw [map_neg]

end BhtBhte.Lib
