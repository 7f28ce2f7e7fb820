import BhtBhte.Mldsa.Signing
import BhtBhte.Mldsa.Transform

/-!
# Signatures verify

The verifier computes `A z - c t1 2^13` in the transformed domain, which is `w - c s2 + c t0`.  The
hints take the high bits of this to those of `w - c s2`, and the bounds that the signer checked make
these the high bits of `w`; so the verifier hashes the same commitment.  So every signature that is
returned verifies (`verify_sign`).
-/
namespace BhtBhte.Mldsa
open BhtBhte.Lib

/-! ## Residues of vectors -/

theorem cast_centered (x : ℤ) : ((centered x : ℤ) : Zq) = x := by
  rw [centered]
  split_ifs
  · rw [Int.cast_sub, cast_Q, sub_zero]
  · rfl

theorem res_zero : Poly.zero.res = 0 := by
  funext p
  rw [Poly.res, Poly.coeff_zero, Int.cast_zero]
  rfl

/-- A polynomial given by its coefficients modulo `Q`. -/
theorem res_build_eq {f : ℕ → ℤ} {g : ℕ → Zq} (hf : ∀ p < N, ((f p : ℤ) : Zq) = g p)
    (hg : ∀ p, N ≤ p → g p = 0) : (Poly.build f).res = g := by
  funext p
  by_cases hp : p < N
  · rw [Poly.res_build _ hp, hf p hp]
  · rw [Poly.res_eq_zero _ (by omega), hg p (by omega)]

theorem res_polyAddInto (a b : Poly) : (polyAddInto a b).res = a.res + b.res := by
  refine res_build_eq (fun p hp => ?_) fun p hp => ?_
  · rw [cast_modQ, Int.cast_add]
    rfl
  · rw [Pi.add_apply, a.res_eq_zero hp, b.res_eq_zero hp, add_zero]

theorem res_mulRow (row v : List Poly) (l : ℕ) :
    (mulRow row v l).res =
      ∑ j ∈ Finset.range l, (row.getD j .zero).res * (v.getD j .zero).res := by
  induction l with
  | zero => exact res_zero
  | succ l ih =>
      rw [mulRow, List.range_succ, List.foldl_append, List.foldl_cons, List.foldl_nil,
        res_polyAddInto, res_pointwise, Finset.sum_range_succ, ← ih]
      rfl

theorem getD_map_range {n i : ℕ} (hi : i < n) (f : ℕ → Poly) :
    ((List.range n).map f).getD i .zero = f i := by
  rw [List.getD_eq_getElem _ _ (by simpa using hi), List.getElem_map, List.getElem_range]

theorem getD_mem {v : List Poly} {i : ℕ} (hi : i < v.length) : v.getD i .zero ∈ v := by
  rw [List.getD_eq_getElem _ _ hi]
  exact List.getElem_mem hi

theorem getD_map_nttCopy (v : List Poly) (i : ℕ) :
    (v.map nttCopy).getD i .zero = nttCopy (v.getD i .zero) := by
  by_cases hi : i < v.length
  · rw [List.getD_eq_getElem _ _ (by simpa using hi), List.getElem_map, List.getD_eq_getElem _ _ hi]
  · rw [List.getD_eq_default _ _ (by simpa using hi), List.getD_eq_default _ _ (by omega),
      nttCopy_zero]

/-! ## The verifier's commitment -/

section Recomputed
variable [Xof] {m : ParameterSet} {sk : SecretKey} {message rnd : Bytes} {a : List (List Poly)}
  {kappa : ℕ} (t : Attempt m.info (signState m sk message rnd a) kappa)

/-- The transform of the response. -/
theorem fwd_response {j : ℕ} (hj : j < m.info.l) :
    fwd (t.z.getD j .zero).res =
      fwd (t.y.getD j .zero).res + fwd t.c.res * fwd (sk.s1.getD j .zero).res := by
  have hs1 : (signState m sk message rnd a).s1hat.getD j .zero = nttCopy (sk.s1.getD j .zero) :=
    getD_map_range hj _
  have hz : (t.z.getD j .zero).res =
      (t.y.getD j .zero).res + inv (fwd t.c.res * fwd (sk.s1.getD j .zero).res) := by
    rw [t.z_eq, response, getD_map_range hj, hs1, ← res_nttForward, ← res_nttForward,
      ← res_pointwise, ← res_nttInverse]
    refine res_build_eq (fun p hp => ?_) fun p hp => ?_
    · rw [cast_centered, cast_modQ, Int.cast_add]
      rfl
    · rw [Pi.add_apply, Poly.res_eq_zero _ hp, Poly.res_eq_zero _ hp, add_zero]
  rw [hz, map_add, fwd_inv]

theorem res_w {i : ℕ} (hi : i < m.info.k) :
    (t.w.getD i .zero).res = inv (∑ j ∈ Finset.range m.info.l,
      ((a.getD i []).getD j .zero).res * fwd (t.y.getD j .zero).res) := by
  rw [t.w_eq, commitment, getD_map_range hi, res_nttInverse, res_mulRow]
  congr 1
  refine Finset.sum_congr rfl fun j _ => ?_
  rw [getD_map_nttCopy, nttCopy, res_nttForward]
  rfl

omit [Xof] in
theorem res_mulChallenge_eq (c s : Poly) :
    (mulChallenge (nttCopy c) (nttCopy s)).res = inv (fwd c.res * fwd s.res) := by
  rw [mulChallenge, res_nttInverse, res_pointwise, nttCopy, nttCopy, res_nttForward,
    res_nttForward]

/-- The part of the public vector that the public key keeps. -/
def keptPart (t1 : Poly) : Poly := .build fun cc => modQ (t1.coeff cc <<< D)

omit [Xof] in
/-- The public vector without its low-order part, transformed. -/
theorem fwd_keptPart {pk : PublicKey}
    (ht1 : pk.t1 = (publicVector m.info a sk.s1 sk.s2).map
      (fun acc => .build fun c => (power2Round (acc.coeff c)).1))
    (ht0 : sk.t0 = (publicVector m.info a sk.s1 sk.s2).map
      (fun acc => .build fun c => (power2Round (acc.coeff c)).2)) {i : ℕ} (hi : i < m.info.k) :
    fwd (keptPart (pk.t1.getD i .zero)).res =
      (∑ j ∈ Finset.range m.info.l,
        ((a.getD i []).getD j .zero).res * fwd (sk.s1.getD j .zero).res) +
      fwd (sk.s2.getD i .zero).res - fwd (sk.t0.getD i .zero).res := by
  have hvec : ∀ f : Poly → Poly, ((publicVector m.info a sk.s1 sk.s2).map f).getD i .zero =
      f (polyAddInto (nttInverse (mulRow (a.getD i []) (sk.s1.map nttCopy) m.info.l))
        (sk.s2.getD i .zero)) := by
    intro f
    rw [publicVector, List.map_map, getD_map_range hi]
    rfl
  rw [ht1, ht0, hvec, hvec]
  generalize hacc : polyAddInto (nttInverse (mulRow (a.getD i []) (sk.s1.map nttCopy) m.info.l))
        (sk.s2.getD i .zero) = acc
  have hres : acc.res = inv (∑ j ∈ Finset.range m.info.l,
      ((a.getD i []).getD j .zero).res * fwd (sk.s1.getD j .zero).res) +
      (sk.s2.getD i .zero).res := by
    rw [← hacc, res_polyAddInto, res_nttInverse, res_mulRow]
    congr 2
    refine Finset.sum_congr rfl fun j _ => ?_
    rw [getD_map_nttCopy, nttCopy, res_nttForward]
  have hkept : (keptPart (.build fun c => (power2Round (acc.coeff c)).1)).res =
      acc.res - (Poly.build fun c => (power2Round (acc.coeff c)).2).res := by
    refine res_build_eq (fun p hp => ?_) fun p hp => ?_
    · have hround := (power2Round_spec (acc.coeff p)).1
      have hcast := congrArg (fun x : ℤ => (x : Zq)) hround
      simp only [Int.cast_add, cast_modQ] at hcast
      rw [cast_modQ, Poly.coeff_build _ hp, Int.shiftLeft_eq, Pi.sub_apply, Poly.res,
        Poly.res_build _ hp, ← hcast, add_sub_cancel_right]
    · rw [Pi.sub_apply, Poly.res_eq_zero _ hp, Poly.res_eq_zero _ hp, sub_zero]
  rw [hkept, map_sub, hres, map_add, fwd_inv]

/-- **What the verifier computes** is `w - c s2 + c t0`. -/
theorem res_recomputed {pk : PublicKey}
    (ht1 : pk.t1 = (publicVector m.info a sk.s1 sk.s2).map
      (fun acc => .build fun c => (power2Round (acc.coeff c)).1))
    (ht0 : sk.t0 = (publicVector m.info a sk.s1 sk.s2).map
      (fun acc => .build fun c => (power2Round (acc.coeff c)).2)) {i : ℕ} (hi : i < m.info.k) :
    (nttInverse (.build fun cc => modQ
      ((mulRow (a.getD i []) (t.z.map nttCopy) m.info.l).coeff cc -
        (pointwise (nttCopy t.c) (nttCopy (keptPart (pk.t1.getD i .zero)))).coeff cc))).res =
      (t.w.getD i .zero).res - (mulChallenge (nttCopy t.c) (nttCopy (sk.s2.getD i .zero))).res +
        (mulChallenge (nttCopy t.c) (nttCopy (sk.t0.getD i .zero))).res := by
  have hdiff : (Poly.build fun cc => modQ
      ((mulRow (a.getD i []) (t.z.map nttCopy) m.info.l).coeff cc -
        (pointwise (nttCopy t.c) (nttCopy (keptPart (pk.t1.getD i .zero)))).coeff cc)).res =
      (∑ j ∈ Finset.range m.info.l,
        ((a.getD i []).getD j .zero).res * fwd (t.z.getD j .zero).res) -
      fwd t.c.res * fwd (keptPart (pk.t1.getD i .zero)).res := by
    have hrow : (mulRow (a.getD i []) (t.z.map nttCopy) m.info.l).res =
        ∑ j ∈ Finset.range m.info.l,
          ((a.getD i []).getD j .zero).res * fwd (t.z.getD j .zero).res := by
      rw [res_mulRow]
      refine Finset.sum_congr rfl fun j _ => ?_
      rw [getD_map_nttCopy, nttCopy, res_nttForward]
    rw [← hrow, ← res_nttForward, ← res_nttForward, ← res_pointwise]
    refine res_build_eq (fun p hp => ?_) fun p hp => ?_
    · rw [cast_modQ, Int.cast_sub]
      rfl
    · rw [Pi.sub_apply, Poly.res_eq_zero _ hp, Poly.res_eq_zero _ hp, sub_zero]
  have hsplit : (∑ j ∈ Finset.range m.info.l,
        ((a.getD i []).getD j .zero).res * fwd (t.z.getD j .zero).res) =
      (∑ j ∈ Finset.range m.info.l,
        ((a.getD i []).getD j .zero).res * fwd (t.y.getD j .zero).res) +
      fwd t.c.res * ∑ j ∈ Finset.range m.info.l,
        ((a.getD i []).getD j .zero).res * fwd (sk.s1.getD j .zero).res := by
    rw [Finset.mul_sum, ← Finset.sum_add_distrib]
    refine Finset.sum_congr rfl fun j hj => ?_
    rw [fwd_response t (Finset.mem_range.mp hj)]
    ring
  rw [res_nttInverse, hdiff, hsplit, fwd_keptPart ht1 ht0 hi, res_w t hi, res_mulChallenge_eq,
    res_mulChallenge_eq, ← map_sub, ← map_add]
  congr 1
  ring

end Recomputed

/-! ## High bits -/

theorem modQ_eq_modQ {x y : ℤ} (h : (x : Zq) = y) : modQ x = modQ y := by
  rw [cast_eq_cast] at h
  rw [modQ_eq, modQ_eq]
  simp only [Q] at *
  omega

/-- Rounding looks at residues only. -/
theorem decompose_congr {x y : ℤ} (h : (x : Zq) = y) (gamma2 : ℤ) :
    decompose x gamma2 = decompose y gamma2 := by
  rw [decompose, decompose, modQ_eq_modQ h]

theorem useHint_congr {x y : ℤ} (h : (x : Zq) = y) (hint gamma2 : ℤ) :
    useHint hint x gamma2 = useHint hint y gamma2 := by
  rw [useHint, useHint, decompose_congr h]

theorem highBits_congr {x y : ℤ} (h : (x : Zq) = y) (gamma2 : ℤ) :
    highBits x gamma2 = highBits y gamma2 := by
  rw [highBits, highBits, decompose_congr h]

theorem lowBits_congr {x y : ℤ} (h : (x : Zq) = y) (gamma2 : ℤ) :
    lowBits x gamma2 = lowBits y gamma2 := by
  rw [lowBits, lowBits, decompose_congr h]

/-- The hint and the bounds of the signer give back the high bits of the commitment. -/
theorem useHint_recomputed {gamma2 beta : ℤ} (hgamma : IsGamma2 gamma2) (hbeta : beta < gamma2)
    {x w cs2 ct0 wcs2 n : ℤ} (hx : (x : Zq) = (w : Zq) - cs2 + ct0)
    (hwcs2 : (wcs2 : Zq) = (w : Zq) - cs2) (hcs2 : (cs2 : Zq) = n) (hn : |n| ≤ beta)
    (hlow : |lowBits wcs2 gamma2| < gamma2 - beta) (hct0 : |centered (modQ ct0)| < gamma2) :
    useHint (if highBits (modQ (wcs2 + ct0)) gamma2 ≠ highBits wcs2 gamma2 then 1 else 0) x gamma2 =
      highBits w gamma2 := by
  rw [abs_lt] at hlow hct0
  rw [abs_le] at hn
  have hsum : ((modQ (wcs2 + ct0) : ℤ) : Zq) = x := by
    rw [cast_modQ, Int.cast_add, hwcs2, hx]
  have hback : ((modQ (wcs2 + ct0) - centered (modQ ct0) : ℤ) : Zq) = wcs2 := by
    rw [Int.cast_sub, cast_modQ, cast_centered, cast_modQ, Int.cast_add, add_sub_cancel_right]
  have hsub : ((w - n : ℤ) : Zq) = wcs2 := by rw [Int.cast_sub, ← hcs2, hwcs2]
  have hhint := useHint_eq hgamma (r := modQ (wcs2 + ct0)) (c := centered (modQ ct0))
    ⟨by omega, by omega⟩
  rw [highBits_congr hback] at hhint
  rw [← useHint_congr hsum, hhint, ← highBits_congr hsub]
  refine highBits_sub hgamma hbeta ⟨by omega, by omega⟩ ?_
  rw [lowBits_congr hsub]
  exact ⟨by omega, by omega⟩

theorem beta_eq (m : ParameterSet) : m.info.beta = m.info.tau * m.info.eta := by
  cases m <;> rfl

theorem tau_le (m : ParameterSet) : m.info.tau ≤ N := by
  cases m <;> decide

theorem beta_lt (m : ParameterSet) : m.info.beta < m.info.gamma2 := by
  cases m <;> decide

section Verified
variable [Xof] {m : ParameterSet} {sk : SecretKey} {message rnd : Bytes} {a : List (List Poly)}
  {kappa : ℕ} (t : Attempt m.info (signState m sk message rnd a) kappa)

/-- The coefficients of an accepted response. -/
theorem response_bounds {p : Poly} (hp : p ∈ t.z) {i : ℕ} (hi : i < N) :
    |p.coeff i| < m.info.gamma1 - m.info.beta := by
  have hbound : 0 < m.info.gamma1 - m.info.beta := by cases m <;> decide
  have hsmall := (polyVecInfNorm_lt_iff hbound).mp t.z_small p hp i hi
  -- a response holds centred coefficients already
  rw [t.z_eq] at hp
  obtain ⟨j, -, rfl⟩ := List.mem_map.mp hp
  dsimp only at hsmall ⊢
  rw [Poly.coeff_build _ hi] at hsmall ⊢
  generalize (t.y.getD j .zero).coeff i + (mulChallenge (nttCopy t.c)
    ((signState m sk message rnd a).s1hat.getD j .zero)).coeff i = x at *
  have hcentered := centered_modQ_bounds x
  rwa [centered_modQ_eq (c := centered (modQ x)) (by simp) hcentered.1 hcentered.2] at hsmall

/-- A row of the verifier's commitment. -/
theorem recomputeRow_eq {pk : PublicKey}
    (hs2 : ∀ p ∈ sk.s2, ∀ i, -(m.info.eta : ℤ) ≤ p.coeff i ∧ p.coeff i ≤ m.info.eta)
    (hlen : sk.s2.length = m.info.k)
    (ht1 : pk.t1 = (publicVector m.info a sk.s1 sk.s2).map
      (fun acc => .build fun c => (power2Round (acc.coeff c)).1))
    (ht0 : sk.t0 = (publicVector m.info a sk.s1 sk.s2).map
      (fun acc => .build fun c => (power2Round (acc.coeff c)).2)) {i : ℕ} (hi : i < m.info.k) :
    recomputeRow m.info (a.getD i []) (t.z.map nttCopy) (nttCopy t.c)
        (nttCopy (keptPart (pk.t1.getD i .zero)))
        ((makeHints m.info t.wcs2 t.ct0).getD i .zero) =
      .build fun c => highBits ((t.w.getD i .zero).coeff c) m.info.gamma2 := by
  have hs2hat : (signState m sk message rnd a).s2hat.getD i .zero = nttCopy (sk.s2.getD i .zero) :=
    getD_map_range hi _
  have ht0hat : (signState m sk message rnd a).t0hat.getD i .zero = nttCopy (sk.t0.getD i .zero) :=
    getD_map_range hi _
  have hwcs2 : t.wcs2.getD i .zero = .build fun cc => modQ ((t.w.getD i .zero).coeff cc -
      (mulChallenge (nttCopy t.c) (nttCopy (sk.s2.getD i .zero))).coeff cc) := by
    rw [t.wcs2_eq, lowered, getD_map_range hi, hs2hat]
  have hct0 : t.ct0.getD i .zero = mulChallenge (nttCopy t.c) (nttCopy (sk.t0.getD i .zero)) := by
    rw [t.ct0_eq, getD_map_range hi, ht0hat]
  have hwmem : t.wcs2.getD i .zero ∈ t.wcs2 := getD_mem (by
    rw [t.wcs2_eq, lowered, List.length_map, List.length_range]
    exact hi)
  have hct0mem : t.ct0.getD i .zero ∈ t.ct0 := getD_mem (by
    rw [t.ct0_eq, List.length_map, List.length_range]
    exact hi)
  have hbeta := beta_lt m
  have hnonneg : 0 ≤ m.info.beta := by cases m <;> decide
  have hlow := (lowNorm_lt_iff (by omega)).mp t.wcs2_small _ hwmem
  have hsmall := (centeredNorm_lt_iff (by omega)).mp t.ct0_small _ hct0mem
  have hrec := res_recomputed t ht1 ht0 hi
  have hweight := sampleInBall_weight (tau_le m) t.c_eq
  have hs2' : ∀ j < N, |(sk.s2.getD i .zero).coeff j| ≤ (m.info.eta : ℤ) := by
    intro j _
    exact abs_le.mpr (hs2 _ (getD_mem (by rw [hlen]; exact hi)) j)
  rw [recomputeRow, makeHints, getD_map_range hi]
  refine Poly.ext_coeff fun c hc => ?_
  obtain ⟨n, hn, hcs2⟩ := mulChallenge_small hweight (Int.natCast_nonneg _) hs2' hc
  rw [← beta_eq] at hn
  have hx := congrFun hrec c
  rw [Pi.add_apply, Pi.sub_apply] at hx
  have hwcs2' : (((t.wcs2.getD i .zero).coeff c : ℤ) : Zq) = (t.w.getD i .zero).res c -
      (mulChallenge (nttCopy t.c) (nttCopy (sk.s2.getD i .zero))).res c := by
    rw [hwcs2, Poly.coeff_build _ hc, cast_modQ, Int.cast_sub]
    rfl
  simp only [Poly.coeff_build _ hc]
  rw [← hct0] at hx
  exact useHint_recomputed (isGamma2_info m) hbeta hx hwcs2' hcs2 hn (hlow c hc) (hsmall c hc)

/-- The response is read back from its field. -/
theorem fits_response {p : Poly} (hp : p ∈ t.z) {i : ℕ} (hi : i < N) :
    0 ≤ m.info.gamma1 - p.coeff i ∧ m.info.gamma1 - p.coeff i < 2 ^ zbits m.info ∧
      -2 ^ 31 ≤ p.coeff i ∧ p.coeff i < 2 ^ 31 := by
  have hbound := response_bounds t hp hi
  have hgamma : m.info.gamma1 + m.info.gamma1 = 2 ^ zbits m.info ∧ 0 ≤ m.info.beta ∧
      m.info.gamma1 < 2 ^ 31 := by
    rw [zbits_eq]
    cases m <;> decide
  rw [abs_lt] at hbound
  omega

/-- The three fields of a signature. -/
theorem Attempt.fields_bytes :
    slice t.bytes 0 m.info.ctBytes = t.ctilde ∧
      unpackVec t.bytes m.info.ctBytes m.info.l (32 * zbits m.info)
        (fun buf => bitUnpack buf (m.info.gamma1 - 1) m.info.gamma1 (zbits m.info)) = t.z ∧
      slice t.bytes (m.info.ctBytes + m.info.l * (32 * zbits m.info)) (m.info.omega + m.info.k) =
        t.hintBytes := by
  have hctilde : t.ctilde.length = m.info.ctBytes := by
    rw [t.ctilde_eq]
    simp [shake256Sum]
  have hzlen : t.z.length = m.info.l := by
    rw [t.z_eq, response, List.length_map, List.length_range]
  have hbits : zbits m.info ≤ 31 := by
    rw [zbits_eq]
    split_ifs <;> decide
  have hhead : (t.ctilde ++ packVec t.z m.info.l m.info.gamma1 (zbits m.info)).length =
      m.info.ctBytes + m.info.l * (32 * zbits m.info) := by
    rw [List.length_append, hctilde, length_packVec]
  have hhint := slice_middle hhead (length_hintPack t.hintBytes_eq) []
  rw [List.append_nil] at hhint
  refine ⟨?_, ?_, hhint⟩
  · rw [Attempt.bytes, List.append_assoc, slice_left hctilde]
  · exact unpackVec_packVec hbits hzlen (fun p hp i hi => fits_response t hp hi) hctilde t.hintBytes

omit [Xof] in
theorem hints_bits (p : Params) (wcs2 ct0 : List Poly) :
    (makeHints p wcs2 ct0).length = p.k ∧
      ∀ q ∈ makeHints p wcs2 ct0, ∀ c < N, q.coeff c = 0 ∨ q.coeff c = 1 := by
  refine ⟨by rw [makeHints, List.length_map, List.length_range], fun q hq c hc => ?_⟩
  obtain ⟨i, -, rfl⟩ := List.mem_map.mp hq
  rw [Poly.coeff_build _ hc]
  dsimp only
  split_ifs
  · exact .inr rfl
  · exact .inl rfl

omit [Xof] in
theorem constantTimeEqual_of_eq {b b' : Bytes} (h : b = b') : constantTimeEqual b b' = true := by
  subst h
  rw [constantTimeEqual, if_neg (not_not.mpr rfl)]
  refine decide_eq_true (List.foldlRecOn (motive := fun d => d = 0) _ _ rfl fun d hd i _ => ?_)
  rw [hd, UInt8.xor_self, UInt8.or_self]

end Verified

section Main
variable [Xof]

/-- The signature of an attempt with the secret key verifies under the public one. -/
theorem Attempt.verifies {m : ParameterSet} {xi : Bytes} {pk : PublicKey} {sk : SecretKey}
    (hkey : keyGenFromSeed m xi = some (.ok (pk, sk))) {message rnd : Bytes} {a : List (List Poly)}
    {kappa : ℕ} (ha' : expandA sk.rho.toList m.info.k m.info.l = some a)
    (t : Attempt m.info (signState m sk message rnd a) kappa) :
    verify m pk message t.bytes = some (.ok ()) := by
  obtain ⟨a', rhoP, ha, hs, -, -, hrho, htr, ht1, ht0⟩ := keyGenFromSeed_eq_some hkey
  obtain ⟨hlen1, hlen2, hs1, hs2⟩ := expandS_spec hs
  rw [hrho, ha] at ha'
  cases ha'
  obtain ⟨hctilde, hz, hhint⟩ := t.fields_bytes
  obtain ⟨hhlen, hhbits⟩ := hints_bits m.info t.wcs2 t.ct0
  have hunpack := hintUnpack_hintPack (by cases m <;> decide) hhlen hhbits t.hintBytes_eq
  rw [verify, if_neg (not_not.mpr t.length_bytes)]
  simp only [bytesPerPoly_eq, hctilde, hz, hhint, hunpack, if_neg (not_le.mpr t.z_small), ha,
    t.c_eq, Option.bind_eq_bind, Option.bind_some]
  have hwlen : t.w.length = m.info.k := by rw [t.w_eq, commitment, List.length_map, List.length_range]
  have hw1 : ((List.range m.info.k).map fun i =>
      recomputeRow m.info (a.getD i []) (t.z.map nttCopy) (nttCopy t.c)
        (((List.range m.info.k).map fun i => nttCopy (keptPart (pk.t1.getD i .zero))).getD i .zero)
        ((makeHints m.info t.wcs2 t.ct0).getD i .zero)) =
      t.w.map fun acc => .build fun c => highBits (acc.coeff c) m.info.gamma2 := by
    conv_rhs => rw [← map_range_getD t.w .zero, hwlen, List.map_map]
    refine List.map_congr_left fun i hi => ?_
    rw [List.mem_range] at hi
    rw [getD_map_range hi, recomputeRow_eq t hs2 hlen2 ht1 ht0 hi]
    rfl
  have hmu : (signState m sk message rnd a).mu =
      shake256Sum 64 [shake256Sum 64 [publicKeyToBytes pk], framedMessage message] := by
    rw [← htr]
    rfl
  have hhash := t.ctilde_eq
  rw [← hw1, hmu] at hhash
  refine if_pos ?_
  exact constantTimeEqual_of_eq hhash

/-- **Every signature that is returned verifies** under the public key of the pair. -/
theorem verify_sign {m : ParameterSet} {xi : Bytes} {pk : PublicKey} {sk : SecretKey}
    (hkey : keyGenFromSeed m xi = some (.ok (pk, sk))) {message rnd sig : Bytes}
    (hsign : sign m sk message rnd = some (.ok sig)) :
    verify m pk message sig = some (.ok ()) := by
  obtain ⟨a, kappa, ha, t, rfl⟩ := sign_eq_some hsign
  exact t.verifies hkey ha

end Main

theorem verify_sign_constant : letI := Xof.constant
    ∃ pk sk sig, keyGenFromSeed .mldsa65 (List.replicate 32 0) = some (.ok (pk, sk)) ∧
      sign .mldsa65 sk [] (List.replicate 32 0) = some (.ok sig) ∧
      verify .mldsa65 pk [] sig = some (.ok ()) := by
  let _ := Xof.constant
  obtain ⟨pk, sk, hkey⟩ := keyGenFromSeed_constant constantStreams_constant (List.replicate 32 0)
  obtain ⟨sig, hsign⟩ := sign_constant constantStreams_constant hkey [] (List.replicate 32 0)
  exact ⟨pk, sk, sig, hkey, hsign, verify_sign hkey hsign⟩

end BhtBhte.Mldsa
