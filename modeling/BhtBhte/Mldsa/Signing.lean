import BhtBhte.Mldsa.Hints
import BhtBhte.Mldsa.Keys

/-!
# Signatures

A signature is what the first accepted attempt of the signing loop gives: the hash of the
commitment, the response and the hints, each in a field of its own size.
-/
namespace BhtBhte.Mldsa
open BhtBhte.Lib

/-! ## Norms -/

theorem maxAbs_lt_iff {m a bound : ℤ} : maxAbs m a < bound ↔ m < bound ∧ |a| < bound := by
  rw [maxAbs]
  have habs : (if a < 0 then -a else a) = |a| := by
    split_ifs with h
    · exact (abs_of_neg h).symm
    · exact (abs_of_nonneg (by omega)).symm
  simp only [habs]
  split_ifs <;> omega

/-- A running maximum is below a bound when all that it met is. -/
theorem foldl_lt_iff {α : Type} {step : ℤ → α → ℤ} (small : α → Prop) {bound : ℤ}
    (h : ∀ m x, step m x < bound ↔ m < bound ∧ small x) (l : List α) (m : ℤ) :
    l.foldl step m < bound ↔ m < bound ∧ ∀ x ∈ l, small x := by
  induction l generalizing m with
  | nil => simp
  | cons x l ih =>
      rw [List.foldl_cons, ih, h, List.forall_mem_cons, and_assoc]

theorem polyInfNorm_lt_iff {p : Poly} {bound : ℤ} (hbound : 0 < bound) :
    polyInfNorm p < bound ↔ ∀ i < N, |centered (modQ (p.coeff i))| < bound := by
  rw [polyInfNorm, foldl_lt_iff (fun c => |centered (modQ c)| < bound) fun m c => maxAbs_lt_iff,
    Poly.toList_eq]
  simp [hbound]

theorem polyVecInfNorm_lt_iff {v : List Poly} {bound : ℤ} (hbound : 0 < bound) :
    polyVecInfNorm v < bound ↔ ∀ p ∈ v, ∀ i < N, |centered (modQ (p.coeff i))| < bound := by
  rw [polyVecInfNorm, foldl_lt_iff (fun p => ∀ i < N, |centered (modQ (p.coeff i))| < bound)]
  · simp [hbound]
  · intro m p
    rw [← polyInfNorm_lt_iff hbound]
    split_ifs <;> omega

theorem lowNorm_lt_iff {p : Params} {v : List Poly} {bound : ℤ} (hbound : 0 < bound) :
    lowNorm p v < bound ↔ ∀ w ∈ v, ∀ i < N, |lowBits (w.coeff i) p.gamma2| < bound := by
  rw [lowNorm, foldl_lt_iff (fun w => ∀ i < N, |lowBits (w.coeff i) p.gamma2| < bound)]
  · simp [hbound]
  · intro m w
    rw [foldl_lt_iff (fun i => |lowBits (w.coeff i) p.gamma2| < bound) fun m i => maxAbs_lt_iff]
    simp

theorem centeredNorm_lt_iff {v : List Poly} {bound : ℤ} (hbound : 0 < bound) :
    centeredNorm v < bound ↔ ∀ w ∈ v, ∀ i < N, |centered (modQ (w.coeff i))| < bound := by
  rw [centeredNorm, foldl_lt_iff (fun w => ∀ i < N, |centered (modQ (w.coeff i))| < bound)]
  · simp [hbound]
  · intro m w
    rw [foldl_lt_iff (fun i => |centered (modQ (w.coeff i))| < bound) fun m i => maxAbs_lt_iff]
    simp

/-! ## Accepted attempts -/

section Attempts
variable [Xof]

/-- An attempt that all the checks accept. -/
structure Attempt (p : Params) (s : SignState) (kappa : ℕ) where
  y : List Poly
  w : List Poly
  ctilde : Bytes
  c : Poly
  z : List Poly
  wcs2 : List Poly
  ct0 : List Poly
  hintBytes : Bytes
  y_eq : y = expandMask s.rhoPP kappa p.l p.gamma1
  w_eq : w = commitment p s.a (y.map nttCopy)
  ctilde_eq : ctilde = shake256Sum p.ctBytes
    [s.mu, packW1 (w.map fun acc => .build fun c => highBits (acc.coeff c) p.gamma2) (w1bits p)]
  c_eq : sampleInBall ctilde p.tau = some c
  z_eq : z = response p y (nttCopy c) s.s1hat
  z_small : polyVecInfNorm z < p.gamma1 - p.beta
  wcs2_eq : wcs2 = lowered p w (nttCopy c) s.s2hat
  wcs2_small : lowNorm p wcs2 < p.gamma2 - p.beta
  ct0_eq : ct0 = (List.range p.k).map fun i => mulChallenge (nttCopy c) (s.t0hat.getD i .zero)
  ct0_small : centeredNorm ct0 < p.gamma2
  count_le : hintCount (makeHints p wcs2 ct0) ≤ p.omega
  hintBytes_eq : hintPack (makeHints p wcs2 ct0) p.omega p.k = some hintBytes

/-- The signature of an attempt. -/
def Attempt.bytes {p : Params} {s : SignState} {kappa : ℕ} (t : Attempt p s kappa) : Bytes :=
  t.ctilde ++ packVec t.z p.l p.gamma1 (zbits p) ++ t.hintBytes

theorem signAttempt_eq_some {p : Params} {s : SignState} {kappa : ℕ} {sig : Bytes} :
    signAttempt p s kappa = some (some sig) ↔ ∃ t : Attempt p s kappa, t.bytes = sig := by
  constructor
  · intro h
    rw [signAttempt] at h
    obtain ⟨c, hc, h⟩ := Option.bind_eq_some_iff.mp h
    dsimp only at h
    split at h
    · cases h
    next hz =>
    split at h
    · cases h
    next hlow =>
    split at h
    · cases h
    next hct0 =>
    split at h
    · cases h
    next hcount =>
    split at h
    · cases h
    next hintBytes hpack =>
    cases h
    exact ⟨⟨_, _, _, c, _, _, _, hintBytes, rfl, rfl, rfl, hc, rfl, not_le.mp hz, rfl,
      not_le.mp hlow, rfl, not_le.mp hct0, not_lt.mp hcount, hpack⟩, rfl⟩
  · rintro ⟨t, rfl⟩
    obtain ⟨y, w, ctilde, c, z, wcs2, ct0, hintBytes, rfl, rfl, rfl, hc, rfl, hz, rfl, hlow, rfl,
      hct0, hcount, hpack⟩ := t
    rw [signAttempt]
    simp only [hc, Option.bind_eq_bind, Option.bind_some, if_neg (not_le.mpr hz),
      if_neg (not_le.mpr hlow), if_neg (not_le.mpr hct0), if_neg (not_lt.mpr hcount), hpack]
    rfl

/-- A signature comes from an accepted attempt. -/
theorem signLoop_eq_some {p : Params} {s : SignState} {left kappa : ℕ} {sig : Bytes}
    (h : signLoop p s left kappa = some (.ok sig)) :
    ∃ (kappa' : ℕ) (t : Attempt p s kappa'), t.bytes = sig := by
  induction left generalizing kappa with
  | zero => cases h
  | succ left ih =>
      rw [signLoop] at h
      obtain ⟨r, hr, h⟩ := Option.bind_eq_some_iff.mp h
      cases r with
      | none => exact ih h
      | some sig' =>
          cases h
          exact ⟨kappa, signAttempt_eq_some.mp hr⟩

/-- What the loop of `sign` keeps, from the matrix of the key. -/
def signState (m : ParameterSet) (sk : SecretKey) (message rnd : Bytes) (a : List (List Poly)) :
    SignState :=
  let p := m.info
  let mu := shake256Sum 64 [sk.tr.toList, framedMessage message]
  { a := a
    mu := mu
    rhoPP := shake256Sum 64 [sk.key.toList, rnd, mu]
    s1hat := (List.range p.l).map fun j => nttCopy (sk.s1.getD j .zero)
    s2hat := (List.range p.k).map fun i => nttCopy (sk.s2.getD i .zero)
    t0hat := (List.range p.k).map fun i => nttCopy (sk.t0.getD i .zero) }

theorem sign_eq_some {m : ParameterSet} {sk : SecretKey} {message rnd sig : Bytes}
    (h : sign m sk message rnd = some (.ok sig)) :
    ∃ a kappa, expandA sk.rho.toList m.info.k m.info.l = some a ∧
      ∃ t : Attempt m.info (signState m sk message rnd a) kappa, t.bytes = sig := by
  rw [sign] at h
  obtain ⟨a, ha, h⟩ := Option.bind_eq_some_iff.mp h
  obtain ⟨kappa, t, ht⟩ := signLoop_eq_some h
  exact ⟨a, kappa, ha, t, ht⟩

/-- The loop ends with the first accepted attempt. -/
theorem signLoop_of_attempt {p : Params} {s : SignState} {kappa : ℕ} (t : Attempt p s kappa)
    (left : ℕ) : signLoop p s (left + 1) kappa = some (.ok t.bytes) := by
  rw [signLoop, signAttempt_eq_some.mpr ⟨t, rfl⟩]
  rfl

theorem sign_eq_signLoop {m : ParameterSet} {sk : SecretKey} {a : List (List Poly)}
    (ha : expandA sk.rho.toList m.info.k m.info.l = some a) (message rnd : Bytes) :
    sign m sk message rnd = signLoop m.info (signState m sk message rnd a) 1000 0 := by
  rw [sign, ha]
  rfl

/-! ## Lengths -/

omit [Xof] in
/-- The width of a coefficient of a response. -/
theorem zbits_eq (m : ParameterSet) : zbits m.info = if m = .mldsa44 then 18 else 20 := by
  cases m
  · exact bitlen_eq (n := 17) (by decide) (by decide)
  · exact bitlen_eq (n := 19) (by decide) (by decide)
  · exact bitlen_eq (n := 19) (by decide) (by decide)

omit [Xof] in
/-- The sizes of the parts of a signature. -/
theorem signatureSize_eq (m : ParameterSet) :
    m.info.ctBytes + m.info.l * (32 * zbits m.info) + (m.info.omega + m.info.k) =
      m.signatureSize := by
  rw [zbits_eq]
  cases m <;> rfl

theorem Attempt.length_bytes {m : ParameterSet} {s : SignState} {kappa : ℕ}
    (t : Attempt m.info s kappa) : t.bytes.length = m.signatureSize := by
  have hctilde : t.ctilde.length = m.info.ctBytes := by
    rw [t.ctilde_eq]
    simp [shake256Sum]
  rw [Attempt.bytes, List.length_append, List.length_append, hctilde, length_packVec,
    length_hintPack t.hintBytes_eq, signatureSize_eq]

/-- Signatures have the length of their parameter set. -/
theorem length_sign {m : ParameterSet} {sk : SecretKey} {message rnd sig : Bytes}
    (h : sign m sk message rnd = some (.ok sig)) : sig.length = m.signatureSize := by
  obtain ⟨a, kappa, -, t, rfl⟩ := sign_eq_some h
  exact t.length_bytes

/-! ## A run on constant streams -/

omit [Xof] in
@[simp] theorem butterfly_zero (zeta : ℤ) (length j : ℕ) :
    butterfly zeta length .zero j = .zero := by
  simp [butterfly, modQ]

omit [Xof] in
@[simp] theorem invButterfly_zero (zeta : ℤ) (length j : ℕ) :
    invButterfly zeta length .zero j = .zero := by
  simp [invButterfly, modQ]

omit [Xof] in
theorem foldl_snd_zero {f : ℕ × Poly → ℕ → ℕ × Poly}
    (hf : ∀ s x, s.2 = .zero → (f s x).2 = .zero) (l : List ℕ) {s : ℕ × Poly} (hs : s.2 = .zero) :
    (l.foldl f s).2 = .zero :=
  List.foldlRecOn l f hs fun t ht x _ => hf t x ht

omit [Xof] in
@[simp] theorem nttCopy_zero : nttCopy .zero = .zero := by
  refine foldl_snd_zero (fun s length hs => ?_) _ rfl
  refine foldl_snd_zero (fun s start hs => ?_) _ hs
  rw [nttBlock, hs]
  exact List.foldl_fixed' (fun j => butterfly_zero _ _ j) _

omit [Xof] in
@[simp] theorem nttInverse_zero : nttInverse .zero = .zero := by
  have hlayers : ([1, 2, 4, 8, 16, 32, 64, 128].foldl invNttLayer (N, .zero)).2 = .zero := by
    refine foldl_snd_zero (fun s length hs => ?_) _ rfl
    refine foldl_snd_zero (fun s start hs => ?_) _ hs
    rw [invNttBlock, hs]
    exact List.foldl_fixed' (fun j => invButterfly_zero _ _ j) _
  rw [nttInverse]
  simp only [hlayers, Poly.coeff_zero, mul_zero, Int.zero_tmod]
  rfl

omit [Xof] in
@[simp] theorem pointwise_zero (a : Poly) : pointwise a .zero = .zero := by
  simp only [pointwise, Poly.coeff_zero, mul_zero, Int.zero_tmod]
  rfl

omit [Xof] in
@[simp] theorem zero_pointwise (a : Poly) : pointwise .zero a = .zero := by
  simp only [pointwise, Poly.coeff_zero, zero_mul, Int.zero_tmod]
  rfl

omit [Xof] in
@[simp] theorem polyAddInto_zero : polyAddInto .zero .zero = .zero := by
  simp only [polyAddInto, Poly.coeff_zero]
  rfl

omit [Xof] in
/-- A vector of which every entry is zero. -/
def IsZero (v : List Poly) : Prop := ∀ i, v.getD i .zero = .zero

omit [Xof] in
theorem isZero_iff {v : List Poly} : IsZero v ↔ ∀ p ∈ v, p = .zero := by
  constructor
  · intro h p hp
    obtain ⟨i, hi, rfl⟩ := List.mem_iff_getElem.mp hp
    rw [← h i, List.getD_eq_getElem]
  · intro h i
    by_cases hi : i < v.length
    · rw [List.getD_eq_getElem _ _ hi]
      exact h _ (List.getElem_mem hi)
    · rw [List.getD_eq_default _ _ (by omega)]

omit [Xof] in
theorem isZero_map_range {n : ℕ} {f : ℕ → Poly} (h : ∀ i, f i = .zero) :
    IsZero ((List.range n).map f) := by
  rw [isZero_iff]
  intro p hp
  obtain ⟨i, -, rfl⟩ := List.mem_map.mp hp
  exact h i

omit [Xof] in
theorem mulRow_zero {row : List Poly} (h : IsZero row) (v : List Poly) (l : ℕ) :
    mulRow row v l = .zero := by
  refine List.foldl_fixed' (fun j => ?_) _
  rw [h j, zero_pointwise, polyAddInto_zero]

omit [Xof] in
theorem isZero_replicate (n : ℕ) : IsZero (List.replicate n .zero) :=
  isZero_iff.mpr fun _ hp => List.eq_of_mem_replicate hp

omit [Xof] in
theorem isZero_row (k l i : ℕ) :
    IsZero ((List.replicate k (List.replicate l Poly.zero)).getD i []) := by
  by_cases hi : i < k
  · rw [List.getD_replicate _ hi]
    exact isZero_replicate l
  · rw [List.getD_eq_default _ _ (by simpa using hi)]
    exact fun _ => rfl

/-- The keys from constant streams are zero. -/
theorem isZero_constant (h : ConstantStreams) {xi : Bytes} {pk : PublicKey} {sk : SecretKey}
    (hkey : keyGenFromSeed .mldsa65 xi = some (.ok (pk, sk))) :
    IsZero sk.s1 ∧ IsZero sk.s2 ∧ IsZero sk.t0 := by
  obtain ⟨a, rhoP, ha, hs, -, -, -, -, -, ht0⟩ := keyGenFromSeed_eq_some hkey
  cases ha.symm.trans (expandA_constant h _ _ _)
  have hsample := hs.symm.trans (expandS_constant h _ _ _)
  obtain ⟨hs1, hs2⟩ := Prod.mk.inj (Option.some.inj hsample)
  refine ⟨hs1 ▸ isZero_replicate _, hs2 ▸ isZero_replicate _, ?_⟩
  rw [ht0, hs2, isZero_iff]
  intro p hp
  obtain ⟨acc, hacc, rfl⟩ := List.mem_map.mp hp
  obtain ⟨i, -, rfl⟩ := List.mem_map.mp hacc
  rw [mulRow_zero (isZero_row _ _ _), nttInverse_zero, isZero_replicate _ i, polyAddInto_zero]
  simp only [Poly.coeff_zero]
  rfl

theorem drawIndex_constant (h : ConstantStreams) {st : XofStream} (hvalid : st.Valid)
    (hrest : ∀ j, st.rest j = 0x44) {i : ℕ} (hi : 0x44 ≤ i) :
    drawIndex i Xof.rounds st = some st.readByte := by
  have hrounds := h.rounds
  obtain ⟨rounds, heq⟩ := Nat.exists_eq_succ_of_ne_zero (show Xof.rounds ≠ 0 by omega)
  rw [heq, drawIndex]
  refine if_pos ?_
  rw [(XofStream.readByte_spec hvalid).1, hrest]
  exact hi

theorem ballSteps_constant (h : ConstantStreams) {l : List ℕ} (hl : ∀ i ∈ l, 0x44 ≤ i)
    {s : XofStream × ℕ × Poly} (hvalid : s.1.Valid) (hrest : ∀ j, s.1.rest j = 0x44) :
    ∃ s', l.foldlM ballStep s = some s' := by
  induction l generalizing s with
  | nil => exact ⟨s, rfl⟩
  | cons i l ih =>
      obtain ⟨-, hrest', hvalid'⟩ := XofStream.readByte_spec hvalid
      rw [List.foldlM_cons, ballStep, drawIndex_constant h hvalid hrest (hl i List.mem_cons_self)]
      exact ih (fun j hj => hl j (List.mem_cons_of_mem i hj)) hvalid'
        fun j => by rw [hrest', hrest]

/-- A challenge is drawn from constant streams. -/
theorem sampleInBall_constant (h : ConstantStreams) (ctilde : Bytes) {tau : ℕ}
    (htau : 0x44 ≤ N - tau) : ∃ c, sampleInBall ctilde tau = some c := by
  obtain ⟨-, hrest, hvalid⟩ := XofStream.readBytes_spec (valid_newShake256 [ctilde]) 8
  have hl : ∀ i ∈ List.range' (N - tau) tau, 0x44 ≤ i := by
    intro i hi
    obtain ⟨j, -, rfl⟩ := List.mem_range'.mp hi
    omega
  have hconst : ∀ j, ((newShake256 [ctilde]).readBytes 8).2.rest j = 0x44 := by
    intro j
    rw [hrest, rest_newShake256, h.shake256]
  rw [sampleInBall]
  generalize (newShake256 [ctilde]).readBytes 8 = r at *
  obtain ⟨s, hs⟩ := ballSteps_constant h hl (s := (r.2, (List.range 8).foldl
    (fun signs i => signs ||| ((r.1.getD i 0).toNat <<< (8 * i))) 0, .zero)) hvalid hconst
  simp only [hs]
  exact ⟨s.2.2, rfl⟩

omit [Xof] in
/-- The bytes `0x44` are the coefficients `2 ^ 19 - 0x44444`. -/
theorem bitUnpack_constant (a : ℤ) :
    bitUnpack (List.replicate 640 0x44) a (2 ^ 19) 20 = .build fun _ => 244668 := by
  have hcoeff : ∀ i < N, (Poly.build fun _ => 244668).coeff i = 244668 := fun i hi =>
    Poly.coeff_build _ hi
  have hbytes : bitPack (.build fun _ => 244668) (2 ^ 19) 20 = List.replicate 640 0x44 := by
    rw [bitPack_eq]
    refine eq_of_bytesValue_eq (by rw [length_packWith, List.length_replicate]) ?_
    rw [bytesValue_packWith]
    · have hlist : (Poly.build fun _ => 244668).toList.map (fun c => uint32 (2 ^ 19 - c)) =
          List.replicate 256 0x44444 := by
        rw [Poly.toList_eq, List.map_map, List.eq_replicate_iff]
        refine ⟨by rw [List.length_map, List.length_range], fun x hx => ?_⟩
        obtain ⟨i, hi, rfl⟩ := List.mem_map.mp hx
        rw [Function.comp_apply, hcoeff i (List.mem_range.mp hi)]
        decide
      rw [hlist]
      decide +kernel
    · intro i hi
      rw [hcoeff i hi]
      decide
  rw [← hbytes, bitUnpack_bitPack (by decide)]
  intro i hi
  rw [hcoeff i hi]
  decide

theorem expandMask_constant (h : ConstantStreams) (rhoPP : Bytes) (kappa l : ℕ) :
    expandMask rhoPP kappa l ParameterSet.mldsa65.info.gamma1 =
      List.replicate l (.build fun _ => 244668) := by
  have hwidth : bitlen (2 * ParameterSet.mldsa65.info.gamma1 - 1).toNat = 20 := zbits_eq .mldsa65
  have hbuf : ∀ parts, ((newShake256 parts).readBytes 640).1 = List.replicate 640 0x44 := by
    intro parts
    rw [(XofStream.readBytes_spec (valid_newShake256 parts) 640).1, rest_newShake256,
      List.eq_replicate_iff]
    refine ⟨by rw [List.length_map, List.length_range], fun x hx => ?_⟩
    obtain ⟨i, -, rfl⟩ := List.mem_map.mp hx
    exact h.shake256 _ i
  rw [expandMask, List.eq_replicate_iff]
  refine ⟨by rw [List.length_map, List.length_range], fun p hp => ?_⟩
  obtain ⟨i, -, rfl⟩ := List.mem_map.mp hp
  simp only [hwidth, bytesPerPoly_eq]
  rw [show 32 * 20 = 640 from rfl, hbuf]
  exact bitUnpack_constant _

omit [Xof] in
theorem mulChallenge_zero {v : List Poly} (h : IsZero v) (chat : Poly) (i : ℕ) :
    mulChallenge chat (v.getD i .zero) = .zero := by
  rw [h i, mulChallenge, pointwise_zero, nttInverse_zero]

omit [Xof] in
theorem hintCount_zero {h : List Poly} (hh : IsZero h) : hintCount h = 0 := by
  refine List.foldlRecOn (motive := fun n => n = 0) h _ rfl fun n hn p hp => ?_
  rw [isZero_iff.mp hh p hp]
  refine (List.foldl_fixed' (fun i => ?_) _).trans hn
  rw [Poly.coeff_zero]
  rfl

omit [Xof] in
/-- Hints without a one are packed. -/
theorem hintPack_zero {h : List Poly} (hh : IsZero h) (omega k : ℕ) :
    ∃ buf, hintPack h omega k = some buf := by
  have hrow : ∀ (s : Bytes × ℕ) (i : ℕ),
      hintRow omega h s i = some (s.1.set (omega + i) s.2.toUInt8, s.2) := by
    intro s i
    have hstore := foldlM_range_of_forall (f := hintStore omega (h.getD i .zero)) (fun _ => s)
      (n := N) (fun j _ => by
        rw [hintStore, hh i, Poly.coeff_zero]
        rfl)
    rw [hintRow, hstore]
    rfl
  have hrows := foldlM_range_of_forall (f := hintRow omega h)
    (fun i => ((List.range i).foldl (fun b i => b.set (omega + i) (0 : ℕ).toUInt8)
      (List.replicate (omega + k) 0), 0)) (n := k) (fun i _ => by
        rw [hrow, List.range_succ, List.foldl_append]
        rfl)
  rw [List.range_zero, List.foldl_nil] at hrows
  rw [hintPack, hrows]
  exact ⟨_, rfl⟩

/-- **A signature is returned.** On constant streams the first attempt is accepted. -/
theorem sign_constant (h : ConstantStreams) {xi : Bytes} {pk : PublicKey} {sk : SecretKey}
    (hkey : keyGenFromSeed .mldsa65 xi = some (.ok (pk, sk))) (message rnd : Bytes) :
    ∃ sig, sign .mldsa65 sk message rnd = some (.ok sig) := by
  obtain ⟨hs1, hs2, ht0⟩ := isZero_constant h hkey
  have hhat : ∀ v n, IsZero v → IsZero ((List.range n).map fun i => nttCopy (v.getD i .zero)) :=
    fun v n hv => isZero_map_range fun i => by rw [hv i, nttCopy_zero]
  have ha := expandA_constant h sk.rho.toList 6 5
  rw [sign_eq_signLoop ha]
  have hstate : ∃ st, st = signState .mldsa65 sk message rnd
      (List.replicate 6 (List.replicate 5 .zero)) ∧ (∀ i, IsZero (st.a.getD i [])) ∧
      IsZero st.s1hat ∧ IsZero st.s2hat ∧ IsZero st.t0hat :=
    ⟨_, rfl, isZero_row 6 5, hhat _ _ hs1, hhat _ _ hs2, hhat _ _ ht0⟩
  obtain ⟨st, heq, hrows, hs1hat, hs2hat, ht0hat⟩ := hstate
  rw [← heq]
  suffices hattempt : Nonempty (Attempt ParameterSet.mldsa65.info st 0) by
    obtain ⟨t⟩ := hattempt
    exact ⟨t.bytes, signLoop_of_attempt t 999⟩
  have hy := expandMask_constant h st.rhoPP 0 5
  have hw : IsZero (commitment ParameterSet.mldsa65.info st.a
      ((List.replicate 5 (.build fun _ => 244668)).map nttCopy)) :=
    isZero_map_range fun i => by rw [mulRow_zero (hrows i), nttInverse_zero]
  generalize hweq : commitment ParameterSet.mldsa65.info st.a
    ((List.replicate 5 (.build fun _ => 244668)).map nttCopy) = w at hw
  obtain ⟨c, hc⟩ := sampleInBall_constant h (shake256Sum 48 [st.mu,
    packW1 (w.map fun acc => .build fun c => highBits (acc.coeff c)
      ParameterSet.mldsa65.info.gamma2) (w1bits ParameterSet.mldsa65.info)])
    (show 0x44 ≤ N - 49 by decide)
  have hlow : IsZero (lowered ParameterSet.mldsa65.info w (nttCopy c) st.s2hat) := by
    refine isZero_map_range fun i => ?_
    rw [mulChallenge_zero hs2hat, hw i]
    simp only [Poly.coeff_zero]
    rfl
  have hct0 : IsZero ((List.range ParameterSet.mldsa65.info.k).map fun i =>
      mulChallenge (nttCopy c) (st.t0hat.getD i .zero)) :=
    isZero_map_range fun i => mulChallenge_zero ht0hat _ i
  generalize hwcs2 : lowered ParameterSet.mldsa65.info w (nttCopy c) st.s2hat = wcs2 at hlow
  generalize hct0eq : ((List.range ParameterSet.mldsa65.info.k).map fun i =>
      mulChallenge (nttCopy c) (st.t0hat.getD i .zero)) = ct0 at hct0
  have hhints : IsZero (makeHints ParameterSet.mldsa65.info wcs2 ct0) := by
    refine isZero_map_range fun i => ?_
    rw [hlow i, hct0 i]
    simp only [Poly.coeff_zero]
    rfl
  obtain ⟨hintBytes, hpack⟩ := hintPack_zero hhints 55 6
  refine ⟨⟨_, w, _, c, _, wcs2, ct0, hintBytes, hy.symm, hweq.symm, rfl, hc, rfl, ?_, hwcs2.symm, ?_,
    hct0eq.symm, ?_, ?_, hpack⟩⟩
  · rw [polyVecInfNorm_lt_iff (by decide)]
    intro p hp i hi
    obtain ⟨j, hj, rfl⟩ := List.mem_map.mp hp
    have hlt : j < 5 := List.mem_range.mp hj
    simp only [mulChallenge_zero hs1hat, List.getD_replicate _ hlt, Poly.coeff_build _ hi,
      Poly.coeff_zero]
    decide
  · rw [lowNorm_lt_iff (by decide)]
    intro p hp i hi
    rw [isZero_iff.mp hlow p hp, Poly.coeff_zero]
    decide
  · rw [centeredNorm_lt_iff (by decide)]
    intro p hp i hi
    rw [isZero_iff.mp hct0 p hp, Poly.coeff_zero]
    decide
  · rw [hintCount_zero hhints]
    exact Nat.zero_le _

end Attempts

end BhtBhte.Mldsa
