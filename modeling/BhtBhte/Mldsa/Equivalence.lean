import BhtBhte.Mldsa.Correct
import BhtBhte.Mldsa.Fips204

/-!
# The two implementations are one function

Each function of the port against the one of the Go package that it stands for, up to key
generation, signing and verification with an empty context.  Both read the same streams; a rejection
loop that is given up in one is given up in the other.  They differ on a signature that is longer
than it should be by a multiple of `2^32` bytes, and nowhere else (`implementations_agree_iff`).
-/
namespace BhtBhte.Fips204
open BhtBhte.Lib
open BhtBhte.Mldsa (Bytes Poly Params ParameterSet Xof XofStream N D Q int32 uint32 bitlen modQ
  centered nttInverse pointwise polyAddInto nttCopy power2Round highBits lowBits useHint maxAbs
  polyVecInfNorm coeffFromHalfByte copyBytes)

/-! ## Loops -/

/-- A loop over the coefficients that writes each of them once and carries a value along. -/
theorem foldl_coeffs {γ : Type} {step : Poly × γ → ℕ → Poly × γ} {f : ℕ → ℤ} {g : γ → ℕ → γ}
    (hstep : ∀ s, ∀ c < N, s.1.coeff c = 0 → step s c = (s.1.setCoeff c (f c), g s.2 c)) (b : γ) :
    (List.range N).foldl step (.zero, b) = (.build f, (List.range N).foldl g b) := by
  have hloop : ∀ n ≤ N, (∀ j < N, ((List.range n).foldl step (.zero, b)).1.coeff j =
      if j < n then f j else 0) ∧
      ((List.range n).foldl step (.zero, b)).2 = (List.range n).foldl g b := by
    intro n
    induction n with
    | zero =>
        intro _
        exact ⟨fun j _ => by simp, rfl⟩
    | succ n ih =>
        intro hn
        obtain ⟨hcoeff, hcarried⟩ := ih (by omega)
        have hzero := hcoeff n (by omega)
        rw [if_neg (lt_irrefl n)] at hzero
        rw [List.range_succ, List.foldl_append, List.foldl_append, List.foldl_cons, List.foldl_nil,
          List.foldl_cons, List.foldl_nil, hstep _ n (by omega) hzero, hcarried]
        refine ⟨fun j hj => ?_, rfl⟩
        rw [Poly.coeff_setCoeff _ (by omega), hcoeff j hj]
        by_cases hjn : j = n
        · rw [if_pos hjn, if_pos (by omega), hjn]
        · rw [if_neg hjn]
          exact if_congr (by omega) rfl rfl
  obtain ⟨hcoeff, hcarried⟩ := hloop N (Nat.le_refl N)
  generalize (List.range N).foldl step (.zero, b) = s at hcoeff hcarried
  have hpoly : s.1 = .build f := by
    apply Poly.ext_coeff
    intro j hj
    rw [hcoeff j hj, if_pos hj, Poly.coeff_build _ hj]
  rw [← hpoly, ← hcarried]

theorem setCoeff_coeff (p : Poly) {c : ℕ} (hc : c < N) {v : ℤ} (h : p.coeff c = v) :
    p.setCoeff c v = p := by
  apply Poly.ext_coeff
  intro j _
  rw [Poly.coeff_setCoeff _ hc]
  split
  · next hj => rw [hj, h]
  · rfl

/-! ## Streams -/

theorem cat_eq (parts : List Bytes) : cat parts = parts.flatten := by
  have h : ∀ (parts : List Bytes) (out : Bytes), parts.foldl (· ++ ·) out = out ++ parts.flatten := by
    intro parts
    induction parts with
    | nil => simp
    | cons part parts ih =>
        intro out
        rw [List.foldl_cons, ih, List.flatten_cons, List.append_assoc]
  exact h parts []

/-- The two readers have the same bytes left. -/
structure Follows (st : XofStream) (sh : Shake) : Prop where
  valid : st.Valid
  rest : ∀ i, st.rest i = sh.stream (sh.squeezed + i)

theorem Follows.readByte {st : XofStream} {sh : Shake} (h : Follows st sh) :
    st.readByte.1 = sh.readByte.1 ∧ Follows st.readByte.2 sh.readByte.2 := by
  obtain ⟨hbyte, hrest, hvalid⟩ := XofStream.readByte_spec h.valid
  refine ⟨?_, hvalid, fun i => ?_⟩
  · rw [hbyte, h.rest 0]
    rfl
  · rw [hrest, h.rest]
    simp only [Shake.readByte, Shake.read]
    congr 1
    omega

theorem Follows.read {st : XofStream} {sh : Shake} (h : Follows st sh) (n : ℕ) :
    (st.readBytes n).1 = (sh.read n).1 ∧ Follows (st.readBytes n).2 (sh.read n).2 := by
  obtain ⟨hbytes, hrest, hvalid⟩ := XofStream.readBytes_spec h.valid n
  refine ⟨?_, hvalid, fun i => ?_⟩
  · rw [hbytes]
    exact List.map_congr_left fun i _ => h.rest i
  · rw [hrest, h.rest]
    simp only [Shake.read]
    congr 1
    omega

section Streams
variable [Xof]

theorem follows_shake128 (parts : List Bytes) :
    Follows (Mldsa.newShake128 parts) (Shake.new 168 (cat parts)) := by
  refine ⟨Mldsa.valid_newShake128 parts, fun i => ?_⟩
  rw [Mldsa.rest_newShake128, cat_eq]
  simp [Shake.new]

theorem follows_shake256 (parts : List Bytes) :
    Follows (Mldsa.newShake256 parts) (Shake.new 136 (cat parts)) := by
  refine ⟨Mldsa.valid_newShake256 parts, fun i => ?_⟩
  rw [Mldsa.rest_newShake256, cat_eq]
  simp [Shake.new]

theorem shake256Sum_eq (outLen : ℕ) (parts : List Bytes) :
    shake256Sum outLen (cat parts) = Mldsa.shake256Sum outLen parts := by
  rw [cat_eq]
  simp [shake256Sum, Mldsa.shake256Sum, Shake.read, Shake.new]

theorem shake256Sum_single (outLen : ℕ) (bytes : Bytes) :
    shake256Sum outLen bytes = Mldsa.shake256Sum outLen [bytes] := by
  rw [← shake256Sum_eq, cat_eq, List.flatten_singleton]

/-! ## Samplers -/

omit [Xof] in
theorem rejNTTLoop_eq {rounds : ℕ} : ∀ {st : XofStream} {sh : Shake}, Follows st sh →
    ∀ (i : ℕ) (p : Poly), rejNTTLoop rounds sh i p = Mldsa.rejNTTLoop rounds st i p := by
  induction rounds with
  | zero =>
      intro st sh _ i p
      rfl
  | succ rounds ih =>
      intro st sh h i p
      obtain ⟨hbytes, hnext⟩ := h.read 3
      simp only [rejNTTLoop, Mldsa.rejNTTLoop, hbytes, ih hnext]

theorem rejNTTPoly_eq (rho : Bytes) (s r : UInt8) :
    rejNTTPoly rho s r = Mldsa.rejNTTPoly rho s r :=
  rejNTTLoop_eq (follows_shake128 [rho, [s, r]]) 0 .zero

theorem expandA_eq (rho : Bytes) (k l : ℕ) :
    expandA rho k l = (Mldsa.expandA rho k l).map List.flatten := by
  simp only [expandA, Mldsa.expandA, rejNTTPoly_eq, Option.map_eq_bind]
  rfl

omit [Xof] in
theorem rejBoundedLoop_eq (eta : ℕ) {rounds : ℕ} : ∀ {st : XofStream} {sh : Shake}, Follows st sh →
    ∀ (i : ℕ) (p : Poly),
      rejBoundedLoop eta rounds sh i p = Mldsa.rejBoundedLoop eta rounds st i p := by
  induction rounds with
  | zero =>
      intro st sh _ i p
      rfl
  | succ rounds ih =>
      intro st sh h i p
      obtain ⟨hbyte, hnext⟩ := h.readByte
      simp only [rejBoundedLoop, Mldsa.rejBoundedLoop, hbyte]
      by_cases hi : i < N
      · rw [if_pos hi, if_pos hi]
        cases hlower : coeffFromHalfByte (sh.readByte.1 &&& 0x0F).toNat eta with
        | none =>
            simp only [Mldsa.storeHalfByte, hlower, ih hnext, if_neg (not_le.mpr hi)]
            cases coeffFromHalfByte (sh.readByte.1 >>> 4).toNat eta <;> rfl
        | some v =>
            simp only [Mldsa.storeHalfByte, hlower, ih hnext]
            split
            · rfl
            · cases coeffFromHalfByte (sh.readByte.1 >>> 4).toNat eta <;> rfl
      · rw [if_neg hi, if_neg hi]

omit [Xof] in
theorem nonceBytes_eq (nonce : ℕ) : nonceBytes nonce = Mldsa.nonceBytes nonce := by
  have hlow : ∀ n : ℕ, (n &&& 0xFF).toUInt8 = n.toUInt8 := by
    intro n
    rw [show (0xFF : ℕ) = 2 ^ 8 - 1 from rfl, Nat.and_two_pow_sub_one_eq_mod]
    apply UInt8.toNat_inj.mp
    simp
  simp only [nonceBytes, Mldsa.nonceBytes, hlow]

theorem rejBoundedPoly_eq (rhoP : Bytes) (nonce eta : ℕ) :
    rejBoundedPoly rhoP nonce eta = Mldsa.rejBoundedPoly rhoP nonce eta := by
  rw [rejBoundedPoly, nonceBytes_eq]
  exact rejBoundedLoop_eq eta (follows_shake256 [rhoP, Mldsa.nonceBytes nonce]) 0 .zero

omit [Xof] in
theorem drawIndex_eq (i rounds : ℕ) : ∀ {st : XofStream} {sh : Shake}, Follows st sh →
    (drawIndex i rounds sh = none ∧ Mldsa.drawIndex i rounds st = none) ∨
      ∃ b st' sh', Follows st' sh' ∧ drawIndex i rounds sh = some (b, sh') ∧
        Mldsa.drawIndex i rounds st = some (b, st') := by
  induction rounds with
  | zero =>
      intro st sh _
      exact .inl ⟨rfl, rfl⟩
  | succ rounds ih =>
      intro st sh h
      obtain ⟨hbyte, hnext⟩ := h.readByte
      simp only [drawIndex, Mldsa.drawIndex, hbyte]
      by_cases hi : i < sh.readByte.1.toNat
      · rw [if_pos hi, if_neg (not_le.mpr hi)]
        exact ih hnext
      · rw [if_neg hi, if_pos (not_lt.mp hi)]
        exact .inr ⟨sh.readByte.1, st.readByte.2, sh.readByte.2, hnext, rfl, by rw [← hbyte]⟩

/-- The loops of `sampleInBall` keep their readers together. -/
theorem ballSteps_eq (is : List ℕ) : ∀ {st : XofStream} {sh : Shake}, Follows st sh →
    ∀ (signs : ℕ) (c : Poly), (is.foldlM ballStep (sh, signs, c)).map (fun s => s.2.2) =
      (is.foldlM Mldsa.ballStep (st, signs, c)).map fun s => s.2.2 := by
  induction is with
  | nil =>
      intro st sh _ signs c
      rfl
  | cons i is ih =>
      intro st sh h signs c
      rw [List.foldlM_cons, List.foldlM_cons]
      rcases drawIndex_eq i Xof.rounds h with ⟨hport, hgo⟩ | ⟨b, st', sh', hnext, hport, hgo⟩
      · simp only [ballStep, Mldsa.ballStep, hport, hgo]
        rfl
      · simp only [ballStep, Mldsa.ballStep, hport, hgo]
        exact ih hnext _ _

theorem sampleInBall_eq (ctilde : Bytes) (tau : ℕ) :
    sampleInBall ctilde tau = Mldsa.sampleInBall ctilde tau := by
  have hinput : cat [ctilde] = ctilde := by rw [cat_eq]; simp
  have hfollows := follows_shake256 [ctilde]
  rw [hinput] at hfollows
  obtain ⟨hbytes, hnext⟩ := hfollows.read 8
  have hsteps := ballSteps_eq (List.range' (N - tau) tau) hnext
  simp only [Option.map_eq_bind] at hsteps
  simp only [sampleInBall, Mldsa.sampleInBall, hbytes]
  exact hsteps _ _

/-! ## Packing -/

omit [Xof] in
/-- The bytes written by `N` fields leave nothing to pad. -/
theorem packed_eq (enc : ℤ → ℕ) (p : Poly) (bits : ℕ) :
    ((List.range N).foldl (fun (w : BitWriter) i => w.write (enc (p.coeff i)) bits) {}).out =
      Mldsa.packWith enc bits p := by
  have hvals : (p.toList.map enc).length = N := by simp
  have hwrites : (List.range N).foldl (fun (w : BitWriter) i => w.write (enc (p.coeff i)) bits) {} =
      ({} : BitWriter).writes (p.toList.map enc) bits := by
    rw [BitWriter.writes, Poly.toList_eq, List.map_map, List.foldl_map]
    rfl
  rw [hwrites, Mldsa.packWith_eq, Mldsa.writerBytes, (Mldsa.writer_full bits hvals).1,
    if_neg (lt_irrefl 0)]

omit [Xof] in
theorem bitPack_eq (p : Poly) (b : ℤ) (bits : ℕ) : bitPack p b bits = Mldsa.bitPack p b bits :=
  packed_eq (fun c => uint32 (b - c)) p bits

omit [Xof] in
theorem simpleBitPack_eq (p : Poly) (bits : ℕ) :
    simpleBitPack p bits = Mldsa.simpleBitPack p bits :=
  packed_eq uint32 p bits

omit [Xof] in
theorem bitUnpack_eq (buf : Bytes) (a b : ℤ) (bits : ℕ) :
    bitUnpack buf b bits = Mldsa.bitUnpack buf a b bits := rfl

theorem expandMask_eq (rhoPP : Bytes) (kappa l : ℕ) (gamma1 : ℤ) :
    expandMask rhoPP kappa l gamma1 = Mldsa.expandMask rhoPP kappa l gamma1 := by
  simp only [expandMask, Mldsa.expandMask, nonceBytes_eq]
  refine List.map_congr_left fun i _ => ?_
  rw [← (((follows_shake256 _).read _).1)]
  rfl

end Streams

theorem hintUnpack_eq {buf : Bytes} {omega k : ℕ} (h : buf.length = omega + k) :
    hintUnpack buf omega k = Mldsa.hintUnpack buf omega k := by
  rw [Mldsa.hintUnpack, if_neg (not_not.mpr h)]
  rfl

theorem hintPack_of_none {h : List Poly} {omega k : ℕ}
    (hpack : Mldsa.hintPack h omega k = none) : hintPack h omega k = [] := by
  rw [hintPack, hpack]

theorem hintPack_of_some {h : List Poly} {omega k : ℕ} {out : Bytes}
    (hpack : Mldsa.hintPack h omega k = some out) : hintPack h omega k = out := by
  rw [hintPack, hpack]

/-- An empty vector is never a packing. -/
theorem hintPack_ne_nil {h : List Poly} {omega k : ℕ} {out : Bytes} (hk : 0 < k)
    (hpack : Mldsa.hintPack h omega k = some out) : hintPack h omega k ≠ [] := by
  have hlength := Mldsa.length_hintPack hpack
  rw [hintPack_of_some hpack]
  intro hempty
  rw [hempty, List.length_nil] at hlength
  omega

/-! ## Keys -/

/-- The key with the parameter set that the Go package keeps in it. -/
def PublicKey.withParam (pk : PublicKey) (m : ParameterSet) : Mldsa.PublicKey :=
  { rho := pk.rho, t1 := pk.t1, param := m }

def SecretKey.withParam (sk : SecretKey) (m : ParameterSet) : Mldsa.SecretKey :=
  { rho := sk.rho, key := sk.key, tr := sk.tr, s1 := sk.s1, s2 := sk.s2, t0 := sk.t0, param := m }

theorem encodePK_eq {p : Params} {pk : PublicKey} (ht1 : pk.t1.length = p.k) (m : ParameterSet) :
    encodePK p pk = Mldsa.publicKeyToBytes (pk.withParam m) := by
  simp only [encodePK, Mldsa.publicKeyToBytes, foldl_append_flatMap, simpleBitPack_eq]
  rw [flatMap_range_getD ht1 .zero fun t => Mldsa.simpleBitPack t 10]
  rfl

theorem appendPacked_eq (out : Bytes) (v : List Poly) (n : ℕ) (b : ℤ) (bits : ℕ) :
    appendPacked out v n b bits = out ++ Mldsa.packVec v n b bits := by
  simp only [appendPacked, Mldsa.packVec, foldl_append_flatMap, bitPack_eq]

theorem encodeSK_eq (m : ParameterSet) (sk : SecretKey) :
    encodeSK m.info sk = Mldsa.secretKeyToBytes m (sk.withParam m) := by
  simp only [encodeSK, Mldsa.secretKeyToBytes, appendPacked_eq]
  rfl

/-- The entry of a matrix that is kept in one vector. -/
theorem getD_flatten {rows : List (List Poly)} {l : ℕ} (hrows : ∀ row ∈ rows, row.length = l)
    {i j : ℕ} (hi : i < rows.length) (hj : j < l) :
    rows.flatten.getD (i * l + j) .zero = (rows.getD i []).getD j .zero := by
  induction rows generalizing i with
  | nil => simp at hi
  | cons row rows ih =>
      have hrow := hrows row List.mem_cons_self
      rw [List.flatten_cons]
      cases i with
      | zero =>
          rw [List.getD_append _ _ _ _ (by omega)]
          simp
      | succ i =>
          rw [List.getD_append_right _ _ _ _ (by rw [hrow]; nlinarith), hrow,
            show (i + 1) * l + j - l = i * l + j by rw [Nat.succ_mul]; omega,
            ih (fun row' h => hrows row' (List.mem_cons_of_mem _ h)) (by simpa using hi)]
          simp

theorem mulRow_eq {rows : List (List Poly)} {l : ℕ} (hrows : ∀ row ∈ rows, row.length = l)
    {i : ℕ} (hi : i < rows.length) (v : List Poly) :
    mulRow rows.flatten i v l = Mldsa.mulRow (rows.getD i []) v l := by
  unfold mulRow Mldsa.mulRow
  refine List.foldl_ext _ _ _ fun acc j hj => ?_
  rw [getD_flatten hrows hi (List.mem_range.mp hj)]

theorem foldl_setCoeff (f : ℕ → ℤ) :
    (List.range N).foldl (fun p c => Poly.setCoeff p c (f c)) .zero = .build f := by
  have hfst : ∀ (l : List ℕ) (p : Poly), l.foldl (fun p c => Poly.setCoeff p c (f c)) p =
      (l.foldl (fun (s : Poly × Unit) c => (s.1.setCoeff c (f c), s.2)) (p, ())).1 := by
    intro l
    induction l with
    | nil => exact fun _ => rfl
    | cons c l ih => exact fun p => ih _
  rw [hfst, @foldl_coeffs Unit _ f (fun b _ => b) fun _ _ _ _ => rfl]

theorem roundRow_eq (acc : Poly) :
    roundRow acc = (.build fun c => (power2Round (acc.coeff c)).1,
      .build fun c => (power2Round (acc.coeff c)).2) := by
  have hrows := @foldl_coeffs Poly (fun rows c => (rows.1.setCoeff c (power2Round (acc.coeff c)).1,
    rows.2.setCoeff c (power2Round (acc.coeff c)).2)) (fun c => (power2Round (acc.coeff c)).1)
    (fun row c => row.setCoeff c (power2Round (acc.coeff c)).2) (fun _ _ _ _ => rfl) .zero
  rw [foldl_setCoeff fun c => (power2Round (acc.coeff c)).2] at hrows
  exact hrows

section Keys
variable [Xof]

/-- The matrix has `k` rows of `l` entries. -/
theorem expandA_shape {rho : Bytes} {k l : ℕ} {rows : List (List Poly)}
    (h : Mldsa.expandA rho k l = some rows) :
    rows.length = k ∧ ∀ row ∈ rows, row.length = l := by
  refine ⟨(mapM_range_eq_some h).1, fun row hrow => ?_⟩
  obtain ⟨r, -, hr⟩ := mem_of_mapM_eq_some h hrow
  exact (mapM_range_eq_some hr).1

omit [Xof] in
/-- The loop that fills `t1` and `t0`. -/
theorem roundRows_eq {p : Params} {rows : List (List Poly)} (hlength : rows.length = p.k)
    (hrows : ∀ row ∈ rows, row.length = p.l) {s1 : List Poly} (hs1 : s1.length = p.l)
    (s2 : List Poly) :
    (List.range p.k).foldl (fun (t : List Poly × List Poly) i =>
      let acc := nttInverse (mulRow rows.flatten i
        ((List.range p.l).map fun j => nttCopy (s1.getD j .zero)) p.l)
      let rows := roundRow (polyAddInto acc (s2.getD i .zero))
      (t.1 ++ [rows.1], t.2 ++ [rows.2])) ([], []) =
    ((Mldsa.publicVector p rows s1 s2).map fun acc => .build fun c => (power2Round (acc.coeff c)).1,
      (Mldsa.publicVector p rows s1 s2).map fun acc =>
        .build fun c => (power2Round (acc.coeff c)).2) := by
  rw [map_range_getD_length hs1 .zero nttCopy]
  rw [List.foldl_ext _ (fun (t : List Poly × List Poly) i =>
    (t.1 ++ [.build fun c => (power2Round ((polyAddInto (nttInverse
        (Mldsa.mulRow (rows.getD i []) (s1.map nttCopy) p.l)) (s2.getD i .zero)).coeff c)).1],
      t.2 ++ [.build fun c => (power2Round ((polyAddInto (nttInverse
        (Mldsa.mulRow (rows.getD i []) (s1.map nttCopy) p.l)) (s2.getD i .zero)).coeff c)).2]))]
  · rw [foldl_push_pair]
    simp only [Mldsa.publicVector, List.map_map]
    rfl
  · intro t i hi
    simp only [roundRow_eq, mulRow_eq hrows (by rw [hlength]; exact List.mem_range.mp hi)]

theorem keyGenFromSeed_eq (m : ParameterSet) (xi : Bytes) :
    Mldsa.keyGenFromSeed m xi = (keyGenInternal m.info xi).map fun keys =>
      .ok (keys.1.withParam m, keys.2.withParam m) := by
  have hk : m.info.k ≠ 0 := by cases m <;> decide
  have hseed : xi ++ [m.info.k.toUInt8] ++ [m.info.l.toUInt8] =
      cat [xi, [m.info.k.toUInt8], [m.info.l.toUInt8]] := by simp [cat_eq]
  simp only [Mldsa.keyGenFromSeed, if_neg hk, keyGenInternal, hseed, shake256Sum_eq, expandA_eq,
    Mldsa.expandS, rejBoundedPoly_eq, shake256Sum_single _ (encodePK _ _)]
  generalize Mldsa.shake256Sum 128 [xi, [m.info.k.toUInt8], [m.info.l.toUInt8]] = expanded
  cases ha : Mldsa.expandA (slice expanded 0 32) m.info.k m.info.l with
  | none => rfl
  | some rows =>
      obtain ⟨hlength, hrows⟩ := expandA_shape ha
      cases hs1 : (List.range m.info.l).mapM fun i =>
          Mldsa.rejBoundedPoly (slice expanded 32 64) i m.info.eta with
      | none => rfl
      | some s1 =>
          cases hs2 : (List.range m.info.k).mapM fun i =>
              Mldsa.rejBoundedPoly (slice expanded 32 64) (m.info.l + i) m.info.eta with
          | none => rfl
          | some s2 =>
              have hs1len := (mapM_range_eq_some hs1).1
              simp only [Option.map_some, Option.bind_eq_bind, Option.bind_some, Option.pure_def,
                roundRows_eq hlength hrows hs1len]
              rw [encodePK_eq (by simp [Mldsa.publicVector]) m]
              rfl

end Keys

/-! ## Signing -/

/-- A loop over rows, each of which is computed with the value carried along. -/
theorem foldl_rows {γ : Type} {row : ℕ → γ → Poly × γ} {f : ℕ → Poly} {g : γ → ℕ → γ}
    (hrow : ∀ i c, row i c = (f i, g c i)) (l : List ℕ) (c : γ) :
    l.foldl (fun s i => (s.1 ++ [(row i s.2).1], (row i s.2).2)) ([], c) =
      (l.map f, l.foldl g c) := by
  simp only [hrow]
  rw [foldl_push f g, List.nil_append]

theorem lowerRow_eq (gamma2 : ℤ) (w cs2 : Poly) (norm : ℤ) :
    lowerRow gamma2 w cs2 norm = (.build fun cc => modQ (w.coeff cc - cs2.coeff cc),
      (List.range N).foldl (fun max cc =>
        maxAbs max (lowBits (modQ (w.coeff cc - cs2.coeff cc)) gamma2)) norm) :=
  @foldl_coeffs ℤ _ (fun cc => modQ (w.coeff cc - cs2.coeff cc))
    (fun max cc => maxAbs max (lowBits (modQ (w.coeff cc - cs2.coeff cc)) gamma2))
    (fun _ _ _ _ => rfl) norm

/-- The hint for one coefficient. -/
def needsHint (gamma2 : ℤ) (wcs2 ct0 : Poly) (cc : ℕ) : Prop :=
  highBits (modQ (wcs2.coeff cc + ct0.coeff cc)) gamma2 ≠ highBits (wcs2.coeff cc) gamma2

instance (gamma2 : ℤ) (wcs2 ct0 : Poly) (cc : ℕ) : Decidable (needsHint gamma2 wcs2 ct0 cc) :=
  inferInstanceAs (Decidable (_ ≠ _))

theorem hintRow_eq (gamma2 : ℤ) (wcs2 ct0 : Poly) (norm : ℤ) (count : ℕ) :
    hintRow gamma2 wcs2 ct0 norm count =
      (.build fun cc => if needsHint gamma2 wcs2 ct0 cc then 1 else 0,
        (List.range N).foldl (fun max cc => maxAbs max (centered (modQ (ct0.coeff cc)))) norm,
        (List.range N).foldl (fun count cc =>
          if needsHint gamma2 wcs2 ct0 cc then count + 1 else count) count) := by
  rw [← foldl_prod]
  refine @foldl_coeffs (ℤ × ℕ) _ (fun cc => if needsHint gamma2 wcs2 ct0 cc then 1 else 0) _ ?_ _
  intro s cc hcc hzero
  by_cases hhint : needsHint gamma2 wcs2 ct0 cc
  · simp only [if_pos hhint]
    exact if_pos hhint
  · simp only [if_neg hhint]
    rw [setCoeff_coeff s.1 hcc hzero]
    exact if_neg hhint

section Rows
variable {p : Params} {chat : Poly}

/-- The loop that fills `w` and `w1`. -/
theorem commitments_eq {rows : List (List Poly)} (hlength : rows.length = p.k)
    (hrows : ∀ row ∈ rows, row.length = p.l) (yhat : List Poly) :
    (List.range p.k).foldl (fun (w : List Poly × List Poly) i =>
      let acc := nttInverse (mulRow rows.flatten i yhat p.l)
      (w.1 ++ [acc], w.2 ++ [.build fun c => highBits (acc.coeff c) p.gamma2])) ([], []) =
    (Mldsa.commitment p rows yhat,
      (Mldsa.commitment p rows yhat).map fun acc => .build fun c => highBits (acc.coeff c) p.gamma2) := by
  rw [List.foldl_ext _ (fun (w : List Poly × List Poly) i =>
    (w.1 ++ [nttInverse (Mldsa.mulRow (rows.getD i []) yhat p.l)],
      w.2 ++ [.build fun c => highBits ((nttInverse
        (Mldsa.mulRow (rows.getD i []) yhat p.l)).coeff c) p.gamma2]))]
  · rw [foldl_push_pair]
    simp only [Mldsa.commitment, List.map_map]
    rfl
  · intro t i hi
    simp only [mulRow_eq hrows (by rw [hlength]; exact List.mem_range.mp hi)]

/-- The loop that fills `wcs2` and finds the largest low bits. -/
theorem lowered_eq (w s2hat : List Poly) :
    (List.range p.k).foldl (fun (low : List Poly × ℤ) i =>
      let cs2 := nttInverse (pointwise chat (s2hat.getD i .zero))
      let row := lowerRow p.gamma2 (w.getD i .zero) cs2 low.2
      (low.1 ++ [row.1], row.2)) ([], 0) =
    (Mldsa.lowered p w chat s2hat, Mldsa.lowNorm p (Mldsa.lowered p w chat s2hat)) := by
  refine (foldl_rows (fun i norm => lowerRow_eq p.gamma2 (w.getD i .zero)
    (Mldsa.mulChallenge chat (s2hat.getD i .zero)) norm) _ _).trans (Prod.ext rfl ?_)
  simp only [Mldsa.lowNorm, Mldsa.lowered, List.foldl_map]
  refine List.foldl_ext _ _ _ fun max i _ => ?_
  refine List.foldl_ext _ _ _ fun max cc hcc => ?_
  rw [Poly.coeff_build _ (List.mem_range.mp hcc)]

/-- The loop that fills the hints, finds the largest coefficient of `ct0` and counts the ones. -/
theorem hints_eq (wcs2 t0hat : List Poly) :
    (List.range p.k).foldl (fun (hints : List Poly × ℤ × ℕ) i =>
      let ct0 := nttInverse (pointwise chat (t0hat.getD i .zero))
      let row := hintRow p.gamma2 (wcs2.getD i .zero) ct0 hints.2.1 hints.2.2
      (hints.1 ++ [row.1], row.2)) ([], 0, 0) =
    (Mldsa.makeHints p wcs2 ((List.range p.k).map fun i =>
        Mldsa.mulChallenge chat (t0hat.getD i .zero)),
      Mldsa.centeredNorm ((List.range p.k).map fun i =>
        Mldsa.mulChallenge chat (t0hat.getD i .zero)),
      Mldsa.hintCount (Mldsa.makeHints p wcs2 ((List.range p.k).map fun i =>
        Mldsa.mulChallenge chat (t0hat.getD i .zero)))) := by
  have hmake : Mldsa.makeHints p wcs2 ((List.range p.k).map fun i =>
      Mldsa.mulChallenge chat (t0hat.getD i .zero)) = (List.range p.k).map fun i =>
        .build fun cc => if needsHint p.gamma2 (wcs2.getD i .zero)
          (Mldsa.mulChallenge chat (t0hat.getD i .zero)) cc then 1 else 0 := by
    refine List.map_congr_left fun i hi => ?_
    rw [Mldsa.getD_map_range (List.mem_range.mp hi)]
    rfl
  rw [hmake]
  refine (foldl_rows (fun i (s : ℤ × ℕ) => hintRow_eq p.gamma2 (wcs2.getD i .zero)
    (Mldsa.mulChallenge chat (t0hat.getD i .zero)) s.1 s.2) _ _).trans ?_
  rw [foldl_prod (fun max i => (List.range N).foldl (fun max cc => maxAbs max
      (centered (modQ ((Mldsa.mulChallenge chat (t0hat.getD i .zero)).coeff cc)))) max)
    (fun count i => (List.range N).foldl (fun count cc => if needsHint p.gamma2 (wcs2.getD i .zero)
      (Mldsa.mulChallenge chat (t0hat.getD i .zero)) cc then count + 1 else count) count)]
  refine Prod.ext rfl (Prod.ext ?_ ?_)
  · simp only [Mldsa.centeredNorm, List.foldl_map]
  · simp only [Mldsa.hintCount, List.foldl_map]
    refine List.foldl_ext _ _ _ fun count i _ => ?_
    refine List.foldl_ext _ _ _ fun count cc hcc => ?_
    rw [Poly.coeff_build _ (List.mem_range.mp hcc)]
    by_cases hhint : needsHint p.gamma2 (wcs2.getD i .zero)
        (Mldsa.mulChallenge chat (t0hat.getD i .zero)) cc
    · rw [if_pos hhint, if_pos hhint, if_pos rfl]
    · rw [if_neg hhint, if_neg hhint, if_neg (by decide)]

end Rows

section Sign
variable [Xof]

/-- The state of the port: the matrix in one vector. -/
def SignState.of (s : Mldsa.SignState) : SignState :=
  { a := s.a.flatten, mu := s.mu, rhoPP := s.rhoPP, s1hat := s.s1hat, s2hat := s.s2hat
    t0hat := s.t0hat }

theorem signAttempt_eq {p : Params} (hk : 0 < p.k) {s : Mldsa.SignState}
    (hlength : s.a.length = p.k) (hrows : ∀ row ∈ s.a, row.length = p.l) (kappa : ℕ) :
    signAttempt p (.of s) kappa = Mldsa.signAttempt p s kappa := by
  have hy : (Mldsa.expandMask s.rhoPP kappa p.l p.gamma1).length = p.l := by
    simp [Mldsa.expandMask]
  have hw1 : ∀ (w : List Poly) (f : Poly → Poly) (bits : ℕ), w.length = p.k →
      (List.range p.k).foldl (fun out i => out ++ simpleBitPack ((w.map f).getD i .zero) bits) [] =
        Mldsa.packW1 (w.map f) bits := by
    intro w f bits hw
    rw [foldl_append_flatMap, List.nil_append]
    simp only [simpleBitPack_eq]
    have hmap : (w.map f).length = p.k := by rw [List.length_map, hw]
    exact flatMap_range_getD hmap .zero fun t => Mldsa.simpleBitPack t bits
  have hcommitment : ∀ yhat, (Mldsa.commitment p s.a yhat).length = p.k := by
    simp [Mldsa.commitment]
  simp only [signAttempt, Mldsa.signAttempt, SignState.of, expandMask_eq,
    map_range_getD_length hy .zero nttCopy, commitments_eq hlength hrows, hw1 _ _ _ (hcommitment _),
    shake256Sum_eq, sampleInBall_eq, lowered_eq, hints_eq, appendPacked_eq]
  refine congrArg (Option.bind _) (funext fun c => ?_)
  refine if_congr Iff.rfl rfl (if_congr Iff.rfl rfl (if_congr Iff.rfl rfl (if_congr Iff.rfl rfl ?_)))
  symm
  split
  · next hpack => rw [if_pos (hintPack_of_none hpack)]
  · next hintBytes hpack =>
    rw [if_neg (hintPack_ne_nil hk hpack), hintPack_of_some hpack]
    rfl

/-- What is returned for a result of `Sign`. -/
def signedBytes : Except Mldsa.Error Bytes → Bytes
  | .ok sig => sig
  | .error _ => []

theorem signLoop_eq {p : Params} (hk : 0 < p.k) {s : Mldsa.SignState}
    (hlength : s.a.length = p.k) (hrows : ∀ row ∈ s.a, row.length = p.l) (left : ℕ) :
    ∀ kappa, signLoop p (.of s) (List.range' kappa left p.l) =
      (Mldsa.signLoop p s left kappa).map signedBytes := by
  induction left with
  | zero => exact fun _ => rfl
  | succ left ih =>
      intro kappa
      rw [List.range'_succ, signLoop, Mldsa.signLoop, signAttempt_eq hk hlength hrows]
      rcases Mldsa.signAttempt p s kappa with _ | _ | sig
      · rfl
      · exact ih _
      · rfl

theorem signCore_eq (m : ParameterSet) (sk : SecretKey) (msg rnd : Bytes) :
    signCore m.info sk msg [] rnd =
      (Mldsa.sign m (sk.withParam m) msg rnd).map signedBytes := by
  have hk : 0 < m.info.k := by cases m <;> decide
  have hframed : framed [] msg = Mldsa.framedMessage msg := rfl
  simp only [signCore, Mldsa.sign, SecretKey.withParam, expandA_eq, hframed, shake256Sum_eq,
    foldl_push_pair]
  cases ha : Mldsa.expandA sk.rho.toList m.info.k m.info.l with
  | none => rfl
  | some rows =>
      obtain ⟨hlength, hrows⟩ := expandA_shape ha
      simp only [Option.map_some, Option.bind_eq_bind, Option.bind_some]
      rw [← signLoop_eq hk hlength hrows]
      rfl

end Sign

/-! ## Verification -/

/-- The length that the port checks is the one of the Go package. -/
theorem sigSize_eq (m : ParameterSet) : sigSize m.info = m.signatureSize := by
  rw [← Mldsa.signatureSize_eq, sigSize, zBytesPerPoly, Mldsa.bytesPerPoly_eq, Nat.add_assoc]
  rfl

theorem signatureSize_lt (m : ParameterSet) : m.signatureSize < 2 ^ 31 := by
  cases m <;> decide

/-- Longer lengths pass the check as well, namely those that are the same modulo `2^32`. -/
theorem int32_length (m : ParameterSet) (n : ℕ) :
    int32 n = sigSize m.info ↔ n % 2 ^ 32 = m.signatureSize := by
  have hsize := signatureSize_lt m
  rw [sigSize_eq]
  constructor
  · intro h
    have hmod := Mldsa.int32_emod n
    rw [h] at hmod
    omega
  · intro h
    exact Mldsa.int32_eq (by omega) (by omega) (by omega)

/-- What the port returns for a result of `Verify`. -/
def accepted : Except Mldsa.Error Unit → Bool
  | .ok _ => true
  | .error _ => false

section Verify
variable [Xof] {m : ParameterSet} {pk : PublicKey} {msg : Bytes}

/-- Only the first bytes of a signature are read. -/
theorem verifyCore_append {sig extra : Bytes} (hsig : sig.length = m.signatureSize)
    (hextra : extra.length % 2 ^ 32 = 0) :
    verifyCore m.info pk msg [] (sig ++ extra) = verifyCore m.info pk msg [] sig := by
  have hsize := sigSize_eq m
  have hlong : int32 ↑(sig ++ extra).length = sigSize m.info := by
    rw [int32_length, List.length_append]
    have hbound := signatureSize_lt m
    omega
  have hshort : int32 ↑sig.length = sigSize m.info := by
    rw [int32_length]
    have hbound := signatureSize_lt m
    omega
  rw [verifyCore, verifyCore, if_neg (not_not.mpr hlong), if_neg (not_not.mpr hshort)]
  rw [sigSize] at hsize
  have hz : ((List.range m.info.l).map fun j => bitUnpack (slice (sig ++ extra)
        (m.info.ctBytes + j * zBytesPerPoly m.info) (zBytesPerPoly m.info)) m.info.gamma1
        (zbits m.info)) =
      (List.range m.info.l).map fun j => bitUnpack (slice sig
        (m.info.ctBytes + j * zBytesPerPoly m.info) (zBytesPerPoly m.info)) m.info.gamma1
        (zbits m.info) := by
    refine List.map_congr_left fun j hj => ?_
    have hfits : (j + 1) * zBytesPerPoly m.info ≤ m.info.l * zBytesPerPoly m.info :=
      Nat.mul_le_mul_right _ (List.mem_range.mp hj)
    rw [Nat.succ_mul] at hfits
    rw [slice_append_left (by omega)]
  have hctilde : slice (sig ++ extra) 0 m.info.ctBytes = slice sig 0 m.info.ctBytes :=
    slice_append_left (by omega)
  have hhint : slice (sig ++ extra) (m.info.ctBytes + m.info.l * zBytesPerPoly m.info)
      (m.info.omega + m.info.k) = slice sig (m.info.ctBytes + m.info.l * zBytesPerPoly m.info)
      (m.info.omega + m.info.k) := slice_append_left (by omega)
  simp only [hz, hctilde, hhint]

omit [Xof] in
/-- The loop that packs the recomputed rows. -/
theorem recomputed_eq {p : Params} {rows : List (List Poly)} (hlength : rows.length = p.k)
    (hrows : ∀ row ∈ rows, row.length = p.l) (zhat t1hat h : List Poly) (chat : Poly) :
    (List.range p.k).foldl (fun out i =>
      let acc := mulRow rows.flatten i zhat p.l
      let ct1 := pointwise chat (t1hat.getD i .zero)
      let acc := nttInverse (.build fun cc => modQ (acc.coeff cc - ct1.coeff cc))
      let w1 : Poly := .build fun cc => useHint ((h.getD i .zero).coeff cc) (acc.coeff cc) p.gamma2
      out ++ simpleBitPack w1 (w1bits p)) [] =
    Mldsa.packW1 ((List.range p.k).map fun i => Mldsa.recomputeRow p (rows.getD i []) zhat chat
      (t1hat.getD i .zero) (h.getD i .zero)) (Mldsa.w1bits p) := by
  rw [Mldsa.packW1, List.flatMap_map, ← List.nil_append (List.flatMap _ _), ← foldl_append_flatMap]
  refine List.foldl_ext _ _ _ fun out i hi => ?_
  simp only [mulRow_eq hrows (by rw [hlength]; exact List.mem_range.mp hi), simpleBitPack_eq]
  rfl

omit [Xof] in
/-- The comparison at the end. -/
theorem compared_eq (a b : Bytes) :
    (if b.length ≠ a.length then some false
      else some (decide ((List.range a.length).foldl
        (fun diff i => diff ||| (a.getD i 0 ^^^ b.getD i 0)) 0 = 0))) =
      some (Mldsa.constantTimeEqual a b) := by
  rw [Mldsa.constantTimeEqual]
  by_cases hlength : a.length = b.length
  · rw [if_neg (not_not.mpr hlength.symm), if_neg (not_not.mpr hlength)]
  · rw [if_pos (Ne.symm hlength), if_pos hlength]

/-- The two verifications of a signature of the right length. -/
theorem verifyCore_eq (ht1 : pk.t1.length = m.info.k) {sig : Bytes}
    (hsig : sig.length = m.signatureSize) :
    verifyCore m.info pk msg [] sig =
      (Mldsa.verify m (pk.withParam m) msg sig).map accepted := by
  have hsize := sigSize_eq m
  have hlength : int32 ↑sig.length = sigSize m.info := by
    rw [int32_length]
    have hbound := signatureSize_lt m
    omega
  rw [sigSize] at hsize
  have hhint : (slice sig (m.info.ctBytes + m.info.l * zBytesPerPoly m.info)
      (m.info.omega + m.info.k)).length = m.info.omega + m.info.k := length_slice (by omega)
  have htr : shake256Sum 64 (encodePK m.info pk) =
      Mldsa.shake256Sum 64 [Mldsa.publicKeyToBytes (pk.withParam m)] := by
    rw [shake256Sum_single, encodePK_eq ht1 m]
  have hrho : (pk.withParam m).rho = pk.rho := rfl
  have hkept : (pk.withParam m).t1 = pk.t1 := rfl
  have hframed : framed [] msg = Mldsa.framedMessage msg := rfl
  have hzlen : (Mldsa.unpackVec sig m.info.ctBytes m.info.l (zBytesPerPoly m.info) fun buf =>
      Mldsa.bitUnpack buf (m.info.gamma1 - 1) m.info.gamma1 (zbits m.info)).length = m.info.l := by
    simp [Mldsa.unpackVec]
  have hz : ((List.range m.info.l).map fun j => bitUnpack (slice sig
      (m.info.ctBytes + j * zBytesPerPoly m.info) (zBytesPerPoly m.info)) m.info.gamma1
      (zbits m.info)) = Mldsa.unpackVec sig m.info.ctBytes m.info.l (zBytesPerPoly m.info) fun buf =>
        Mldsa.bitUnpack buf (m.info.gamma1 - 1) m.info.gamma1 (zbits m.info) := rfl
  have hbits : Mldsa.zbits m.info = zbits m.info := rfl
  have hgo : N * zbits m.info / 8 = zBytesPerPoly m.info := rfl
  rw [verifyCore, if_neg (not_not.mpr hlength), Mldsa.verify, if_neg (not_not.mpr hsig)]
  simp only [hz, hgo, hbits, hintUnpack_eq hhint]
  generalize Mldsa.unpackVec sig m.info.ctBytes m.info.l (zBytesPerPoly m.info) (fun buf =>
    Mldsa.bitUnpack buf (m.info.gamma1 - 1) m.info.gamma1 (zbits m.info)) = z at hzlen
  generalize slice sig 0 m.info.ctBytes = ctilde
  generalize Mldsa.hintUnpack (slice sig (m.info.ctBytes + m.info.l * zBytesPerPoly m.info)
    (m.info.omega + m.info.k)) m.info.omega m.info.k = unpacked
  cases unpacked with
  | none => rfl
  | some h =>
      by_cases hnorm : m.info.gamma1 - m.info.beta ≤ polyVecInfNorm z
      · simp only [if_pos hnorm]
        rfl
      · simp only [if_neg hnorm, expandA_eq, sampleInBall_eq, htr, hrho, hkept, hframed,
          shake256Sum_eq, map_range_getD_length hzlen .zero nttCopy]
        cases ha : Mldsa.expandA pk.rho.toList m.info.k m.info.l with
        | none => rfl
        | some rows =>
            obtain ⟨hrowsLength, hrows⟩ := expandA_shape ha
            cases Mldsa.sampleInBall ctilde m.info.tau with
            | none => rfl
            | some c =>
                simp only [Option.map_some, Option.bind_eq_bind, Option.bind_some, Option.pure_def,
                  recomputed_eq hrowsLength hrows]
                rw [compared_eq]
                cases Mldsa.constantTimeEqual _ _ <;> rfl

omit [Xof] in
theorem accepted_eq_true {r : Option (Except Mldsa.Error Unit)} :
    r.map accepted = some true ↔ r = some (.ok ()) := by
  rcases r with _ | _ | _ <;> simp [accepted]

/-- The port accepts a signature when Go accepts the part of it that counts. -/
theorem verifyCore_accepts (ht1 : pk.t1.length = m.info.k) {sig : Bytes} :
    verifyCore m.info pk msg [] sig = some true ↔ sig.length % 2 ^ 32 = m.signatureSize ∧
      Mldsa.verify m (pk.withParam m) msg (sig.take m.signatureSize) = some (.ok ()) := by
  by_cases hlength : sig.length % 2 ^ 32 = m.signatureSize
  · have htake : (sig.take m.signatureSize).length = m.signatureSize := by
      rw [List.length_take]
      omega
    have hdrop : (sig.drop m.signatureSize).length % 2 ^ 32 = 0 := by
      rw [List.length_drop]
      omega
    have happend := @verifyCore_append _ m pk msg _ _ htake hdrop
    rw [List.take_append_drop] at happend
    rw [happend, verifyCore_eq ht1 htake, accepted_eq_true]
    exact (and_iff_right hlength).symm
  · have hcheck : int32 ↑sig.length ≠ sigSize m.info := mt (int32_length m _).mp hlength
    rw [verifyCore, if_pos hcheck]
    exact iff_of_false (by simp) fun h => hlength h.1

theorem length_of_verify {pk : Mldsa.PublicKey} {sig : Bytes}
    (h : Mldsa.verify m pk msg sig = some (.ok ())) : sig.length = m.signatureSize := by
  by_contra hlength
  rw [Mldsa.verify, if_pos hlength] at h
  cases h

end Verify

/-! ## The two implementations -/

/-- The level of a parameter set. -/
def level : ParameterSet → ℕ
  | .mldsa44 => 44
  | .mldsa65 => 65
  | .mldsa87 => 87

theorem paramFor_level (m : ParameterSet) : paramFor (level m) = m.info := by
  cases m <;> rfl

section Agreement
variable [Xof]

theorem length_t1 {p : Params} {xi : Bytes} {pk : PublicKey} {sk : SecretKey}
    (h : keyGenInternal p xi = some (pk, sk)) : pk.t1.length = p.k := by
  rw [keyGenInternal] at h
  obtain ⟨a, -, h⟩ := Option.bind_eq_some_iff.mp h
  obtain ⟨s1, -, h⟩ := Option.bind_eq_some_iff.mp h
  obtain ⟨s2, -, h⟩ := Option.bind_eq_some_iff.mp h
  simp only [foldl_push_pair, Option.pure_def, Option.some.injEq, Prod.mk.injEq] at h
  rw [← h.1, List.length_map, List.length_range]

/-- The key pairs of a seed have the same bytes, sign a message to the same bytes and verify the
same signatures of it; or neither generation ends within the rounds. -/
def Agree (m : ParameterSet) (xi msg rnd sig : Bytes) : Prop :=
  (keyGenInternal (paramFor (level m)) xi = none ∧ Mldsa.keyGenFromSeed m xi = none) ∨
  ∃ pk sk pk' sk', keyGenInternal (paramFor (level m)) xi = some (pk, sk) ∧
    Mldsa.keyGenFromSeed m xi = some (.ok (pk', sk')) ∧
    encodePK (paramFor (level m)) pk = Mldsa.publicKeyToBytes pk' ∧
    encodeSK (paramFor (level m)) sk = Mldsa.secretKeyToBytes m sk' ∧
    signCore (paramFor (level m)) sk msg [] rnd =
      (Mldsa.sign m sk' msg rnd).map signedBytes ∧
    (verifyCore (paramFor (level m)) pk msg [] sig = some true ↔
      Mldsa.verify m pk' msg sig = some (.ok ()))

/-- All but the verification of the signature agrees. -/
theorem agree_iff (m : ParameterSet) (xi msg rnd sig : Bytes) :
    Agree m xi msg rnd sig ↔ ∀ pk sk, Mldsa.keyGenFromSeed m xi = some (.ok (pk, sk)) →
      (sig.length % 2 ^ 32 = m.signatureSize ∧
          Mldsa.verify m pk msg (sig.take m.signatureSize) = some (.ok ()) ↔
        Mldsa.verify m pk msg sig = some (.ok ())) := by
  have hgo := keyGenFromSeed_eq m xi
  rw [Agree, paramFor_level]
  cases hport : keyGenInternal m.info xi with
  | none =>
      rw [hport] at hgo
      simp [hgo]
  | some keys =>
      obtain ⟨pk, sk⟩ := keys
      have ht1 := length_t1 hport
      rw [hport, Option.map_some] at hgo
      constructor
      · rintro (⟨hnone, -⟩ | ⟨pk₁, sk₁, pk', sk', hkeys, hgo', -, -, -, hverify⟩)
        · cases hnone
        · intro pk'' sk'' hgo''
          cases hkeys
          rw [hgo] at hgo' hgo''
          cases hgo'
          cases hgo''
          rw [← verifyCore_accepts ht1]
          exact hverify
      · intro h
        refine .inr ⟨pk, sk, pk.withParam m, sk.withParam m, rfl, hgo, encodePK_eq ht1 m,
          encodeSK_eq m sk, signCore_eq m sk msg rnd, ?_⟩
        rw [verifyCore_accepts ht1]
        exact h _ _ hgo

/-- **The two implementations agree** on every seed, message, random string and signature, unless
the signature is too long by a multiple of `2^32` bytes and the part of the right length in front
is a signature that verifies. -/
theorem implementations_agree_iff (m : ParameterSet) (xi msg rnd sig : Bytes) :
    Agree m xi msg rnd sig ↔
      (sig.length % 2 ^ 32 = m.signatureSize → sig.length ≠ m.signatureSize →
        ∀ pk sk, Mldsa.keyGenFromSeed m xi = some (.ok (pk, sk)) →
          Mldsa.verify m pk msg (sig.take m.signatureSize) ≠ some (.ok ())) := by
  have hbound := signatureSize_lt m
  rw [agree_iff]
  constructor
  · intro h hmod hlength pk sk hkey hverify
    exact hlength (length_of_verify ((h pk sk hkey).mp ⟨hmod, hverify⟩))
  · intro h pk sk hkey
    by_cases hlength : sig.length = m.signatureSize
    · rw [← hlength, List.take_length]
      exact and_iff_right (by omega)
    · constructor
      · rintro ⟨hmod, hverify⟩
        exact absurd hverify (h hmod hlength pk sk hkey)
      · intro hverify
        exact absurd (length_of_verify hverify) hlength

end Agreement

/-- A signature with `2^32` bytes behind it, over streams that are constant so that the run can be
followed. -/
theorem implementations_disagree : letI := Mldsa.Xof.constant
    ∃ pk sk sig, Mldsa.keyGenFromSeed .mldsa65 (List.replicate 32 0) = some (.ok (pk, sk)) ∧
      Mldsa.sign .mldsa65 sk [] (List.replicate 32 0) = some (.ok sig) ∧
      ¬ Agree .mldsa65 (List.replicate 32 0) [] (List.replicate 32 0)
        (sig ++ List.replicate (2 ^ 32) 0) := by
  let _ := Mldsa.Xof.constant
  obtain ⟨pk, sk, hkey⟩ :=
    Mldsa.keyGenFromSeed_constant Mldsa.constantStreams_constant (List.replicate 32 0)
  obtain ⟨sig, hsign⟩ :=
    Mldsa.sign_constant Mldsa.constantStreams_constant hkey [] (List.replicate 32 0)
  refine ⟨pk, sk, sig, hkey, hsign, ?_⟩
  obtain ⟨a, kappa, ha, t, rfl⟩ := Mldsa.sign_eq_some hsign
  have hlength : t.bytes.length = ParameterSet.signatureSize .mldsa65 := t.length_bytes
  have hverify := t.verifies hkey ha
  have hlong : (t.bytes ++ List.replicate (2 ^ 32) 0).length =
      ParameterSet.signatureSize .mldsa65 + 2 ^ 32 := by
    rw [List.length_append, hlength, List.length_replicate]
  intro hagree
  have haccepted := ((agree_iff _ _ _ _ _).mp hagree pk sk hkey).mp
    ⟨by rw [hlong]; rfl, by rw [List.take_left' hlength]; exact hverify⟩
  have hshort := length_of_verify haccepted
  rw [hlong] at hshort
  omega

end BhtBhte.Fips204
