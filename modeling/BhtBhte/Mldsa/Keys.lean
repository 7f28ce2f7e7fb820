import BhtBhte.Mldsa.Packing
import BhtBhte.Mldsa.Rounding
import BhtBhte.Mldsa.Sampling

/-!
# Encoded keys

The fields of an encoded key stand one after the other and have fixed sizes.  A key from
`keyGenFromSeed` has coefficients in the ranges of their fields, so it is read back; a byte string
of the right length is read as a key whatever its fields hold, and written back the same.
-/
namespace BhtBhte.Mldsa
open BhtBhte.Lib

/-! ## Sizes -/

theorem bitlen_eq {x n : ℕ} (hlow : 2 ^ n ≤ x) (hhigh : x < 2 ^ (n + 1)) : bitlen x = n + 1 := by
  induction n generalizing x with
  | zero =>
      have hx : x = 1 := by omega
      subst hx
      rw [bitlen, bitlen]
      rfl
  | succ n ih =>
      have hpow := Nat.pow_pos (n := n) (a := 2) (by decide)
      rw [Nat.pow_succ] at hlow hhigh
      rw [bitlen, dif_neg (by omega), Nat.shiftRight_eq_div_pow, ih] <;> omega

/-- The width of a secret coefficient. -/
theorem etabits_eq (m : ParameterSet) :
    bitlen (2 * m.info.eta) = if m = .mldsa65 then 4 else 3 := by
  cases m
  · exact bitlen_eq (n := 2) (by decide) (by decide)
  · exact bitlen_eq (n := 3) (by decide) (by decide)
  · exact bitlen_eq (n := 2) (by decide) (by decide)

theorem bytesPerPoly_eq (bits : ℕ) : N * bits / 8 = 32 * bits := by
  rw [show N = 256 from rfl]
  omega

theorem eta_cases (m : ParameterSet) : m.info.eta = 2 ∨ m.info.eta = 4 := by
  cases m <;> decide

/-! ## Fixed fields -/

theorem copyBytes_toList {n : ℕ} (v : Vector UInt8 n) : copyBytes n v.toList = v := by
  apply Vector.ext
  intro i hi
  rw [copyBytes, Vector.getElem_ofFn, List.getD_eq_getElem _ _ (by simpa using hi),
    Vector.getElem_toList]

theorem toList_copyBytes {n : ℕ} {b : Bytes} (h : b.length = n) : (copyBytes n b).toList = b := by
  apply List.ext_getElem (by simp [h])
  intro i h₁ h₂
  rw [Vector.getElem_toList]
  simp only [copyBytes, Vector.getElem_ofFn]
  exact List.getD_eq_getElem _ _ h₂

/-! ## Vectors -/

section Vectors
variable (pack : Poly → Bytes) (unpack : Bytes → Poly) {size : ℕ}

/-- The vector in the middle of an encoding is read back. -/
theorem unpackVec_flatMap (hsize : ∀ p, (pack p).length = size) {v : List Poly} {n : ℕ}
    (hn : v.length = n) (hinv : ∀ p ∈ v, unpack (pack p) = p) {pre : Bytes} {off : ℕ}
    (hoff : pre.length = off) (post : Bytes) :
    unpackVec (pre ++ ((List.range n).flatMap fun i => pack (v.getD i .zero)) ++ post) off n size
      unpack = v := by
  subst hn
  subst hoff
  have hpiece : ∀ i < v.length,
      slice (pre ++ ((List.range v.length).flatMap fun i => pack (v.getD i .zero)) ++ post)
        (pre.length + i * size) size = pack (v.getD i .zero) := by
    intro i hi
    have hend : i * size + size ≤ v.length * size := by
      rw [← Nat.succ_mul]
      exact Nat.mul_le_mul_right size hi
    have hlen := length_flatMap_range (f := fun i => pack (v.getD i .zero)) (fun i => hsize _)
      v.length
    rw [List.append_assoc, slice_append_right, slice_append_left (by rw [hlen]; exact hend),
      slice_flatMap (fun i => hsize _) hi]
  apply List.ext_getElem (by simp [unpackVec])
  intro i h₁ h₂
  simp only [unpackVec, List.getElem_map, List.getElem_range]
  rw [hpiece i h₂, List.getD_eq_getElem _ _ h₂, hinv _ (List.getElem_mem h₂)]

/-- The vector at an offset is written back. -/
theorem flatMap_unpackVec (hinv : ∀ b : Bytes, b.length = size → pack (unpack b) = b) {data : Bytes}
    {off n : ℕ} (hlen : off + n * size ≤ data.length) :
    ((List.range n).flatMap fun i => pack ((unpackVec data off n size unpack).getD i .zero)) =
      slice data off (n * size) := by
  rw [← flatMap_slice]
  apply List.flatMap_congr
  intro i hi
  rw [List.mem_range] at hi
  have hend : i * size + size ≤ n * size := by
    rw [← Nat.succ_mul]
    exact Nat.mul_le_mul_right size hi
  rw [unpackVec, List.getD_eq_getElem _ _ (by simpa using hi), List.getElem_map, List.getElem_range,
    hinv _ (length_slice (by omega))]

end Vectors

theorem length_packVec (v : List Poly) (n : ℕ) (b : ℤ) (bits : ℕ) :
    (packVec v n b bits).length = n * (32 * bits) :=
  length_flatMap_range (fun _ => length_bitPack _ _ _) n

theorem unpackVec_packVec {v : List Poly} {n : ℕ} {a b : ℤ} {bits : ℕ} (hbits : bits ≤ 31)
    (hn : v.length = n)
    (hv : ∀ p ∈ v, ∀ i < N, 0 ≤ b - p.coeff i ∧ b - p.coeff i < 2 ^ bits ∧ -2 ^ 31 ≤ p.coeff i ∧
      p.coeff i < 2 ^ 31) {pre : Bytes} {off : ℕ} (hoff : pre.length = off) (post : Bytes) :
    unpackVec (pre ++ packVec v n b bits ++ post) off n (32 * bits)
      (fun buf => bitUnpack buf a b bits) = v :=
  unpackVec_flatMap (fun p => bitPack p b bits) (fun buf => bitUnpack buf a b bits)
    (fun p => length_bitPack p b bits) hn (fun p hp => bitUnpack_bitPack hbits (hv p hp)) hoff post

theorem packVec_unpackVec {data : Bytes} {off n : ℕ} {a b : ℤ} {bits : ℕ} (hbits : bits ≤ 32)
    (hlen : off + n * (32 * bits) ≤ data.length) :
    packVec (unpackVec data off n (32 * bits) fun buf => bitUnpack buf a b bits) n b bits =
      slice data off (n * (32 * bits)) :=
  flatMap_unpackVec (fun p => bitPack p b bits) (fun buf => bitUnpack buf a b bits)
    (fun _ hb => bitPack_bitUnpack hbits hb) hlen

/-! ## Well-formed keys -/

/-- The fields of a public key hold its coefficients. -/
structure PublicKey.WellFormed (m : ParameterSet) (pk : PublicKey) : Prop where
  param : pk.param = m
  length_t1 : pk.t1.length = m.info.k
  t1 : ∀ p ∈ pk.t1, ∀ i < N, 0 ≤ p.coeff i ∧ p.coeff i < 2 ^ 10

/-- The fields of a secret key hold its coefficients. -/
structure SecretKey.WellFormed (m : ParameterSet) (sk : SecretKey) : Prop where
  param : sk.param = m
  length_s1 : sk.s1.length = m.info.l
  length_s2 : sk.s2.length = m.info.k
  length_t0 : sk.t0.length = m.info.k
  s1 : ∀ p ∈ sk.s1, ∀ i, -(m.info.eta : ℤ) ≤ p.coeff i ∧ p.coeff i ≤ m.info.eta
  s2 : ∀ p ∈ sk.s2, ∀ i, -(m.info.eta : ℤ) ≤ p.coeff i ∧ p.coeff i ≤ m.info.eta
  t0 : ∀ p ∈ sk.t0, ∀ i < N, -2 ^ 12 < p.coeff i ∧ p.coeff i ≤ 2 ^ 12

theorem publicKeyToBytes_eq {m : ParameterSet} {pk : PublicKey} (h : pk.t1.length = m.info.k) :
    publicKeyToBytes pk = pk.rho.toList ++
      (List.range m.info.k).flatMap fun i => simpleBitPack (pk.t1.getD i .zero) 10 := by
  rw [publicKeyToBytes, ← h]
  congr 1
  conv_lhs => rw [← map_range_getD pk.t1 .zero]
  rw [List.flatMap_map]

/-- The public key that is read from bytes of the right length. -/
theorem publicKeyFromBytes_eq {m : ParameterSet} {data : Bytes}
    (h : data.length = m.publicKeySize) :
    publicKeyFromBytes m data = .ok
      { param := m
        rho := copyBytes 32 (slice data 0 32)
        t1 := unpackVec data 32 m.info.k (32 * 10) fun buf => simpleBitUnpack buf 10 } := by
  rw [publicKeyFromBytes, if_neg (not_not.mpr h), bytesPerPoly_eq]

/-- The secret key that is read from bytes of the right length. -/
theorem secretKeyFromBytes_eq {m : ParameterSet} {data : Bytes} {width s1Bytes s2Bytes : ℕ}
    (hwidth : bitlen (2 * m.info.eta) = width) (hs1 : m.info.l * (32 * width) = s1Bytes)
    (hs2 : m.info.k * (32 * width) = s2Bytes) (h : data.length = m.secretKeySize) :
    secretKeyFromBytes m data = .ok
      { param := m
        rho := copyBytes 32 (slice data 0 32)
        key := copyBytes 32 (slice data 32 32)
        tr := copyBytes 64 (slice data 64 64)
        s1 := unpackVec data 128 m.info.l (32 * width) fun buf =>
          bitUnpack buf m.info.eta m.info.eta width
        s2 := unpackVec data (128 + s1Bytes) m.info.k (32 * width) fun buf =>
          bitUnpack buf m.info.eta m.info.eta width
        t0 := unpackVec data (128 + s1Bytes + s2Bytes) m.info.k (32 * D) fun buf =>
          bitUnpack buf (1 <<< (D - 1) - 1) (1 <<< (D - 1)) D } := by
  rw [secretKeyFromBytes, if_neg (not_not.mpr h)]
  simp only [bytesPerPoly_eq, hwidth, hs1, hs2]

theorem publicKeyFromBytes_publicKeyToBytes {m : ParameterSet} {pk : PublicKey}
    (h : pk.WellFormed m) : publicKeyFromBytes m (publicKeyToBytes pk) = .ok pk := by
  have hrho : pk.rho.toList.length = 32 := by simp
  have hlen : (publicKeyToBytes pk).length = m.publicKeySize := by
    rw [publicKeyToBytes_eq h.length_t1, List.length_append, hrho,
      length_flatMap_range (fun i => length_simpleBitPack _ _)]
    cases m <;> rfl
  have hslice : slice (publicKeyToBytes pk) 0 32 = pk.rho.toList := by
    rw [publicKeyToBytes, slice_left hrho]
  have ht1 := unpackVec_flatMap (fun p => simpleBitPack p 10) (fun buf => simpleBitUnpack buf 10)
    (fun p => length_simpleBitPack p 10) h.length_t1
    (fun p hp => simpleBitUnpack_simpleBitPack (by decide) (h.t1 p hp)) hrho []
  rw [List.append_nil, ← publicKeyToBytes_eq h.length_t1] at ht1
  rw [publicKeyFromBytes_eq hlen, hslice, copyBytes_toList, ht1]
  obtain ⟨rho, t1, param⟩ := pk
  obtain ⟨rfl, -, -⟩ := h
  rfl

theorem publicKeyToBytes_publicKeyFromBytes {m : ParameterSet} {data : Bytes}
    (h : data.length = m.publicKeySize) :
    ∃ pk, publicKeyFromBytes m data = .ok pk ∧ publicKeyToBytes pk = data := by
  have hsize : 32 + m.info.k * (32 * 10) = m.publicKeySize := by cases m <;> rfl
  refine ⟨_, publicKeyFromBytes_eq h, ?_⟩
  rw [publicKeyToBytes_eq (m := m) (by simp [unpackVec]),
    flatMap_unpackVec (fun p => simpleBitPack p 10) (fun buf => simpleBitUnpack buf 10)
      (fun b hb => simpleBitPack_simpleBitUnpack (by decide) hb) (by omega),
    toList_copyBytes (length_slice (by omega))]
  have hparts := slice_append_slice data 0 32 (m.info.k * (32 * 10))
  rw [Nat.zero_add, hsize, slice_all h] at hparts
  exact hparts

/-- The sizes of the three vectors of a secret key. -/
theorem secretKeySize_eq (m : ParameterSet) : ∃ width, bitlen (2 * m.info.eta) = width ∧
    width ≤ 31 ∧ 2 * (m.info.eta : ℤ) < 2 ^ width ∧
    128 + m.info.l * (32 * width) + m.info.k * (32 * width) + m.info.k * (32 * D) =
      m.secretKeySize := by
  refine ⟨_, etabits_eq m, ?_⟩
  cases m <;> decide

/-- The codes of secret coefficients fit their fields. -/
theorem fits_eta {m : ParameterSet} {width : ℕ} (hfit : 2 * (m.info.eta : ℤ) < 2 ^ width)
    {v : List Poly} (hv : ∀ p ∈ v, ∀ i, -(m.info.eta : ℤ) ≤ p.coeff i ∧ p.coeff i ≤ m.info.eta) :
    ∀ p ∈ v, ∀ i < N, 0 ≤ m.info.eta - p.coeff i ∧ m.info.eta - p.coeff i < 2 ^ width ∧
      -2 ^ 31 ≤ p.coeff i ∧ p.coeff i < 2 ^ 31 := by
  intro p hp i _
  have hbounds := hv p hp i
  have heta := eta_cases m
  omega

/-- The codes of low-order parts fit their fields. -/
theorem fits_t0 {v : List Poly} (hv : ∀ p ∈ v, ∀ i < N, -2 ^ 12 < p.coeff i ∧ p.coeff i ≤ 2 ^ 12) :
    ∀ p ∈ v, ∀ i < N, 0 ≤ ((1 <<< (D - 1) : ℕ) : ℤ) - p.coeff i ∧
      ((1 <<< (D - 1) : ℕ) : ℤ) - p.coeff i < 2 ^ D ∧ -2 ^ 31 ≤ p.coeff i ∧
      p.coeff i < 2 ^ 31 := by
  intro p hp i hi
  have hbounds := hv p hp i hi
  have hmid : ((1 <<< (D - 1) : ℕ) : ℤ) = 2 ^ 12 := rfl
  have hwide : (2 : ℤ) ^ D = 2 ^ 13 := rfl
  omega

theorem secretKeyFromBytes_secretKeyToBytes {m : ParameterSet} {sk : SecretKey}
    (h : sk.WellFormed m) : secretKeyFromBytes m (secretKeyToBytes m sk) = .ok sk := by
  obtain ⟨width, hwidth, hle, hfit, hsize⟩ := secretKeySize_eq m
  have hrho : sk.rho.toList.length = 32 := Vector.length_toList
  have hkey : sk.key.toList.length = 32 := Vector.length_toList
  have htr : sk.tr.toList.length = 64 := Vector.length_toList
  have hpre : (sk.rho.toList ++ sk.key.toList).length = 64 := by rw [List.length_append, hrho, hkey]
  have hhead : (sk.rho.toList ++ sk.key.toList ++ sk.tr.toList).length = 128 := by
    rw [List.length_append, hpre, htr]
  have hdata : ∃ p1 p2 p0, p1 = packVec sk.s1 m.info.l m.info.eta width ∧
      p2 = packVec sk.s2 m.info.k m.info.eta width ∧
      p0 = packVec sk.t0 m.info.k ((1 <<< (D - 1) : ℕ) : ℤ) D ∧
      secretKeyToBytes m sk =
        sk.rho.toList ++ sk.key.toList ++ sk.tr.toList ++ p1 ++ p2 ++ p0 := by
    refine ⟨_, _, _, rfl, rfl, rfl, ?_⟩
    rw [secretKeyToBytes]
    simp only [hwidth]
  obtain ⟨p1, p2, p0, hp1, hp2, hp0, hdata⟩ := hdata
  have hhead1 : (sk.rho.toList ++ sk.key.toList ++ sk.tr.toList ++ p1).length =
      128 + m.info.l * (32 * width) := by rw [List.length_append, hhead, hp1, length_packVec]
  have hhead2 : (sk.rho.toList ++ sk.key.toList ++ sk.tr.toList ++ p1 ++ p2).length =
      128 + m.info.l * (32 * width) + m.info.k * (32 * width) := by
    rw [List.length_append, hhead1, hp2, length_packVec]
  have hall : (sk.rho.toList ++ sk.key.toList ++ sk.tr.toList ++ p1 ++ p2 ++ p0).length =
      m.secretKeySize := by rw [List.length_append, hhead2, hp0, length_packVec, hsize]
  have hs1 := unpackVec_packVec (a := m.info.eta) hle h.length_s1 (fits_eta hfit h.s1) hhead
    (p2 ++ p0)
  have hs2 := unpackVec_packVec (a := m.info.eta) hle h.length_s2 (fits_eta hfit h.s2) hhead1 p0
  have ht0 := unpackVec_packVec (a := ((1 <<< (D - 1) : ℕ) : ℤ) - 1) (by decide) h.length_t0
    (fits_t0 h.t0) hhead2 []
  rw [← hp1] at hs1
  rw [← hp2] at hs2
  rw [← hp0] at ht0
  have hrho' := slice_left hrho (sk.key.toList ++ sk.tr.toList ++ p1 ++ p2 ++ p0)
  have hkey' := slice_middle hrho hkey (sk.tr.toList ++ p1 ++ p2 ++ p0)
  have htr' := slice_middle hpre htr (p1 ++ p2 ++ p0)
  simp only [List.append_assoc, List.append_nil] at hs1 hs2 ht0 hrho' hkey' htr' hall hdata
  rw [hdata, secretKeyFromBytes_eq hwidth rfl rfl hall, hrho', hkey', htr', copyBytes_toList,
    copyBytes_toList, copyBytes_toList, hs1, hs2, ht0, ← h.param]

theorem secretKeyToBytes_secretKeyFromBytes {m : ParameterSet} {data : Bytes}
    (h : data.length = m.secretKeySize) :
    ∃ sk, secretKeyFromBytes m data = .ok sk ∧ secretKeyToBytes m sk = data := by
  obtain ⟨width, hwidth, hle, hfit, hsize⟩ := secretKeySize_eq m
  refine ⟨_, secretKeyFromBytes_eq hwidth rfl rfl h, ?_⟩
  have hparts : slice data 0 32 ++ slice data 32 32 ++ slice data 64 64 ++
      slice data 128 (m.info.l * (32 * width)) ++
      slice data (128 + m.info.l * (32 * width)) (m.info.k * (32 * width)) ++
      slice data (128 + m.info.l * (32 * width) + m.info.k * (32 * width))
        (m.info.k * (32 * D)) = data := by
    have h1 := slice_append_slice data 0 32 32
    have h2 := slice_append_slice data 0 64 64
    have h3 := slice_append_slice data 0 128 (m.info.l * (32 * width))
    have h4 := slice_append_slice data 0 (128 + m.info.l * (32 * width)) (m.info.k * (32 * width))
    have h5 := slice_append_slice data 0
      (128 + m.info.l * (32 * width) + m.info.k * (32 * width)) (m.info.k * (32 * D))
    rw [Nat.zero_add] at h1 h2 h3 h4 h5
    rw [h1, h2, h3, h4, h5, hsize, slice_all h]
  rw [secretKeyToBytes]
  simp only [hwidth]
  rw [packVec_unpackVec (by omega) (by omega), packVec_unpackVec (by omega) (by omega),
    packVec_unpackVec (by decide) (by omega), toList_copyBytes (length_slice (by omega)),
    toList_copyBytes (length_slice (by omega)), toList_copyBytes (length_slice (by omega)), hparts]

/-! ## Generated keys -/

section Generated
variable [Xof]

/-- What `keyGenFromSeed` returns, and from which samples. -/
theorem keyGenFromSeed_eq_some {m : ParameterSet} {xi : Bytes} {pk : PublicKey} {sk : SecretKey}
    (h : keyGenFromSeed m xi = some (.ok (pk, sk))) :
    ∃ a rhoP, expandA pk.rho.toList m.info.k m.info.l = some a ∧
      expandS rhoP m.info.k m.info.l m.info.eta = some (sk.s1, sk.s2) ∧
      pk.param = m ∧ sk.param = m ∧ sk.rho = pk.rho ∧
      sk.tr.toList = shake256Sum 64 [publicKeyToBytes pk] ∧
      pk.t1 = (publicVector m.info a sk.s1 sk.s2).map
        (fun acc => .build fun c => (power2Round (acc.coeff c)).1) ∧
      sk.t0 = (publicVector m.info a sk.s1 sk.s2).map
        (fun acc => .build fun c => (power2Round (acc.coeff c)).2) := by
  have hk : m.info.k ≠ 0 := by cases m <;> decide
  rw [keyGenFromSeed, if_neg hk] at h
  obtain ⟨a, ha, h⟩ := Option.bind_eq_some_iff.mp h
  obtain ⟨⟨s1, s2⟩, hs, h⟩ := Option.bind_eq_some_iff.mp h
  have hpair := Except.ok.inj (Option.some.inj h)
  obtain ⟨rfl, rfl⟩ := Prod.mk.inj hpair
  refine ⟨a, _, ?_, hs, rfl, rfl, rfl, ?_, rfl, rfl⟩
  · rwa [toList_copyBytes (length_slice (by simp [shake256Sum]))]
  · exact toList_copyBytes (by simp [shake256Sum])

theorem expandS_spec {rhoP : Bytes} {m : ParameterSet} {s1 s2 : List Poly}
    (h : expandS rhoP m.info.k m.info.l m.info.eta = some (s1, s2)) :
    s1.length = m.info.l ∧ s2.length = m.info.k ∧
      (∀ p ∈ s1, ∀ i, -(m.info.eta : ℤ) ≤ p.coeff i ∧ p.coeff i ≤ m.info.eta) ∧
      ∀ p ∈ s2, ∀ i, -(m.info.eta : ℤ) ≤ p.coeff i ∧ p.coeff i ≤ m.info.eta := by
  rw [expandS] at h
  obtain ⟨v1, h1, h⟩ := Option.bind_eq_some_iff.mp h
  obtain ⟨v2, h2, h⟩ := Option.bind_eq_some_iff.mp h
  obtain ⟨rfl, rfl⟩ := Prod.mk.inj (Option.some.inj h)
  have hbounds : ∀ {l : List ℕ} {v : List Poly} {g : ℕ → ℕ},
      l.mapM (fun i => rejBoundedPoly rhoP (g i) m.info.eta) = some v → ∀ p ∈ v, ∀ i,
        -(m.info.eta : ℤ) ≤ p.coeff i ∧ p.coeff i ≤ m.info.eta := by
    intro l v g hv p hp i
    obtain ⟨x, -, hx⟩ := mem_of_mapM_eq_some hv hp
    exact rejBoundedPoly_bounds (eta_cases m) hx i
  exact ⟨(mapM_range_eq_some h1).1, (mapM_range_eq_some h2).1, hbounds (g := fun i => i) h1,
    hbounds (g := fun i => m.info.l + i) h2⟩

/-- Generated keys are well formed. -/
theorem wellFormed_keyGenFromSeed {m : ParameterSet} {xi : Bytes} {pk : PublicKey}
    {sk : SecretKey} (h : keyGenFromSeed m xi = some (.ok (pk, sk))) :
    pk.WellFormed m ∧ sk.WellFormed m := by
  obtain ⟨a, rhoP, -, hs, hpk, hsk, -, -, ht1, ht0⟩ := keyGenFromSeed_eq_some h
  obtain ⟨hlen1, hlen2, hs1, hs2⟩ := expandS_spec hs
  refine ⟨⟨hpk, by simp [ht1, publicVector], ?_⟩,
    ⟨hsk, hlen1, hlen2, by simp [ht0, publicVector], hs1, hs2, ?_⟩⟩
  · intro p hp i hi
    rw [ht1] at hp
    obtain ⟨acc, -, rfl⟩ := List.mem_map.mp hp
    have hround := power2Round_spec (acc.coeff i)
    rw [Poly.coeff_build _ hi]
    omega
  · intro p hp i hi
    rw [ht0] at hp
    obtain ⟨acc, -, rfl⟩ := List.mem_map.mp hp
    have hround := power2Round_spec (acc.coeff i)
    rw [Poly.coeff_build _ hi]
    omega

/-- **The encodings of keys lose nothing.** A generated key comes back from its bytes, and bytes of
the right length come back from the key they are read as. -/
theorem keyEncodings_lossless (m : ParameterSet) :
    (∀ (xi : Bytes) (pk : PublicKey) (sk : SecretKey), keyGenFromSeed m xi = some (.ok (pk, sk)) →
      secretKeyFromBytes m (secretKeyToBytes m sk) = .ok sk ∧
      publicKeyFromBytes m (publicKeyToBytes pk) = .ok pk) ∧
    (∀ data : Bytes, data.length = m.secretKeySize →
      ∃ sk, secretKeyFromBytes m data = .ok sk ∧ secretKeyToBytes m sk = data) ∧
    ∀ data : Bytes, data.length = m.publicKeySize →
      ∃ pk, publicKeyFromBytes m data = .ok pk ∧ publicKeyToBytes pk = data := by
  refine ⟨fun xi pk sk h => ?_, fun data h => secretKeyToBytes_secretKeyFromBytes h,
    fun data h => publicKeyToBytes_publicKeyFromBytes h⟩
  obtain ⟨hpk, hsk⟩ := wellFormed_keyGenFromSeed h
  exact ⟨secretKeyFromBytes_secretKeyToBytes hsk, publicKeyFromBytes_publicKeyToBytes hpk⟩

/-! ## Constant streams

When SHAKE128 gives zeros and SHAKE256 gives half bytes that stand for zero, every sampled
polynomial of a key is zero. -/

/-- The two streams are constant, and a loop has rounds enough. -/
structure ConstantStreams [Xof] : Prop where
  shake128 : ∀ absorbed i, Xof.shake128 absorbed i = 0
  shake256 : ∀ absorbed i, Xof.shake256 absorbed i = 0x44
  rounds : N < Xof.rounds

omit [Xof] in
@[simp] theorem Poly.setCoeff_zero (i : ℕ) : Poly.zero.setCoeff i 0 = .zero := by
  apply Poly.ext_coeff
  intro j hj
  by_cases hi : i < N
  · rw [Poly.coeff_setCoeff _ hi]
    simp
  · rw [Poly.setCoeff, Vector.setIfInBounds_eq_of_size_le (by omega)]

omit [Xof] in
theorem rejNTTLoop_zero {rounds : ℕ} {st : XofStream} {i : ℕ} (hst : st.Valid)
    (hrest : ∀ j, st.rest j = 0) (hi : i ≤ N) (hrounds : N < rounds + i) :
    rejNTTLoop rounds st i .zero = some .zero := by
  induction rounds generalizing st i with
  | zero => omega
  | succ rounds ih =>
      obtain ⟨hbytes, hrest', hst'⟩ := XofStream.readBytes_spec hst 3
      rw [rejNTTLoop]
      by_cases hlt : i < N
      · have hzero : ((st.readBytes 3).1.getD 0 0).toNat ||| (((st.readBytes 3).1.getD 1 0).toNat <<< 8)
            ||| ((((st.readBytes 3).1.getD 2 0).toNat &&& 0x7F) <<< 16) = 0 := by
          rw [hbytes, funext hrest]
          rfl
        rw [if_pos hlt]
        simp only [hzero]
        rw [if_pos (by decide), Nat.cast_zero, Poly.setCoeff_zero]
        exact ih hst' (fun j => by rw [hrest', hrest]) hlt (by omega)
      · rw [if_neg hlt]

omit [Xof] in
theorem rejBoundedLoop_zero {rounds : ℕ} {st : XofStream} {i : ℕ} (hst : st.Valid)
    (hrest : ∀ j, st.rest j = 0x44) (hi : i ≤ N) (hrounds : N < rounds + i) :
    rejBoundedLoop 4 rounds st i .zero = some .zero := by
  induction rounds generalizing st i with
  | zero => omega
  | succ rounds ih =>
      obtain ⟨hbyte, hrest', hst'⟩ := XofStream.readByte_spec hst
      have hstore : ∀ i, storeHalfByte 4 4 i .zero = (i + 1, .zero) := by
        intro i
        rw [storeHalfByte, show coeffFromHalfByte 4 4 = some 0 by decide]
        dsimp only
        rw [Poly.setCoeff_zero]
      rw [rejBoundedLoop]
      by_cases hlt : i < N
      · rw [if_pos hlt]
        simp only [hbyte, hrest, show ((0x44 : UInt8) &&& 0x0F).toNat = 4 by decide,
          show ((0x44 : UInt8) >>> 4).toNat = 4 by decide, hstore]
        by_cases hend : N ≤ i + 1
        · rw [if_pos hend]
        · rw [if_neg hend]
          exact ih hst' (fun j => by rw [hrest', hrest]) (by omega) (by omega)
      · rw [if_neg hlt]

theorem expandA_constant (h : ConstantStreams) (rho : Bytes) (k l : ℕ) :
    expandA rho k l = some (List.replicate k (List.replicate l .zero)) := by
  have hpoly : ∀ s r, rejNTTPoly rho s r = some .zero := fun s r =>
    rejNTTLoop_zero (valid_newShake128 _) (fun j => by rw [rest_newShake128, h.shake128])
      (Nat.zero_le N) h.rounds
  rw [expandA]
  simp only [hpoly]
  rw [mapM_range_of_forall fun _ _ => mapM_range_of_forall fun _ _ => rfl]
  simp

theorem expandS_constant (h : ConstantStreams) (rhoP : Bytes) (k l : ℕ) :
    expandS rhoP k l 4 = some (List.replicate l .zero, List.replicate k .zero) := by
  have hpoly : ∀ nonce, rejBoundedPoly rhoP nonce 4 = some .zero := fun nonce =>
    rejBoundedLoop_zero (valid_newShake256 _) (fun j => by rw [rest_newShake256, h.shake256])
      (Nat.zero_le N) h.rounds
  rw [expandS]
  simp only [hpoly]
  rw [mapM_range_of_forall fun _ _ => rfl, mapM_range_of_forall fun _ _ => rfl]
  simp

theorem keyGenFromSeed_of_samples {m : ParameterSet} {xi : Bytes}
    (ha : ∀ rho, ∃ a, expandA rho m.info.k m.info.l = some a)
    (hs : ∀ rhoP, ∃ s, expandS rhoP m.info.k m.info.l m.info.eta = some s) :
    ∃ pk sk, keyGenFromSeed m xi = some (.ok (pk, sk)) := by
  have hk : m.info.k ≠ 0 := by cases m <;> decide
  obtain ⟨a, ha⟩ := ha (slice (shake256Sum 128 [xi, [m.info.k.toUInt8], [m.info.l.toUInt8]]) 0 32)
  obtain ⟨s, hs⟩ := hs (slice (shake256Sum 128 [xi, [m.info.k.toUInt8], [m.info.l.toUInt8]]) 32 64)
  simp only [keyGenFromSeed, if_neg hk, ha, hs, Option.bind_eq_bind, Option.bind_some]
  exact ⟨_, _, rfl⟩

/-- A key is generated from constant streams. -/
theorem keyGenFromSeed_constant (h : ConstantStreams) (xi : Bytes) :
    ∃ pk sk, keyGenFromSeed .mldsa65 xi = some (.ok (pk, sk)) :=
  keyGenFromSeed_of_samples (fun rho => ⟨_, expandA_constant h rho 6 5⟩)
    fun rhoP => ⟨_, expandS_constant h rhoP 6 5⟩

end Generated

/-- Zeros from SHAKE128 and `0x44` from SHAKE256. -/
@[reducible] def Xof.constant : Xof where
  shake128 _ _ := 0
  shake256 _ _ := 0x44
  rounds := 257

theorem constantStreams_constant : @ConstantStreams Xof.constant :=
  letI := Xof.constant
  ⟨fun _ _ => rfl, fun _ _ => rfl, by decide⟩

/-- A key from constant streams and zero bytes of both sizes. -/
theorem keyEncodings_lossless_constant : letI := Xof.constant
    (∃ pk sk, keyGenFromSeed .mldsa65 (List.replicate 32 0) = some (.ok (pk, sk)) ∧
      secretKeyFromBytes .mldsa65 (secretKeyToBytes .mldsa65 sk) = .ok sk ∧
      publicKeyFromBytes .mldsa65 (publicKeyToBytes pk) = .ok pk) ∧
    (∃ sk, secretKeyFromBytes .mldsa65 (List.replicate 4032 0) = .ok sk ∧
      secretKeyToBytes .mldsa65 sk = List.replicate 4032 0) ∧
    ∃ pk, publicKeyFromBytes .mldsa65 (List.replicate 1952 0) = .ok pk ∧
      publicKeyToBytes pk = List.replicate 1952 0 := by
  let _ := Xof.constant
  obtain ⟨pk, sk, hkey⟩ := keyGenFromSeed_constant constantStreams_constant (List.replicate 32 0)
  obtain ⟨hgenerated, hsecret, hpublic⟩ := keyEncodings_lossless .mldsa65
  exact ⟨⟨pk, sk, hkey, hgenerated _ pk sk hkey⟩, hsecret _ List.length_replicate,
    hpublic _ List.length_replicate⟩

end BhtBhte.Mldsa
