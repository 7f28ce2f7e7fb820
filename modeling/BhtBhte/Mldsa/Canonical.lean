import BhtBhte.Mldsa.Correct

/-!
# Signatures have one encoding

`hintUnpack` checks that the places of a row increase, that the ends of the rows do not decrease and
that nothing stands behind the last one.  What passes is therefore what `hintPack` writes for the
hints that are read, and with the packing of `z` a signature is determined by its three parts.
`signature_canonical` puts the three together.
-/
namespace BhtBhte.Mldsa
open BhtBhte.Lib

/-! ## Writing -/

theorem onesBelow_prefix (p : Poly) {n : ℕ} (hn : n ≤ N) :
    (onesBelow p n).length ≤ (ones p).length :=
  ((List.range_sublist.mpr hn).filter _).length_le

/-- A row is written when there is room for it. -/
theorem hintRow_hintState {omega k i : ℕ} {h : List Poly} {places ends : List ℕ}
    (hroom : (places ++ ones (h.getD i .zero)).length ≤ omega) (hends : ends.length = i)
    (hi : i < k) :
    hintRow omega h (hintState omega k places ends) i =
      some (hintState omega k (places ++ ones (h.getD i .zero))
        (ends ++ [(places ++ ones (h.getD i .zero)).length])) := by
  have hloop := foldlM_range_of_forall (f := hintStore omega (h.getD i .zero))
    (fun n => hintState omega k (places ++ onesBelow (h.getD i .zero) n) ends) (n := N) (by
      intro j hj
      have hprefix := onesBelow_prefix (h.getD i .zero) (show j + 1 ≤ N from hj)
      rw [onesBelow_succ] at hprefix ⊢
      rw [hintStore]
      by_cases hone : (h.getD i .zero).coeff j = 0
      · rw [if_neg (not_not.mpr hone), if_neg (not_not.mpr hone), List.append_nil]
      · rw [if_pos hone, List.length_append, List.length_singleton] at hprefix
        rw [List.length_append] at hroom
        have hlen : (places ++ onesBelow (h.getD i .zero) j).length < omega := by
          rw [List.length_append]
          omega
        have hfull : ¬ omega ≤
            (hintState omega k (places ++ onesBelow (h.getD i .zero) j) ends).2 := by
          rw [hintState]
          omega
        rw [if_pos hone, if_neg hfull, if_pos hone, ← List.append_assoc, hintState, hintState,
          hintBuffer_store hlen]
        simp [Nat.add_assoc])
  have hstart : places ++ onesBelow (h.getD i .zero) 0 = places := by
    rw [onesBelow, List.range_zero, List.filter_nil, List.append_nil]
  simp only [hstart] at hloop
  subst hends
  rw [hintRow, hloop]
  refine congrArg some ?_
  rw [hintState, hintState]
  exact congrArg (·, _) (hintBuffer_end hroom hi _)

/-- **Hints with few ones are written.** -/
theorem hintPack_of_places {omega k : ℕ} {h : List Poly}
    (hroom : (placesBelow h k).length ≤ omega) :
    hintPack h omega k = some (hintBuffer omega k (placesBelow h k) (endsBelow h k)) := by
  have hloop := foldlM_range_of_forall (f := hintRow omega h)
    (fun i => hintState omega k (placesBelow h i) (endsBelow h i)) (n := k) (by
      intro i hi
      have hmono := length_placesBelow_mono h (show i + 1 ≤ k from hi)
      rw [placesBelow_succ] at hmono
      rw [endsBelow_succ, placesBelow_succ]
      exact hintRow_hintState (hmono.trans hroom) (length_endsBelow h i) hi)
  have hstart : hintState omega k (placesBelow h 0) (endsBelow h 0) =
      (List.replicate (omega + k) 0, 0) := by
    simp [hintState, hintBuffer, placesBelow, endsBelow]
  rw [hintPack, ← hstart, hloop]
  rfl

/-- The ones that the signer counts. -/
theorem hintCount_eq {h : List Poly} (hbits : ∀ p ∈ h, ∀ c < N, p.coeff c = 0 ∨ p.coeff c = 1) :
    hintCount h = (placesBelow h h.length).length := by
  have hrow : ∀ p ∈ h, ∀ count, (List.range N).foldl
      (fun count cc => if p.coeff cc = 1 then count + 1 else count) count =
        count + (ones p).length := by
    intro p hp count
    have hloop : ∀ n ≤ N, (List.range n).foldl
        (fun count cc => if p.coeff cc = 1 then count + 1 else count) count =
          count + (onesBelow p n).length := by
      intro n hn
      induction n with
      | zero => rfl
      | succ n ih =>
          rw [List.range_succ, List.foldl_append, ih (by omega), onesBelow_succ,
            List.foldl_cons, List.foldl_nil]
          rcases hbits p hp n (by omega) with hzero | hone
          · simp [hzero]
          · simp [hone, Nat.add_assoc]
    exact hloop N (Nat.le_refl N)
  have hrows : ∀ (l : List Poly) (count : ℕ), (∀ p ∈ l, p ∈ h) →
      l.foldl (fun count p => (List.range N).foldl
        (fun count cc => if p.coeff cc = 1 then count + 1 else count) count) count =
          count + (l.flatMap ones).length := by
    intro l
    induction l with
    | nil =>
        intro count _
        rfl
    | cons p l ih =>
        intro count hmem
        rw [List.foldl_cons, hrow p (hmem p List.mem_cons_self),
          ih _ fun q hq => hmem q (List.mem_cons_of_mem _ hq), List.flatMap_cons,
          List.length_append, Nat.add_assoc]
  rw [hintCount, hrows h 0 fun p hp => hp, Nat.zero_add, placesBelow,
    flatMap_range_getD rfl]

/-! ## Reading -/

/-- Ones are found where they were put. -/
theorem ones_markOnes {places : List ℕ} (hlt : ∀ j ∈ places, j < N)
    (hsorted : places.Pairwise (· < ·)) : ones (markOnes places) = places := by
  refine (pairwise_ones _).eq_of_mem_iff hsorted fun j => ?_
  rw [mem_ones, coeff_markOnes hlt]
  by_cases hj : j ∈ places
  · simp [hj, hlt j hj]
  · simp [hj]

/-- The number in a byte of the buffer. -/
def place (buf : Bytes) (idx : ℕ) : ℕ := (buf.getD idx 0).toNat

theorem place_lt (buf : Bytes) (idx : ℕ) : place buf idx < N := (buf.getD idx 0).toNat_lt

/-- A row that is read has ones at the places that stand there, in increasing order. -/
theorem unhintLoop_eq_some {buf : Bytes} {first count : ℕ} {p : Poly}
    (h : (List.range' first count).foldlM (unhintStore buf first) .zero = some p) :
    p = markOnes ((List.range' first count).map (place buf)) ∧
      ((List.range' first count).map (place buf)).Pairwise (· < ·) := by
  rw [List.range'_eq_map_range, List.foldlM_map] at h
  obtain ⟨hp, hsorted⟩ := foldlM_range_induction
    (fun n p => p = markOnes ((List.range n).map fun t => place buf (first + t)) ∧
      ∀ b < n, ∀ a < b, place buf (first + a) < place buf (first + b)) h
    ⟨rfl, fun b hb => absurd hb (Nat.not_lt_zero b)⟩ (by
      intro n _ t t' hinv hstep
      obtain ⟨rfl, hsorted⟩ := hinv
      rw [unhintStore] at hstep
      split at hstep
      · cases hstep
      next hincreases =>
      cases hstep
      refine ⟨?_, fun b hb a ha => ?_⟩
      · rw [List.range_succ, List.map_append, markOnes, markOnes, List.foldl_append]
        rfl
      · rcases Nat.lt_succ_iff_lt_or_eq.mp hb with hlt | rfl
        · exact hsorted b hlt a ha
        · rw [not_and, UInt8.not_le, UInt8.lt_iff_toNat_lt] at hincreases
          have hlast := hincreases (by omega)
          rw [Nat.add_sub_assoc (by omega)] at hlast
          rcases Nat.lt_or_eq_of_le (Nat.le_sub_one_of_lt ha) with hbefore | rfl
          · exact (hsorted (b - 1) (by omega) a hbefore).trans hlast
          · exact hlast)
  rw [List.range'_eq_map_range, List.map_map]
  refine ⟨hp, ?_⟩
  rw [List.pairwise_iff_getElem]
  intro a b ha hb hab
  simp only [List.getElem_map, List.getElem_range, Function.comp_apply]
  exact hsorted b (by simpa using hb) a hab

theorem placesBelow_append {rows : List Poly} {i : ℕ} (hi : i ≤ rows.length) (p : Poly) :
    placesBelow (rows ++ [p]) i = placesBelow rows i := by
  refine List.flatMap_congr fun r hr => ?_
  rw [List.getD_append _ _ _ _ ((List.mem_range.mp hr).trans_le hi)]

theorem endsBelow_append {rows : List Poly} {i : ℕ} (hi : i ≤ rows.length) (p : Poly) :
    endsBelow (rows ++ [p]) i = endsBelow rows i := by
  refine List.map_congr_left fun r hr => ?_
  rw [placesBelow_append (Nat.le_trans (List.mem_range.mp hr) hi)]

/-- What has been read of a buffer before row `i`. -/
structure Unpacked (buf : Bytes) (omega i : ℕ) (s : List Poly × ℕ) : Prop where
  length_rows : s.1.length = i
  end_le : s.2 ≤ omega
  bits : ∀ p ∈ s.1, ∀ c < N, p.coeff c = 0 ∨ p.coeff c = 1
  places : placesBelow s.1 i = (List.range s.2).map (place buf)
  ends : endsBelow s.1 i = (List.range i).map fun r => place buf (omega + r)

theorem Unpacked.row {buf : Bytes} {omega i : ℕ} {s s' : List Poly × ℕ}
    (h : Unpacked buf omega i s) (hrow : unhintRow buf omega s i = some s') :
    Unpacked buf omega (i + 1) s' := by
  rw [unhintRow] at hrow
  split at hrow
  · cases hrow
  next hends =>
  obtain ⟨p, hp, heq⟩ := Option.bind_eq_some_iff.mp hrow
  cases heq
  obtain ⟨rfl, hsorted⟩ := unhintLoop_eq_some hp
  have hlt : ∀ j ∈ (List.range' s.2 ((buf.getD (omega + i) 0).toNat - s.2)).map (place buf),
      j < N := by
    intro j hj
    obtain ⟨idx, -, rfl⟩ := List.mem_map.mp hj
    exact place_lt buf idx
  have hi := h.length_rows
  have hplaces : placesBelow (s.1 ++ [markOnes ((List.range' s.2
      ((buf.getD (omega + i) 0).toNat - s.2)).map (place buf))]) (i + 1) =
        (List.range (buf.getD (omega + i) 0).toNat).map (place buf) := by
    rw [placesBelow_succ, placesBelow_append hi.ge, h.places,
      List.getD_append_right _ _ _ _ hi.le, hi, Nat.sub_self, List.getD_cons_zero,
      ones_markOnes hlt hsorted, ← List.map_append, List.range_eq_range', List.range_eq_range']
    have hjoin := @List.range'_append 0 s.2 ((buf.getD (omega + i) 0).toNat - s.2) 1
    rw [Nat.one_mul, Nat.zero_add, Nat.add_sub_of_le (by omega)] at hjoin
    rw [hjoin]
  refine ⟨by rw [List.length_append, hi]; rfl, by dsimp only; omega, fun q hq c _ => ?_,
    hplaces, ?_⟩
  · rcases List.mem_append.mp hq with hold | hnew
    · exact h.bits q hold c ‹_›
    · rw [List.mem_singleton.mp hnew, coeff_markOnes hlt]
      split_ifs
      · exact .inr rfl
      · exact .inl rfl
  · rw [endsBelow_succ, hplaces, endsBelow_append hi.ge, h.ends, List.range_succ (n := i),
      List.map_append, List.length_map, List.length_range]
    rfl

/-- The buffer of what has been read. -/
theorem hintBuffer_of_unpacked {buf : Bytes} {omega k : ℕ} {s : List Poly × ℕ}
    (h : Unpacked buf omega k s) (hlen : buf.length = omega + k)
    (hzero : ∀ idx, s.2 ≤ idx → idx < omega → buf.getD idx 0 = 0) :
    hintBuffer omega k (placesBelow s.1 k) (endsBelow s.1 k) = buf := by
  have hplaces : (placesBelow s.1 k).length = s.2 := by
    rw [h.places, List.length_map, List.length_range]
  have hle := h.end_le
  have hlength := length_hintBuffer (k := k) (hplaces.le.trans hle) (length_endsBelow s.1 k).le
  apply List.ext_getElem (hlength.trans hlen.symm)
  intro idx h₁ h₂
  rw [← List.getD_eq_getElem _ 0 h₁, ← List.getD_eq_getElem _ 0 h₂]
  rw [hlength] at h₁
  by_cases hplace : idx < s.2
  · rw [getD_hintBuffer_place (by omega), h.places,
      List.getD_eq_getElem _ _ (by simpa using hplace)]
    simp [place]
  · by_cases hfree : idx < omega
    · rw [getD_hintBuffer_zero (by omega) hfree, hzero idx (by omega) hfree]
    · have hk : idx - omega < k := by omega
      have hend : (hintBuffer omega k (placesBelow s.1 k) (endsBelow s.1 k)).getD
          (omega + (idx - omega)) 0 = ((endsBelow s.1 k).getD (idx - omega) 0).toUInt8 :=
        getD_hintBuffer_end (hplaces.le.trans hle) (by rw [length_endsBelow]; exact hk)
      rw [Nat.add_sub_of_le (Nat.le_of_not_lt hfree)] at hend
      rw [hend, h.ends, List.getD_eq_getElem _ _ (by simpa using hk)]
      simp [place, Nat.add_sub_of_le (Nat.le_of_not_lt hfree)]

/-- **Hints that are read are written back.** -/
theorem hintPack_hintUnpack {buf : Bytes} {omega k : ℕ} {h : List Poly}
    (hunpack : hintUnpack buf omega k = some h) :
    hintPack h omega k = some buf ∧ h.length = k ∧
      ∀ p ∈ h, ∀ c < N, p.coeff c = 0 ∨ p.coeff c = 1 := by
  rw [hintUnpack] at hunpack
  split at hunpack
  · cases hunpack
  next hlen =>
  obtain ⟨s, hs, hrest⟩ := Option.bind_eq_some_iff.mp hunpack
  split at hrest
  · cases hrest
  next hdirty =>
  cases hrest
  have hread : Unpacked buf omega k s := foldlM_range_induction (Unpacked buf omega) hs
    ⟨rfl, Nat.zero_le _, fun p hp => absurd hp List.not_mem_nil, rfl, rfl⟩
    fun i _ t t' => Unpacked.row
  have hzero : ∀ idx, s.2 ≤ idx → idx < omega → buf.getD idx 0 = 0 := by
    intro idx hle hlt
    by_contra hne
    refine hdirty (List.any_eq_true.mpr ⟨idx, ?_, decide_eq_true hne⟩)
    rw [List.mem_range'_1]
    omega
  have hroom : (placesBelow s.1 k).length ≤ omega := by
    rw [hread.places, List.length_map, List.length_range]
    exact hread.end_le
  refine ⟨?_, hread.length_rows, hread.bits⟩
  rw [hintPack_of_places hroom, hintBuffer_of_unpacked hread (not_not.mp hlen) hzero]

/-! ## Signatures -/

/-- The part of `Verify` that decodes a signature. -/
def decodeSignature (m : ParameterSet) (signature : Bytes) :
    Option (Bytes × List Poly × List Poly) :=
  let p := m.info
  if signature.length ≠ m.signatureSize then none
  else
    let ctilde := slice signature 0 p.ctBytes
    let zBytesPerPoly := N * zbits p / 8
    let z := unpackVec signature p.ctBytes p.l zBytesPerPoly fun buf =>
      bitUnpack buf (p.gamma1 - 1) p.gamma1 (zbits p)
    let off := p.ctBytes + p.l * zBytesPerPoly
    (hintUnpack (slice signature off (p.omega + p.k)) p.omega p.k).map fun h => (ctilde, z, h)

/-- The part of `Sign` that encodes one. -/
def encodeSignature (m : ParameterSet) (parts : Bytes × List Poly × List Poly) : Option Bytes :=
  let p := m.info
  (hintPack parts.2.2 p.omega p.k).map fun hintBytes =>
    parts.1 ++ packVec parts.2.1 p.l p.gamma1 (zbits p) ++ hintBytes

/-- A signature that is accepted has been decoded. -/
theorem decodeSignature_of_verify [Xof] {m : ParameterSet} {pk : PublicKey}
    {message signature : Bytes} (h : verify m pk message signature = some (.ok ())) :
    ∃ parts, decodeSignature m signature = some parts := by
  rw [verify] at h
  dsimp only at h
  rw [decodeSignature]
  dsimp only
  split at h
  · cases h
  next hlen =>
  rw [if_neg hlen]
  generalize slice signature (m.info.ctBytes + m.info.l * (N * zbits m.info / 8))
    (m.info.omega + m.info.k) = buf at h ⊢
  cases hhint : hintUnpack buf m.info.omega m.info.k with
  | none =>
      rw [hhint] at h
      cases h
  | some hints => exact ⟨_, rfl⟩

/-- What an attempt returns is encoded. -/
theorem encodeSignature_of_attempt [Xof] {m : ParameterSet} {s : SignState} {kappa : ℕ}
    (t : Attempt m.info s kappa) :
    encodeSignature m (t.ctilde, t.z, makeHints m.info t.wcs2 t.ct0) = some t.bytes := by
  rw [encodeSignature]
  simp only [t.hintBytes_eq]
  rfl

theorem encodeSignature_decodeSignature {m : ParameterSet} {signature : Bytes}
    {parts : Bytes × List Poly × List Poly} (h : decodeSignature m signature = some parts) :
    encodeSignature m parts = some signature := by
  rw [decodeSignature] at h
  dsimp only at h
  split at h
  · cases h
  next hlen =>
  obtain ⟨hints, hhint, rfl⟩ := Option.map_eq_some_iff.mp h
  have hsize := signatureSize_eq m
  rw [← not_not.mp hlen] at hsize
  have hbits : zbits m.info ≤ 32 := by
    rw [zbits_eq]
    split_ifs <;> decide
  rw [bytesPerPoly_eq] at hhint ⊢
  rw [encodeSignature]
  simp only [(hintPack_hintUnpack hhint).1, Option.map_some]
  have hfront := slice_append_slice signature 0 m.info.ctBytes (m.info.l * (32 * zbits m.info))
  have hrest := slice_append_slice signature 0
    (m.info.ctBytes + m.info.l * (32 * zbits m.info)) (m.info.omega + m.info.k)
  rw [Nat.zero_add] at hfront hrest
  rw [packVec_unpackVec hbits (by omega), hfront, hrest, hsize, slice_all rfl]

/-- **Hints and signatures have one encoding.** -/
theorem signature_canonical (m : ParameterSet) :
    (∀ h : List Poly, h.length = m.info.k → (∀ p ∈ h, ∀ c < N, p.coeff c = 0 ∨ p.coeff c = 1) →
      hintCount h ≤ m.info.omega → ∃ buf, hintPack h m.info.omega m.info.k = some buf ∧
        hintUnpack buf m.info.omega m.info.k = some h) ∧
    (∀ buf h, hintUnpack buf m.info.omega m.info.k = some h →
      hintPack h m.info.omega m.info.k = some buf) ∧
    (∀ signature parts, decodeSignature m signature = some parts →
      encodeSignature m parts = some signature) ∧
    ∀ signature signature' parts, decodeSignature m signature = some parts →
      decodeSignature m signature' = some parts → signature = signature' := by
  refine ⟨fun h hlen hbits hcount => ?_, fun buf h hunpack => (hintPack_hintUnpack hunpack).1,
    fun _ _ => encodeSignature_decodeSignature, fun signature signature' parts hd hd' => ?_⟩
  · rw [hintCount_eq hbits, hlen] at hcount
    have hpack := hintPack_of_places hcount
    exact ⟨_, hpack, hintUnpack_hintPack (by cases m <;> decide) hlen hbits hpack⟩
  · have heq := encodeSignature_decodeSignature hd
    rw [encodeSignature_decodeSignature hd', Option.some.injEq] at heq
    exact heq.symm

end BhtBhte.Mldsa
