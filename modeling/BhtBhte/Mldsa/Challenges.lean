import BhtBhte.Mldsa.Equivalence

/-!
# The signs of a challenge

Each round of `sampleInBall` moves the coefficient of a place `j` to the place `i` of the round,
where there was none, and puts a sign at `j`.  When `j` was empty, or is `i`, one more place is
taken by the sign; else it is taken by the coefficient that moved.  So on every stream that has a
byte for each round (`LetsFinish`) the loops end with a challenge of `tau` signs and zeros elsewhere
(`sampleInBall_filled`).
-/
namespace BhtBhte.Mldsa

/-- The places of the coefficients `1` and `-1`. -/
def Poly.signed (c : Poly) : Finset ℕ :=
  (Finset.range N).filter fun p => c.coeff p = 1 ∨ c.coeff p = -1

theorem Poly.mem_signed {c : Poly} {p : ℕ} :
    p ∈ c.signed ↔ p < N ∧ (c.coeff p = 1 ∨ c.coeff p = -1) := by
  rw [Poly.signed, Finset.mem_filter, Finset.mem_range]

/-- There are `n` signs, all of them below `i`, and zeros elsewhere. -/
structure Filled (n i : ℕ) (c : Poly) : Prop where
  signs : c.signed.card = n
  ternary : ∀ p, c.coeff p = 0 ∨ c.coeff p = 1 ∨ c.coeff p = -1
  above : ∀ p, i ≤ p → c.coeff p = 0

theorem filled_zero (i : ℕ) : Filled 0 i .zero where
  signs := by simp [Poly.signed]
  ternary p := .inl (Poly.coeff_zero p)
  above p _ := Poly.coeff_zero p

/-- The place that a round takes: the one it moves to, or the one it moves from. -/
theorem signed_shuffle {c : Poly} {n i j : ℕ} (h : Filled n i c) (hi : i < N) (hj : j ≤ i) {v : ℤ}
    (hv : v = 1 ∨ v = -1) :
    ((c.setCoeff i (c.coeff j)).setCoeff j v).signed =
      insert (if c.coeff j = 0 then j else i) c.signed := by
  have hempty : c.coeff i = 0 := h.above i (Nat.le_refl i)
  ext p
  rw [Finset.mem_insert, Poly.mem_signed, Poly.mem_signed, Poly.coeff_setCoeff _ (by omega),
    Poly.coeff_setCoeff _ hi]
  by_cases hpj : p = j
  · subst hpj
    have hp : p < N := by omega
    by_cases hp0 : c.coeff p = 0
    · simp [hp, hp0, hv]
    · have hsign := (h.ternary p).resolve_left hp0
      simp [hp, hv, hsign]
  · by_cases hpi : p = i
    · subst hpi
      by_cases hj0 : c.coeff j = 0
      · simp [hpj, hj0, hempty]
      · have hsign := (h.ternary j).resolve_left hj0
        simp [hpj, hi, hj0, hsign]
    · by_cases hj0 : c.coeff j = 0 <;> simp [hpj, hpi, hj0]

/-- A round takes one more place. -/
theorem Filled.shuffle {c : Poly} {n i j : ℕ} (h : Filled n i c) (hi : i < N) (hj : j ≤ i) {v : ℤ}
    (hv : v = 1 ∨ v = -1) : Filled (n + 1) (i + 1) ((c.setCoeff i (c.coeff j)).setCoeff j v) where
  signs := by
    rw [signed_shuffle h hi hj hv, Finset.card_insert_of_notMem, h.signs]
    rw [Poly.mem_signed]
    by_cases hj0 : c.coeff j = 0
    · simp [hj0]
    · simp [hj0, h.above i (Nat.le_refl i)]
  ternary p := by
    rw [Poly.coeff_setCoeff _ (by omega), Poly.coeff_setCoeff _ hi]
    split_ifs
    · exact .inr hv
    · exact h.ternary j
    · exact h.ternary p
  above p hp := by
    rw [Poly.coeff_setCoeff _ (by omega), Poly.coeff_setCoeff _ hi, if_neg (by omega),
      if_neg (by omega)]
    exact h.above p (by omega)

section Streams
variable [Xof]

theorem ballStep_filled {s s' : XofStream × ℕ × Poly} {n i : ℕ} (h : Filled n i s.2.2)
    (hi : i < N) (hstep : ballStep s i = some s') : Filled (n + 1) (i + 1) s'.2.2 := by
  rw [ballStep] at hstep
  obtain ⟨r, hr, heq⟩ := Option.bind_eq_some_iff.mp hstep
  cases heq
  refine h.shuffle hi (drawIndex_le hr) ?_
  by_cases hsign : s.2.1 &&& 1 = 1
  · exact .inr (if_pos hsign)
  · exact .inl (if_neg hsign)

theorem ballSteps_filled {count n i : ℕ} {s s' : XofStream × ℕ × Poly}
    (hsteps : (List.range' i count).foldlM ballStep s = some s') (hend : i + count ≤ N)
    (h : Filled n i s.2.2) : Filled (n + count) (i + count) s'.2.2 := by
  induction count generalizing n i s with
  | zero =>
      cases hsteps
      exact h
  | succ count ih =>
      rw [List.range'_succ, List.foldlM_cons] at hsteps
      obtain ⟨t, ht, hrest⟩ := Option.bind_eq_some_iff.mp hsteps
      have hnext := ih hrest (by omega) (ballStep_filled h (by omega) ht)
      rwa [Nat.add_right_comm n, Nat.add_right_comm i] at hnext

theorem ballStep_of_draw {s : XofStream × ℕ × Poly} {i : ℕ} {r : UInt8 × XofStream}
    (h : drawIndex i Xof.rounds s.1 = some r) :
    ballStep s i = some (r.2, s.2.1 >>> 1, (s.2.2.setCoeff i (s.2.2.coeff r.1.toNat)).setCoeff
      r.1.toNat (if s.2.1 &&& 1 = 1 then -1 else 1)) := by
  rw [ballStep, h]
  rfl

theorem sampleInBall_of_steps {ctilde : Bytes} {tau : ℕ} {t : XofStream × ℕ × Poly}
    (h : (List.range' (N - tau) tau).foldlM ballStep (((newShake256 [ctilde]).readBytes 8).2,
      (List.range 8).foldl (fun signs i =>
        signs ||| ((((newShake256 [ctilde]).readBytes 8).1.getD i 0).toNat <<< (8 * i))) 0,
      .zero) = some t) : sampleInBall ctilde tau = some t.2.2 := by
  rw [sampleInBall]
  simp only [h]
  rfl

theorem filled_sampleInBall {m : ParameterSet} {ctilde : Bytes} {c : Poly}
    (h : sampleInBall ctilde m.info.tau = some c) : Filled m.info.tau N c := by
  rw [sampleInBall] at h
  obtain ⟨s, hs, heq⟩ := Option.bind_eq_some_iff.mp h
  cases heq
  have htau : m.info.tau ≤ N := by cases m <;> decide
  have hfilled := ballSteps_filled hs (by omega) (filled_zero _)
  rwa [Nat.zero_add, Nat.sub_add_cancel htau] at hfilled

end Streams

/-! ## Streams that let the loops finish -/

/-- The same streams with other fuel. -/
@[reducible] def Xof.withRounds (X : Xof) (rounds : ℕ) : Xof := { X with rounds := rounds }

/-- From place `p` of the stream on there is for each bound in turn a later byte that is not above
it. -/
def Draws (s : ℕ → UInt8) : ℕ → List ℕ → Prop
  | _, [] => True
  | p, i :: is => ∃ q, p ≤ q ∧ (s q).toNat ≤ i ∧ Draws s (q + 1) is

/-- The stream of a challenge lets the loops finish; its first eight bytes are the signs. -/
def LetsFinish (s : ℕ → UInt8) (tau : ℕ) : Prop := Draws s 8 (List.range' (N - tau) tau)

theorem Draws.of_le {s : ℕ → UInt8} {p p' : ℕ} {is : List ℕ} (h : Draws s p is) (hle : p' ≤ p) :
    Draws s p' is := by
  cases is with
  | nil => trivial
  | cons i is =>
      obtain ⟨q, hq, hbyte, hrest⟩ := h
      exact ⟨q, hle.trans hq, hbyte, hrest⟩

/-- The loop draws the first byte that is not above the bound, whatever fuel it has beyond. -/
theorem drawIndex_of_rest {i q : ℕ} {st : XofStream} (hst : st.Valid)
    (hq : (st.rest q).toNat ≤ i) : ∃ k ≤ q, ∃ r : UInt8 × XofStream, r.2.Valid ∧
      (∀ j, r.2.rest j = st.rest (k + 1 + j)) ∧
      ∀ rounds, q < rounds → drawIndex i rounds st = some r := by
  induction q generalizing st with
  | zero =>
      obtain ⟨hbyte, hrest, hvalid⟩ := XofStream.readByte_spec hst
      refine ⟨0, le_rfl, st.readByte, hvalid, fun j => by rw [hrest, Nat.zero_add, Nat.add_comm],
        fun rounds hrounds => ?_⟩
      obtain ⟨rounds, rfl⟩ := Nat.exists_eq_succ_of_ne_zero hrounds.ne'
      rw [drawIndex]
      exact if_pos (hbyte ▸ hq)
  | succ q ih =>
      obtain ⟨-, hrest, hvalid⟩ := XofStream.readByte_spec hst
      by_cases hle : st.readByte.1.toNat ≤ i
      · refine ⟨0, Nat.zero_le _, st.readByte, hvalid,
          fun j => by rw [hrest, Nat.zero_add, Nat.add_comm], fun rounds hrounds => ?_⟩
        obtain ⟨rounds, rfl⟩ := Nat.exists_eq_succ_of_ne_zero (Nat.ne_zero_of_lt hrounds)
        rw [drawIndex]
        exact if_pos hle
      · obtain ⟨k, hk, r, hr, hrest', hdraw⟩ := ih hvalid (by rwa [hrest])
        refine ⟨k + 1, Nat.succ_le_succ hk, r, hr, fun j => ?_, fun rounds hrounds => ?_⟩
        · rw [hrest', hrest]
          congr 1
          omega
        · obtain ⟨rounds, rfl⟩ := Nat.exists_eq_succ_of_ne_zero (Nat.ne_zero_of_lt hrounds)
          rw [drawIndex]
          exact (if_neg hle).trans (hdraw rounds (Nat.lt_of_succ_lt_succ hrounds))

/-- The loops of all rounds end with enough fuel, and more fuel changes nothing. -/
theorem ballSteps_of_draws (X : Xof) {s : ℕ → UInt8} {is : List ℕ} {p : ℕ} {st : XofStream}
    (hst : st.Valid) (hrest : ∀ j, st.rest j = s (p + j)) (h : Draws s p is) (signs : ℕ)
    (c : Poly) : ∃ n t, ∀ rounds, n ≤ rounds →
      is.foldlM (@ballStep (X.withRounds rounds)) (st, signs, c) = some t := by
  induction is generalizing p st signs c with
  | nil => exact ⟨0, _, fun _ _ => rfl⟩
  | cons i is ih =>
      obtain ⟨q, hq, hbyte, hdraws⟩ := h
      obtain ⟨k, hk, r, hr, hnext, hdraw⟩ := drawIndex_of_rest (q := q - p) (i := i) hst
        (by rwa [hrest, Nat.add_sub_cancel' hq])
      obtain ⟨n, t, hn⟩ := ih hr (p := p + (k + 1))
        (fun j => by rw [hnext, hrest, Nat.add_assoc p]) (hdraws.of_le (by omega)) (signs >>> 1)
        ((c.setCoeff i (c.coeff r.1.toNat)).setCoeff r.1.toNat (if signs &&& 1 = 1 then -1 else 1))
      refine ⟨max n (q - p + 1), t, fun rounds hrounds => ?_⟩
      have hstep := @ballStep_of_draw (X.withRounds rounds) (st, signs, c) i r
        (hdraw rounds (by omega))
      rw [List.foldlM_cons, hstep]
      exact hn rounds (by omega)

/-- The place of the stream behind the signs. -/
theorem rest_readBytes_newShake256 [Xof] (ctilde : Bytes) (j : ℕ) :
    ((newShake256 [ctilde]).readBytes 8).2.rest j = Xof.shake256 ctilde (8 + j) := by
  obtain ⟨-, hrest, -⟩ := XofStream.readBytes_spec (valid_newShake256 [ctilde]) 8
  rw [hrest, rest_newShake256, List.flatten_singleton, Nat.add_comm]

theorem sampleInBall_of_letsFinish (X : Xof) {ctilde : Bytes} {tau : ℕ}
    (h : LetsFinish (X.shake256 ctilde) tau) : ∃ n c, ∀ rounds, n ≤ rounds →
      @sampleInBall (X.withRounds rounds) ctilde tau = some c := by
  have hvalid := (XofStream.readBytes_spec (@valid_newShake256 X [ctilde]) 8).2.2
  have hstream := @rest_readBytes_newShake256 X ctilde
  obtain ⟨n, t, hn⟩ := ballSteps_of_draws X hvalid hstream h ((List.range 8).foldl (fun signs i =>
    signs ||| ((((@newShake256 X [ctilde]).readBytes 8).1.getD i 0).toNat <<< (8 * i))) 0) .zero
  refine ⟨n, t.2.2, fun rounds hrounds => ?_⟩
  exact @sampleInBall_of_steps (X.withRounds rounds) ctilde tau t (hn rounds hrounds)

/-- What the loop draws is a byte of the stream that is not above the bound. -/
theorem rest_of_drawIndex {i rounds : ℕ} {st : XofStream} (hst : st.Valid)
    {r : UInt8 × XofStream} (h : drawIndex i rounds st = some r) :
    r.2.Valid ∧ ∃ k, (st.rest k).toNat ≤ i ∧ ∀ j, r.2.rest j = st.rest (k + 1 + j) := by
  induction rounds generalizing st with
  | zero => cases h
  | succ rounds ih =>
      obtain ⟨hbyte, hrest, hvalid⟩ := XofStream.readByte_spec hst
      rw [drawIndex] at h
      split at h
      · next hle =>
          cases h
          exact ⟨hvalid, 0, hbyte ▸ hle, fun j => by rw [hrest, Nat.zero_add, Nat.add_comm]⟩
      · obtain ⟨hr, k, hk, hnext⟩ := ih hvalid h
        refine ⟨hr, k + 1, by rwa [← hrest], fun j => ?_⟩
        rw [hnext, hrest]
        congr 1
        omega

theorem draws_of_ballSteps [Xof] {s : ℕ → UInt8} {is : List ℕ} {p : ℕ}
    {t t' : XofStream × ℕ × Poly} (ht : t.1.Valid) (hrest : ∀ j, t.1.rest j = s (p + j))
    (h : is.foldlM ballStep t = some t') : Draws s p is := by
  induction is generalizing p t with
  | nil => trivial
  | cons i is ih =>
      rw [List.foldlM_cons] at h
      obtain ⟨u, hu, hsteps⟩ := Option.bind_eq_some_iff.mp h
      obtain ⟨r, hr, heq⟩ := Option.bind_eq_some_iff.mp hu
      cases heq
      obtain ⟨hvalid, k, hk, hnext⟩ := rest_of_drawIndex ht hr
      exact ⟨p + k, Nat.le_add_right p k, by rwa [← hrest],
        ih hvalid (fun j => by rw [hnext, hrest, ← Nat.add_assoc, ← Nat.add_assoc]) hsteps⟩

theorem letsFinish_of_sampleInBall [Xof] {ctilde : Bytes} {tau : ℕ} {c : Poly}
    (h : sampleInBall ctilde tau = some c) : LetsFinish (Xof.shake256 ctilde) tau := by
  have hvalid := (XofStream.readBytes_spec (valid_newShake256 [ctilde]) 8).2.2
  have hstream := rest_readBytes_newShake256 ctilde
  rw [sampleInBall] at h
  generalize (newShake256 [ctilde]).readBytes 8 = r at *
  obtain ⟨t, ht, -⟩ := Option.bind_eq_some_iff.mp h
  exact draws_of_ballSteps (t := (r.2, _, .zero)) hvalid hstream ht

/-- **The streams that let the loops finish** are those on which some fuel gives a challenge. -/
theorem letsFinish_iff (X : Xof) (ctilde : Bytes) (tau : ℕ) :
    LetsFinish (X.shake256 ctilde) tau ↔
      ∃ rounds c, @sampleInBall (X.withRounds rounds) ctilde tau = some c := by
  constructor
  · intro h
    obtain ⟨n, c, hn⟩ := sampleInBall_of_letsFinish X h
    exact ⟨n, c, hn n le_rfl⟩
  · rintro ⟨rounds, c, h⟩
    exact @letsFinish_of_sampleInBall (X.withRounds rounds) ctilde tau c h

/-- **Challenges have `tau` signs, and zeros elsewhere.**  On every stream that lets the loops
finish both implementations return one and the same polynomial, whatever fuel they have beyond
what they need, and it has `tau` coefficients `1` or `-1` and zeros elsewhere. -/
theorem sampleInBall_filled (X : Xof) {m : ParameterSet} {ctilde : Bytes}
    (h : LetsFinish (X.shake256 ctilde) m.info.tau) :
    ∃ n c, (∀ rounds, n ≤ rounds → letI := X.withRounds rounds
        sampleInBall ctilde m.info.tau = some c ∧
          Fips204.sampleInBall ctilde (Fips204.paramFor (Fips204.level m)).tau = some c) ∧
      c.signed.card = m.info.tau ∧ ∀ p < N, p ∉ c.signed → c.coeff p = 0 := by
  obtain ⟨n, c, hn⟩ := sampleInBall_of_letsFinish X h
  have hfilled := @filled_sampleInBall (X.withRounds n) m ctilde c (hn n le_rfl)
  refine ⟨n, c, fun rounds hrounds => ⟨hn rounds hrounds, ?_⟩, hfilled.signs, fun p hp hnot =>
    (hfilled.ternary p).resolve_right fun hsign => hnot (Poly.mem_signed.mpr ⟨hp, hsign⟩)⟩
  rw [Fips204.paramFor_level]
  exact (@Fips204.sampleInBall_eq (X.withRounds rounds) ctilde _).trans (hn rounds hrounds)

/-- Every other byte of the stream is too large for all rounds but the last. -/
@[reducible] def Xof.alternating : Xof where
  shake128 _ _ := 0
  shake256 _ i := if i % 2 = 0 then 0xFF else 0x44
  rounds := 0

theorem draws_alternating {is : List ℕ} (his : ∀ i ∈ is, 0x44 ≤ i) (p : ℕ) :
    Draws (Xof.alternating.shake256 []) p is := by
  induction is generalizing p with
  | nil => trivial
  | cons i is ih =>
      refine ⟨2 * p + 1, by omega, ?_, ih (fun j hj => his j (List.mem_cons_of_mem i hj)) _⟩
      have hodd : Xof.alternating.shake256 [] (2 * p + 1) = 0x44 := if_neg (by omega)
      rw [hodd]
      exact his i List.mem_cons_self

/-- A stream with bytes that are drawn again gives a challenge. -/
theorem sampleInBall_filled_alternating :
    ∃ n c, (∀ rounds, n ≤ rounds → letI := Xof.alternating.withRounds rounds
        sampleInBall [] ParameterSet.mldsa44.info.tau = some c ∧
          Fips204.sampleInBall []
            (Fips204.paramFor (Fips204.level ParameterSet.mldsa44)).tau = some c) ∧
      c.signed.card = ParameterSet.mldsa44.info.tau ∧
      ∀ p < N, p ∉ c.signed → c.coeff p = 0 := by
  refine sampleInBall_filled Xof.alternating (draws_alternating (fun i hi => ?_) 8)
  obtain ⟨j, -, rfl⟩ := List.mem_range'.mp hi
  exact (show 0x44 ≤ N - ParameterSet.mldsa44.info.tau by decide).trans (Nat.le_add_right _ _)

end BhtBhte.Mldsa
