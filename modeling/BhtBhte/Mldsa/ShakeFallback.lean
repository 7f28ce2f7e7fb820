import BhtBhte.Mldsa.Permutations

/-!
# The fallback hash against SHAKE256

`shake256_fallback` is not SHAKE256.  On an input that is not empty its absorbing loop never ends,
and on the empty one the output is another one.  Only where nothing goes in and nothing comes out do
the two agree.  The state is never left: the loop that goes back to the first byte of the input goes
back to the first byte of the state as well.  `isShake256_iff` is all three.
-/
namespace BhtBhte.Fallback

open BhtBhte.Lib

/-! ## The bytes of the state that are touched -/

/-- A state with the offsets of its bytes that were read or written. -/
structure Traced where
  state : State
  touched : List ℕ := []

/-- A permutation touches the eight bytes of every word. -/
def permuteOffsets : List ℕ :=
  (List.range 5).flatMap fun x => (List.range 5).flatMap fun y =>
    (List.range 8).map fun j => 8 * (x + 5 * y) + j

namespace Traced

/-- Add a byte and note where. -/
def xorByte (t : Traced) (i : ℕ) (b : UInt8) : Traced where
  state := t.state.xorByte i b
  touched := t.touched ++ [i]

/-- The permutation touches the whole state. -/
def permute (t : Traced) : Traced where
  state := Fallback.permute t.state
  touched := t.touched ++ permuteOffsets

/-- The first bytes are read. -/
def read (t : Traced) (n : ℕ) : Bytes × Traced :=
  ((List.range n).map t.state.byteAt, { t with touched := t.touched ++ List.range n })

/-- The inner loop of `absorbLoop`. -/
def absorbBlock (input : Bytes) (i blockLen : ℕ) (t : Traced) : Traced :=
  (List.range blockLen).foldl (fun t j => t.xorByte (i + j) (input.getD (i + j) 0)) t

/-- `absorbLoop`, and whether it was left. -/
def absorbLoop (input : Bytes) : ℕ → ℕ → Traced → Bool × Traced
  | 0, _, t => (false, t)
  | fuel + 1, i, t =>
    if i < input.length then
      let blockLen := min rate (input.length - i)
      let t := t.absorbBlock input i blockLen
      let i := i + blockLen
      if blockLen = rate ∨ i ≥ input.length then absorbLoop input fuel 0 t.permute
      else absorbLoop input fuel i t
    else (true, t)

/-- Give out bytes, and note from where. -/
def squeezeLoop : ℕ → ℕ → Traced → Bytes × Traced
  | 0, _, t => ([], t)
  | passes + 1, outputLen, t =>
    let block := t.read (min rate outputLen)
    if rate < outputLen then
      let rest := squeezeLoop passes (outputLen - rate) block.2.permute
      (block.1 ++ rest.1, rest.2)
    else block

/-- Nothing outside the 200 bytes of the state was touched. -/
def Inside (t : Traced) : Prop := ∀ i ∈ t.touched, i < 200

end Traced

/-- `shake256Fallback` with the offsets of the bytes that it touches, also when it is still
running. -/
def traced (fuel : ℕ) (input : Bytes) (outputLen : ℕ) : Option Bytes × Traced :=
  let absorbed := Traced.absorbLoop input fuel 0 { state := Vector.replicate 25 0 }
  if absorbed.1 then
    let t := ((absorbed.2.xorByte 135 0x1F).xorByte 134 0x06).permute
    let t := ((t.xorByte 135 0x80).xorByte 134 0x05).permute
    let squeezed := Traced.squeezeLoop outputLen outputLen t
    (some squeezed.1, squeezed.2)
  else (none, absorbed.2)

section Traced

theorem state_absorbBlock (input : Bytes) (i n : ℕ) (t : Traced) :
    (t.absorbBlock input i n).state = (List.range n).foldl
      (fun state j => state.xorByte (i + j) (input.getD (i + j) 0)) t.state := by
  rw [Traced.absorbBlock]
  generalize List.range n = l
  induction l generalizing t with
  | nil => rfl
  | cons j l ih => exact ih (t.xorByte (i + j) (input.getD (i + j) 0))

theorem absorbLoop_state (input : Bytes) : ∀ (fuel i : ℕ) (t : Traced),
    absorbLoop input fuel i t.state =
      if (t.absorbLoop input fuel i).1 then some (t.absorbLoop input fuel i).2.state else none := by
  intro fuel
  induction fuel with
  | zero =>
      intro i t
      rfl
  | succ fuel ih =>
      intro i t
      by_cases hi : i < input.length
      · rw [absorbLoop, Traced.absorbLoop, if_pos hi, if_pos hi]
        dsimp only
        rw [← state_absorbBlock]
        by_cases hend : min rate (input.length - i) = rate ∨
            i + min rate (input.length - i) ≥ input.length
        · rw [if_pos hend, if_pos hend]
          exact ih 0 (t.absorbBlock input i _).permute
        · rw [if_neg hend, if_neg hend]
          exact ih _ (t.absorbBlock input i _)
      · rw [absorbLoop, Traced.absorbLoop, if_neg hi, if_neg hi]
        rfl

theorem squeezeLoop_state : ∀ (passes outputLen : ℕ) (t : Traced),
    (t.squeezeLoop passes outputLen).1 = squeezeLoop passes outputLen t.state := by
  intro passes
  induction passes with
  | zero =>
      intro outputLen t
      rfl
  | succ passes ih =>
      intro outputLen t
      rw [Traced.squeezeLoop, squeezeLoop]
      dsimp only
      by_cases hmore : rate < outputLen
      · rw [if_pos hmore, if_pos hmore, ih]
        rfl
      · rw [if_neg hmore, if_neg hmore]
        rfl

/-- **Tracing changes nothing.** -/
theorem traced_fst (fuel : ℕ) (input : Bytes) (outputLen : ℕ) :
    (traced fuel input outputLen).1 = shake256Fallback fuel input outputLen := by
  have habsorbed := absorbLoop_state input fuel 0 { state := Vector.replicate 25 0 }
  rw [shake256Fallback, habsorbed, traced]
  by_cases hend : (Traced.absorbLoop input fuel 0 { state := Vector.replicate 25 0 }).1 = true
  · rw [if_pos hend, if_pos hend]
    exact congrArg some (squeezeLoop_state outputLen outputLen _)
  · rw [if_neg hend, if_neg hend]
    rfl

theorem inside_xorByte {t : Traced} (h : t.Inside) {i : ℕ} (hi : i < 200) (b : UInt8) :
    (t.xorByte i b).Inside := by
  intro k hk
  rcases List.mem_append.mp hk with hk | hk
  · exact h k hk
  · rwa [List.mem_singleton.mp hk]

theorem permuteOffsets_lt {k : ℕ} (h : k ∈ permuteOffsets) : k < 200 := by
  simp only [permuteOffsets, List.mem_flatMap, List.mem_map, List.mem_range] at h
  obtain ⟨x, hx, y, hy, j, hj, rfl⟩ := h
  omega

theorem inside_permute {t : Traced} (h : t.Inside) : t.permute.Inside := by
  intro k hk
  rcases List.mem_append.mp hk with hk | hk
  · exact h k hk
  · exact permuteOffsets_lt hk

theorem inside_read {t : Traced} (h : t.Inside) {n : ℕ} (hn : n ≤ 200) : (t.read n).2.Inside := by
  intro k hk
  rcases List.mem_append.mp hk with hk | hk
  · exact h k hk
  · exact (List.mem_range.mp hk).trans_le hn

theorem inside_absorbBlock (input : Bytes) {i n : ℕ} (hn : i + n ≤ 200) {t : Traced}
    (h : t.Inside) : (t.absorbBlock input i n).Inside := by
  have hrange : ∀ j ∈ List.range n, i + j < 200 := fun j hj => by
    have hlt := List.mem_range.mp hj
    omega
  rw [Traced.absorbBlock]
  generalize List.range n = l at hrange
  induction l generalizing t with
  | nil => exact h
  | cons j l ih =>
      exact ih (inside_xorByte h (hrange j List.mem_cons_self) _)
        fun k hk => hrange k (List.mem_cons_of_mem j hk)

/-- Every block ends with the offset going back to zero, so that no block begins elsewhere. -/
theorem inside_absorbLoop (input : Bytes) : ∀ (fuel : ℕ) {t : Traced}, t.Inside →
    (t.absorbLoop input fuel 0).2.Inside := by
  intro fuel
  induction fuel with
  | zero => exact fun h => h
  | succ fuel ih =>
      intro t h
      rw [Traced.absorbLoop]
      by_cases hi : 0 < input.length
      · have hend : min rate (input.length - 0) = rate ∨
            0 + min rate (input.length - 0) ≥ input.length := by omega
        have hrate : 0 + min rate (input.length - 0) ≤ 200 := by
          unfold rate
          omega
        rw [if_pos hi]
        dsimp only
        rw [if_pos hend]
        exact ih (inside_permute (inside_absorbBlock input hrate h))
      · rw [if_neg hi]
        exact h

theorem inside_squeezeLoop : ∀ (passes outputLen : ℕ) {t : Traced}, t.Inside →
    (t.squeezeLoop passes outputLen).2.Inside := by
  intro passes
  induction passes with
  | zero => exact fun _ _ h => h
  | succ passes ih =>
      intro outputLen t h
      have hread : (t.read (min rate outputLen)).2.Inside := inside_read h (by unfold rate; omega)
      rw [Traced.squeezeLoop]
      dsimp only
      split_ifs
      · exact ih _ (inside_permute hread)
      · exact hread

/-- **The state is never left, neither by a run that returns nor by one that does not.** -/
theorem inside_traced (fuel : ℕ) (input : Bytes) (outputLen : ℕ) :
    (traced fuel input outputLen).2.Inside := by
  have habsorbed : (Traced.absorbLoop input fuel 0 { state := Vector.replicate 25 0 }).2.Inside :=
    inside_absorbLoop input fuel fun _ hk => by cases hk
  rw [traced]
  dsimp only
  split_ifs
  · refine inside_squeezeLoop _ _ (inside_permute (inside_xorByte (inside_xorByte
      (inside_permute (inside_xorByte (inside_xorByte habsorbed ?_ _) ?_ _)) ?_ _) ?_ _))
    all_goals decide
  · exact habsorbed

end Traced

/-! ## The comparison -/

/-- The hash returns, stays inside the state and gives the first bytes of SHAKE256. -/
structure IsShake256 (input : Bytes) (outputLen : ℕ) : Prop where
  returns : ∃ fuel output, shake256Fallback fuel input outputLen = some output
  inside : ∀ fuel, (traced fuel input outputLen).2.Inside
  output_eq : ∀ fuel output, shake256Fallback fuel input outputLen = some output →
    output = Keccak.shake256Sum outputLen input

/-- What comes out when nothing goes in. -/
theorem shake256Fallback_nil (fuel outputLen : ℕ) :
    shake256Fallback (fuel + 1) [] outputLen =
      some (squeezeLoop outputLen outputLen emptyState) := rfl

theorem head?_squeezeLoop {passes outputLen : ℕ} (hpasses : 0 < passes) (hlen : 0 < outputLen)
    (state : State) : (squeezeLoop passes outputLen state).head? = some (state.byteAt 0) := by
  obtain ⟨passes, rfl⟩ := Nat.exists_eq_succ_of_ne_zero hpasses.ne'
  have hmin : min rate outputLen = (min rate outputLen - 1) + 1 := by
    unfold rate
    omega
  rw [squeezeLoop, hmin, List.range_succ_eq_map, List.map_cons]
  split_ifs
  · rfl
  · rfl

theorem head?_shake256Sum (outLen : ℕ) (input : Bytes) :
    (Keccak.shake256Sum (outLen + 1) input).head? =
      some ((Keccak.Shake.new 136 input).st.byteAt 0) := rfl

/-- **The fallback is SHAKE256 on the empty input for no output, and nowhere else.** -/
theorem isShake256_iff (input : Bytes) (outputLen : ℕ) :
    IsShake256 input outputLen ↔ input = [] ∧ outputLen = 0 := by
  constructor
  · intro h
    obtain ⟨fuel, output, hreturns⟩ := h.returns
    by_cases hinput : input = []
    · subst hinput
      refine ⟨rfl, Nat.eq_zero_of_not_pos fun hpos => ?_⟩
      obtain ⟨outLen, rfl⟩ := Nat.exists_eq_succ_of_ne_zero hpos.ne'
      have heq := h.output_eq 1 _ (shake256Fallback_nil 0 (outLen + 1))
      have hhead := congrArg List.head? heq
      rw [head?_squeezeLoop hpos hpos, head?_shake256Sum, byteAt_emptyState,
        byteAt_shake256] at hhead
      exact absurd hhead (by decide)
    · rw [shake256Fallback_eq_none hinput] at hreturns
      cases hreturns
  · rintro ⟨rfl, rfl⟩
    refine ⟨⟨1, _, shake256Fallback_nil 0 0⟩, fun fuel => inside_traced fuel [] 0, ?_⟩
    intro fuel output houtput
    cases fuel with
    | zero => cases houtput
    | succ fuel =>
        rw [shake256Fallback_nil] at houtput
        exact (Option.some.inj houtput).symm

/-- One byte in, and it never returns. -/
theorem not_isShake256_byte : ¬ IsShake256 [0] 32 := by
  intro h
  obtain ⟨fuel, output, hreturns⟩ := h.returns
  rw [shake256Fallback_eq_none (List.cons_ne_nil 0 [])] at hreturns
  cases hreturns

end BhtBhte.Fallback
