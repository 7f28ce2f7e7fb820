import BhtBhte.Mldsa.Keccak

/-!
# Two permutations

The permutation of the fallback hash is not that of Keccak: it rotates the words by other
amounts and moves them to other places.  Both are the same loop on a list of words, with the
table as a parameter, and in this form they can be run.  On the empty input the two hashes
already differ in the first byte.
-/
namespace BhtBhte.Fallback

open BhtBhte.Lib

/-! ## The two permutations -/

/-- The words of a state. -/
theorem get_eq_getD (state : State) (i : ℕ) : state.get i = state.toList.getD i 0 := by
  rw [State.get, List.getD_eq_getElem?_getD, ← Vector.getElem?_toList]

theorem toList_ofFn_words (f : ℕ → UInt64) :
    (Vector.ofFn fun k : Fin 25 => f k).toList = (List.range 25).map f := by
  refine List.ext_getElem (by simp) fun k _ _ => ?_
  simp

theorem getD_map_range {n : ℕ} (f : ℕ → UInt64) {k : ℕ} (h : k < n) :
    ((List.range n).map f).getD k 0 = f k := by
  rw [List.getD_eq_getElem?_getD, List.getElem?_map, List.getElem?_range h]
  rfl

/-- A word after the column parities went into it. -/
def thetaAt (w : List UInt64) (k : ℕ) : UInt64 :=
  let c := (List.range 5).map fun x => w.getD x 0 ^^^ w.getD (x + 5) 0 ^^^ w.getD (x + 10) 0 ^^^
    w.getD (x + 15) 0 ^^^ w.getD (x + 20) 0
  let d := (List.range 5).map fun x =>
    c.getD ((x + 4) % 5) 0 ^^^ rotl64 (c.getD ((x + 1) % 5) 0) 1
  w.getD k 0 ^^^ d.getD (k % 5) 0

/-- A word after the step that is not linear. -/
def chiAt (w : List UInt64) (k : ℕ) : UInt64 :=
  let j := k / 5 * 5
  let i := k % 5
  w.getD (j + i) 0 ^^^ (~~~w.getD (j + (i + 1) % 5) 0 &&& w.getD (j + (i + 2) % 5) 0)

/-- A round on the list of words.  The table says for every place which word goes there and how
far it is rotated. -/
def roundWords (moves : List (ℕ × ℕ)) (w : List UInt64) (r : ℕ) : List UInt64 :=
  let t := (List.range 25).map (thetaAt w)
  let b := moves.map fun m => rotl64 (t.getD m.1 0) m.2
  let b := (List.range 25).map (chiAt b)
  b.set 0 (b.getD 0 0 ^^^ roundConstants.getD r 0)

/-- The permutation with the moves of a table. -/
def permuteWords (moves : List (ℕ × ℕ)) (w : List UInt64) : List UInt64 :=
  (List.range 24).foldl (roundWords moves) w

/-- The table of Keccak. -/
def keccakMoves : List (ℕ × ℕ) :=
  (0, 0) :: (List.range 24).map fun k =>
    let i := Keccak.pi.idxOf (k + 1)
    ((1 :: Keccak.pi).getD i 0, Keccak.rho.getD i 0)

/-- The table of the fallback. -/
def fallbackMoves : List (ℕ × ℕ) :=
  (List.range 25).map fun k =>
    let x := (3 * (k / 5) + k % 5) % 5
    let y := k % 5
    (x + 5 * y, (x * 2 + y * 3) % 64)

theorem rotl64_zero (v : UInt64) : rotl64 v 0 = v := by
  rw [rotl64]
  apply UInt64.toBitVec_inj.mp
  simp

/-- A table is applied to words that are there. -/
theorem map_rotl64 {moves : List (ℕ × ℕ)} (hmoves : ∀ m ∈ moves, m.1 < 25) (v : ℕ → UInt64) :
    moves.map (fun m => rotl64 (((List.range 25).map v).getD m.1 0) m.2) =
      moves.map fun m => rotl64 (v m.1) m.2 :=
  List.map_congr_left fun m hm => by rw [getD_map_range v (hmoves m hm)]

section Keccak

/-- The words move along `pi`, each to the place of the next one. -/
theorem foldl_pi {α : Type} (rotl : α → ℕ → α) (d : α) (v : ℕ → α) :
    ((Keccak.pi.zip Keccak.rho).foldl (fun (e : List α × α) m =>
        (e.1.set m.1 (rotl e.2 m.2), e.1.getD m.1 d)) ((List.range 25).map v, v 1)).1 =
      v 0 :: keccakMoves.tail.map fun m => rotl (v m.1) m.2 := by
  have hwords : (List.range 25).map v = [v 0, v 1, v 2, v 3, v 4, v 5, v 6, v 7, v 8, v 9, v 10,
    v 11, v 12, v 13, v 14, v 15, v 16, v 17, v 18, v 19, v 20, v 21, v 22, v 23, v 24] := rfl
  rw [hwords]
  simp only [Keccak.pi, Keccak.rho, List.zip_cons_cons, List.zip_nil_right, List.foldl_cons,
    List.foldl_nil, List.set_cons_succ, List.set_cons_zero, List.getD_cons_succ,
    List.getD_cons_zero]
  rfl

theorem toList_keccak_theta (st : State) :
    (Keccak.theta st).toList = (List.range 25).map (thetaAt st.toList) := by
  rw [Keccak.theta]
  simp only [get_eq_getD]
  exact toList_ofFn_words (thetaAt st.toList)

/-- The loop along `pi`, on the list of words. -/
theorem toList_foldl_pi (moves : List (ℕ × ℕ)) : ∀ e : State × UInt64,
    ((moves.foldl (fun e m => (e.1.setIfInBounds m.1 (rotl64 e.2 m.2), e.1.get m.1)) e).1).toList =
      (moves.foldl (fun (e : List UInt64 × UInt64) m =>
        (e.1.set m.1 (rotl64 e.2 m.2), e.1.getD m.1 0)) (e.1.toList, e.2)).1 := by
  induction moves with
  | nil =>
      intro e
      rfl
  | cons m moves ih =>
      intro e
      rw [List.foldl_cons, List.foldl_cons, ih, Vector.toList_setIfInBounds, get_eq_getD]

theorem toList_keccak_rhoPi (st : State) {v : ℕ → UInt64}
    (hst : st.toList = (List.range 25).map v) :
    (Keccak.rhoPi st).toList = keccakMoves.map fun m => rotl64 (v m.1) m.2 := by
  have hzip : (List.range 24).map (fun i => (Keccak.pi.getD i 0, Keccak.rho.getD i 0)) =
      Keccak.pi.zip Keccak.rho := by decide
  have hsecond : st.get 1 = v 1 := by rw [get_eq_getD, hst, getD_map_range v (by decide)]
  have hloop : Keccak.rhoPi st = ((Keccak.pi.zip Keccak.rho).foldl (fun (e : State × UInt64) m =>
      (e.1.setIfInBounds m.1 (rotl64 e.2 m.2), e.1.get m.1)) (st, st.get 1)).1 := by
    rw [Keccak.rhoPi, ← hzip, List.foldl_map]
  rw [hloop, toList_foldl_pi, hst, hsecond, foldl_pi, keccakMoves, List.map_cons, rotl64_zero,
    List.tail_cons]

theorem toList_keccak_chi (st : State) :
    (Keccak.chi st).toList = (List.range 25).map (chiAt st.toList) := by
  rw [Keccak.chi]
  simp only [get_eq_getD]
  exact toList_ofFn_words (chiAt st.toList)

theorem toList_keccak_round (st : State) (r : ℕ) :
    (Keccak.round st r).toList = roundWords keccakMoves st.toList r := by
  rw [Keccak.round, Vector.toList_setIfInBounds, get_eq_getD, toList_keccak_chi,
    toList_keccak_rhoPi _ (toList_keccak_theta st), roundWords,
    map_rotl64 (by decide : ∀ m ∈ keccakMoves, m.1 < 25)]

theorem toList_keccakf (st : State) :
    (Keccak.keccakf st).toList = permuteWords keccakMoves st.toList := by
  rw [Keccak.keccakf, permuteWords]
  exact (List.foldl_hom Vector.toList fun st r => (toList_keccak_round st r).symm).symm

end Keccak

section Fallback

/-- The array that the rotated words are written into, read row by row. -/
theorem foldl_places {α : Type} (d : α) (v : ℕ → ℕ → α) :
    let b := (List.range 25).foldl (fun b k =>
      b.set (5 * (k % 5) + (2 * (k / 5) + 3 * (k % 5)) % 5)
        (v (k / 5 + 5 * (k % 5)) ((k / 5 * 2 + k % 5 * 3) % 64))) (List.replicate 25 d)
    (List.range 25).map (fun k => b.getD (5 * (k % 5) + k / 5) d) =
      fallbackMoves.map fun m => v m.1 m.2 := by
  have hrange : List.range 25 = [0, 1, 2, 3, 4, 5, 6, 7, 8, 9, 10, 11, 12, 13, 14, 15, 16, 17, 18,
    19, 20, 21, 22, 23, 24] := rfl
  rw [hrange]
  simp only [List.reduceReplicate, List.foldl_cons, List.foldl_nil, Nat.reduceMul, Nat.reduceMod,
    Nat.reduceDiv, Nat.reduceAdd, List.set_cons_succ, List.set_cons_zero, List.getD_cons_succ,
    List.getD_cons_zero, List.map_cons, List.map_nil]
  rfl

/-- The parity of a column. -/
def parity (state : State) (x : ℕ) : UInt64 :=
  state.get x ^^^ state.get (x + 5) ^^^ state.get (x + 10) ^^^ state.get (x + 15) ^^^
    state.get (x + 20)

/-- The first step of `round`. -/
def theta (state : State) : State :=
  Vector.ofFn fun k => state.get k ^^^
    (parity state ((k % 5 + 4) % 5) ^^^ rotl64 (parity state ((k % 5 + 1) % 5)) 1)

/-- The second one. -/
def rhoPi (theta : State) : State :=
  (List.range 25).foldl (fun b k =>
    b.setIfInBounds (5 * (k % 5) + (2 * (k / 5) + 3 * (k % 5)) % 5)
      (rotl64 (theta.get (k / 5 + 5 * (k % 5))) ((k / 5 * 2 + k % 5 * 3) % 64)))
    (Vector.replicate 25 0)

/-- The third one. -/
def chi (b : State) : State :=
  Vector.ofFn fun k => b.get (5 * (k % 5) + k / 5) ^^^
    (~~~b.get (5 * ((k % 5 + 1) % 5) + k / 5) &&& b.get (5 * ((k % 5 + 2) % 5) + k / 5))

theorem round_eq (state : State) (r : ℕ) : round state r =
    (chi (rhoPi (theta state))).setIfInBounds 0
      ((chi (rhoPi (theta state))).get 0 ^^^ roundConstants.getD r 0) := rfl

theorem toList_theta (state : State) :
    (theta state).toList = (List.range 25).map (thetaAt state.toList) := by
  have hmod : ∀ n, n % 5 < 5 := fun n => Nat.mod_lt n (by decide)
  have hword : ∀ k, state.get k ^^^
      (parity state ((k % 5 + 4) % 5) ^^^ rotl64 (parity state ((k % 5 + 1) % 5)) 1) =
        thetaAt state.toList k := by
    intro k
    rw [thetaAt, getD_map_range _ (hmod k), getD_map_range _ (hmod _), getD_map_range _ (hmod _)]
    simp only [parity, get_eq_getD]
  rw [theta]
  simp only [hword]
  exact toList_ofFn_words (thetaAt state.toList)

/-- The loop over the words; the array that it writes is read column by column. -/
theorem toList_rhoPi (theta : State) {v : ℕ → UInt64}
    (htheta : theta.toList = (List.range 25).map v) :
    (List.range 25).map (fun k => (rhoPi theta).get (5 * (k % 5) + k / 5)) =
      fallbackMoves.map fun m => rotl64 (v m.1) m.2 := by
  have hmoves : ∀ m ∈ fallbackMoves, m.1 < 25 := by decide
  have hlist : (rhoPi theta).toList = (List.range 25).foldl (fun b k =>
      b.set (5 * (k % 5) + (2 * (k / 5) + 3 * (k % 5)) % 5)
        (rotl64 (theta.get (k / 5 + 5 * (k % 5))) ((k / 5 * 2 + k % 5 * 3) % 64)))
      (List.replicate 25 0) :=
    (List.foldl_hom Vector.toList fun b k => (Vector.toList_setIfInBounds ..).symm).symm
  simp only [get_eq_getD (rhoPi theta), hlist]
  rw [foldl_places 0 fun i n => rotl64 (theta.get i) n]
  exact List.map_congr_left fun m hm => by
    rw [get_eq_getD, htheta, getD_map_range v (hmoves m hm)]

/-- A word of the last step. -/
theorem chiAt_transposed (b : State) {k : ℕ} (hk : k < 25) :
    chiAt ((List.range 25).map fun k => b.get (5 * (k % 5) + k / 5)) k =
      b.get (5 * (k % 5) + k / 5) ^^^ (~~~b.get (5 * ((k % 5 + 1) % 5) + k / 5) &&&
        b.get (5 * ((k % 5 + 2) % 5) + k / 5)) := by
  have hword : ∀ i < 5, ((List.range 25).map fun k => b.get (5 * (k % 5) + k / 5)).getD
      (k / 5 * 5 + i) 0 = b.get (5 * i + k / 5) := by
    intro i hi
    rw [getD_map_range _ (by omega), show (k / 5 * 5 + i) % 5 = i by omega,
      show (k / 5 * 5 + i) / 5 = k / 5 by omega]
  rw [chiAt, hword _ (by omega), hword _ (by omega), hword _ (by omega)]

theorem toList_chi (b : State) : (chi b).toList =
    (List.range 25).map (chiAt ((List.range 25).map fun k => b.get (5 * (k % 5) + k / 5))) := by
  rw [List.map_congr_left fun k hk => chiAt_transposed b (List.mem_range.mp hk)]
  exact toList_ofFn_words fun k => b.get (5 * (k % 5) + k / 5) ^^^
    (~~~b.get (5 * ((k % 5 + 1) % 5) + k / 5) &&& b.get (5 * ((k % 5 + 2) % 5) + k / 5))

theorem toList_round (state : State) (r : ℕ) :
    (round state r).toList = roundWords fallbackMoves state.toList r := by
  rw [round_eq, Vector.toList_setIfInBounds, get_eq_getD, toList_chi,
    toList_rhoPi _ (toList_theta state), roundWords,
    map_rotl64 (by decide : ∀ m ∈ fallbackMoves, m.1 < 25)]

/-- **The permutation of the fallback is that of Keccak with another table.** -/
theorem toList_permute (state : State) :
    (permute state).toList = permuteWords fallbackMoves state.toList := by
  rw [permute, permuteWords]
  exact (List.foldl_hom Vector.toList fun state r => (toList_round state r).symm).symm

end Fallback

/-! ## The first byte of the empty input -/

/-- Add a byte to a byte of the words. -/
def xorByteWords (w : List UInt64) (i : ℕ) (b : UInt8) : List UInt64 :=
  w.set (i / 8) (w.getD (i / 8) 0 ^^^ (b.toUInt64 <<< (8 * (i % 8)).toUInt64))

/-- A byte of the words. -/
def byteAtWords (w : List UInt64) (i : ℕ) : UInt8 :=
  (w.getD (i / 8) 0 >>> (8 * (i % 8)).toUInt64).toUInt8

theorem toList_xorByte (state : State) (i : ℕ) (b : UInt8) :
    (state.xorByte i b).toList = xorByteWords state.toList i b := by
  rw [State.xorByte, Vector.toList_setIfInBounds, get_eq_getD, xorByteWords]

theorem byteAt_eq (state : State) (i : ℕ) : state.byteAt i = byteAtWords state.toList i := by
  rw [State.byteAt, get_eq_getD, byteAtWords]

/-- The state before the first byte is squeezed, when nothing was absorbed. -/
def emptyState : State :=
  let state := permute ((State.xorByte (Vector.replicate 25 0) 135 0x1F).xorByte 134 0x06)
  permute ((state.xorByte 135 0x80).xorByte 134 0x05)

theorem byteAt_emptyState : emptyState.byteAt 0 = 0x45 := by
  rw [byteAt_eq, emptyState, toList_permute, toList_xorByte, toList_xorByte, toList_permute,
    toList_xorByte, toList_xorByte, Vector.toList_replicate]
  decide +kernel

/-- SHAKE256 of the empty input begins with another byte. -/
theorem byteAt_shake256 : (Keccak.Shake.new 136 []).st.byteAt 0 = 0x46 := by
  have hstate : (Keccak.Shake.new 136 []).st = Keccak.keccakf
    ((State.xorByte (Vector.replicate 25 0) 0 0x1F).xorByte 135 0x80) := rfl
  rw [hstate, byteAt_eq, toList_keccakf, toList_xorByte, toList_xorByte,
    Vector.toList_replicate]
  decide +kernel

end BhtBhte.Fallback
