import BhtBhte.Lib.Text
import Mathlib.Data.List.Forall2
import Mathlib.Data.List.Nodup
import Mathlib.Data.List.Perm.Subperm
import Mathlib.Tactic.Ring

/-!
# Pieces written one after another

A text in which several pieces follow each other with nothing between them.  The formats of the
pieces are known; which pieces they were is found by trying every cut.  `length_cuts_eq_one_iff` is
a text with one cut only.

## Main definitions

* `cuts ps s` — the ways to cut `s` into one piece for each format of `ps`.
* `isDecimalBelow`, `isHexText` — numbers and bytes as they are printed.
-/
namespace BhtBhte.Lib

section Cuts
variable {α : Type}

/-- Every way to cut a text into pieces of the given formats. -/
def cuts : List (List α → Bool) → List α → List (List (List α))
  | [], s => if s.isEmpty then [[]] else []
  | p :: ps, s => (List.range (s.length + 1)).flatMap fun k =>
      if p (s.take k) then (cuts ps (s.drop k)).map (s.take k :: ·) else []

theorem mem_cuts_cons {p : List α → Bool} {ps : List (List α → Bool)} {s : List α}
    {xs : List (List α)} :
    xs ∈ cuts (p :: ps) s ↔
      ∃ x y ys, x ++ y = s ∧ p x = true ∧ ys ∈ cuts ps y ∧ xs = x :: ys := by
  simp only [cuts, List.mem_flatMap, List.mem_range]
  constructor
  · rintro ⟨k, -, hmem⟩
    split_ifs at hmem with hp
    · obtain ⟨ys, hys, rfl⟩ := List.mem_map.mp hmem
      exact ⟨s.take k, s.drop k, ys, List.take_append_drop k s, hp, hys, rfl⟩
    · cases hmem
  · rintro ⟨x, y, ys, rfl, hp, hys, rfl⟩
    refine ⟨x.length, by rw [List.length_append]; omega, ?_⟩
    rw [List.take_left, List.drop_left, if_pos hp]
    exact List.mem_map_of_mem hys

/-- **The cuts are the pieces of the right formats that make up the text.** -/
theorem mem_cuts {ps : List (List α → Bool)} {s : List α} {xs : List (List α)} :
    xs ∈ cuts ps s ↔ xs.flatten = s ∧ List.Forall₂ (fun p x => p x = true) ps xs := by
  induction ps generalizing s xs with
  | nil =>
      rw [List.forall₂_nil_left_iff, cuts]
      cases s with
      | nil =>
          rw [if_pos List.isEmpty_nil, List.mem_singleton]
          constructor
          · rintro rfl
            exact ⟨rfl, rfl⟩
          · exact And.right
      | cons a s =>
          simp only [List.isEmpty_cons, Bool.false_eq_true, if_false, List.not_mem_nil, false_iff]
          rintro ⟨hflatten, rfl⟩
          cases hflatten
  | cons p ps ih =>
      simp only [mem_cuts_cons, ih]
      constructor
      · rintro ⟨x, y, ys, rfl, hp, ⟨rfl, hps⟩, rfl⟩
        exact ⟨List.flatten_cons, hps.cons hp⟩
      · rintro ⟨rfl, hforall⟩
        cases hforall with
        | @cons _ x _ ys hp hps =>
            exact ⟨x, ys.flatten, ys, List.flatten_cons.symm, hp, ⟨rfl, hps⟩, rfl⟩

theorem nodup_cuts (ps : List (List α → Bool)) (s : List α) : (cuts ps s).Nodup := by
  induction ps generalizing s with
  | nil =>
      rw [cuts]
      split_ifs
      · exact List.nodup_singleton _
      · exact List.nodup_nil
  | cons p ps ih =>
      rw [cuts, List.nodup_flatMap]
      constructor
      · intro k _
        split_ifs
        · exact (ih _).map fun ys zs h => (List.cons.inj h).2
        · exact List.nodup_nil
      · -- Two cuts differ in the length of their first piece.
        have hhead : ∀ k xs, xs ∈ (if p (s.take k) then
            (cuts ps (s.drop k)).map (s.take k :: ·) else []) → xs.head? = some (s.take k) := by
          intro k xs hxs
          split_ifs at hxs
          · obtain ⟨ys, -, rfl⟩ := List.mem_map.mp hxs
            rfl
          · cases hxs
        refine List.Nodup.pairwise_of_forall_ne List.nodup_range fun k hk l hl hne xs hxs hxs' => ?_
        rw [List.mem_range] at hk hl
        have hheads := (hhead k xs hxs).symm.trans (hhead l xs hxs')
        have hlength := congrArg List.length (Option.some.inj hheads)
        rw [List.length_take, List.length_take] at hlength
        omega

/-- A text has one cut only when any other is the one that is known. -/
theorem length_cuts_eq_one_iff {ps : List (List α → Bool)} {s : List α} {xs : List (List α)}
    (hxs : xs ∈ cuts ps s) : (cuts ps s).length = 1 ↔ ∀ ys ∈ cuts ps s, ys = xs := by
  have hnodup := nodup_cuts ps s
  generalize cuts ps s = l at hxs hnodup
  constructor
  · intro hlength ys hys
    obtain ⟨zs, rfl⟩ := List.length_eq_one_iff.mp hlength
    rw [List.mem_singleton.mp hxs, List.mem_singleton.mp hys]
  · intro h
    have hsub : l ⊆ [xs] := fun ys hys => List.mem_singleton.mpr (h ys hys)
    have hle : l.length ≤ 1 := (List.subperm_of_subset hnodup hsub).length_le
    have hpos := List.length_pos_of_mem hxs
    omega

end Cuts

/-! ## Numbers and bytes as they are printed -/

/-- A decimal number below a bound, without zeros in front. -/
def isDecimalBelow (n : ℕ) (l : List Char) : Bool :=
  (parseDigits 10 l).any fun v => Nat.toDigits 10 v == l && decide (v < n)

/-- Two lower-case hexadecimal digits for each byte. -/
def isHexText (l : List Char) : Bool :=
  l.length % 2 == 0 && l.all fun c => (List.range 16).any fun d => Nat.digitChar d == c

theorem isDecimalBelow_iff {n : ℕ} {l : List Char} :
    isDecimalBelow n l = true ↔ ∃ v < n, Nat.toDigits 10 v = l := by
  rw [isDecimalBelow, Option.any_eq_true]
  simp only [Bool.and_eq_true, beq_iff_eq, decide_eq_true_eq]
  constructor
  · rintro ⟨v, -, hv, hlt⟩
    exact ⟨v, hlt, hv⟩
  · rintro ⟨v, hlt, rfl⟩
    exact ⟨v, parseDigits_toDigits (by decide) (by decide) v, rfl, hlt⟩

/-- A digit in front of a number. -/
theorem cons_toDigits {b d : ℕ} (hb : 1 < b) (hpos : 0 < d) (hd : d < b) (n : ℕ) :
    Nat.digitChar d :: Nat.toDigits b n =
      Nat.toDigits b (d * b ^ (Nat.toDigits b n).length + n) := by
  induction n using Nat.strong_induction_on with
  | _ n ih =>
      by_cases hn : n < b
      · have hsingle : Nat.toDigits b n = [Nat.digitChar n] := Nat.toDigits_of_lt_base hn
        rw [hsingle, List.length_singleton, pow_one, Nat.mul_comm d b,
          ← Nat.toDigits_append_toDigits hb hpos hn, Nat.toDigits_of_lt_base hd, hsingle]
        rfl
      · have hmod : n % b < b := Nat.mod_lt n (by omega)
        have hfront := ih (n / b) (Nat.div_lt_self (by omega) hb)
        have hfrontPos : 0 < d * b ^ (Nat.toDigits b (n / b)).length + n / b :=
          Nat.add_pos_left (Nat.mul_pos hpos (Nat.pow_pos (by omega))) _
        rw [Nat.toDigits_of_base_le hb (not_lt.mp hn), ← List.cons_append, hfront,
          ← Nat.toDigits_of_lt_base hmod, Nat.toDigits_append_toDigits hb hfrontPos hmod]
        congr 1
        rw [List.length_append, Nat.toDigits_of_lt_base hmod, List.length_singleton, pow_succ]
        calc b * (d * b ^ (Nat.toDigits b (n / b)).length + n / b) + n % b
            = d * (b ^ (Nat.toDigits b (n / b)).length * b) + (b * (n / b) + n % b) := by ring
          _ = d * (b ^ (Nat.toDigits b (n / b)).length * b) + n := by rw [Nat.div_add_mod]

/-- Digits are the text of bytes, two at a time. -/
theorem exists_hexEncode : ∀ l : List Char, l.length % 2 = 0 →
    (∀ c ∈ l, ∃ d < 16, Nat.digitChar d = c) → ∃ b, hexEncode b = l
  | [], _, _ => ⟨[], rfl⟩
  | [_], hlength, _ => by simp at hlength
  | c :: c' :: l, hlength, hdigits => by
      have hrest : l.length % 2 = 0 := by
        simp only [List.length_cons] at hlength
        omega
      obtain ⟨b, rfl⟩ := exists_hexEncode l hrest fun x hx =>
        hdigits x (List.mem_cons_of_mem _ (List.mem_cons_of_mem _ hx))
      obtain ⟨d, hd, rfl⟩ := hdigits c List.mem_cons_self
      obtain ⟨e, he, rfl⟩ := hdigits c' (List.mem_cons_of_mem _ List.mem_cons_self)
      have hbyte : (UInt8.ofNat (16 * d + e)).toNat = 16 * d + e := by
        rw [UInt8.toNat_ofNat']
        omega
      refine ⟨UInt8.ofNat (16 * d + e) :: b, ?_⟩
      rw [hexEncode, List.flatMap_cons, hbyte, Nat.mul_add_div (by decide), Nat.mul_add_mod,
        Nat.div_eq_of_lt he, Nat.mod_eq_of_lt he]
      rfl

theorem isHexText_iff {l : List Char} : isHexText l = true ↔ ∃ b, hexEncode b = l := by
  simp only [isHexText, Bool.and_eq_true, beq_iff_eq, List.all_eq_true, List.any_eq_true,
    List.mem_range]
  constructor
  · rintro ⟨hlength, hdigits⟩
    exact exists_hexEncode l hlength hdigits
  · rintro ⟨b, rfl⟩
    refine ⟨by rw [length_hexEncode]; omega, fun c hc => ?_⟩
    obtain ⟨d, hd, hdigit⟩ := exists_digitChar_of_mem_hexEncode c hc
    exact ⟨d, hd, hdigit.symm⟩

end BhtBhte.Lib
