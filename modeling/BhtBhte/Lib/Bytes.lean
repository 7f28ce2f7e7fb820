import Mathlib.Order.Basic
import Mathlib.Data.List.GetD
import Mathlib.Data.List.Lex
import Mathlib.Tactic.Common

/-!
# Byte strings as keys

Byte strings of fixed length, ordered byte by byte, so that they can be the keys of a
`FinMap`; and the comparison that looks at every byte.
-/
namespace BhtBhte.Lib

instance (priority := low) linearOrderBytes (n : ℕ) :
    LinearOrder { l : List UInt8 // l.length = n } :=
  LinearOrder.lift' (fun b => b.1.map UInt8.toNat) fun _ _ h =>
    Subtype.ext (List.map_injective_iff.mpr (fun _ _ h => UInt8.toNat_inj.mp h) h)

/-! ## Comparison without a branch -/

/-- The bits that a loop gathers are all zero. -/
theorem foldl_or_eq_zero (f : ℕ → UInt8) (n : ℕ) (diff : UInt8) :
    (List.range n).foldl (fun diff i => diff ||| f i) diff = 0 ↔ diff = 0 ∧ ∀ i < n, f i = 0 := by
  induction n with
  | zero => simp
  | succ n ih =>
      rw [List.range_succ, List.foldl_append, List.foldl_cons, List.foldl_nil,
        UInt8.or_eq_zero_iff, ih, and_assoc, and_congr_right_iff]
      intro _
      constructor
      · rintro ⟨hbefore, hlast⟩ i hi
        rcases Nat.lt_succ_iff_lt_or_eq.mp hi with hlt | rfl
        · exact hbefore i hlt
        · exact hlast
      · intro hall
        exact ⟨fun i hi => hall i (by omega), hall n (by omega)⟩

/-- The differences of two strings of one length are zero when the strings are equal. -/
theorem foldl_xor_eq_zero {a b : List UInt8} (h : a.length = b.length) :
    (List.range a.length).foldl (fun diff i => diff ||| (a.getD i 0 ^^^ b.getD i 0)) 0 = 0 ↔
      a = b := by
  simp only [foldl_or_eq_zero, true_and, UInt8.xor_eq_zero_iff]
  constructor
  · intro hall
    refine List.ext_getElem h fun i h₁ h₂ => ?_
    have hi := hall i h₁
    rwa [List.getD_eq_getElem _ _ h₁, List.getD_eq_getElem _ _ h₂] at hi
  · rintro rfl i _
    rfl

end BhtBhte.Lib
