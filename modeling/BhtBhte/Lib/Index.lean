import Mathlib.Data.List.Nodup
import Mathlib.Logic.Function.Basic

/-!
# Secondary indexes

Lists of identifiers, one list for each key, that are kept beside the data they index.
`IndexedBy` says that the lists hold exactly the related identifiers, each of them once.
-/
namespace BhtBhte.Lib

variable {ι κ : Type*}

/-- The list of a key has the identifiers related to it, each once. -/
structure IndexedBy (lists : κ → List ι) (R : ι → κ → Prop) : Prop where
  nodup : ∀ k, (lists k).Nodup
  mem : ∀ i k, i ∈ lists k ↔ R i k

namespace IndexedBy
variable {lists : κ → List ι} {R R' : ι → κ → Prop}

theorem empty (h : ∀ i k, ¬ R i k) : IndexedBy (fun _ => []) R where
  nodup _ := List.nodup_nil
  mem i k := ⟨fun hi => absurd hi List.not_mem_nil, fun hi => absurd hi (h i k)⟩

theorem congr (h : IndexedBy lists R) (hR : ∀ i k, R' i k ↔ R i k) : IndexedBy lists R' where
  nodup := h.nodup
  mem i k := (h.mem i k).trans (hR i k).symm

variable [DecidableEq κ]

/-- An identifier that is not yet in the list of a key is appended there. -/
theorem append (h : IndexedBy lists R) {i : ι} {k : κ} (hnew : ¬ R i k) :
    IndexedBy (Function.update lists k (lists k ++ [i])) fun j l => R j l ∨ (j = i ∧ l = k) where
  nodup l := by
    by_cases hl : l = k
    · subst hl
      rw [Function.update_self, List.nodup_append]
      refine ⟨h.nodup l, List.nodup_singleton i, ?_⟩
      rintro a ha b hb rfl
      rw [List.mem_singleton] at hb
      subst hb
      exact hnew ((h.mem a l).mp ha)
    · rw [Function.update_of_ne hl]
      exact h.nodup l
  mem j l := by
    by_cases hl : l = k
    · subst hl
      rw [Function.update_self, List.mem_append, List.mem_singleton, h.mem]
      simp
    · rw [Function.update_of_ne hl, h.mem]
      simp [hl]

/-- An identifier is taken out of the list of a key. -/
theorem filter [DecidableEq ι] (h : IndexedBy lists R) (i : ι) (k : κ) :
    IndexedBy (Function.update lists k ((lists k).filter (· ≠ i)))
      fun j l => R j l ∧ ¬ (j = i ∧ l = k) where
  nodup l := by
    by_cases hl : l = k
    · subst hl
      rw [Function.update_self]
      exact (h.nodup l).filter _
    · rw [Function.update_of_ne hl]
      exact h.nodup l
  mem j l := by
    by_cases hl : l = k
    · subst hl
      rw [Function.update_self, List.mem_filter, h.mem]
      simp
    · rw [Function.update_of_ne hl, h.mem]
      simp [hl]

end IndexedBy

/-- How often an identifier is in the list of a key. -/
theorem IndexedBy.count [BEq ι] [LawfulBEq ι] {lists : κ → List ι} {R : ι → κ → Prop}
    (h : IndexedBy lists R) {i : ι} {k : κ} {p : Prop} [Decidable p] (hp : R i k ↔ p) :
    (lists k).count i = if p then 1 else 0 := by
  split
  · next hyes => exact List.count_eq_one_of_mem (h.nodup k) ((h.mem i k).mpr (hp.mpr hyes))
  · next hno => exact List.count_eq_zero_of_not_mem fun hi => hno (hp.mp ((h.mem i k).mp hi))

end BhtBhte.Lib
