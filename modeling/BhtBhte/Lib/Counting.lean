import Mathlib.Data.Set.Card
import Mathlib.Logic.Function.Basic

/-!
# Counting over a mapping

A total mapping may have infinitely many keys and still satisfy a property at only
finitely many of them.  `CountIs p f n` says that exactly `n` keys have a value with
the property; writing one key moves the count by at most one, in the direction the old
and the new value say.
-/
namespace BhtBhte.Lib

variable {α β : Type} {p : β → Prop} {f : α → β} {n : ℕ}

/-- Exactly `n` keys of the mapping have a value that satisfies `p`. -/
def CountIs (p : β → Prop) (f : α → β) (n : ℕ) : Prop :=
  {a | p (f a)}.Finite ∧ {a | p (f a)}.ncard = n

namespace CountIs

/-- A mapping without such a value counts zero. -/
theorem zero (h : ∀ a, ¬ p (f a)) : CountIs p f 0 := by
  have hset : {a | p (f a)} = ∅ := by
    ext a
    simp [h a]
  rw [CountIs, hset]
  exact ⟨Set.finite_empty, Set.ncard_empty α⟩

/-- A key with such a value makes the count positive. -/
theorem pos (h : CountIs p f n) {a : α} (ha : p (f a)) : 0 < n := by
  rw [← h.2]
  exact (Set.ncard_pos h.1).mpr ⟨a, ha⟩

/-- So many keys with such a value are counted. -/
theorem card_le (h : CountIs p f n) {s : Finset α} (hs : ∀ a ∈ s, p (f a)) : s.card ≤ n := by
  rw [← h.2, ← Set.ncard_coe_finset]
  exact Set.ncard_le_ncard (fun a ha => hs a ha) h.1

section Update
variable [DecidableEq α] {a : α} {b : β}

/-- A write that keeps the property keeps the count. -/
theorem update_same (h : CountIs p f n) (hiff : p b ↔ p (f a)) :
    CountIs p (Function.update f a b) n := by
  have hset : {x | p (Function.update f a b x)} = {x | p (f x)} := by
    ext x
    by_cases hx : x = a
    · subst hx
      simp [hiff]
    · simp [Function.update_of_ne hx]
  rw [CountIs, hset]
  exact h

/-- A write that establishes the property adds one. -/
theorem update_add (h : CountIs p f n) (hold : ¬ p (f a)) (hnew : p b) :
    CountIs p (Function.update f a b) (n + 1) := by
  have hset : {x | p (Function.update f a b x)} = insert a {x | p (f x)} := by
    ext x
    by_cases hx : x = a
    · subst hx
      simp [hnew]
    · simp [hx]
  have hmem : a ∉ {x | p (f x)} := hold
  rw [CountIs, hset]
  exact ⟨h.1.insert a, by rw [Set.ncard_insert_of_notMem hmem h.1, h.2]⟩

/-- A write that ends the property takes one away. -/
theorem update_sub (h : CountIs p f n) (hold : p (f a)) (hnew : ¬ p b) :
    CountIs p (Function.update f a b) (n - 1) := by
  have hset : {x | p (Function.update f a b x)} = {x | p (f x)} \ {a} := by
    ext x
    by_cases hx : x = a
    · subst hx
      simp [hnew]
    · simp [hx]
  have hmem : a ∈ {x | p (f x)} := hold
  rw [CountIs, hset]
  exact ⟨h.1.sdiff, by rw [Set.ncard_sdiff_singleton_of_mem hmem, h.2]⟩

end Update

end CountIs

end BhtBhte.Lib
