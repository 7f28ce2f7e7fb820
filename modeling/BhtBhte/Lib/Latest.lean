import Mathlib.Data.List.Induction

/-!
# The latest of several values

A loop keeps the value with the greatest height so far, and that height.  It begins without a
value at a height that only greater ones replace, so what is not above it is never kept.

## Main definitions

* `newer` — the body of the loop.
* `Latest` — what the loop has after some values.
-/
namespace BhtBhte.Lib

variable {α β κ : Type} [LE κ] [LT κ] {height : α → Option κ} {value : α → β}

/-- A value without a height is passed over. -/
def newer [DecidableLT κ] (height : α → Option κ) (value : α → β) (latest : Option β × κ)
    (a : α) : Option β × κ :=
  match height a with
  | none => latest
  | some h => if latest.2 < h then (some (value a), h) else latest

/-- The loop began at the height `start` and has seen the values of `l`. -/
structure Latest (height : α → Option κ) (value : α → β) (start : κ) (l : List α)
    (latest : Option β × κ) : Prop where
  highest : ∀ a ∈ l, ∀ h, height a = some h → h ≤ latest.2
  found : ∀ b, latest.1 = some b →
    start < latest.2 ∧ ∃ a ∈ l, value a = b ∧ height a = some latest.2
  missing : latest.1 = none → latest.2 = start

variable {start : κ} {l : List α} {latest : Option β × κ}

theorem Latest.start_le [Std.IsLinearOrder κ] [Std.LawfulOrderLT κ]
    (h : Latest height value start l latest) : start ≤ latest.2 := by
  cases hfound : latest.1 with
  | none =>
      rw [h.missing hfound]
      exact Std.le_refl _
  | some b => exact Std.le_of_lt (h.found b hfound).1

/-- A value that is not above the greatest height changes nothing. -/
theorem Latest.keep (h : Latest height value start l latest) {a : α}
    (hlow : ∀ k, height a = some k → k ≤ latest.2) :
    Latest height value start (l ++ [a]) latest where
  highest := by
    intro a' hmem k hk
    rcases List.mem_append.mp hmem with hmem | hmem
    · exact h.highest a' hmem k hk
    · rw [List.mem_singleton.mp hmem] at hk
      exact hlow k hk
  found := by
    intro b hb
    obtain ⟨hlt, a', hmem, hfound⟩ := h.found b hb
    exact ⟨hlt, a', List.mem_append_left _ hmem, hfound⟩
  missing := h.missing

variable [DecidableLT κ] [Std.IsLinearOrder κ] [Std.LawfulOrderLT κ]

theorem Latest.concat (h : Latest height value start l latest) (a : α) :
    Latest height value start (l ++ [a]) (newer height value latest a) := by
  rw [newer]
  cases hheight : height a with
  | none => exact h.keep fun k hk => by rw [hheight] at hk; cases hk
  | some k =>
      dsimp only
      by_cases hnew : latest.2 < k
      · rw [if_pos hnew]
        refine ⟨fun a' hmem k' hk' => ?_, fun b hb => ?_, fun hnone => by cases hnone⟩
        · rcases List.mem_append.mp hmem with hmem | hmem
          · exact Std.le_trans (h.highest a' hmem k' hk') (Std.le_of_lt hnew)
          · rw [List.mem_singleton.mp hmem, hheight] at hk'
            cases hk'
            exact Std.le_refl _
        · cases hb
          exact ⟨Std.lt_of_le_of_lt h.start_le hnew, a,
            List.mem_append_right _ (List.mem_singleton.mpr rfl), rfl, hheight⟩
      · rw [if_neg hnew]
        refine h.keep fun k' hk' => ?_
        rw [hheight] at hk'
        cases hk'
        exact Std.not_lt.mp hnew

/-- **The loop finds the greatest height.** -/
theorem latest_foldl (start : κ) (l : List α) :
    Latest height value start l (l.foldl (newer height value) (none, start)) := by
  induction l using List.reverseRecOn with
  | nil =>
      exact ⟨fun _ hmem => absurd hmem List.not_mem_nil, fun _ hb => (nomatch hb), fun _ => rfl⟩
  | append_singleton l a ih =>
      rw [List.foldl_append]
      exact ih.concat a

/-- Nothing is found when nothing is above the start. -/
theorem foldl_newer_eq_none_iff :
    (l.foldl (newer height value) (none, start)).1 = none ↔
      ∀ a ∈ l, ∀ h, height a = some h → h ≤ start := by
  have hlatest : Latest height value start l _ := latest_foldl start l
  constructor
  · intro hnone a hmem h hh
    have hle := hlatest.highest a hmem h hh
    rwa [hlatest.missing hnone] at hle
  · intro hlow
    by_contra hsome
    obtain ⟨b, hb⟩ := Option.ne_none_iff_exists'.mp hsome
    obtain ⟨hlt, a, hmem, -, hheight⟩ := hlatest.found b hb
    exact Std.not_lt.mpr (hlow a hmem _ hheight) hlt

end BhtBhte.Lib
