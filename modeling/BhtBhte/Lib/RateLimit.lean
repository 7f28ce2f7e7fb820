import Mathlib.Algebra.Order.Group.Int
import Mathlib.Algebra.Order.Group.Unbundled.Basic
import Mathlib.Data.List.Basic
import Mathlib.Tactic.Common

/-!
# Fixed windows of attempts

A limiter that counts attempts from the first one of a window and starts a new window when the
width has passed.  Two windows can meet inside an interval of one width, so that up to twice the
limit less one is admitted in it.

## Main definitions

* `take` — one attempt against the counter.
* `admitted` — the admitted ones of a sequence of attempts.
-/
namespace BhtBhte.Lib.RateLimit

variable {τ : Type*} [AddCommGroup τ] [LinearOrder τ] [IsOrderedAddMonoid τ]

/-- The counter after an attempt, `none` when the attempt is refused.  A counter is a count and the
time of the first attempt in its window. -/
def take (limit : ℤ) (width : τ) (now : τ) : Option (ℤ × τ) → Option (ℤ × τ)
  | some (count, first) =>
    if now - first < width then if limit ≤ count then none else some (count + 1, first)
    else some (1, now)
  | none => some (1, now)

/-- The times of the attempts that are admitted. -/
def admitted (limit : ℤ) (width : τ) : Option (ℤ × τ) → List τ → List τ
  | _, [] => []
  | s, now :: times =>
    match take limit width now s with
    | none => admitted limit width s times
    | some s' => now :: admitted limit width (some s') times

/-- A time in the interval of one width from `t` on. -/
def Within (t width u : τ) : Prop := t ≤ u ∧ u < t + width

instance (t width u : τ) : Decidable (Within t width u) := inferInstanceAs (Decidable (_ ∧ _))

/-- What is admitted from a counter within one width from `t` on. -/
def countWithin (limit : ℤ) (t width : τ) (s : Option (ℤ × τ)) (times : List τ) : ℤ :=
  ((admitted limit width s times).filter (Within t width ·)).length

/-- What a counter still allows to be admitted within one width from `t` on, when no attempt before
`t` is to come. -/
def room (limit : ℤ) (t : τ) : Option (ℤ × τ) → ℤ
  | none => limit
  | some (count, first) => if t ≤ first then limit - count else 2 * limit - count

/-- A counter that attempts can lead to. -/
def Counts (limit : ℤ) : Option (ℤ × τ) → Prop
  | none => True
  | some (count, _) => 1 ≤ count ∧ count ≤ limit

variable {limit : ℤ} {width t now : τ} {s : Option (ℤ × τ)} {s' : ℤ × τ} {times : List τ}

omit [IsOrderedAddMonoid τ] in
theorem counts_take (hlimit : 1 ≤ limit) (hs : Counts limit s)
    (htake : take limit width now s = some s') : Counts limit (some s') := by
  cases s with
  | none =>
      cases htake
      exact ⟨le_rfl, hlimit⟩
  | some counter =>
      obtain ⟨count, first⟩ := counter
      have hpos := hs.1
      rw [take] at htake
      split_ifs at htake with hrecent hfull
      · cases htake
        exact ⟨by omega, by omega⟩
      · cases htake
        exact ⟨le_rfl, hlimit⟩

/-- An admitted attempt of the interval takes one place. -/
theorem room_take (hs : Counts limit s) (hnow : Within t width now)
    (htake : take limit width now s = some s') : 1 + room limit t (some s') ≤ room limit t s := by
  cases s with
  | none =>
      cases htake
      simp only [room, if_pos hnow.1]
      omega
  | some counter =>
      obtain ⟨count, first⟩ := counter
      rw [take] at htake
      split_ifs at htake with hrecent hfull
      · cases htake
        rw [room, room]
        split_ifs <;> omega
      · cases htake
        -- The last window began before the interval, or this attempt would be after it.
        have hfirst : ¬ t ≤ first := fun hle => hrecent <|
          sub_lt_iff_lt_add'.mpr (hnow.2.trans_le (add_le_add_left hle width))
        have hfull := hs.2
        rw [room, room, if_pos hnow.1, if_neg hfirst]
        omega

omit [AddCommGroup τ] [IsOrderedAddMonoid τ] in
theorem room_nonneg (hlimit : 1 ≤ limit) (hs : Counts limit s) : 0 ≤ room limit t s := by
  cases s with
  | none => exact (by omega : 0 ≤ limit)
  | some counter =>
      have hfull := hs.2
      rw [room]
      split_ifs <;> omega

omit [AddCommGroup τ] [IsOrderedAddMonoid τ] in
theorem room_le (hlimit : 1 ≤ limit) (hs : Counts limit s) : room limit t s ≤ 2 * limit - 1 := by
  cases s with
  | none => exact (by omega : limit ≤ 2 * limit - 1)
  | some counter =>
      have hpos := hs.1
      rw [room]
      split_ifs <;> omega

omit [IsOrderedAddMonoid τ] in
theorem countWithin_cons (now : τ) (times : List τ) : countWithin limit t width s (now :: times) =
    match take limit width now s with
    | none => countWithin limit t width s times
    | some s' =>
        (if Within t width now then (1 : ℤ) else 0) + countWithin limit t width (some s') times := by
  rw [countWithin, admitted]
  cases take limit width now s with
  | none => rfl
  | some s' =>
      dsimp only
      rw [List.filter_cons]
      split_ifs with hnow hwithin hwithin
      · rw [List.length_cons, Int.natCast_add, Int.add_comm]
        rfl
      · exact absurd (of_decide_eq_true hnow) hwithin
      · exact absurd (decide_eq_true hwithin) hnow
      · rw [countWithin, zero_add]

omit [IsOrderedAddMonoid τ] in
/-- What comes after the interval is not counted. -/
theorem countWithin_of_after (htimes : ∀ u ∈ times, t + width ≤ u) :
    countWithin limit t width s times = 0 := by
  induction times generalizing s with
  | nil => rfl
  | cons now times ih =>
      have hafter : ¬ Within t width now := fun hnow =>
        not_lt_of_ge (htimes now List.mem_cons_self) hnow.2
      have hrest := fun u hu => htimes u (List.mem_cons_of_mem now hu)
      rw [countWithin_cons]
      cases take limit width now s with
      | none => exact ih hrest
      | some s' =>
          dsimp only
          rw [if_neg hafter, ih hrest, add_zero]

/-- From the interval's begin on, a counter admits what it has room for. -/
theorem countWithin_le_room (hlimit : 1 ≤ limit) (hs : Counts limit s)
    (hsorted : times.Pairwise (· ≤ ·)) (htimes : ∀ u ∈ times, t ≤ u) :
    countWithin limit t width s times ≤ room limit t s := by
  induction times generalizing s with
  | nil => exact room_nonneg hlimit hs
  | cons now times ih =>
      obtain ⟨hfirst, hsorted⟩ := List.pairwise_cons.mp hsorted
      have hrest := fun u hu => htimes u (List.mem_cons_of_mem now hu)
      by_cases hbefore : now < t + width
      · have hnow : Within t width now := ⟨htimes now List.mem_cons_self, hbefore⟩
        rw [countWithin_cons]
        cases htake : take limit width now s with
        | none => exact ih hs hsorted hrest
        | some s' =>
            have hstep := room_take hs hnow htake
            have hcount := ih (counts_take hlimit hs htake) hsorted hrest
            dsimp only
            rw [if_pos hnow]
            exact (Int.add_le_add_left hcount 1).trans hstep
      · have hafter := not_lt.mp hbefore
        rw [countWithin_of_after (List.forall_mem_cons.mpr
          ⟨hafter, fun u hu => hafter.trans (hfirst u hu)⟩)]
        exact room_nonneg hlimit hs

/-- **Two windows.** Of attempts in order of time, at most twice the limit less one are admitted
within one width. -/
theorem countWithin_le (hlimit : 1 ≤ limit) (hs : Counts limit s)
    (hsorted : times.Pairwise (· ≤ ·)) : countWithin limit t width s times ≤ 2 * limit - 1 := by
  induction times generalizing s with
  | nil => exact (by omega : (0 : ℤ) ≤ 2 * limit - 1)
  | cons now times ih =>
      obtain ⟨hfirst, hrest⟩ := List.pairwise_cons.mp hsorted
      by_cases hnow : t ≤ now
      · exact (countWithin_le_room hlimit hs hsorted (List.forall_mem_cons.mpr
          ⟨hnow, fun u hu => hnow.trans (hfirst u hu)⟩)).trans (room_le hlimit hs)
      · rw [countWithin_cons]
        cases htake : take limit width now s with
        | none => exact ih hs hrest
        | some s' =>
            dsimp only
            rw [if_neg fun hwithin => hnow hwithin.1, zero_add]
            exact ih (counts_take hlimit hs htake) hrest

end BhtBhte.Lib.RateLimit
