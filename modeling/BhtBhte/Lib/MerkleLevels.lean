import Mathlib.Algebra.Ring.Nat
import Mathlib.Data.List.GetD
import Mathlib.Data.Nat.Log
import Mathlib.Tactic.Common

/-!
# Merkle trees built level by level

A level is hashed in pairs, from the left, until one value is left; the last value of a level of odd
length is hashed with itself.  A branch has one sibling for each level, and says on which side it
stands.  The branch of every index leads to the root (`levelRoot_eq_climb`), and a fold that reaches
a node of the tree started at a node, if one length is known at every level and nothing collides
(`climb_binds`).

## Main definitions

* `levelUp`, `levelRoot` — the next level, and the last one.
* `levelBranch` — the branch of an index; `climb` folds a branch.
* `NodeAt` — the nodes of a tree by their depth.
* `climbInputs`, `levelInputs` — the strings that a fold and a tree hash, where the values are
  strings that are joined before they are hashed.
-/
namespace BhtBhte.Lib
variable {α : Type} (h : α → α → α)

/-- Hash a level in pairs, the last value of an odd one with itself. -/
def levelUp : List α → List α
  | a :: b :: rest => h a b :: levelUp rest
  | [a] => [h a a]
  | [] => []

@[simp] theorem length_levelUp : ∀ l : List α, (levelUp h l).length = (l.length + 1) / 2
  | a :: b :: rest => by
      rw [levelUp, List.length_cons, length_levelUp rest, List.length_cons, List.length_cons]
      omega
  | [a] => by simp [levelUp]
  | [] => by simp [levelUp]

/-- The one value that is left of a level that is not empty. -/
def levelRoot (l : List α) : Option α :=
  if _h : l.length ≤ 1 then l.head? else levelRoot (levelUp h l)
termination_by l.length
decreasing_by rw [length_levelUp]; omega

/-- The siblings on the way up, with `true` for one on the right. -/
def levelBranch (l : List α) (i : ℕ) : List (α × Bool) :=
  if _h : l.length ≤ 1 then []
  else
    match l[i]? with
    | none => []
    | some a =>
      (l.getD (if i % 2 = 0 then i + 1 else i - 1) a, i % 2 == 0) ::
        levelBranch (levelUp h l) (i / 2)
termination_by l.length
decreasing_by rw [length_levelUp]; omega

/-- Fold a branch, each sibling on its own side. -/
def climb (a : α) (branch : List (α × Bool)) : α :=
  branch.foldl (fun cur s => if s.2 then h cur s.1 else h s.1 cur) a

variable {h}

/-- The value above an entry is the hash of it and its sibling. -/
theorem getElem?_levelUp : ∀ {l : List α} {i : ℕ} {a : α}, l[i]? = some a →
    (levelUp h l)[i / 2]? =
      some (if i % 2 = 0 then h a (l.getD (i + 1) a) else h (l.getD (i - 1) a) a)
  | [], i, a, ha => by simp at ha
  | [b], 0, a, ha => by
      cases ha
      rfl
  | [b], i + 1, a, ha => by simp at ha
  | b :: c :: rest, 0, a, ha => by
      cases ha
      rfl
  | b :: c :: rest, 1, a, ha => by
      cases ha
      rfl
  | b :: c :: rest, i + 2, a, ha => by
      have hrest := getElem?_levelUp (l := rest) (i := i) ha
      rw [levelUp, Nat.add_div_right i Nat.two_pos, List.getElem?_cons_succ, hrest,
        Nat.add_mod_right]
      by_cases hpar : i % 2 = 0
      · rw [if_pos hpar, if_pos hpar]
        rfl
      · obtain ⟨j, rfl⟩ := Nat.exists_eq_succ_of_ne_zero (show i ≠ 0 by omega)
        rw [if_neg hpar, if_neg hpar]
        rfl

/-- **The branch of every index leads to the root.** -/
theorem levelRoot_eq_climb {l : List α} {i : ℕ} {a : α} (ha : l[i]? = some a) :
    levelRoot h l = some (climb h a (levelBranch h l i)) := by
  induction hn : l.length using Nat.strongRecOn generalizing l i a with
  | _ n ih =>
      obtain ⟨hi, hentry⟩ := List.getElem?_eq_some_iff.mp ha
      rw [levelRoot, levelBranch]
      by_cases hone : l.length ≤ 1
      · obtain rfl : i = 0 := by omega
        rw [dif_pos hone, dif_pos hone, List.head?_eq_getElem?, ha]
        rfl
      · have hshorter : (levelUp h l).length < n := by
          rw [length_levelUp]
          omega
        rw [dif_neg hone, dif_neg hone, ha, ih _ hshorter (getElem?_levelUp ha) rfl]
        by_cases hpar : i % 2 = 0
        · simp [climb, hpar]
        · simp [climb, hpar]

theorem length_levelBranch_le {n : ℕ} {l : List α} (hl : l.length ≤ 2 ^ n) (i : ℕ) :
    (levelBranch h l i).length ≤ n := by
  induction n generalizing l i with
  | zero =>
      rw [levelBranch, dif_pos (by simpa using hl)]
      exact Nat.le_refl 0
  | succ n ih =>
      rw [levelBranch]
      split
      · exact Nat.zero_le _
      · split
        · exact Nat.zero_le _
        · refine Nat.succ_le_succ (ih ?_ (i / 2))
          rw [length_levelUp]
          rw [Nat.pow_succ] at hl
          omega

/-! ## Nodes by their depth -/

section
variable (h)

/-- The level that is `k` above the leaves. -/
def levelAt (l : List α) (k : ℕ) : List α := (levelUp h)^[k] l

/-- The number of levels above the leaves. -/
def treeHeight (l : List α) : ℕ := Nat.clog 2 l.length

/-- A value of the level that is `d` below the root. -/
def NodeAt (l : List α) (d : ℕ) (a : α) : Prop :=
  d ≤ treeHeight l ∧ a ∈ levelAt h l (treeHeight l - d)

end

theorem levelAt_succ (l : List α) (k : ℕ) : levelAt h l (k + 1) = levelUp h (levelAt h l k) :=
  Function.iterate_succ_apply' ..

/-- The root is the one value of the highest level. -/
theorem levelAt_treeHeight {l : List α} {root : α} (hroot : levelRoot h l = some root) :
    levelAt h l (treeHeight l) = [root] := by
  induction hn : l.length using Nat.strongRecOn generalizing l with
  | _ n ih =>
      rw [levelRoot] at hroot
      by_cases hone : l.length ≤ 1
      · rw [dif_pos hone] at hroot
        rw [treeHeight, Nat.clog_of_right_le_one hone]
        obtain ⟨rest, rfl⟩ := List.head?_eq_some_iff.mp hroot
        rw [List.length_cons] at hone
        rw [List.length_eq_zero_iff.mp (show rest.length = 0 by omega)]
        rfl
      · rw [dif_neg hone] at hroot
        have hheight : treeHeight l = treeHeight (levelUp h l) + 1 := by
          rw [treeHeight, treeHeight, Nat.clog_of_two_le (by omega) (by omega), length_levelUp]
          rfl
        rw [hheight, levelAt, Function.iterate_succ_apply]
        exact ih _ (by rw [length_levelUp]; omega) hroot rfl

/-! ## What a branch proves

The values are strings, and two of them are joined and hashed. -/

section
variable {β : Type} (hash : List β → List β)

/-- The hash of two strings after each other. -/
def joinHash (a b : List β) : List β := hash (a ++ b)

/-- The strings that are hashed for the level above. -/
def joins : List (List β) → List (List β)
  | a :: b :: rest => (a ++ b) :: joins rest
  | [a] => [a ++ a]
  | [] => []

def levelInputs (l : List (List β)) (k : ℕ) : List (List β) := joins (levelAt (joinHash hash) l k)

/-- What one step of a fold hashes. -/
def joinSide (a : List β) (s : List β × Bool) : List β := if s.2 then a ++ s.1 else s.1 ++ a

def climbInputs : List β → List (List β × Bool) → List (List β)
  | _, [] => []
  | a, s :: branch => joinSide a s :: climbInputs (hash (joinSide a s)) branch

variable {hash}

theorem climb_cons (a : List β) (s : List β × Bool) (branch : List (List β × Bool)) :
    climb (joinHash hash) a (s :: branch) = climb (joinHash hash) (hash (joinSide a s)) branch := by
  obtain ⟨b, flag⟩ := s
  cases flag <;> rfl

theorem levelUp_joinHash : ∀ l : List (List β), levelUp (joinHash hash) l = (joins l).map hash
  | a :: b :: rest => by
      rw [levelUp, levelUp_joinHash rest]
      rfl
  | [_] => rfl
  | [] => rfl

theorem exists_of_mem_joins {x : List β} : ∀ {l : List (List β)}, x ∈ joins l →
    ∃ a ∈ l, ∃ b ∈ l, x = a ++ b
  | a :: b :: rest, hx => by
      rcases List.mem_cons.mp hx with rfl | hx
      · exact ⟨a, List.mem_cons_self, b, List.mem_cons_of_mem _ List.mem_cons_self, rfl⟩
      · obtain ⟨c, hc, d, hd, rfl⟩ := exists_of_mem_joins hx
        exact ⟨c, List.mem_cons_of_mem _ (List.mem_cons_of_mem _ hc), d,
          List.mem_cons_of_mem _ (List.mem_cons_of_mem _ hd), rfl⟩
  | [a], hx => by
      rw [List.mem_singleton.mp hx]
      exact ⟨a, List.mem_cons_self, a, List.mem_cons_self, rfl⟩

section
variable {w : ℕ} {l : List (List β)}

/-- Every value of the tree has the width of the hash. -/
theorem length_of_mem_levelAt (hwidth : ∀ x, (hash x).length = w) (hl : ∀ a ∈ l, a.length = w)
    {k : ℕ} {a : List β} (ha : a ∈ levelAt (joinHash hash) l k) : a.length = w := by
  cases k with
  | zero => exact hl a ha
  | succ k =>
      rw [levelAt_succ, levelUp_joinHash, List.mem_map] at ha
      obtain ⟨x, -, rfl⟩ := ha
      exact hwidth x

/-- Where two strings of the tree were joined, one length settles both parts. -/
theorem joinSide_binds {a b c : List β} {s : List β × Bool} (hb : b.length = w)
    (hc : c.length = w) (heq : joinSide a s = b ++ c) (hlength : a.length = w ∨ s.1.length = w) :
    (a = b ∨ a = c) ∧ s.1.length = w := by
  have htotal := congrArg List.length heq
  obtain ⟨t, flag⟩ := s
  cases flag with
  | true =>
      simp only [joinSide, if_true, List.length_append] at heq htotal hlength ⊢
      obtain ⟨rfl, rfl⟩ := List.append_inj heq (by omega)
      exact ⟨.inl rfl, hc⟩
  | false =>
      simp only [joinSide, Bool.false_eq_true, if_false, List.length_append] at heq htotal hlength ⊢
      obtain ⟨rfl, rfl⟩ := List.append_inj heq (by omega)
      exact ⟨.inr rfl, hb⟩

/-- **A fold that reaches a value of the tree started at a value of it**, as many levels below as
the branch is long, if the value it started at or all siblings have the width of the hash, and
no string that it hashed collides with one that the tree hashed. -/
theorem climb_binds (hwidth : ∀ x, (hash x).length = w) (hl : ∀ a ∈ l, a.length = w) :
    ∀ {branch : List (List β × Bool)} {a : List β} {k : ℕ},
      climb (joinHash hash) a branch ∈ levelAt (joinHash hash) l (k + branch.length) →
      (∀ x ∈ climbInputs hash a branch, ∀ j < k + branch.length, ∀ y ∈ levelInputs hash l j,
        hash x = hash y → x = y) →
      (a.length = w ∨ ∀ s ∈ branch, s.1.length = w) →
        a ∈ levelAt (joinHash hash) l k ∧ ∀ s ∈ branch, s.1.length = w := by
  intro branch
  induction branch with
  | nil =>
      intro a k hnode _ _
      refine ⟨hnode, fun s hs => ?_⟩
      cases hs
  | cons s branch ih =>
      intro a k hnode hfree hlength
      rw [climb_cons] at hnode
      rw [List.length_cons] at hnode hfree
      have hlevel : k + (branch.length + 1) = k + 1 + branch.length := by omega
      rw [hlevel] at hnode hfree
      obtain ⟨habove, hsiblings⟩ := ih hnode
        (fun x hx => hfree x (List.mem_cons_of_mem _ hx)) (.inl (hwidth _))
      -- the value above is the hash of two values of the level, which are what was joined
      rw [levelAt_succ, levelUp_joinHash, List.mem_map] at habove
      obtain ⟨x, hx, hhash⟩ := habove
      have hjoined := hfree _ List.mem_cons_self k (by omega) x hx hhash.symm
      obtain ⟨b, hb, c, hc, rfl⟩ := exists_of_mem_joins hx
      obtain ⟨hside, hwidths⟩ := joinSide_binds (length_of_mem_levelAt hwidth hl hb)
        (length_of_mem_levelAt hwidth hl hc) hjoined
        (hlength.imp_right fun hall => hall s List.mem_cons_self)
      refine ⟨?_, ?_⟩
      · rcases hside with rfl | rfl
        · exact hb
        · exact hc
      · intro s' hs'
        rcases List.mem_cons.mp hs' with rfl | hs'
        · exact hwidths
        · exact hsiblings s' hs'

end

end

end BhtBhte.Lib
